import FtsUring.BTree.Insert
import FtsUring.Storage.PoolLifecycle

/-!
# The B-tree is a finite map

Any sequence of insertions of new keys, updates and searches on a new tree behaves as on a map
from keys to pairs of a page id and a slot id, over any buffer pool that has frames for the two
pages of a split, as long as the page counter names a free page at every split.

The bound on the pool is below `2 ^ 31` frames: with `2 ^ 31` of them the clock scan makes
`pool_size * 2 = 0` attempts, and no page can be pinned.
-/

namespace FtsUring

open Foundation

/-! ## Specification -/

/-- The calls that change a tree. -/
inductive TreeOp
  | insert (entry : BTreeLeafEntry) (txnId : UInt32)
  | update (entry : BTreeLeafEntry)

/-- The entry that a call is about. -/
def TreeOp.entry : TreeOp → BTreeLeafEntry
  | .insert entry _ => entry
  | .update entry => entry

/-- Make a call. -/
def TreeOp.run (root : ℕ) : TreeOp → PageProgram Bool
  | .insert entry txnId => btreeInsert root entry.key entry.pageId entry.slotId txnId
  | .update entry => btreeUpdate root entry.key entry.pageId entry.slotId

/-- Make calls one after the other. -/
def runTreeOps (root : ℕ) : List TreeOp → PageProgram (List Bool)
  | [] => return []
  | op :: ops => do
    let answer ← op.run root
    let answers ← runTreeOps root ops
    return answer :: answers

/-- The finite map that a tree stands for. -/
abbrev TreeMap : Type := UInt64 → Option (UInt32 × UInt16)

namespace TreeMap

/-- No key is present. -/
def empty : TreeMap := fun _ => none

/-- Assign a key. -/
def assign (map : TreeMap) (entry : BTreeLeafEntry) : TreeMap :=
  Function.update map entry.key (some (entry.pageId, entry.slotId))

/-- An insertion succeeds, an update succeeds if the key is present. -/
def answer (map : TreeMap) : TreeOp → Bool
  | .insert _ _ => true
  | .update entry => (map entry.key).isSome

/-- The map after a call: a failed update changes nothing. -/
def step (map : TreeMap) (op : TreeOp) : TreeMap :=
  if map.answer op then map.assign op.entry else map

/-- The answers to a sequence of calls. -/
def answers (map : TreeMap) : List TreeOp → List Bool
  | [] => []
  | op :: ops => map.answer op :: (map.step op).answers ops

/-- Only new keys are inserted. -/
def Admits (map : TreeMap) : List TreeOp → Prop
  | [] => True
  | op :: ops =>
    (match op with
      | .insert entry _ => map entry.key = none
      | .update _ => True) ∧ (map.step op).Admits ops

end TreeMap

/-! ## The leaves during a run -/

namespace LeafPages

/-- The map that a chain of leaves stands for. -/
def toMap (chain : LeafPages) : TreeMap :=
  fun key => (chain.lookup key).map fun entry => (entry.pageId, entry.slotId)

/-- Whether a call takes a page. -/
def takesPage (chain : LeafPages) : TreeOp → Bool
  | .insert entry _ => chain.splits entry.key
  | .update _ => false

/-- The chain after a call that finds the page counter at `newId`. -/
def step (chain : LeafPages) (newId : ℕ) : TreeOp → LeafPages
  | .insert entry _ => chain.insert newId entry
  | .update entry => chain.update entry

/-- Whenever a call takes a page, the counter names a valid page that is not a leaf. -/
def PagesFit (chain : LeafPages) (nextPageId : ℕ) : List TreeOp → Prop
  | [] => True
  | op :: ops =>
    (chain.takesPage op → nextPageId < invalidPageId ∧ nextPageId ∉ chain.ids) ∧
      (chain.step nextPageId op).PagesFit (nextPageId + (chain.takesPage op).toNat) ops

/-- The map after an update. -/
theorem toMap_update (chain : LeafPages) (entry : BTreeLeafEntry) :
    (chain.update entry).toMap =
      if (chain.toMap entry.key).isSome then chain.toMap.assign entry else chain.toMap := by
  cases hfound : chain.lookup entry.key with
  | none =>
    rw [toMap, hfound]
    have hsame : chain.update entry = chain := LeafChain.update_of_absent _ hfound
    rw [hsame]
    rfl
  | some old =>
    have hpresent : (chain.toMap entry.key).isSome := by
      rw [toMap, hfound]
      rfl
    have hne : chain.lookup entry.key ≠ none := by
      rw [hfound]
      exact Option.some_ne_none old
    rw [if_pos hpresent]
    funext key
    rw [toMap, lookup, LeafPages.update, LeafChain.lookup_update _ hne, TreeMap.assign,
      Function.update_apply, Function.update_apply]
    split_ifs <;> rfl

/-- The map after the insertion of a new key. -/
theorem toMap_insert {chain : LeafPages} (hdistinct : LeafChain.Distinct BTreeLeafEntry.key chain)
    (hne : chain ≠ []) (newId : ℕ) {entry : BTreeLeafEntry} (habsent : chain.lookup entry.key = none) :
    (chain.insert newId entry).toMap = chain.toMap.assign entry := by
  funext key
  rw [toMap, lookup, LeafPages.insert, LeafChain.lookup_insert _ _ _ hdistinct hne habsent,
    TreeMap.assign, Function.update_apply, Function.update_apply]
  split_ifs <;> rfl

/-- A call adds no leaf, or the one that the page counter names. -/
theorem perm_ids_step (chain : LeafPages) (newId : ℕ) (op : TreeOp) :
    (chain.step newId op).ids.Perm (if chain.takesPage op then newId :: chain.ids else chain.ids) := by
  cases op with
  | insert entry txnId => exact LeafChain.perm_ids_insert _ _ newId entry chain
  | update entry =>
    rw [takesPage, if_neg Bool.false_ne_true, step]
    exact .of_eq (LeafChain.ids_update _ entry chain)

/-- A page counter above the ids of all leaves names free pages as long as it does not run out. -/
theorem pagesFit_of_lt {chain : LeafPages} {nextPageId : ℕ} {ops : List TreeOp}
    (hids : ∀ id ∈ chain.ids, id < nextPageId) (hroom : nextPageId + ops.length ≤ invalidPageId) :
    chain.PagesFit nextPageId ops := by
  induction ops generalizing chain nextPageId with
  | nil => trivial
  | cons op ops ih =>
    rw [List.length_cons] at hroom
    refine ⟨fun _ => ⟨by omega, fun hmem => lt_irrefl _ (hids _ hmem)⟩, ih (fun id hid => ?_) ?_⟩
    · rw [(perm_ids_step chain nextPageId op).mem_iff] at hid
      split_ifs at hid with htakes
      · rw [htakes, Bool.toNat_true]
        obtain rfl | hid := List.mem_cons.mp hid
        · exact Nat.lt_succ_self id
        · exact (hids id hid).trans (Nat.lt_succ_self _)
      · exact (hids id hid).trans_le (Nat.le_add_right _ _)
    · have hone := Bool.toNat_le (chain.takesPage op)
      omega

end LeafPages

/-! ## Runs on the array -/

/-- A new tree is one empty leaf. The page of the root must be available. -/
theorem ensures_btreeInit_fetchable {s : PageArray} (hsettled : s.touched = ∅) {root : ℕ}
    (hfetch : s.Fetchable root) {page : Page} (hholds : s.Holds root page)
    (hleaf : page.pageType ≠ PageType.btreeLeaf.code) (hinternal : page.pageType ≠ PageType.btreeInternal.code) :
    arrayHandler.Ensures (btreeInit root) s fun _ t => TreeAt t root [(root, [])] ∧ t.pins = s.pins ∧
      t.room = s.room ∧ t.touched = ∅ ∧ t.nextPageId = s.nextPageId ∧
      (root < s.extent → s.Settles t {root}) := by
  set formatted := slottedPageComputeChecksum
    ((slottedPageInit root .btreeLeaf).setNextLeafId invalidPageId)
  have hmem : root ∈ ((s.pin root).change root formatted).pins := List.mem_cons_self
  have hextent : root < ((s.pin root).change root formatted).extent :=
    lt_of_lt_of_le (Nat.lt_succ_self root) (le_max_right _ _)
  have hpins : (((s.pin root).change root formatted).unpin root true).pins = s.pins :=
    List.erase_cons_head _ _
  have htouched : (((s.pin root).change root formatted).unpin root true).touched = s.touched := by
    change insert root s.touched \ {root} = s.touched
    rw [hsettled, Set.insert_sdiff_of_mem _ (Set.mem_singleton root), Set.empty_sdiff]
  rw [btreeInit]
  refine .step (PageArray.exec_fetchPage hfetch) ?_
  rw [if_pos rfl]
  refine .step (PageArray.exec_pageData (s.mem_pins_pin root) hholds) ?_
  rw [if_pos ⟨hleaf, hinternal⟩]
  refine .step (PageArray.exec_modifyPage_of_holds (s.mem_pins_pin root) hholds _) ?_
  refine .of_exec (PageArray.exec_unpinPage hmem (fun _ => rfl) (fun _ => hextent) .normal) ?_
  refine ⟨⟨⟨⟨hextent, hfetch.1, formatted, ?_, ?_⟩, trivial⟩, rfl, List.nodup_singleton root,
    List.nodup_nil⟩, hpins, rfl, htouched.trans hsettled, rfl, ?_⟩
  · exact (s.pin root).content_change_self root formatted
  · exact (IsLeaf.init root (by decide)).sameBody (Page.sameBody_computeChecksum _)
  · intro hwritten
    refine ⟨?_, hpins, htouched⟩
    exact (((PageArray.Evolves.refl s _).pin root).change hwritten (Set.mem_singleton root)
      formatted).unpin root true

/-- In an idle array the page of the root is available. -/
theorem ensures_btreeInit {s : PageArray} (hidle : s.Idle) {root : ℕ} (hvalid : root < invalidPageId)
    {page : Page} (hholds : s.Holds root page) (hleaf : page.pageType ≠ PageType.btreeLeaf.code)
    (hinternal : page.pageType ≠ PageType.btreeInternal.code) :
    arrayHandler.Ensures (btreeInit root) s fun _ t => TreeAt t root [(root, [])] ∧ t.Idle ∧
      t.nextPageId = s.nextPageId ∧ (root < s.extent → s.Settles t {root}) := by
  refine (ensures_btreeInit_fetchable hidle.touched (hidle.fetchable hvalid) hholds hleaf hinternal).mono ?_
  rintro - t ⟨htree, hpins, hroom, htouched, hcounter, hsettles⟩
  exact ⟨htree, hidle.of_pins hpins hroom htouched, hcounter, hsettles⟩

/-- A run of calls on the tree. -/
theorem ensures_runTreeOps {s : PageArray} {root : ℕ} {chain : LeafPages} (hidle : s.Idle)
    (htree : TreeAt s root chain) {ops : List TreeOp} (hadmits : chain.toMap.Admits ops)
    (hpages : chain.PagesFit s.nextPageId ops) :
    arrayHandler.Ensures (runTreeOps root ops) s fun answers t =>
      answers = chain.toMap.answers ops ∧ t.Idle ∧
        ∃ chain' : LeafPages, TreeAt t root chain' ∧
          chain'.toMap = ops.foldl TreeMap.step chain.toMap := by
  induction ops generalizing s chain with
  | nil => exact .pure ⟨rfl, hidle, chain, htree, rfl⟩
  | cons op ops ih =>
    obtain ⟨hop, hadmits⟩ := hadmits
    obtain ⟨htake, hpages⟩ := hpages
    have hstep : arrayHandler.Ensures (op.run root) s fun answer t =>
        answer = chain.toMap.answer op ∧ t.Idle ∧ TreeAt t root (chain.step s.nextPageId op) ∧
          t.nextPageId = s.nextPageId + (chain.takesPage op).toNat ∧
          (chain.step s.nextPageId op).toMap = chain.toMap.step op := by
      cases op with
      | insert entry txnId =>
        have habsent : chain.lookup entry.key = none := Option.map_eq_none_iff.mp hop
        refine (htree.ensures_btreeInsert hidle habsent htake txnId).mono ?_
        rintro answer t ⟨rfl, htree', hsettles, hcounter⟩
        exact ⟨rfl, hsettles.idle hidle, htree', hcounter,
          LeafPages.toMap_insert htree.distinct htree.ne_nil _ habsent⟩
      | update entry =>
        refine (htree.ensures_btreeUpdate hidle entry).mono ?_
        rintro answer t ⟨rfl, htree', -, hsettles, hcounter⟩
        refine ⟨?_, hsettles.idle hidle, htree', hcounter, chain.toMap_update entry⟩
        rw [TreeMap.answer, LeafPages.toMap, Option.isSome_map]
    rw [runTreeOps]
    refine hstep.bind ?_
    rintro answer t ⟨rfl, hidle', htree', hcounter, hmap⟩
    rw [← hmap] at hadmits
    rw [← hcounter] at hpages
    refine (ih hidle' htree' hadmits hpages).bind ?_
    rintro answers u ⟨rfl, hidle'', chain', htree'', hmap'⟩
    refine .pure ⟨?_, hidle'', chain', htree'', ?_⟩
    · rw [TreeMap.answers, hmap]
    · rw [List.foldl_cons, hmap', hmap]

/-! ## Runs on a pool -/

/-- On a machine on which some pages are pinned, a new tree answers a sequence of calls as the
empty map does, and every search then finds what the map holds. -/
def TreeRefinesMap (m : Machine) (held : List ℕ) (root : ℕ) (ops : List TreeOp) : Prop :=
  ∃ m', poolHandler.exec (do pinPages held; btreeInit root; runTreeOps root ops) m =
      some (TreeMap.empty.answers ops, m') ∧
    ∀ key, ∃ m'', poolHandler.exec (btreeSearch root key) m' =
      some ((ops.foldl TreeMap.step .empty key).map fun value => (value.1.toNat, value.2.toNat), m'')

/-- A new tree in a new pool in which some pages were pinned. -/
theorem ensures_newTree {host : Host} (wal : Option WALManager) {poolSize : ℕ} {held : List ℕ}
    (hheld : ∀ pageId ∈ held, pageId < invalidPageId)
    (hframes : held.dedup.length + 2 ≤ poolSize) (hpins : held.length + 2 < 2 ^ 32)
    {root nextPageId : ℕ} (hroot : root < invalidPageId)
    (hnew : (host.diskPage root).pageType ≠ PageType.btreeLeaf.code ∧
      (host.diskPage root).pageType ≠ PageType.btreeInternal.code) :
    arrayHandler.Ensures (do pinPages held; btreeInit root) (PageArray.ofHost host wal poolSize nextPageId)
      fun _ t => TreeAt t root [(root, [])] ∧ t.Idle ∧ t.nextPageId = nextPageId := by
  set start := PageArray.ofHost host wal poolSize nextPageId
  set pinned : PageArray := { start with pins := held.reverse ++ start.pins }
  have hdedup : (held.reverse ++ start.pins).dedup.length = held.dedup.length := by
    have hnil : start.pins = [] := rfl
    rw [hnil, List.append_nil, ← List.card_toFinset, ← List.card_toFinset,
      List.toFinset_reverse]
  have hlength : (held.reverse ++ start.pins).length = held.length := by
    have hnil : start.pins = [] := rfl
    rw [hnil, List.append_nil, List.length_reverse]
  have hroom : start.room = poolSize := rfl
  have hpinned : arrayHandler.exec (pinPages held) start = some ((), pinned) := by
    refine exec_pinPages hheld (by omega) ?_
    rw [List.length_append, List.length_reverse] at hlength
    omega
  have hidle : pinned.Idle :=
    ⟨rfl, by rw [hdedup]; exact hframes, by rw [hlength]; exact hpins⟩
  have hholds : pinned.Holds root (host.diskPage root) := rfl
  refine .step hpinned ((ensures_btreeInit hidle hroot hholds hnew.1 hnew.2).mono ?_)
  rintro - t ⟨htree, hidle', hcounter, -⟩
  exact ⟨htree, hidle', hcounter⟩

/-- The B-tree is a finite map, over every pool of fewer than `2 ^ 31` frames of which two are
available. -/
theorem treeRefinesMap {host : Host} (hfree : host.FaultFree) {diskFd : ℤ} (hopen : 0 ≤ diskFd)
    (wal : Option WALManager) {poolSize : ℕ} (hsmall : poolSize < 2 ^ 31) {held : List ℕ}
    (hheld : ∀ pageId ∈ held, pageId < invalidPageId)
    (hframes : held.dedup.length + 2 ≤ poolSize) (hpins : held.length + 2 < 2 ^ 32)
    {root nextPageId : ℕ} (hroot : root < invalidPageId) (hcounter : nextPageId < 2 ^ 32)
    (hnew : (host.diskPage root).pageType ≠ PageType.btreeLeaf.code ∧
      (host.diskPage root).pageType ≠ PageType.btreeInternal.code)
    {ops : List TreeOp} (hadmits : TreeMap.empty.Admits ops)
    (hpages : LeafPages.PagesFit [(root, [])] nextPageId ops) :
    TreeRefinesMap ⟨bufferPoolInit diskFd wal host poolSize, nextPageId⟩ held root ops := by
  have hstart : Represents ⟨bufferPoolInit diskFd wal host poolSize, nextPageId⟩
      (PageArray.ofHost host wal poolSize nextPageId) :=
    represents_bufferPoolInit hfree hopen wal hsmall (le_refl _) hcounter
  have hempty : LeafPages.toMap [(root, [])] = TreeMap.empty := rfl
  rw [← hempty] at hadmits
  have hrun : arrayHandler.Ensures (do pinPages held; btreeInit root; runTreeOps root ops)
      (PageArray.ofHost host wal poolSize nextPageId) fun answers t =>
        answers = TreeMap.empty.answers ops ∧ t.Idle ∧
          ∃ chain : LeafPages, TreeAt t root chain ∧ chain.toMap = ops.foldl TreeMap.step .empty := by
    rw [← bind_assoc]
    refine (ensures_newTree wal hheld hframes hpins hroot hnew).bind ?_
    rintro - t ⟨htree, hidle, hcounter'⟩
    rw [← hcounter'] at hpages
    exact ensures_runTreeOps hidle htree hadmits hpages
  obtain ⟨answers, t, hexec, rfl, hidle', chain, htree, hmap⟩ := hrun
  obtain ⟨m', hexec', hend⟩ := poolHandler_simulates.exec hstart hexec
  refine ⟨m', hexec', fun key => ?_⟩
  obtain ⟨m'', hsearch, -⟩ := poolHandler_simulates.exec hend (htree.exec_btreeSearch hidle' key)
  refine ⟨m'', ?_⟩
  rw [hsearch, ← hmap, LeafPages.toMap, Option.map_map]
  rfl

/-- The key that a call inserts. -/
def TreeOp.insertedKey : TreeOp → Option UInt64
  | .insert entry _ => some entry.key
  | .update _ => none

/-- Keys that are not present are inserted once each. -/
theorem TreeMap.admits_of_nodup {map : TreeMap} {ops : List TreeOp}
    (habsent : ∀ key ∈ ops.filterMap TreeOp.insertedKey, map key = none)
    (hnodup : (ops.filterMap TreeOp.insertedKey).Nodup) : map.Admits ops := by
  induction ops generalizing map with
  | nil => trivial
  | cons op ops ih =>
    cases op with
    | insert entry txnId =>
      have hkeys : (TreeOp.insert entry txnId :: ops).filterMap TreeOp.insertedKey =
          entry.key :: ops.filterMap TreeOp.insertedKey := rfl
      rw [hkeys] at habsent hnodup
      obtain ⟨hfirst, hrest⟩ := List.nodup_cons.mp hnodup
      refine ⟨habsent _ List.mem_cons_self, ih (fun key hkey => ?_) hrest⟩
      have hne : key ≠ entry.key := fun heq => hfirst (heq ▸ hkey)
      have hstep : map.step (.insert entry txnId) = map.assign entry := rfl
      rw [hstep, TreeMap.assign, Function.update_of_ne hne]
      exact habsent key (List.mem_cons_of_mem _ hkey)
    | update entry =>
      refine ⟨trivial, ih (fun key hkey => ?_) hnodup⟩
      have hnone : map key = none := habsent key hkey
      have hstep : map.step (.update entry) = if (map entry.key).isSome then map.assign entry else map := rfl
      rw [hstep]
      split_ifs with hpresent
      · have hne : key ≠ entry.key := by
          rintro rfl
          rw [hnone] at hpresent
          exact absurd hpresent (by decide)
        rw [TreeMap.assign, Function.update_of_ne hne, hnone]
      · exact hnone

/-- A new database has no page of a tree. -/
theorem pageType_empty : (Host.empty.diskPage 0).pageType = PageType.row.code := by
  have hdisk : Host.empty.diskPage 0 = slottedPageInit 0 .row :=
    Host.diskPage_of_not_stores (by simp [Host.Stores, Host.empty, pageSize])
  rw [hdisk]
  exact (slottedPageInit_fields 0 .row).1

/-- The keys 0 to 250, one more than a leaf has room for, and updates of a key and of a missing key. -/
def splittingOps : List TreeOp :=
  (List.range 251).map (fun i => .insert ⟨UInt64.ofNat i, 3, 1⟩ 0) ++
    [.update ⟨7, 4, 2⟩, .update ⟨300, 5, 0⟩]

/-- A new tree in a pool of two frames, whose root is split. -/
theorem treeRefinesMap_split :
    TreeRefinesMap ⟨bufferPoolInit 0 none Host.empty 2, 1⟩ [] 0 splittingOps := by
  refine treeRefinesMap ⟨rfl, rfl, rfl, rfl⟩ (le_refl 0) none (by decide) (by simp) (by decide)
    (by decide) (by decide) (by decide) ?_ (TreeMap.admits_of_nodup (fun _ _ => rfl) ?_)
    (LeafPages.pagesFit_of_lt ?_ ?_)
  · rw [pageType_empty]
    decide
  · decide +kernel
  · intro id hid
    obtain rfl := List.mem_singleton.mp hid
    exact Nat.zero_lt_one
  · decide +kernel

/-- In a pool that the clock scan does not cover the first insertion fails. -/
theorem not_treeRefinesMap_of_no_attempts {poolSize : ℕ} (hattempts : clockAttempts poolSize = 0) :
    ¬TreeRefinesMap ⟨bufferPoolInit 0 none Host.empty poolSize, 1⟩ [] 0 [.insert ⟨7, 3, 1⟩ 0] := by
  set m : Machine := ⟨bufferPoolInit 0 none Host.empty poolSize, 1⟩
  have hfetch : poolHandler.exec (fetchPage 0) m = some (false, m) :=
    exec_fetchPage_of_no_attempts hattempts 0 none Host.empty 1 (by decide)
  have hinit : poolHandler.exec (btreeInit 0) m = some ((), m) := by
    rw [btreeInit, Handler.exec_bind_of_eq _ hfetch]
    rfl
  have hinsert : poolHandler.exec (btreeInsert 0 7 3 1 0) m = some (false, m) := by
    rw [btreeInsert, Handler.exec_bind_of_eq _ hfetch]
    rfl
  have hops : poolHandler.exec (runTreeOps 0 [.insert ⟨7, 3, 1⟩ 0]) m = some ([false], m) := by
    rw [runTreeOps]
    exact Handler.exec_bind_of_eq _ hinsert _
  rintro ⟨m', hexec, -⟩
  rw [pinPages, pure_bind, Handler.exec_bind_of_eq _ hinit, hops, Option.some.injEq,
    Prod.mk.injEq] at hexec
  exact absurd hexec.1 (by decide)

/-- In a pool of `2 ^ 31` frames the first insertion fails. -/
theorem not_treeRefinesMap_two_pow :
    ¬TreeRefinesMap ⟨bufferPoolInit 0 none Host.empty (2 ^ 31), 1⟩ [] 0 [.insert ⟨7, 3, 1⟩ 0] :=
  not_treeRefinesMap_of_no_attempts clockAttempts_two_pow

end FtsUring
