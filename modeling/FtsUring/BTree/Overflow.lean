import FtsUring.BTree.Balance
import FtsUring.Storage.FullPool

/-!
# Insertions into the B-tree when frames are short

The frames of the pool are shared: other users hold pins, and an insertion may find no frame for a page. The
walk then fails and changes nothing. A split that finds a frame for the full leaf but none for the new page
goes unnoticed: the entry is inserted into the full leaf.
-/

namespace FtsUring

open Foundation

/-! ## The walk -/

/-- The walk from a pinned leaf ends at the pinned leaf that the key belongs to, or at a page that no frame is
free for, and then nothing is changed. -/
theorem ensures_btreeMoveRight_bounded {s : PageArray} (hsettled : s.touched = ∅)
    (hlimit : s.pins.length + 1 < 2 ^ 32) {chain : LeafPages} (hne : chain ≠ [])
    (hleaves : LeavesAt s invalidPageId chain) (havailable : s.Available (chain.firstId invalidPageId))
    (key : UInt64) {fuel : ℕ} (hfuel : chain.length ≤ fuel) :
    boundedHandler.Ensures (btreeMoveRight key fuel (chain.firstId invalidPageId))
      (s.pin (chain.firstId invalidPageId)) fun target t =>
        (target = none ∧ t = s ∧ s.room ≤ s.pins.dedup.length) ∨
          ∃ before id leaf rest, chain.Target key before id leaf rest ∧ target = some id ∧ t = s.pin id ∧
            s.Available id := by
  induction chain generalizing fuel with
  | nil => exact absurd rfl hne
  | cons first rest ih =>
    obtain ⟨id, leaf⟩ := first
    obtain ⟨⟨hextent, hvalid, page, hholds, hleaf⟩, hrest⟩ := hleaves
    have hbelongs := hrest.belongsRight_iff hleaf key
    cases fuel with
    | zero => exact absurd hfuel (Nat.not_succ_le_zero _)
    | succ fuel =>
      rw [LeafPages.firstId, btreeMoveRight]
      refine .step (exec_bounded (PageArray.exec_pageData (s.mem_pins_pin id) hholds)) ?_
      by_cases hright : rest ≠ [] ∧ LeafChain.Below BTreeLeafEntry.key leaf key
      · have hvalidNext := hrest.firstId_valid hright.1
        rw [if_pos (hbelongs.mpr hright), hleaf.nextLeafId]
        refine .step (exec_bounded (PageArray.exec_unpinPage_read hsettled id .normal)) ?_
        by_cases hnext : s.Available (LeafPages.firstId invalidPageId rest)
        · refine .step (PageArray.exec_fetchPage_available hvalidNext hlimit hnext) ?_
          simp only [Bool.not_true, Bool.false_eq_true, if_false]
          refine (ih hright.1 hrest hnext (Nat.le_of_succ_le_succ hfuel)).mono ?_
          rintro target t (hfailed | ⟨before, found, foundLeaf, behind, htarget, hresult⟩)
          · exact .inl hfailed
          · exact .inr ⟨_, found, foundLeaf, behind, .there hright htarget, hresult⟩
        · refine .step (PageArray.exec_fetchPage_refused hvalidNext hlimit hnext) ?_
          rw [PageArray.Available, not_or, not_lt] at hnext
          exact .pure (.inl ⟨rfl, rfl, hnext.2⟩)
      · rw [if_neg fun h => hright (hbelongs.mp h)]
        exact .pure (.inr ⟨[], id, leaf, rest, .here hright, rfl, rfl, havailable⟩)

/-! ## Updates and insertions -/

/-- An update assigns the entry, or it fails and changes nothing. -/
theorem ensures_btreeUpdateFrom_bounded {s : PageArray} (hsettled : s.touched = ∅)
    (hlimit : s.pins.length + 1 < 2 ^ 32) {chain : LeafPages} (hleaves : LeavesAt s invalidPageId chain)
    (hnodup : chain.ids.Nodup) (entry : BTreeLeafEntry) {fuel : ℕ} (hfuel : chain.length < fuel) :
    boundedHandler.Ensures
      (btreeUpdateFrom entry.key entry.pageId entry.slotId fuel (chain.firstId invalidPageId)) s
      fun _ t => t = s ∨ (LeavesAt t invalidPageId (chain.update entry) ∧ s.Settles t {id | id ∈ chain.ids} ∧
        t.nextPageId = s.nextPageId) := by
  induction chain generalizing fuel with
  | nil =>
    cases fuel with
    | zero => exact absurd hfuel (Nat.not_lt_zero _)
    | succ fuel =>
      rw [LeafPages.firstId, btreeUpdateFrom, if_pos rfl]
      exact .pure (.inl rfl)
  | cons first rest ih =>
    obtain ⟨id, leaf⟩ := first
    obtain ⟨⟨hextent, hvalid, page, hholds, hleaf⟩, hrest⟩ := hleaves
    rw [LeafChain.ids_cons, List.nodup_cons] at hnodup
    cases fuel with
    | zero => exact absurd hfuel (Nat.not_lt_zero _)
    | succ fuel =>
      rw [LeafPages.firstId, btreeUpdateFrom, if_neg hvalid.ne]
      by_cases havailable : s.Available id
      swap
      · exact .step (PageArray.exec_fetchPage_refused hvalid hlimit havailable) (.pure (.inl rfl))
      refine .step (PageArray.exec_fetchPage_available hvalid hlimit havailable) ?_
      simp only [Bool.not_true, Bool.false_eq_true, if_false]
      refine .step (exec_bounded (PageArray.exec_pageData (s.mem_pins_pin id) hholds)) ?_
      rw [if_pos hleaf.pageType, hleaf.leafEntries, hleaf.nextLeafId]
      simp only [LeafPages.update, LeafChain.update]
      cases hfound : leaf.findIdx? fun other => other.key = entry.key with
      | none =>
        refine .step (exec_bounded (PageArray.exec_unpinPage_read hsettled id .normal))
          ((ih hrest hnodup.2 (Nat.lt_of_succ_lt_succ hfuel)).mono ?_)
        rintro - t (rfl | ⟨hchain, hsettles, hcounter⟩)
        · exact .inl rfl
        · have hnext : LeafPages.firstId invalidPageId (LeafChain.update BTreeLeafEntry.key entry rest) =
              LeafPages.firstId invalidPageId rest := by
            cases rest with
            | nil => rfl
            | cons second rest =>
              rw [LeafChain.update]
              split <;> rfl
          refine .inr ⟨⟨⟨?_, hvalid, page, ?_, ?_⟩, hchain⟩, hsettles.mono ?_, hcounter⟩
          · exact lt_of_lt_of_le hextent hsettles.evolves.extent
          · exact hsettles.evolves.holds hextent hnodup.1 hholds
          · rw [hnext]
            exact hleaf
          · exact fun other hother => List.mem_cons_of_mem id hother
      | some i =>
        obtain ⟨hi, -, -⟩ := List.findIdx?_eq_some_iff_getElem.mp hfound
        refine (Ensures.bounded (ensures_assignEntry hsettled hextent hholds hleaf hi entry)).mono ?_
        rintro - t ⟨-, page', hholds', hleaf', hsettles, hcounter⟩
        refine .inr ⟨⟨⟨?_, hvalid, page', hholds', hleaf'⟩, ?_⟩, hsettles.mono ?_, hcounter⟩
        · exact lt_of_lt_of_le hextent hsettles.evolves.extent
        · exact hrest.evolves hsettles.evolves fun other hother heq =>
            hnodup.1 (Set.mem_singleton_iff.mp heq ▸ hother)
        · rintro other rfl
          exact List.mem_cons_self

namespace TreeLinked

variable {s : PageArray} {root : ℕ} {chain : LeafPages}

/-- An update of the tree. -/
theorem ensures_btreeUpdate_bounded (h : TreeLinked s root chain) (hsettled : s.touched = ∅)
    (hlimit : s.pins.length + 1 < 2 ^ 32) (entry : BTreeLeafEntry) :
    boundedHandler.Ensures (btreeUpdate root entry.key entry.pageId entry.slotId) s
      fun _ t => t = s ∨ (TreeLinked t root (chain.update entry) ∧ s.Settles t {id | id ∈ chain.ids} ∧
        t.nextPageId = s.nextPageId) := by
  rw [btreeUpdate, ← h.firstId_eq]
  refine (ensures_btreeUpdateFrom_bounded hsettled hlimit h.leaves h.nodup entry
    (h.leaves.length_lt h.nodup)).mono ?_
  rintro - t (rfl | ⟨hleaves, hrest⟩)
  · exact .inl rfl
  · have hids := LeafChain.ids_update BTreeLeafEntry.key entry chain
    refine .inr ⟨⟨hleaves, ?_, ?_⟩, hrest⟩
    · rw [hids, h.firstId_eq, h.root]
    · rw [hids]
      exact h.nodup

/-- An insertion adds the entry, or it fails and changes nothing. A full leaf that can be pinned must be
splittable: there is a frame for the new page besides, and the counter names a free page. -/
theorem ensures_btreeInsert_bounded (h : TreeLinked s root chain) (hsettled : s.touched = ∅)
    (hlimit : s.pins.length + 2 < 2 ^ 32) {entry : BTreeLeafEntry}
    (hsplit : chain.splits entry.key → ∀ id, chain.target entry.key = some id → s.Available id →
      (s.pin id).Available s.nextPageId ∧ s.nextPageId < invalidPageId ∧ s.nextPageId ∉ chain.ids)
    (txnId : UInt32) :
    boundedHandler.Ensures (btreeInsert root entry.key entry.pageId entry.slotId txnId) s
      fun inserted t => (inserted = false ∧ t = s ∧ s.room ≤ s.pins.dedup.length) ∨
        (inserted = true ∧ TreeLinked t root (chain.insert s.nextPageId entry) ∧
          s.Settles t {id | id ∈ chain.ids ∨ (chain.splits entry.key ∧ id = s.nextPageId)} ∧
            t.nextPageId = s.nextPageId + (chain.splits entry.key).toNat) := by
  obtain ⟨rootLeaf, rootRest, hroot⟩ := h.exists_first
  obtain ⟨⟨hrootExtent, hrootValid, rootPage, hrootHolds, hrootLeaf⟩, -⟩ := hroot ▸ h.leaves
  have hlimit' : s.pins.length + 1 < 2 ^ 32 := by omega
  rw [btreeInsert]
  by_cases havailable : s.Available root
  swap
  · refine .step (PageArray.exec_fetchPage_refused hrootValid hlimit' havailable) ?_
    rw [PageArray.Available, not_or, not_lt] at havailable
    exact .pure (.inl ⟨rfl, rfl, havailable.2⟩)
  refine .step (PageArray.exec_fetchPage_available hrootValid hlimit' havailable) ?_
  simp only [Bool.not_true, Bool.false_eq_true, if_false]
  refine .step (exec_bounded (PageArray.exec_pageData (s.mem_pins_pin root) hrootHolds)) ?_
  rw [if_neg (not_not.mpr hrootLeaf.pageType)]
  have hwalk := ensures_btreeMoveRight_bounded hsettled hlimit' h.ne_nil h.leaves
    (h.firstId_eq.symm ▸ havailable) entry.key (h.leaves.length_lt h.nodup).le
  rw [h.firstId_eq] at hwalk
  refine hwalk.bind ?_
  rintro target t (⟨rfl, rfl, hfull⟩ | ⟨before, id, leaf, rest, htarget, rfl, rfl, hid⟩)
  · exact .pure (.inl ⟨rfl, rfl, hfull⟩)
  · have hmem : id ∈ chain.ids := by
      rw [htarget.place, LeafChain.ids_append, LeafChain.ids_cons]
      exact List.mem_append_right _ List.mem_cons_self
    have hfetch := hid.fetchable (h.leaves.valid hmem).2 hlimit'
    refine (Ensures.bounded (h.ensures_insertAt hsettled htarget hfetch (fun hsplits => ?_) txnId)).mono
      fun _ _ hdone => .inr hdone
    obtain ⟨hnew, hvalid, hfresh⟩ := hsplit hsplits id htarget.target hid
    exact ⟨hnew.fetchable hvalid hlimit, hfresh⟩

end TreeLinked

/-! ## Runs with other users of the pool -/

/-- A call on the tree, or a pin that another user takes or releases. -/
inductive SharedOp
  | call (op : TreeOp)
  | hold (pageId : ℕ)
  | release (pageId : ℕ)

namespace SharedOp

/-- Make the operation; a pin that is taken answers whether there was a frame. -/
def run (root : ℕ) : SharedOp → PageProgram Bool
  | .call op => op.run root
  | .hold pageId => fetchPage pageId
  | .release pageId => do
    unpinPage pageId false .normal
    return true

/-- The pins of the other users after an operation. -/
def heldAfter (held : List ℕ) : SharedOp → Bool → List ℕ
  | .call _, _ => held
  | .hold pageId, pinned => if pinned then pageId :: held else held
  | .release pageId, _ => held.erase pageId

end SharedOp

/-- The leaf that the key belongs to is full, and there is a frame for it but none for a new page besides. -/
def Machine.SplitRefused (m : Machine) (held : List ℕ) (root : ℕ) (key : UInt64) : Prop :=
  ∃ (chain : LeafPages) (id : ℕ), m.storage.Leaves root chain ∧ chain.splits key ∧
    chain.target key = some id ∧ (id :: held).dedup.length ≤ m.storage.bpm.poolSize ∧
      m.storage.bpm.poolSize < (m.nextPageId :: id :: held).dedup.length

namespace SharedOp

/-- No leaf has more entries than there is room for; an insertion that fails changes neither the leaves nor
the page counter, and it fails if the split finds no frame. -/
structure KeepsLeaves (op : SharedOp) (m : Machine) (held : List ℕ) (root : ℕ) (answer : Bool) (m' : Machine) :
    Prop where
  fits : ∃ chain, m'.storage.Leaves root chain ∧ ∀ leaf ∈ chain, leaf.2.length ≤ btreeMaxLeafEntries
  failed : ∀ entry txnId, op = .call (.insert entry txnId) → answer = false →
    m'.nextPageId = m.nextPageId ∧ ∃ chain, m.storage.Leaves root chain ∧ m'.storage.Leaves root chain
  refused : ∀ entry txnId, op = .call (.insert entry txnId) → m.SplitRefused held root entry.key →
    answer = false

/-- When the leaf that a key belongs to is full and can be pinned, there is a frame for the new page besides,
and the counter names a free page. Other users release pins that they hold. -/
def Meets (m : Machine) (held : List ℕ) (root : ℕ) : SharedOp → Prop
  | .call (.insert entry _) => ∀ (chain : LeafPages) (id : ℕ), m.storage.Leaves root chain →
      chain.splits entry.key → chain.target entry.key = some id →
        (id :: held).dedup.length ≤ m.storage.bpm.poolSize →
          (m.nextPageId :: id :: held).dedup.length ≤ m.storage.bpm.poolSize ∧
            m.nextPageId < invalidPageId ∧ m.nextPageId ∉ chain.ids
  | .call (.update _) => True
  | .hold pageId => pageId < invalidPageId ∧ held.length + 3 < 2 ^ 32
  | .release pageId => pageId ∈ held

end SharedOp

namespace Machine

/-- Every operation of the run ends and keeps the leaves. -/
def KeepsLeaves (root : ℕ) (m : Machine) (held : List ℕ) : List SharedOp → Prop
  | [] => True
  | op :: ops => ∃ answer m', poolHandler.exec (op.run root) m = some (answer, m') ∧
      op.KeepsLeaves m held root answer m' ∧ m'.KeepsLeaves root (op.heldAfter held answer) ops

/-- Every operation of the run meets the condition. -/
def MeetsAll (root : ℕ) (m : Machine) (held : List ℕ) : List SharedOp → Prop
  | [] => True
  | op :: ops => op.Meets m held root ∧ ∀ answer m', poolHandler.exec (op.run root) m = some (answer, m') →
      m'.MeetsAll root (op.heldAfter held answer) ops

end Machine

/-- Between the operations the array holds the tree, and the pins are those of the other users. -/
structure SharedTree (m : Machine) (s : PageArray) (held : List ℕ) (root : ℕ) (chain : LeafPages) : Prop where
  represents : ExactlyRepresents m s
  linked : TreeLinked s root chain
  settled : s.touched = ∅
  pins : s.pins = held
  room : held.dedup.length ≤ s.room
  limit : held.length + 2 < 2 ^ 32

/-- A page can be pinned if the frames suffice for it and the pages that are pinned already. -/
theorem PageArray.available_iff {s : PageArray} (hroom : s.pins.dedup.length ≤ s.room) (pageId : ℕ) :
    s.Available pageId ↔ (pageId :: s.pins).dedup.length ≤ s.room := by
  by_cases hmem : pageId ∈ s.pins
  · rw [List.dedup_cons_of_mem hmem]
    exact iff_of_true (.inl hmem) hroom
  · rw [List.dedup_cons_of_notMem hmem, List.length_cons]
    exact ⟨fun h => h.resolve_left hmem, .inr⟩

namespace SharedTree

variable {m : Machine} {s : PageArray} {held : List ℕ} {root : ℕ} {chain : LeafPages}

/-- The leaves that a fetch finds. -/
theorem leaves (h : SharedTree m s held root chain) : m.storage.Leaves root chain :=
  h.linked.leaves_storage h.represents.toRepresents h.settled

/-- No leaf has more entries than there is room for. -/
theorem fits (h : SharedTree m s held root chain) :
    ∃ chain, m.storage.Leaves root chain ∧ ∀ leaf ∈ chain, leaf.2.length ≤ btreeMaxLeafEntries := by
  refine ⟨chain, h.leaves, fun leaf hleaf => ?_⟩
  obtain ⟨id, entries⟩ := leaf
  obtain ⟨-, -, page, following, -, hpage⟩ := h.linked.leaves.page hleaf
  exact hpage.fits

/-- A call after which the pins are the same. -/
theorem settles (h : SharedTree m s held root chain) {m' : Machine} {t : PageArray}
    (hrep : ExactlyRepresents m' t) {changed : Set ℕ} (hsettles : s.Settles t changed) {chain' : LeafPages}
    (hlinked : TreeLinked t root chain') : SharedTree m' t held root chain' :=
  ⟨hrep, hlinked, hsettles.touched.trans h.settled, hsettles.pins.trans h.pins,
    h.room.trans_eq hsettles.evolves.room.symm, h.limit⟩

/-- An insertion. -/
theorem insert (h : SharedTree m s held root chain) {entry : BTreeLeafEntry} {txnId : UInt32}
    (hmeets : SharedOp.Meets m held root (.call (.insert entry txnId))) :
    ∃ answer m' t chain', poolHandler.exec (SharedOp.run root (.call (.insert entry txnId))) m =
        some (answer, m') ∧
      SharedOp.KeepsLeaves (.call (.insert entry txnId)) m held root answer m' ∧
        SharedTree m' t held root chain' := by
  have hframes := h.represents.frames
  have hroom : s.pins.dedup.length ≤ s.room := h.pins ▸ h.room
  have hrefused : ¬m.SplitRefused held root entry.key := by
    rintro ⟨chain, id, hleaves, hsplits, htarget, hone, htwo⟩
    exact absurd (hmeets chain id hleaves hsplits htarget hone).1 (not_le.mpr htwo)
  have hsplit : chain.splits entry.key → ∀ id, chain.target entry.key = some id → s.Available id →
      (s.pin id).Available s.nextPageId ∧ s.nextPageId < invalidPageId ∧ s.nextPageId ∉ chain.ids := by
    intro hsplits id htarget hid
    rw [PageArray.available_iff hroom, h.pins, ← hframes] at hid
    obtain ⟨htwo, hvalid, hfresh⟩ := hmeets chain id h.leaves hsplits htarget hid
    rw [h.represents.nextPageId] at htwo hvalid hfresh
    refine ⟨?_, hvalid, hfresh⟩
    have hpins : (s.pin id).pins = id :: held := congrArg (id :: ·) h.pins
    have hroom' : (s.pin id).pins.dedup.length ≤ (s.pin id).room := by
      rw [hpins]
      exact hid.trans_eq hframes
    rw [PageArray.available_iff hroom', hpins]
    exact htwo.trans_eq hframes
  have hlimit : s.pins.length + 2 < 2 ^ 32 := h.pins ▸ h.limit
  obtain ⟨answer, t, hexec, hpost⟩ :=
    h.linked.ensures_btreeInsert_bounded h.settled hlimit hsplit txnId
  obtain ⟨m', hexec', hrep⟩ := poolHandler_simulates_bounded.exec h.represents hexec
  obtain ⟨rfl, rfl, -⟩ | ⟨rfl, hlinked, hsettles, -⟩ := hpost
  · have hafter : SharedTree m' t held root chain := { h with represents := hrep }
    refine ⟨false, m', t, chain, hexec', ⟨hafter.fits, fun _ _ _ _ => ⟨?_, chain, h.leaves, hafter.leaves⟩,
      fun _ _ _ _ => rfl⟩, hafter⟩
    exact hrep.nextPageId.trans h.represents.nextPageId.symm
  · have hafter := h.settles hrep hsettles hlinked
    refine ⟨true, m', t, _, hexec', ⟨hafter.fits, fun _ _ _ hfalse => absurd hfalse.symm Bool.false_ne_true,
      fun other otherTxn hop hother => ?_⟩, hafter⟩
    obtain ⟨rfl, -⟩ := TreeOp.insert.inj (SharedOp.call.inj hop)
    exact absurd hother hrefused

/-- What is no insertion keeps the leaves if it keeps the tree. -/
theorem keepsLeaves_of_not_insert {op : SharedOp} (hop : ∀ entry txnId, op ≠ .call (.insert entry txnId))
    {answer : Bool} {before m' : Machine} {t : PageArray} {held after : List ℕ} {chain' : LeafPages}
    (h : SharedTree m' t after root chain') : op.KeepsLeaves before held root answer m' :=
  ⟨h.fits, fun entry txnId hinsert => absurd hinsert (hop entry txnId),
    fun entry txnId hinsert => absurd hinsert (hop entry txnId)⟩

/-- An update. -/
theorem update (h : SharedTree m s held root chain) (entry : BTreeLeafEntry) :
    ∃ answer m' t chain', poolHandler.exec (SharedOp.run root (.call (.update entry))) m = some (answer, m') ∧
      SharedTree m' t held root chain' := by
  have hlimit : s.pins.length + 1 < 2 ^ 32 := h.pins ▸ Nat.lt_of_succ_lt h.limit
  obtain ⟨answer, t, hexec, hpost⟩ := h.linked.ensures_btreeUpdate_bounded h.settled hlimit entry
  obtain ⟨m', hexec', hrep⟩ := poolHandler_simulates_bounded.exec h.represents hexec
  obtain rfl | ⟨hlinked, hsettles, -⟩ := hpost
  · exact ⟨answer, m', t, chain, hexec', { h with represents := hrep }⟩
  · exact ⟨answer, m', t, _, hexec', h.settles hrep hsettles hlinked⟩

/-- Another user pins a page. -/
theorem hold (h : SharedTree m s held root chain) {pageId : ℕ} (hvalid : pageId < invalidPageId)
    (hlimit : held.length + 3 < 2 ^ 32) :
    ∃ pinned m' t, poolHandler.exec (fetchPage pageId) m = some (pinned, m') ∧
      SharedTree m' t (SharedOp.heldAfter held (.hold pageId) pinned) root chain := by
  have hpinLimit : s.pins.length + 1 < 2 ^ 32 := by
    rw [h.pins]
    omega
  have hroom : s.pins.dedup.length ≤ s.room := h.pins ▸ h.room
  by_cases havailable : s.Available pageId
  · obtain ⟨m', hexec, hrep⟩ := poolHandler_simulates_bounded.exec h.represents
      (PageArray.exec_fetchPage_available hvalid hpinLimit havailable)
    have hpins : (s.pin pageId).pins = pageId :: held := congrArg (pageId :: ·) h.pins
    rw [PageArray.available_iff hroom, h.pins] at havailable
    have hlinked : TreeLinked (s.pin pageId) root chain := ⟨h.linked.leaves.evolves
      ((PageArray.Evolves.refl s ∅).pin pageId) fun _ _ hmem => hmem, h.linked.root, h.linked.nodup⟩
    exact ⟨true, m', s.pin pageId, hexec, hrep, hlinked, h.settled, hpins, havailable, by
      rw [SharedOp.heldAfter, if_pos rfl, List.length_cons]
      omega⟩
  · obtain ⟨m', hexec, hrep⟩ := poolHandler_simulates_bounded.exec h.represents
      (PageArray.exec_fetchPage_refused hvalid hpinLimit havailable)
    exact ⟨false, m', s, hexec, { h with represents := hrep }⟩

/-- Another user releases a pin. -/
theorem release (h : SharedTree m s held root chain) {pageId : ℕ} (hheld : pageId ∈ held) :
    ∃ m' t, poolHandler.exec (SharedOp.run root (.release pageId)) m = some (true, m') ∧
      SharedTree m' t (held.erase pageId) root chain := by
  have hclean : pageId ∈ s.touched → false = true := by
    intro hmem
    rw [h.settled] at hmem
    exact absurd hmem (Set.notMem_empty pageId)
  have hexec : boundedHandler.exec (SharedOp.run root (.release pageId)) s =
      some (true, s.unpin pageId false) := by
    rw [SharedOp.run]
    exact Handler.exec_bind_of_eq _ (exec_bounded (PageArray.exec_unpinPage (h.pins ▸ hheld) hclean
      (fun hfalse => absurd hfalse Bool.false_ne_true) .normal)) _
  obtain ⟨m', hexec', hrep⟩ := poolHandler_simulates_bounded.exec h.represents hexec
  have hlinked : TreeLinked (s.unpin pageId false) root chain := ⟨h.linked.leaves.evolves
    ((PageArray.Evolves.refl s ∅).unpin pageId false) fun _ _ hmem => hmem, h.linked.root, h.linked.nodup⟩
  have hfewer : (held.erase pageId).dedup.length ≤ held.dedup.length := by
    refine ((List.nodup_dedup _).subperm fun other hother => ?_).length_le
    exact List.mem_dedup.mpr (List.mem_of_mem_erase (List.mem_dedup.mp hother))
  have hshorter : (held.erase pageId).length ≤ held.length := List.length_erase_le
  have hlimit := h.limit
  exact ⟨m', _, hexec', hrep, hlinked, h.settled, congrArg (List.erase · pageId) h.pins, hfewer.trans h.room,
    by omega⟩

/-- One operation. -/
theorem step (h : SharedTree m s held root chain) {op : SharedOp} (hmeets : op.Meets m held root) :
    ∃ answer m' t chain', poolHandler.exec (op.run root) m = some (answer, m') ∧
      op.KeepsLeaves m held root answer m' ∧ SharedTree m' t (op.heldAfter held answer) root chain' := by
  cases op with
  | call op =>
    cases op with
    | insert entry txnId => exact h.insert hmeets
    | update entry =>
      obtain ⟨answer, m', t, chain', hexec, hafter⟩ := h.update entry
      exact ⟨answer, m', t, chain', hexec, keepsLeaves_of_not_insert (fun _ _ hop => by cases hop) hafter, hafter⟩
  | hold pageId =>
    obtain ⟨pinned, m', t, hexec, hafter⟩ := h.hold hmeets.1 hmeets.2
    exact ⟨pinned, m', t, chain, hexec, keepsLeaves_of_not_insert (fun _ _ hop => by cases hop) hafter, hafter⟩
  | release pageId =>
    obtain ⟨m', t, hexec, hafter⟩ := h.release hmeets
    exact ⟨true, m', t, chain, hexec, keepsLeaves_of_not_insert (fun _ _ hop => by cases hop) hafter, hafter⟩

/-- A run of operations that meet the condition. -/
theorem run (h : SharedTree m s held root chain) {ops : List SharedOp} (hmeets : m.MeetsAll root held ops) :
    m.KeepsLeaves root held ops := by
  induction ops generalizing m s held chain with
  | nil => trivial
  | cons op ops ih =>
    obtain ⟨answer, m', t, chain', hexec, hkeeps, hafter⟩ := h.step hmeets.1
    exact ⟨answer, m', hexec, hkeeps, ih hafter (hmeets.2 answer m' hexec)⟩

/-- A new tree in a new pool of at least one frame. -/
theorem init {host : Host} (hfree : host.FaultFree) {diskFd : ℤ} (hopen : 0 ≤ diskFd)
    (wal : Option WALManager) {poolSize : ℕ} (hpos : 1 ≤ poolSize) (hsmall : poolSize < 2 ^ 31)
    {root nextPageId : ℕ} (hroot : root < invalidPageId) (hcounter : nextPageId < 2 ^ 32)
    (hnew : (host.diskPage root).pageType ≠ PageType.btreeLeaf.code ∧
      (host.diskPage root).pageType ≠ PageType.btreeInternal.code) :
    ∃ m t, poolHandler.exec (btreeInit root) ⟨bufferPoolInit diskFd wal host poolSize, nextPageId⟩ =
        some ((), m) ∧ SharedTree m t [] root [(root, [])] ∧ t.nextPageId = nextPageId ∧ t.room = poolSize := by
  have hstart : ExactlyRepresents ⟨bufferPoolInit diskFd wal host poolSize, nextPageId⟩
      (PageArray.ofHost host wal poolSize nextPageId) :=
    ⟨represents_bufferPoolInit hfree hopen wal hsmall (le_refl _) hcounter, List.length_replicate, hpos⟩
  have hfetch : (PageArray.ofHost host wal poolSize nextPageId).Fetchable root :=
    ⟨hroot, .inr hpos, show 1 < 2 ^ 32 by decide⟩
  have hholds : (PageArray.ofHost host wal poolSize nextPageId).Holds root (host.diskPage root) := rfl
  obtain ⟨⟨⟩, t, hexec, htree, hpins, hroom, htouched, hcounter', -⟩ :=
    Ensures.bounded (ensures_btreeInit_fetchable rfl hfetch hholds hnew.1 hnew.2)
  obtain ⟨m, hexec', hrep⟩ := poolHandler_simulates_bounded.exec hstart hexec
  exact ⟨m, t, hexec', ⟨hrep, htree.linked, htouched, hpins, Nat.zero_le _, by decide⟩, hcounter', hroom⟩

end SharedTree

/-- In every run on a new tree, with any pins taken and released in between, whose insertions find a frame for
the new page whenever they find one for a full leaf, no leaf overflows and an insertion that fails changes
nothing. -/
theorem treeKeepsLeaves {host : Host} (hfree : host.FaultFree) {diskFd : ℤ} (hopen : 0 ≤ diskFd)
    (wal : Option WALManager) {poolSize : ℕ} (hpos : 1 ≤ poolSize) (hsmall : poolSize < 2 ^ 31)
    {root nextPageId : ℕ} (hroot : root < invalidPageId) (hcounter : nextPageId < 2 ^ 32)
    (hnew : (host.diskPage root).pageType ≠ PageType.btreeLeaf.code ∧
      (host.diskPage root).pageType ≠ PageType.btreeInternal.code) :
    poolHandler.Ensures (btreeInit root) ⟨bufferPoolInit diskFd wal host poolSize, nextPageId⟩ fun _ m =>
      m.storage.Leaves root [(root, [])] ∧ ∀ ops, m.MeetsAll root [] ops → m.KeepsLeaves root [] ops := by
  obtain ⟨m, t, hexec, htree, -⟩ := SharedTree.init hfree hopen wal hpos hsmall hroot hcounter hnew
  exact .of_exec hexec ⟨htree.leaves, fun ops hmeets => htree.run hmeets⟩

/-- The leaves from a page on are determined by the pages. -/
theorem Storage.LeavesFrom.unique {st : Storage} {chain other : LeafPages}
    (h : st.LeavesFrom invalidPageId chain) (h' : st.LeavesFrom invalidPageId other)
    (hfirst : chain.firstId invalidPageId = other.firstId invalidPageId) : chain = other := by
  induction chain generalizing other with
  | nil =>
    cases other with
    | nil => rfl
    | cons first rest => exact absurd hfirst h'.1.1.ne'
  | cons first rest ih =>
    obtain ⟨id, leaf⟩ := first
    obtain ⟨⟨hvalid, hleaf⟩, hrest⟩ := h
    cases other with
    | nil => exact absurd hfirst hvalid.ne
    | cons second rest' =>
      obtain ⟨id', leaf'⟩ := second
      obtain rfl : id = id' := hfirst
      obtain ⟨⟨-, hleaf'⟩, hrest'⟩ := h'
      rw [← hleaf.leafEntries, ← hleaf'.leafEntries,
        ih hrest hrest' (hleaf.nextLeafId.symm.trans hleaf'.nextLeafId)]

/-- A chain of leaves starts at the root page. -/
theorem Storage.Leaves.firstId_eq {st : Storage} {root : ℕ} {chain : LeafPages} (h : st.Leaves root chain) :
    chain.firstId invalidPageId = root := by
  have hroot := h.root
  cases chain with
  | nil => exact absurd hroot (Option.some_ne_none root).symm
  | cons first rest => exact Option.some.inj hroot

/-- One insertion, a pin and an update in a pool of one frame. -/
theorem treeKeepsLeaves_one_frame :
    poolHandler.Ensures (btreeInit 0) ⟨bufferPoolInit 0 none Host.empty 1, 1⟩ fun _ m =>
      m.KeepsLeaves 0 [] [.call (.insert ⟨7, 3, 1⟩ 0), .hold 5, .call (.update ⟨7, 4, 2⟩)] := by
  have hnew : (Host.empty.diskPage 0).pageType ≠ PageType.btreeLeaf.code ∧
      (Host.empty.diskPage 0).pageType ≠ PageType.btreeInternal.code := by
    rw [pageType_empty]
    decide
  refine (treeKeepsLeaves ⟨rfl, rfl, rfl, rfl⟩ (le_refl 0) none (le_refl 1) (by decide) (by decide)
    (by decide) hnew).mono ?_
  rintro - m ⟨hleaves, hrun⟩
  have hlimit : 3 < 2 ^ 32 := by decide
  refine hrun _ ⟨?_, fun _ _ _ => ⟨⟨by decide, hlimit⟩, fun _ _ _ => ⟨trivial, fun _ _ _ => trivial⟩⟩⟩
  intro chain id hchain hsplits
  obtain rfl := hleaves.leaves.unique hchain.leaves (hleaves.firstId_eq.trans hchain.firstId_eq.symm)
  exact absurd hsplits (by decide)

/-! ## A split without a frame -/

/-- Inserting into a leaf, full or not, raises its slot count. -/
theorem Page.slotCount_insertLeafEntry (page : Page) (i : ℕ) (entry : BTreeLeafEntry)
    (h : page.slotCount + 1 < 2 ^ 16) : (page.insertLeafEntry i entry).slotCount = page.slotCount + 1 := by
  have hcount : ((page.shiftLeafEntries i page.slotCount).setLeafEntry i entry).slotCount = page.slotCount := by
    rw [slotCount, field_setLeafEntry _ _ _ (by decide), field_shiftLeafEntries _ _ _ (by decide), slotCount]
  rw [insertLeafEntry, hcount, slotCount_setSlotCount _ h]

/-- A split that finds no frame for the new page has taken a page id and zeroed the page in the file. -/
theorem exec_splitLeafNode_refused {s : PageArray} (hsettled : s.touched = ∅)
    (hlimit : s.pins.length + 2 < 2 ^ 32) {id : ℕ} (hvalid : id < invalidPageId) (hid : s.Available id)
    (hcounter : s.nextPageId < invalidPageId) (hnone : ¬(s.pin id).Available s.nextPageId) (txnId : UInt32) :
    boundedHandler.Ensures (splitLeafNode id txnId) s fun _ t => t = s.allocate := by
  have hunpin : arrayHandler.exec (unpinPage id false .normal) (s.pin id).allocate = some ((), s.allocate) :=
    PageArray.exec_unpinPage_read (s := s.allocate) hsettled id .normal
  rw [splitLeafNode]
  refine .step (PageArray.exec_fetchPage_available hvalid (Nat.lt_of_succ_lt hlimit) hid) ?_
  simp only [Bool.not_true, Bool.false_eq_true, if_false]
  refine .step (exec_bounded (PageArray.exec_takePageId (s := s.pin id) hcounter)) ?_
  refine .step (exec_bounded (PageArray.exec_writeZeroPage _ _)) ?_
  refine .step (PageArray.exec_fetchPage_refused (s := (s.pin id).allocate) hcounter hlimit hnone) ?_
  simp only [Bool.not_false, if_true]
  exact .step (exec_bounded hunpin) (.pure rfl)

/-- After such a split the caller finds its leaf as full as before, and takes it for the one to insert into. -/
theorem ensures_btreeMakeRoom_refused {s : PageArray} (hsettled : s.touched = ∅)
    (hlimit : s.pins.length + 2 < 2 ^ 32) {id next : ℕ} (hvalid : id < invalidPageId) (hextent : id < s.extent)
    (hid : s.Available id) {page : Page} {leaf : List BTreeLeafEntry} (hholds : s.Holds id page)
    (hleaf : IsLeaf page leaf next) (hfull : btreeMaxLeafEntries ≤ leaf.length) {key : UInt64}
    (hstays : ¬page.BelongsRight key) (hcounter : s.nextPageId < invalidPageId) (hfresh : id ≠ s.nextPageId)
    (hnone : ¬(s.pin id).Available s.nextPageId) (txnId : UInt32) :
    boundedHandler.Ensures (btreeMakeRoom key id txnId) (s.pin id) fun target t =>
      target = some id ∧ t = s.allocate.pin id := by
  have hsame : s.allocate.Holds id page :=
    ((s.content_zeroOnDisk_of_ne hfresh).trans (s.content_extend_of_lt hextent)).trans hholds
  have hid' : s.allocate.Available id := hid
  rw [btreeMakeRoom]
  refine .step (exec_bounded (PageArray.exec_pageData (s.mem_pins_pin id) hholds)) ?_
  rw [hleaf.slotCount, if_pos hfull]
  refine .step (exec_bounded (PageArray.exec_unpinPage_read hsettled id .normal)) ?_
  refine (exec_splitLeafNode_refused hsettled hlimit hvalid hid hcounter hnone txnId).bind ?_
  rintro - t rfl
  refine .step (PageArray.exec_fetchPage_available hvalid (Nat.lt_of_succ_lt hlimit) hid') ?_
  simp only [Bool.not_true, Bool.false_eq_true, if_false]
  refine .step (exec_bounded (PageArray.exec_pageData (s.allocate.mem_pins_pin id) hsame)) ?_
  rw [if_neg hstays]
  exact .pure ⟨rfl, rfl⟩

/-- So an insertion into a full leaf that finds no frame for a new page succeeds and overfills the leaf. -/
theorem TreeLinked.ensures_btreeInsert_overflow {s : PageArray} {root : ℕ} {leaf : List BTreeLeafEntry}
    (h : TreeLinked s root [(root, leaf)]) (hsettled : s.touched = ∅) (hlimit : s.pins.length + 2 < 2 ^ 32)
    (hid : s.Available root) (hfull : btreeMaxLeafEntries ≤ leaf.length)
    (hcounter : s.nextPageId < invalidPageId) (hfresh : root ≠ s.nextPageId)
    (hnone : ¬(s.pin root).Available s.nextPageId) (entry : BTreeLeafEntry) (txnId : UInt32) :
    boundedHandler.Ensures (btreeInsert root entry.key entry.pageId entry.slotId txnId) s fun inserted t =>
      inserted = true ∧ t.touched = ∅ ∧ t.nextPageId = s.nextPageId + 1 ∧
        ∃ page, t.Holds root page ∧ page.slotCount = leaf.length + 1 := by
  obtain ⟨⟨hextent, hvalid, page, hholds, hleaf⟩, -⟩ := h.leaves
  have hlimit' : s.pins.length + 1 < 2 ^ 32 := Nat.lt_of_succ_lt hlimit
  have hstays : ¬page.BelongsRight entry.key := fun hright => hright.1 hleaf.nextLeafId
  have hsame : s.allocate.Holds root page :=
    ((s.content_zeroOnDisk_of_ne hfresh).trans (s.content_extend_of_lt hextent)).trans hholds
  have hextent' : root < s.allocate.extent := lt_of_lt_of_le hextent (le_max_left _ _)
  have hsmall : page.slotCount + 1 < 2 ^ 16 := by
    have hfits := hleaf.fits
    have hmax : btreeMaxLeafEntries = 250 := rfl
    rw [hleaf.slotCount]
    omega
  have hwalk : boundedHandler.Ensures (btreeMoveRight entry.key walkLimit root) (s.pin root) fun target t =>
      target = some root ∧ t = s.pin root := by
    have hpositive : walkLimit ≠ 0 := by decide
    obtain ⟨fuel, hfuel⟩ := Nat.exists_eq_succ_of_ne_zero hpositive
    rw [hfuel, btreeMoveRight]
    refine .step (exec_bounded (PageArray.exec_pageData (s.mem_pins_pin root) hholds)) ?_
    rw [if_neg hstays]
    exact .pure ⟨rfl, rfl⟩
  rw [btreeInsert]
  refine .step (PageArray.exec_fetchPage_available hvalid hlimit' hid) ?_
  simp only [Bool.not_true, Bool.false_eq_true, if_false]
  refine .step (exec_bounded (PageArray.exec_pageData (s.mem_pins_pin root) hholds)) ?_
  rw [if_neg (not_not.mpr hleaf.pageType)]
  refine hwalk.bind ?_
  rintro target t ⟨rfl, rfl⟩
  refine (ensures_btreeMakeRoom_refused hsettled hlimit hvalid hextent hid hholds hleaf hfull hstays hcounter
    hfresh hnone txnId).bind ?_
  rintro target t ⟨rfl, rfl⟩
  refine (Ensures.bounded (ensures_btreeInsertEntry_body (s := s.allocate) hsettled hextent' hsame entry
    txnId)).bind ?_
  rintro - t ⟨hsettles, hcounter', page', hholds', hbody⟩
  refine .pure ⟨rfl, hsettles.touched.trans hsettled, hcounter', page', hholds', ?_⟩
  rw [← hleaf.slotCount, ← page.slotCount_insertLeafEntry _ entry hsmall]
  exact hbody 22 2 (by decide)

/-- A pool of one frame and a tree of one leaf: the insertion after the leaf is full overfills it. -/
theorem not_keepsLeaves_full {m : Machine} {s : PageArray} {root : ℕ} {leaf : List BTreeLeafEntry}
    (h : SharedTree m s [] root [(root, leaf)]) (hroom : s.room = 1) (hcounter : s.nextPageId < invalidPageId)
    (hfresh : root ≠ s.nextPageId) (entry : BTreeLeafEntry) (txnId : UInt32) {count : ℕ}
    (hcount : leaf.length + count = btreeMaxLeafEntries) :
    ¬m.KeepsLeaves root [] (List.replicate (count + 1) (.call (.insert entry txnId))) := by
  have hmax : btreeMaxLeafEntries = 250 := rfl
  have hlimit : s.pins.length + 2 < 2 ^ 32 := h.pins ▸ h.limit
  have hvalid : root < invalidPageId := h.linked.leaves.1.2.1
  induction count generalizing m s leaf with
  | zero =>
    rintro ⟨answer, m', hrun, hkeeps, -⟩
    have hid : s.Available root := by
      refine .inr ?_
      rw [h.pins, hroom]
      exact Nat.zero_lt_one
    have hnone : ¬(s.pin root).Available s.nextPageId := by
      rw [PageArray.Available, not_or, PageArray.pin, h.pins, hroom]
      exact ⟨fun hmem => hfresh (List.mem_singleton.mp hmem).symm, Nat.lt_irrefl 1⟩
    obtain ⟨inserted, t, hexec, -, htouched, -, page, hholds, hslots⟩ := h.linked.ensures_btreeInsert_overflow
      h.settled hlimit hid hcount.ge hcounter hfresh hnone entry txnId
    obtain ⟨found, hexec', hrep⟩ := poolHandler_simulates_bounded.exec h.represents hexec
    obtain ⟨-, rfl⟩ := Prod.mk.inj (Option.some.inj (hexec'.symm.trans hrun))
    obtain ⟨chain, hleaves, -⟩ := hkeeps.fits
    have hfirst := hleaves.firstId_eq
    cases chain with
    | nil => exact absurd hleaves.root (Option.some_ne_none root).symm
    | cons first rest =>
      obtain ⟨id, leaf'⟩ := first
      obtain rfl : id = root := hfirst
      have hleaf := hleaves.leaves.1.2
      rw [hrep.currentPage hvalid.ne hholds (htouched ▸ Set.notMem_empty id)] at hleaf
      have hlength := hleaf.slotCount
      have hbound := hleaf.fits
      omega
  | succ count ih =>
    rw [List.replicate_succ]
    rintro ⟨answer, m', hrun, -, hrest⟩
    have hroomy : leaf.length < btreeMaxLeafEntries := by omega
    have hsplits : LeafPages.splits entry.key [(root, leaf)] = false := by
      rw [LeafPages.splits, LeafChain.splits, if_neg fun hright => hright.1 rfl]
      exact decide_eq_false (not_le.mpr hroomy)
    have hinsert : LeafPages.insert s.nextPageId entry [(root, leaf)] =
        [(root, LeafChain.insertSorted BTreeLeafEntry.key entry leaf)] := by
      rw [LeafPages.insert, LeafChain.insert, if_neg fun hright => hright.1 rfl, LeafChain.place,
        if_pos hroomy]
      rfl
    obtain ⟨inserted, t, hexec, hpost⟩ := h.linked.ensures_btreeInsert_bounded h.settled hlimit
      (fun hfalse => absurd (hsplits.symm.trans hfalse) Bool.false_ne_true) txnId
    obtain ⟨found, hexec', hrep⟩ := poolHandler_simulates_bounded.exec h.represents hexec
    obtain ⟨-, rfl⟩ := Prod.mk.inj (Option.some.inj (hexec'.symm.trans hrun))
    obtain ⟨-, -, hfull⟩ | ⟨-, hlinked, hsettles, hnext⟩ := hpost
    · rw [hroom, h.pins] at hfull
      exact absurd hfull (by decide)
    · rw [hinsert] at hlinked
      rw [hsplits] at hnext
      refine ih (h.settles hrep hsettles hlinked) (hsettles.evolves.room.trans hroom) (hnext.symm ▸ hcounter)
        (hnext.symm ▸ hfresh) ?_ (hsettles.pins.symm ▸ hlimit) hrest
      rw [LeafChain.length_insertSorted]
      omega

/-- In a pool of one frame, the last of 251 insertions into a new tree overfills the root page. -/
theorem not_keepsLeaves_one_frame :
    ¬poolHandler.Ensures (btreeInit 0) ⟨bufferPoolInit 0 none Host.empty 1, 1⟩ fun _ m =>
      m.KeepsLeaves 0 [] (List.replicate 251 (.call (.insert ⟨7, 3, 1⟩ 0))) := by
  have hnew : (Host.empty.diskPage 0).pageType ≠ PageType.btreeLeaf.code ∧
      (Host.empty.diskPage 0).pageType ≠ PageType.btreeInternal.code := by
    rw [pageType_empty]
    decide
  have hsmall : 1 < 2 ^ 32 := by decide
  obtain ⟨m, t, hexec, htree, hcounter, hroom⟩ := SharedTree.init ⟨rfl, rfl, rfl, rfl⟩ (le_refl 0) none
    (le_refl 1) (by decide) (by decide) hsmall hnew
  rintro ⟨⟨⟩, m', hexec', hkeeps⟩
  obtain ⟨-, rfl⟩ := Prod.mk.inj (Option.some.inj (hexec.symm.trans hexec'))
  have hvalid : 1 < invalidPageId := by decide
  exact not_keepsLeaves_full htree hroom (hcounter.symm ▸ hvalid) (hcounter.symm ▸ Nat.zero_ne_one)
    ⟨7, 3, 1⟩ 0 rfl
    hkeeps

end FtsUring
