import FtsUring.BTree.Map
import FtsUring.Foundation.LeafOrder

/-!
# The order and the fill of the B-tree

Whatever keys are inserted and updated, in any order and with duplicates, the keys along the leaves do not
decrease, no leaf has more than 250 entries, and with several leaves each has 125 at least. The page counter
must name a free page at every split: a counter that has come back to the root page links the root to itself.
-/

namespace FtsUring

open Foundation

/-- The pages, as a fetch finds them, hold the leaves, each linked to the following one and the last to
`next`. -/
def Storage.LeavesFrom (st : Storage) (next : ℕ) : LeafPages → Prop
  | [] => True
  | (id, leaf) :: rest =>
    (id < invalidPageId ∧ IsLeaf (st.currentPage id) leaf (LeafPages.firstId next rest)) ∧
      st.LeavesFrom next rest

/-- The leaves along the links from the root page on. -/
structure Storage.Leaves (st : Storage) (root : ℕ) (chain : LeafPages) : Prop where
  root : chain.ids.head? = some root
  nodup : chain.ids.Nodup
  leaves : st.LeavesFrom invalidPageId chain

/-- The leaves along the links from the root page on are in order and filled as they should be. -/
def Storage.TreeBalanced (st : Storage) (root : ℕ) : Prop :=
  ∃ chain : LeafPages, st.Leaves root chain ∧ LeafChain.Ordered BTreeLeafEntry.key chain ∧
    LeafChain.Balanced btreeMaxLeafEntries chain

/-- The leaves of the array are those that a fetch finds. -/
theorem LeavesAt.leavesFrom {m : Machine} {s : PageArray} (hrep : Represents m s) (hsettled : s.touched = ∅)
    {next : ℕ} {chain : LeafPages} (h : LeavesAt s next chain) : m.storage.LeavesFrom next chain := by
  induction chain with
  | nil => trivial
  | cons first rest ih =>
    obtain ⟨id, leaf⟩ := first
    obtain ⟨⟨-, hvalid, page, hholds, hleaf⟩, hrest⟩ := h
    have huntouched : id ∉ s.touched := hsettled ▸ Set.notMem_empty id
    refine ⟨⟨hvalid, ?_⟩, ih hrest⟩
    rw [hrep.currentPage hvalid.ne hholds huntouched]
    exact hleaf

/-- The leaves of a tree in the array. -/
theorem TreeLinked.leaves_storage {m : Machine} {s : PageArray} (hrep : Represents m s)
    (hsettled : s.touched = ∅) {root : ℕ} {chain : LeafPages} (h : TreeLinked s root chain) :
    m.storage.Leaves root chain :=
  ⟨h.root, h.nodup, h.leaves.leavesFrom hrep hsettled⟩

/-! ## Runs on the array -/

/-- One call keeps the order and the fill. -/
theorem TreeLinked.ensures_run {s : PageArray} {root : ℕ} {chain : LeafPages} (h : TreeLinked s root chain)
    (hidle : s.Idle) (op : TreeOp)
    (hpage : chain.takesPage op → s.nextPageId < invalidPageId ∧ s.nextPageId ∉ chain.ids) :
    arrayHandler.Ensures (op.run root) s fun _ t => t.Idle ∧ TreeLinked t root (chain.step s.nextPageId op) ∧
      t.nextPageId = s.nextPageId + (chain.takesPage op).toNat := by
  cases op with
  | insert entry txnId =>
    refine (h.ensures_btreeInsert hidle hpage txnId).mono ?_
    rintro - t ⟨-, hlinked, hsettles, hcounter⟩
    exact ⟨hsettles.idle hidle, hlinked, hcounter⟩
  | update entry =>
    refine (h.ensures_btreeUpdate hidle entry).mono ?_
    rintro - t ⟨-, hlinked, -, hsettles, hcounter⟩
    exact ⟨hsettles.idle hidle, hlinked, hcounter⟩

/-- A call on a chain that is in order and balanced. -/
theorem LeafPages.ordered_balanced_step {chain : LeafPages}
    (hordered : LeafChain.Ordered BTreeLeafEntry.key chain)
    (hbalanced : LeafChain.Balanced btreeMaxLeafEntries chain) (newId : ℕ) (op : TreeOp) :
    LeafChain.Ordered BTreeLeafEntry.key (chain.step newId op) ∧
      LeafChain.Balanced btreeMaxLeafEntries (chain.step newId op) := by
  have hcapacity : 2 ≤ btreeMaxLeafEntries := by decide
  cases op with
  | insert entry txnId =>
    refine ⟨hordered.insert _ hcapacity newId entry fun hseveral leaf hleaf => ?_,
      hbalanced.insert _ hcapacity newId entry⟩
    have hfilled := hbalanced.filled hseveral leaf hleaf
    exact List.ne_nil_of_length_pos (lt_of_lt_of_le (by decide) hfilled)
  | update entry =>
    exact ⟨hordered.update _ entry, hbalanced.of_lengths (LeafChain.lengths_update _ entry chain)⟩

/-- A run of calls keeps the order and the fill. -/
theorem ensures_runTreeOps_balanced {s : PageArray} {root : ℕ} {chain : LeafPages} (hidle : s.Idle)
    (hlinked : TreeLinked s root chain) (hordered : LeafChain.Ordered BTreeLeafEntry.key chain)
    (hbalanced : LeafChain.Balanced btreeMaxLeafEntries chain) {ops : List TreeOp}
    (hpages : chain.PagesFit s.nextPageId ops) :
    arrayHandler.Ensures (runTreeOps root ops) s fun _ t => t.Idle ∧ ∃ chain' : LeafPages,
      TreeLinked t root chain' ∧ LeafChain.Ordered BTreeLeafEntry.key chain' ∧
        LeafChain.Balanced btreeMaxLeafEntries chain' := by
  induction ops generalizing s chain with
  | nil => exact .pure ⟨hidle, chain, hlinked, hordered, hbalanced⟩
  | cons op ops ih =>
    obtain ⟨hpage, hpages⟩ := hpages
    obtain ⟨hordered', hbalanced'⟩ := LeafPages.ordered_balanced_step hordered hbalanced s.nextPageId op
    rw [runTreeOps]
    refine (hlinked.ensures_run hidle op hpage).bind ?_
    rintro answer t ⟨hidle', hlinked', hcounter⟩
    rw [← hcounter] at hpages
    exact (ih hidle' hlinked' hordered' hbalanced' hpages).bind fun _ _ hend => .pure hend

/-! ## Runs on a pool -/

/-- Over every pool of fewer than `2 ^ 31` frames of which two are available, the tree stays in order and
balanced. -/
theorem treeBalanced {host : Host} (hfree : host.FaultFree) {diskFd : ℤ} (hopen : 0 ≤ diskFd)
    (wal : Option WALManager) {poolSize : ℕ} (hsmall : poolSize < 2 ^ 31) {held : List ℕ}
    (hheld : ∀ pageId ∈ held, pageId < invalidPageId)
    (hframes : held.dedup.length + 2 ≤ poolSize) (hpins : held.length + 2 < 2 ^ 32)
    {root nextPageId : ℕ} (hroot : root < invalidPageId) (hcounter : nextPageId < 2 ^ 32)
    (hnew : (host.diskPage root).pageType ≠ PageType.btreeLeaf.code ∧
      (host.diskPage root).pageType ≠ PageType.btreeInternal.code)
    {ops : List TreeOp} (hpages : LeafPages.PagesFit [(root, [])] nextPageId ops) :
    poolHandler.Ensures (do pinPages held; btreeInit root; runTreeOps root ops)
      ⟨bufferPoolInit diskFd wal host poolSize, nextPageId⟩ fun _ m => m.storage.TreeBalanced root := by
  have hstart : Represents ⟨bufferPoolInit diskFd wal host poolSize, nextPageId⟩
      (PageArray.ofHost host wal poolSize nextPageId) :=
    represents_bufferPoolInit hfree hopen wal hsmall (le_refl _) hcounter
  have hrun : arrayHandler.Ensures (do pinPages held; btreeInit root; runTreeOps root ops)
      (PageArray.ofHost host wal poolSize nextPageId) fun _ t => t.Idle ∧ ∃ chain : LeafPages,
        TreeLinked t root chain ∧ LeafChain.Ordered BTreeLeafEntry.key chain ∧
          LeafChain.Balanced btreeMaxLeafEntries chain := by
    rw [← bind_assoc]
    refine (ensures_newTree wal hheld hframes hpins hroot hnew).bind ?_
    rintro - t ⟨htree, hidle, hcounter'⟩
    rw [← hcounter'] at hpages
    refine ensures_runTreeOps_balanced hidle htree.linked ?_ ⟨?_, ?_⟩ hpages
    · exact List.Pairwise.nil
    · intro leaf hleaf
      rw [List.mem_singleton] at hleaf
      rw [hleaf]
      exact Nat.zero_le _
    · exact fun hseveral => absurd hseveral (lt_irrefl 1)
  obtain ⟨answers, t, hexec, hidle, chain, hlinked, hordered, hbalanced⟩ := hrun
  obtain ⟨m, hexec', hend⟩ := poolHandler_simulates.exec hstart hexec
  exact ⟨answers, m, hexec', chain, hlinked.leaves_storage hend hidle.touched, hordered, hbalanced⟩

/-- One key 251 times in a new tree in a pool of two frames. The last insertion splits the root. -/
theorem treeBalanced_split :
    poolHandler.Ensures (do
        pinPages []
        btreeInit 0
        runTreeOps 0 (List.replicate 251 (.insert ⟨7, 3, 1⟩ 0) ++ [.update ⟨7, 5, 0⟩]))
      ⟨bufferPoolInit 0 none Host.empty 2, 1⟩ fun _ m => m.storage.TreeBalanced 0 := by
  refine treeBalanced ⟨rfl, rfl, rfl, rfl⟩ (le_refl 0) none (by decide) (by simp) (by decide)
    (by decide) (by decide) (by decide) ?_ (LeafPages.pagesFit_of_lt ?_ ?_)
  · rw [pageType_empty]
    decide
  · intro id hid
    obtain rfl := List.mem_singleton.mp hid
    exact Nat.zero_lt_one
  · rw [List.length_append, List.length_replicate]
    decide

/-! ## A counter that names the root page -/

/-- An empty leaf page that is not linked yet. -/
theorem IsLeaf.slottedPageInit (pageId : ℕ) : IsLeaf (slottedPageInit pageId .btreeLeaf) [] 0 := by
  obtain ⟨htype, hcount, -, -, hzero⟩ := slottedPageInit_fields pageId .btreeLeaf
  exact ⟨htype, Page.leafEntries_eq hcount fun i hi => absurd hi (Nat.not_lt_zero i), hzero 24 4 (by decide),
    Nat.zero_le _⟩

/-- A fresh page that takes nothing from itself, keeps nothing and is linked to itself. -/
theorem IsLeaf.splitSelf {id : ℕ} (hvalid : id < invalidPageId) {fresh : Page} (h : IsLeaf fresh [] 0)
    (hfresh : fresh = FtsUring.slottedPageInit id .btreeLeaf) :
    IsLeaf ((((fresh.takeLeafEntries fresh (fresh.slotCount / 2)
      (fresh.slotCount - fresh.slotCount / 2)).setNextLeafId fresh.nextLeafId).setSlotCount
        (fresh.slotCount / 2)).setNextLeafId id) [] id := by
  have hcount : fresh.slotCount = 0 := h.slotCount
  have htake := h.takeLeafEntries (Nat.zero_le _) id
  rw [← hfresh] at htake
  have hmoved := (htake.setNextLeafId (Nat.two_pow_pos 32)).setSlotCount (Nat.zero_le _)
  have hlow := hmoved.setNextLeafId (lt_of_lt_of_le hvalid (by decide) : id < 2 ^ 32)
  rw [hcount, h.nextLeafId]
  exact hlow

/-- A split whose new page is the leaf itself empties the leaf and links it to itself. -/
theorem ensures_splitLeafNode_self {s : PageArray} (hidle : s.Idle) {id : ℕ} (hextent : id < s.extent)
    (hvalid : id < invalidPageId) (hcounter : s.nextPageId = id) (txnId : UInt32) :
    arrayHandler.Ensures (splitLeafNode id txnId) s fun _ t =>
      s.Settles t {id} ∧ ∃ page, t.Holds id page ∧ IsLeaf page [] id := by
  have hmem : id ∈ ({id} : Set ℕ) := Set.mem_singleton id
  have hinvalid : invalidPageId = 4294967295 := rfl
  -- the page is formatted, takes nothing from itself and is linked to itself
  have hformat : arrayHandler.exec (modifyPage id fun _ => slottedPageInit id .btreeLeaf)
      ((s.pin id).allocate.pin id) = some ((), (s.pin id).formatNew (slottedPageInit id .btreeLeaf)) := by
    have hexec := @PageArray.exec_formatNew (s.pin id) (fun _ => slottedPageInit id .btreeLeaf) _ fun _ _ => rfl
    have hnew : (s.pin id).nextPageId = id := hcounter
    rwa [hnew] at hexec
  set fresh := slottedPageInit id .btreeLeaf with hfresh
  set formatted := (s.pin id).formatNew fresh
  have hpinsFormatted : formatted.pins = id :: id :: s.pins := by
    change s.nextPageId :: id :: s.pins = _
    rw [hcounter]
  have htouchedFormatted : formatted.touched = {id} := by
    change insert s.nextPageId s.touched = {id}
    rw [hcounter, hidle.touched]
    exact insert_empty_eq id
  have hextentFormatted : formatted.extent = s.extent := by
    rw [PageArray.extent_formatNew]
    change max s.extent (s.nextPageId + 1) = s.extent
    omega
  have hidFormatted : id < formatted.extent := hextentFormatted ▸ hextent
  have hholdsFormatted : formatted.Holds id fresh := by
    have hholds := (s.pin id).holds_formatNew fresh
    rwa [show (s.pin id).nextPageId = id from hcounter] at hholds
  have hevolvesFormatted : s.Evolves formatted {id} :=
    ((PageArray.Evolves.refl s _).pin id).formatNew (hcounter ▸ hmem) _
  have hfreshLeaf : IsLeaf fresh [] 0 := IsLeaf.slottedPageInit id
  set moved := (fresh.takeLeafEntries fresh (fresh.slotCount / 2)
    (fresh.slotCount - fresh.slotCount / 2)).setNextLeafId fresh.nextLeafId
  set low := (moved.setSlotCount (fresh.slotCount / 2)).setNextLeafId id
  have hlowLeaf : IsLeaf low [] id := hfreshLeaf.splitSelf hvalid hfresh
  set changed := formatted.change id moved
  have hidChanged : id < changed.extent := (formatted.extent_change hidFormatted moved).symm ▸ hidFormatted
  set linked := changed.change id low
  have hidLinked : id < linked.extent := (changed.extent_change hidChanged low).symm ▸ hidChanged
  have hpinsLinked : linked.pins = id :: id :: s.pins := hpinsFormatted
  have htouchedLinked : linked.touched = {id} := by
    change insert id (insert id formatted.touched) = {id}
    rw [htouchedFormatted]
    simp
  have hchanging : linked.Changing [id, id] := by
    intro other hother
    obtain rfl : other = id := by simpa using hother
    rw [hpinsLinked, htouchedLinked]
    exact ⟨List.mem_cons_self, hmem, hidLinked, low, changed.content_change_self other low⟩
  have hpair : {other | other ∈ [id, id]} ⊆ ({id} : Set ℕ) := fun other hother => by simpa using hother
  have hevolves : s.Evolves linked {id} :=
    (hevolvesFormatted.change hidFormatted hmem moved).change hidChanged hmem low
  -- the run
  rw [splitLeafNode]
  refine .step (PageArray.exec_fetchPage (hidle.fetchable hvalid)) ?_
  simp only [Bool.not_true, Bool.false_eq_true, if_false]
  refine .step (PageArray.exec_takePageId (lt_of_eq_of_lt hcounter hvalid)) ?_
  have hnew : (s.pin id).nextPageId = id := hcounter
  rw [hnew]
  refine .step (PageArray.exec_writeZeroPage _ _) ?_
  have hallocated : ({ s.pin id with nextPageId := id + 1 } : PageArray).zeroOnDisk id = (s.pin id).allocate := by
    rw [PageArray.allocate, hnew]
  rw [hallocated]
  refine .step (PageArray.exec_fetchPage (hidle.fetchable_of_pins rfl rfl hvalid)) ?_
  simp only [Bool.not_true, Bool.false_eq_true, if_false]
  refine .step hformat ?_
  refine .step (PageArray.exec_pageData (hpinsFormatted ▸ List.mem_cons_self) hholdsFormatted) ?_
  refine .step (PageArray.exec_modifyPage_of_holds (hpinsFormatted ▸ List.mem_cons_self) hholdsFormatted _) ?_
  refine .step (PageArray.exec_modifyPage_of_holds (s := changed)
    (hpinsFormatted ▸ List.mem_cons_self : id ∈ formatted.pins) (formatted.content_change_self id moved) _) ?_
  refine ensures_stampSplit hchanging txnId _ fun t hstamped => ?_
  obtain ⟨hunpinOnce, hunpinTwice, hsettles⟩ := PageArray.settles_unpin_twice hidle.touched
    (hevolves.trans_same (hstamped.evolves.mono hpair)) (hstamped.pins.trans hpinsLinked)
    (hstamped.touched.trans htouchedLinked) (hstamped.extent.symm ▸ hidLinked)
  refine .step hunpinOnce (.of_exec hunpinTwice ⟨hsettles, ?_⟩)
  obtain ⟨page, hholds, hbody⟩ := hstamped.body id List.mem_cons_self low (changed.content_change_self id low)
  exact ⟨page, hholds, hlowLeaf.sameBody hbody⟩

/-- The insertion that splits the root with the counter at the root page. -/
theorem ensures_btreeInsert_self {s : PageArray} (hidle : s.Idle) {root : ℕ} {leaf : List BTreeLeafEntry}
    (h : TreeLinked s root [(root, leaf)]) (hfull : btreeMaxLeafEntries ≤ leaf.length)
    (hcounter : s.nextPageId = root) (entry : BTreeLeafEntry) (txnId : UInt32) :
    arrayHandler.Ensures (btreeInsert root entry.key entry.pageId entry.slotId txnId) s fun _ t =>
      t.touched = ∅ ∧ ∃ page, t.Holds root page ∧ IsLeaf page [entry] root := by
  obtain ⟨⟨hextent, hvalid, page, hholds, hleaf⟩, -⟩ := h.leaves
  have hwalk : arrayHandler.exec (btreeMoveRight entry.key walkLimit root) (s.pin root) =
      some (some root, s.pin root) := by
    rw [walkLimit, show (2 ^ 32 : ℕ) = (2 ^ 32 - 1) + 1 from rfl, btreeMoveRight,
      Handler.exec_bind_of_eq _ (PageArray.exec_pageData (s.mem_pins_pin root) hholds),
      if_neg fun hbelongs => ((hleaf.belongsRight_iff entry.key).mp hbelongs).1 rfl]
    rfl
  rw [btreeInsert]
  refine .step (PageArray.exec_fetchPage (hidle.fetchable hvalid)) ?_
  simp only [Bool.not_true, Bool.false_eq_true, if_false]
  refine .step (PageArray.exec_pageData (s.mem_pins_pin root) hholds) ?_
  rw [if_neg (not_not.mpr hleaf.pageType)]
  refine .step hwalk ?_
  have hroom : arrayHandler.Ensures (btreeMakeRoom entry.key root txnId) (s.pin root) fun target t =>
      ∃ u, target = some root ∧ t = u.pin root ∧ s.Settles u {root} ∧
        ∃ page, u.Holds root page ∧ IsLeaf page [] root := by
    rw [btreeMakeRoom]
    refine .step (PageArray.exec_pageData (s.mem_pins_pin root) hholds) ?_
    rw [hleaf.slotCount, if_pos hfull]
    refine .step (PageArray.exec_unpinPage_clean hidle root .normal) ?_
    refine (ensures_splitLeafNode_self hidle hextent hvalid hcounter txnId).bind ?_
    rintro - u ⟨hsettles, low, hlow, hlowLeaf⟩
    refine .step (PageArray.exec_fetchPage ((hsettles.idle hidle).fetchable hvalid)) ?_
    simp only [Bool.not_true, Bool.false_eq_true, if_false]
    refine .step (PageArray.exec_pageData (u.mem_pins_pin root) hlow) ?_
    have hstays : ¬low.BelongsRight entry.key := by
      rw [hlowLeaf.belongsRight_iff]
      rintro ⟨-, last, hlast, -⟩
      exact absurd hlast (Option.some_ne_none last).symm
    rw [if_neg hstays]
    exact .pure ⟨u, rfl, rfl, hsettles, low, hlow, hlowLeaf⟩
  refine hroom.bind ?_
  rintro - t ⟨u, rfl, rfl, hsettles, low, hlow, hlowLeaf⟩
  have hidle' := hsettles.idle hidle
  have hextent' : root < u.extent := lt_of_lt_of_le hextent hsettles.evolves.extent
  refine (ensures_btreeInsertEntry hidle'.touched hextent' hlow hlowLeaf (by decide) entry txnId).bind ?_
  rintro - v ⟨hsettles', -, page', hholds', hleaf'⟩
  exact .pure ⟨hsettles'.touched.trans hidle'.touched, page', hholds', hleaf'⟩

/-- Insertions of one key fill the root, and the one after them splits it. -/
theorem ensures_inserts_self {s : PageArray} (hidle : s.Idle) {root : ℕ} {leaf : List BTreeLeafEntry}
    (h : TreeLinked s root [(root, leaf)]) (hcounter : s.nextPageId = root) (entry : BTreeLeafEntry)
    (txnId : UInt32) {count : ℕ} (hcount : leaf.length + count = btreeMaxLeafEntries) :
    arrayHandler.Ensures (runTreeOps root (List.replicate (count + 1) (.insert entry txnId))) s fun _ t =>
      t.touched = ∅ ∧ ∃ page, t.Holds root page ∧ IsLeaf page [entry] root := by
  induction count generalizing s leaf with
  | zero =>
    rw [List.replicate_one, runTreeOps]
    exact (ensures_btreeInsert_self hidle h (le_of_eq hcount.symm) hcounter entry txnId).bind
      fun _ _ hend => .step rfl (.pure hend)
  | succ count ih =>
    have hroom : leaf.length < btreeMaxLeafEntries := by omega
    have hstays : LeafPages.splits entry.key [(root, leaf)] = false := by
      rw [LeafPages.splits, LeafChain.splits, if_neg fun hnext => hnext.1 rfl]
      exact decide_eq_false (not_le.mpr hroom)
    have hstep : LeafPages.insert s.nextPageId entry [(root, leaf)] =
        [(root, LeafChain.insertSorted BTreeLeafEntry.key entry leaf)] := by
      rw [LeafPages.insert, LeafChain.insert, if_neg fun hnext => hnext.1 rfl, LeafChain.place, if_pos hroom]
      rfl
    rw [List.replicate_succ, runTreeOps]
    refine (h.ensures_btreeInsert hidle (fun hsplits => absurd (hstays.symm.trans hsplits) Bool.false_ne_true)
      txnId).bind ?_
    rintro - t ⟨-, hlinked, hsettles, hcounter'⟩
    rw [hstep] at hlinked
    rw [hstays, Bool.toNat_false, Nat.add_zero, hcounter] at hcounter'
    refine (ih (hsettles.idle hidle) hlinked hcounter' ?_).bind fun _ _ hend => .pure hend
    rw [LeafChain.length_insertSorted]
    omega

/-- Leaves that are linked in a circle are no chain. -/
theorem Storage.not_treeBalanced_of_self {st : Storage} {root : ℕ} (hvalid : root ≠ invalidPageId)
    {leaf : List BTreeLeafEntry} (h : IsLeaf (st.currentPage root) leaf root) : ¬st.TreeBalanced root := by
  rintro ⟨chain, ⟨hroot, hnodup, hleaves⟩, -⟩
  cases chain with
  | nil => exact absurd hroot (Option.some_ne_none root).symm
  | cons first rest =>
    obtain ⟨id, first⟩ := first
    obtain rfl : id = root := Option.some.inj hroot
    have hnext : LeafPages.firstId invalidPageId rest = id := hleaves.1.2.nextLeafId.symm.trans h.nextLeafId
    cases rest with
    | nil => exact hvalid hnext.symm
    | cons second rest =>
      obtain ⟨other, second⟩ := second
      obtain rfl : other = id := hnext
      rw [LeafChain.ids_cons, LeafChain.ids_cons, List.nodup_cons] at hnodup
      exact hnodup.1 List.mem_cons_self

/-- With the counter at the root page, 251 insertions into a new tree link the root to itself. -/
theorem not_treeBalanced_counter_at_root :
    ¬poolHandler.Ensures (do
        pinPages []
        btreeInit 0
        runTreeOps 0 (List.replicate 251 (.insert ⟨7, 3, 1⟩ 0)))
      ⟨bufferPoolInit 0 none Host.empty 2, 0⟩ fun _ m => m.storage.TreeBalanced 0 := by
  have hnew : (Host.empty.diskPage 0).pageType ≠ PageType.btreeLeaf.code ∧
      (Host.empty.diskPage 0).pageType ≠ PageType.btreeInternal.code := by
    rw [pageType_empty]
    decide
  have hstart : Represents ⟨bufferPoolInit 0 none Host.empty 2, 0⟩ (PageArray.ofHost Host.empty none 2 0) :=
    represents_bufferPoolInit ⟨rfl, rfl, rfl, rfl⟩ (le_refl 0) none (by decide) (le_refl _) (by decide)
  have hrun : arrayHandler.Ensures (do
        pinPages []
        btreeInit 0
        runTreeOps 0 (List.replicate 251 (.insert ⟨7, 3, 1⟩ 0)))
      (PageArray.ofHost Host.empty none 2 0) fun _ t =>
        t.touched = ∅ ∧ ∃ page, t.Holds 0 page ∧ IsLeaf page [⟨7, 3, 1⟩] 0 := by
    rw [← bind_assoc]
    refine (@ensures_newTree Host.empty none 2 [] (by simp) (by decide) (by decide) 0 0 (by decide) hnew).bind ?_
    rintro - t ⟨htree, hidle, hcounter⟩
    exact @ensures_inserts_self t hidle 0 [] htree.linked hcounter ⟨7, 3, 1⟩ 0 250 rfl
  obtain ⟨answers, t, hexec, hsettled, page, hholds, hleaf⟩ := hrun
  obtain ⟨m, hexec', hend⟩ := poolHandler_simulates.exec hstart hexec
  rintro ⟨answers', m', hexec'', hbalanced⟩
  obtain ⟨-, rfl⟩ := Prod.mk.inj (Option.some.inj (hexec'.symm.trans hexec''))
  have hpage := hend.currentPage (by decide) hholds (hsettled ▸ Set.notMem_empty 0)
  rw [← hpage] at hleaf
  exact Storage.not_treeBalanced_of_self (by decide) hleaf hbalanced

end FtsUring
