import FtsUring.BTree.Changes

/-!
# Inserting into the B-tree

An insertion walks to the leaf that the key belongs to, splits it if it is full, and inserts the
entry into one of the halves. On the chain of leaves this is `LeafChain.insert`.
-/

namespace FtsUring

open Foundation

/-- Releasing a page that was only read, when nothing is half changed. -/
theorem PageArray.exec_unpinPage_read {s : PageArray} (hsettled : s.touched = ∅) (pageId : ℕ)
    (hint : BufferPoolHint) :
    arrayHandler.exec (unpinPage pageId false hint) (s.pin pageId) = some ((), s) := by
  rw [exec_unpinPage (s.mem_pins_pin pageId) (by simp [pin, hsettled]) (by simp), s.unpin_pin]

/-- Releasing a page that was only read. -/
theorem PageArray.exec_unpinPage_clean {s : PageArray} (hidle : s.Idle) (pageId : ℕ)
    (hint : BufferPoolHint) :
    arrayHandler.exec (unpinPage pageId false hint) (s.pin pageId) = some ((), s) :=
  exec_unpinPage_read hidle.touched pageId hint

/-! ## The walk -/

/-- The key belongs to the leaf at this place of the chain, and an insertion takes place there. -/
structure LeafPages.Target (chain : LeafPages) (key : UInt64) (before : LeafPages) (id : ℕ)
    (leaf : List BTreeLeafEntry) (rest : LeafPages) : Prop where
  place : chain = before ++ (id, leaf) :: rest
  target : chain.target key = some id
  stays : ¬(rest ≠ [] ∧ LeafChain.Below BTreeLeafEntry.key leaf key)
  insert : ∀ newId entry, entry.key = key → chain.insert newId entry =
    before ++ LeafChain.place BTreeLeafEntry.key btreeMaxLeafEntries newId entry id leaf ++ rest
  splits : chain.splits key = decide (btreeMaxLeafEntries ≤ leaf.length)

namespace LeafPages.Target

variable {key : UInt64} {id : ℕ} {leaf : List BTreeLeafEntry} {rest : LeafPages}

/-- The key belongs to the first leaf. -/
theorem here (h : ¬(rest ≠ [] ∧ LeafChain.Below BTreeLeafEntry.key leaf key)) :
    Target ((id, leaf) :: rest) key [] id leaf rest := by
  refine ⟨rfl, ?_, h, fun newId entry hkey => ?_, ?_⟩
  · rw [LeafPages.target, LeafChain.target, if_neg h]
  · rw [LeafPages.insert, LeafChain.insert, if_neg (hkey.symm ▸ h)]
    rfl
  · rw [LeafPages.splits, LeafChain.splits, if_neg h]

/-- The key belongs to a later leaf. -/
theorem there (h : rest ≠ [] ∧ LeafChain.Below BTreeLeafEntry.key leaf key) {before behind : LeafPages}
    {target : ℕ} {targetLeaf : List BTreeLeafEntry}
    (hrest : Target rest key before target targetLeaf behind) :
    Target ((id, leaf) :: rest) key ((id, leaf) :: before) target targetLeaf behind := by
  refine ⟨by rw [hrest.place]; rfl, ?_, hrest.stays, fun newId entry hkey => ?_, ?_⟩
  · rw [LeafPages.target, LeafChain.target, if_pos h]
    exact hrest.target
  · rw [LeafPages.insert, LeafChain.insert, if_pos (hkey.symm ▸ h)]
    exact congrArg ((id, leaf) :: ·) (hrest.insert newId entry hkey)
  · rw [LeafPages.splits, LeafChain.splits, if_pos h]
    exact hrest.splits

end LeafPages.Target

/-- What follows the chain is a page if there is a further leaf. -/
theorem LeavesAt.firstId_valid {s : PageArray} {chain : LeafPages} (h : LeavesAt s invalidPageId chain)
    (hne : chain ≠ []) : chain.firstId invalidPageId < invalidPageId := by
  cases chain with
  | nil => exact absurd rfl hne
  | cons first rest => exact h.1.2.1

/-- The walk goes on from a leaf that is not the last if its last key is below. -/
theorem LeavesAt.belongsRight_iff {s : PageArray} {rest : LeafPages} (hrest : LeavesAt s invalidPageId rest)
    {page : Page} {leaf : List BTreeLeafEntry}
    (hleaf : IsLeaf page leaf (LeafPages.firstId invalidPageId rest)) (key : UInt64) :
    page.BelongsRight key ↔ rest ≠ [] ∧ LeafChain.Below BTreeLeafEntry.key leaf key := by
  have hnext : LeafPages.firstId invalidPageId rest ≠ invalidPageId ↔ rest ≠ [] := by
    refine ⟨?_, fun hne => (hrest.firstId_valid hne).ne⟩
    rintro hne rfl
    exact hne rfl
  rw [hleaf.belongsRight_iff, hnext]

/-- The walk from a pinned leaf ends at a pinned leaf, and the insertion takes place there. -/
theorem exec_btreeMoveRight {s : PageArray} (hidle : s.Idle) {chain : LeafPages} (hne : chain ≠ [])
    (hleaves : LeavesAt s invalidPageId chain) (key : UInt64) {fuel : ℕ}
    (hfuel : chain.length ≤ fuel) :
    ∃ before id leaf rest, chain.Target key before id leaf rest ∧
      arrayHandler.exec (btreeMoveRight key fuel (chain.firstId invalidPageId))
        (s.pin (chain.firstId invalidPageId)) = some (some id, s.pin id) := by
  induction chain generalizing fuel with
  | nil => exact absurd rfl hne
  | cons first rest ih =>
    obtain ⟨id, leaf⟩ := first
    obtain ⟨⟨hextent, hvalid, page, hholds, hleaf⟩, hrest⟩ := hleaves
    have hbelongs := hrest.belongsRight_iff hleaf key
    cases fuel with
    | zero => exact absurd hfuel (Nat.not_succ_le_zero _)
    | succ fuel =>
      rw [LeafPages.firstId, btreeMoveRight,
        Handler.exec_bind_of_eq _ (PageArray.exec_pageData (s.mem_pins_pin id) hholds)]
      by_cases hright : rest ≠ [] ∧ LeafChain.Below BTreeLeafEntry.key leaf key
      · have hvalidNext := hrest.firstId_valid hright.1
        obtain ⟨before, target, targetLeaf, behind, htarget, hexec⟩ :=
          ih hright.1 hrest (Nat.le_of_succ_le_succ hfuel)
        refine ⟨(id, leaf) :: before, target, targetLeaf, behind, .there hright htarget, ?_⟩
        rw [if_pos (hbelongs.mpr hright), hleaf.nextLeafId,
          Handler.exec_bind_of_eq _ (PageArray.exec_unpinPage_clean hidle id .normal),
          Handler.exec_bind_of_eq _ (PageArray.exec_fetchPage (hidle.fetchable hvalidNext))]
        simp only [Bool.not_true, Bool.false_eq_true, if_false]
        exact hexec
      · refine ⟨[], id, leaf, rest, .here hright, ?_⟩
        rw [if_neg fun h => hright (hbelongs.mp h)]
        rfl

/-! ## The insertion at the end of the walk -/

/-- Inserting into a pinned page: up to the LSN and the checksum the page is the one with the entry. -/
theorem ensures_btreeInsertEntry_body {s : PageArray} (hsettled : s.touched = ∅) {id : ℕ}
    (hextent : id < s.extent) {page : Page} (hholds : s.Holds id page) (entry : BTreeLeafEntry) (txnId : UInt32) :
    arrayHandler.Ensures (btreeInsertEntry entry id txnId) (s.pin id) fun _ t =>
      s.Settles t {id} ∧ t.nextPageId = s.nextPageId ∧ ∃ page', t.Holds id page' ∧
        (page.insertLeafEntry (page.leafInsertIdx entry.key) entry).SameBody page' := by
  have hchanging := PageArray.changing_change (s.mem_pins_pin id) hextent
    (page.insertLeafEntry (page.leafInsertIdx entry.key) entry)
  rw [btreeInsertEntry]
  refine .step (PageArray.exec_pageData (s.mem_pins_pin id) hholds) ?_
  refine .step (PageArray.exec_modifyPage_of_holds (s.mem_pins_pin id) hholds _) ?_
  refine (ensures_logRecord hchanging txnId .recInsert id _ _).bind fun _ logged hlogged => ?_
  refine (ensures_checksumPage (hlogged.changing hchanging) (List.mem_singleton_self id)).bind
    fun _ t hsummed => ?_
  obtain ⟨hunpin, hdone⟩ := settles_unpin hsettled hextent (hlogged.trans hsummed)
  exact .of_exec hunpin hdone

/-- Inserting into a pinned leaf that is not full. -/
theorem ensures_btreeInsertEntry {s : PageArray} (hsettled : s.touched = ∅) {id next : ℕ}
    (hextent : id < s.extent) {page : Page} {leaf : List BTreeLeafEntry} (hholds : s.Holds id page)
    (hleaf : IsLeaf page leaf next) (hroom : leaf.length < btreeMaxLeafEntries)
    (entry : BTreeLeafEntry) (txnId : UInt32) :
    arrayHandler.Ensures (btreeInsertEntry entry id txnId) (s.pin id) fun _ t =>
      s.Settles t {id} ∧ t.nextPageId = s.nextPageId ∧ ∃ page', t.Holds id page' ∧
        IsLeaf page' (LeafChain.insertSorted BTreeLeafEntry.key entry leaf) next := by
  have hindex : page.leafInsertIdx entry.key =
      leaf.findIdx fun other => entry.key < other.key := by
    rw [Page.leafInsertIdx, hleaf.leafEntries]
  refine (ensures_btreeInsertEntry_body hsettled hextent hholds entry txnId).mono ?_
  rintro - t ⟨hsettles, hcounter, page', hholds', hbody⟩
  refine ⟨hsettles, hcounter, page', hholds', IsLeaf.sameBody ?_ hbody⟩
  rw [hindex]
  exact hleaf.insertLeafEntry hroom List.findIdx_le_length entry

/-- Making room in a pinned leaf and inserting: the leaf is replaced by what `place` says. -/
theorem ensures_btreePlace {s : PageArray} (hsettled : s.touched = ∅) {id next : ℕ} (hextent : id < s.extent)
    (hid : s.Fetchable id) {page : Page} {leaf : List BTreeLeafEntry}
    (hholds : s.Holds id page) (hleaf : IsLeaf page leaf next) (hnext : next < 2 ^ 32)
    (entry : BTreeLeafEntry)
    (hpage : btreeMaxLeafEntries ≤ leaf.length → (s.pin id).Fetchable s.nextPageId ∧ s.nextPageId ≠ id)
    (txnId : UInt32) :
    arrayHandler.Ensures (btreeMakeRoom entry.key id txnId) (s.pin id) fun target t =>
      ∃ currId, target = some currId ∧ arrayHandler.Ensures (btreeInsertEntry entry currId txnId) t
        fun _ u => s.Settles u {other | other = id ∨
            (btreeMaxLeafEntries ≤ leaf.length ∧ other = s.nextPageId)} ∧
          u.nextPageId = s.nextPageId + (if btreeMaxLeafEntries ≤ leaf.length then 1 else 0) ∧
          LeavesAt u next (LeafChain.place BTreeLeafEntry.key btreeMaxLeafEntries s.nextPageId
            entry id leaf) := by
  rw [btreeMakeRoom]
  refine .step (PageArray.exec_pageData (s.mem_pins_pin id) hholds) ?_
  rw [hleaf.slotCount, LeafChain.place]
  by_cases hfull : btreeMaxLeafEntries ≤ leaf.length
  swap
  · -- there is room
    rw [if_neg hfull, if_neg hfull, if_pos (not_le.mp hfull)]
    refine .pure ⟨id, rfl, (ensures_btreeInsertEntry hsettled hextent hholds hleaf (not_le.mp hfull)
      entry txnId).mono ?_⟩
    rintro - u ⟨hsettles, hcounter', page', hholds', hleaf'⟩
    refine ⟨hsettles.mono fun _ => Or.inl, hcounter', ⟨?_, hid.1, page', hholds', hleaf'⟩, trivial⟩
    exact lt_of_lt_of_le hextent hsettles.evolves.extent
  rw [if_pos hfull, if_pos hfull, if_neg (not_lt.mpr hfull)]
  obtain ⟨hnew, hfresh⟩ := hpage hfull
  have hvalid : id < invalidPageId := hid.1
  have hcounter : s.nextPageId < invalidPageId := hnew.1
  have hlength : leaf.length ≤ 250 := hleaf.fits
  have hmax : btreeMaxLeafEntries = 250 := rfl
  refine .step (PageArray.exec_unpinPage_read hsettled id .normal) ?_
  refine (ensures_splitLeafNode hsettled hextent hid hholds hleaf hnext hnew hfresh txnId).bind ?_
  rintro - t ⟨hsplit, hcounter', hnewExtent, ⟨low, hlow, hlowLeaf⟩, high, hhigh, hhighLeaf⟩
  have hsettledT : t.touched = ∅ := hsplit.touched.trans hsettled
  have hidExtent : id < t.extent := lt_of_lt_of_le hextent hsplit.evolves.extent
  set changed : Set ℕ :=
    {other | other = id ∨ (btreeMaxLeafEntries ≤ leaf.length ∧ other = s.nextPageId)}
  have hpair : ({id, s.nextPageId} : Set ℕ) ⊆ changed :=
    Set.insert_subset (Or.inl rfl) (Set.singleton_subset_iff.mpr (Or.inr ⟨hfull, rfl⟩))
  have hboth {u : PageArray} {other : ℕ} (h : t.Settles u {other})
      (hmem : other ∈ ({id, s.nextPageId} : Set ℕ)) : s.Settles u changed :=
    (hsplit.trans h).mono (Set.union_subset hpair fun _ hsame => hpair (hsame ▸ hmem))
  refine .step (PageArray.exec_fetchPage (hid.of_pins hsplit.pins hsplit.evolves.room)) ?_
  simp only [Bool.not_true, Bool.false_eq_true, if_false]
  refine .step (PageArray.exec_pageData (t.mem_pins_pin id) hlow) ?_
  have hbelongs : low.BelongsRight entry.key ↔
      LeafChain.Below BTreeLeafEntry.key (leaf.take (leaf.length / 2)) entry.key := by
    rw [hlowLeaf.belongsRight_iff]
    exact and_iff_right hcounter.ne
  by_cases hright : LeafChain.Below BTreeLeafEntry.key (leaf.take (leaf.length / 2)) entry.key
  · -- the entry belongs to the new leaf
    rw [if_pos (hbelongs.mpr hright), if_pos hright, hlowLeaf.nextLeafId]
    refine .step (PageArray.exec_unpinPage_read hsettledT id .normal) ?_
    refine .step (PageArray.exec_fetchPage ((hnew.of_pin hfresh).of_pins hsplit.pins hsplit.evolves.room)) ?_
    simp only [Bool.not_true, Bool.false_eq_true, if_false]
    have hroom : (leaf.drop (leaf.length / 2)).length < btreeMaxLeafEntries := by
      rw [List.length_drop]
      omega
    refine .pure ⟨s.nextPageId, rfl, (ensures_btreeInsertEntry hsettledT hnewExtent hhigh hhighLeaf
      hroom entry txnId).mono ?_⟩
    rintro - u ⟨hsettles, hcounter'', page', hholds', hleaf'⟩
    refine ⟨hboth hsettles (by simp), hcounter''.trans hcounter',
      ⟨?_, hvalid, low, ?_, hlowLeaf⟩, ⟨?_, hcounter, page', hholds', hleaf'⟩, trivial⟩
    · exact lt_of_lt_of_le hidExtent hsettles.evolves.extent
    · exact hsettles.evolves.holds hidExtent hfresh.symm hlow
    · exact lt_of_lt_of_le hnewExtent hsettles.evolves.extent
  · -- the entry belongs to the old leaf
    rw [if_neg fun h => hright (hbelongs.mp h), if_neg hright]
    have hroom : (leaf.take (leaf.length / 2)).length < btreeMaxLeafEntries := by
      rw [List.length_take]
      omega
    refine .pure ⟨id, rfl, (ensures_btreeInsertEntry hsettledT hidExtent hlow hlowLeaf hroom entry
      txnId).mono ?_⟩
    rintro - u ⟨hsettles, hcounter'', page', hholds', hleaf'⟩
    refine ⟨hboth hsettles (by simp), hcounter''.trans hcounter',
      ⟨?_, hvalid, page', hholds', hleaf'⟩, ⟨?_, hcounter, high, ?_, hhighLeaf⟩, trivial⟩
    · exact lt_of_lt_of_le hidExtent hsettles.evolves.extent
    · exact lt_of_lt_of_le hnewExtent hsettles.evolves.extent
    · exact hsettles.evolves.holds hnewExtent hfresh hhigh

/-- What follows a chain of valid leaves, or a valid page. -/
theorem LeavesAt.firstId_lt {s : PageArray} {next : ℕ} {chain : LeafPages}
    (h : LeavesAt s next chain) (hnext : next < 2 ^ 32) : chain.firstId next < 2 ^ 32 := by
  cases chain with
  | nil => exact hnext
  | cons first rest => exact h.1.2.1.trans (by decide)

/-- The insertion at the pinned leaf that the key belongs to. -/
theorem TreeLinked.ensures_insertAt {s : PageArray} {root : ℕ} {chain : LeafPages}
    (h : TreeLinked s root chain) (hsettled : s.touched = ∅) {entry : BTreeLeafEntry} {before rest : LeafPages}
    {id : ℕ} {leaf : List BTreeLeafEntry} (htarget : chain.Target entry.key before id leaf rest)
    (hid : s.Fetchable id)
    (hpage : chain.splits entry.key → (s.pin id).Fetchable s.nextPageId ∧ s.nextPageId ∉ chain.ids)
    (txnId : UInt32) :
    arrayHandler.Ensures (do
        match ← btreeMakeRoom entry.key id txnId with
        | none => return false
        | some currPageId =>
          btreeInsertEntry entry currPageId txnId
          return true) (s.pin id)
      fun inserted t => inserted = true ∧ TreeLinked t root (chain.insert s.nextPageId entry) ∧
        s.Settles t {id | id ∈ chain.ids ∨ (chain.splits entry.key ∧ id = s.nextPageId)} ∧
          t.nextPageId = s.nextPageId + (chain.splits entry.key).toNat := by
  have hinvalid : invalidPageId < 2 ^ 32 := by decide
  have hleaves := LeavesAt.append.mp (htarget.place ▸ h.leaves)
  obtain ⟨hbefore, ⟨hextent, hvalid, page, hholds, hleaf⟩, hrest⟩ := hleaves
  have hchainIds : chain.ids = before.ids ++ id :: LeafChain.ids rest := by
    rw [htarget.place, LeafChain.ids_append, LeafChain.ids_cons]
  have hnodup : before.ids.Nodup ∧ id ∉ LeafChain.ids rest ∧ ∀ other ∈ before.ids, other ≠ id := by
    have hall := h.nodup
    rw [hchainIds, List.nodup_append, List.nodup_cons] at hall
    exact ⟨hall.1, hall.2.1.1, fun other hmem => hall.2.2 other hmem id List.mem_cons_self⟩
  have hidMem : id ∈ chain.ids := hchainIds ▸ List.mem_append_right _ List.mem_cons_self
  have hfits := hrest.firstId_lt hinvalid
  have hsplitsOf : btreeMaxLeafEntries ≤ leaf.length → chain.splits entry.key :=
    fun hle => htarget.splits.trans (decide_eq_true hle)
  have hfull : btreeMaxLeafEntries ≤ leaf.length →
      (s.pin id).Fetchable s.nextPageId ∧ s.nextPageId ≠ id := by
    intro hle
    obtain ⟨hnew, hfresh⟩ := hpage (hsplitsOf hle)
    exact ⟨hnew, fun heq => hfresh (heq ▸ hidMem)⟩
  refine (ensures_btreePlace hsettled hextent hid hholds hleaf hfits entry hfull txnId).bind ?_
  rintro _ t ⟨currId, rfl, hplace⟩
  refine hplace.bind ?_
  rintro - u ⟨hsettles, hcounter', hplaced⟩
  have hother : ∀ other ∈ chain.ids, other ≠ id → ¬(other = id ∨
      (btreeMaxLeafEntries ≤ leaf.length ∧ other = s.nextPageId)) := by
    rintro other hmem hne (rfl | ⟨hle, rfl⟩)
    · exact hne rfl
    · exact (hpage (hsplitsOf hle)).2 hmem
  have hinserted := htarget.insert s.nextPageId entry rfl
  refine .pure ⟨rfl, ⟨?_, ?_, ?_⟩, hsettles.mono ?_, ?_⟩
  · -- the leaves in front and behind are where they were
    rw [hinserted, List.append_assoc, LeavesAt.append, LeavesAt.append]
    have hfirst : LeafPages.firstId invalidPageId (LeafChain.place BTreeLeafEntry.key
        btreeMaxLeafEntries s.nextPageId entry id leaf ++ rest) = id := by
      simp only [LeafChain.place]
      split_ifs <;> rfl
    rw [hfirst]
    refine ⟨hbefore.evolves hsettles.evolves fun other hmem => ?_, hplaced,
      hrest.evolves hsettles.evolves fun other hmem => ?_⟩
    · exact hother other (hchainIds ▸ List.mem_append_left _ hmem) (hnodup.2.2 other hmem)
    · exact hother other (hchainIds ▸ List.mem_append_right _ (List.mem_cons_of_mem id hmem))
        fun heq => hnodup.2.1 (heq ▸ hmem)
  · rw [LeafPages.insert, LeafChain.head?_ids_insert, h.root]
  · rw [LeafPages.insert, (LeafChain.perm_ids_insert _ _ _ _ _).nodup_iff]
    split_ifs with hsplit
    · exact List.nodup_cons.mpr ⟨(hpage hsplit).2, h.nodup⟩
    · exact h.nodup
  · rintro other (rfl | ⟨hle, rfl⟩)
    · exact Or.inl hidMem
    · exact Or.inr ⟨hsplitsOf hle, rfl⟩
  · rw [hcounter', htarget.splits]
    split_ifs with hle
    · rw [decide_eq_true hle]
      rfl
    · rw [decide_eq_false hle]
      rfl

/-- An insertion adds an entry. -/
theorem TreeLinked.ensures_btreeInsert {s : PageArray} {root : ℕ} {chain : LeafPages}
    (h : TreeLinked s root chain) (hidle : s.Idle) {entry : BTreeLeafEntry}
    (hpage : chain.splits entry.key → s.nextPageId < invalidPageId ∧ s.nextPageId ∉ chain.ids)
    (txnId : UInt32) :
    arrayHandler.Ensures (btreeInsert root entry.key entry.pageId entry.slotId txnId) s
      fun inserted t => inserted = true ∧ TreeLinked t root (chain.insert s.nextPageId entry) ∧
        s.Settles t {id | id ∈ chain.ids ∨ (chain.splits entry.key ∧ id = s.nextPageId)} ∧
          t.nextPageId = s.nextPageId + (chain.splits entry.key).toNat := by
  obtain ⟨rootLeaf, rootRest, hroot⟩ := h.exists_first
  obtain ⟨⟨hrootExtent, hrootValid, rootPage, hrootHolds, hrootLeaf⟩, -⟩ := hroot ▸ h.leaves
  obtain ⟨before, id, leaf, rest, htarget, hwalk⟩ :=
    exec_btreeMoveRight hidle h.ne_nil h.leaves entry.key (h.leaves.length_lt h.nodup).le
  have hmem : id ∈ chain.ids := by
    rw [htarget.place, LeafChain.ids_append, LeafChain.ids_cons]
    exact List.mem_append_right _ List.mem_cons_self
  have hvalid := (h.leaves.valid hmem).2
  rw [btreeInsert]
  refine .step (PageArray.exec_fetchPage (hidle.fetchable hrootValid)) ?_
  simp only [Bool.not_true, Bool.false_eq_true, if_false]
  refine .step (PageArray.exec_pageData (s.mem_pins_pin root) hrootHolds) ?_
  rw [if_neg (not_not.mpr hrootLeaf.pageType)]
  rw [h.firstId_eq] at hwalk
  refine .step hwalk ?_
  refine h.ensures_insertAt hidle.touched htarget (hidle.fetchable hvalid) (fun hsplits => ?_) txnId
  obtain ⟨hcounter, hfresh⟩ := hpage hsplits
  exact ⟨hidle.fetchable_of_pins rfl rfl hcounter, hfresh⟩

/-- An insertion of a new key into a tree. -/
theorem TreeAt.ensures_btreeInsert {s : PageArray} {root : ℕ} {chain : LeafPages}
    (h : TreeAt s root chain) (hidle : s.Idle) {entry : BTreeLeafEntry}
    (habsent : chain.lookup entry.key = none)
    (hpage : chain.splits entry.key → s.nextPageId < invalidPageId ∧ s.nextPageId ∉ chain.ids)
    (txnId : UInt32) :
    arrayHandler.Ensures (btreeInsert root entry.key entry.pageId entry.slotId txnId) s
      fun inserted t => inserted = true ∧ TreeAt t root (chain.insert s.nextPageId entry) ∧
        s.Settles t {id | id ∈ chain.ids ∨ (chain.splits entry.key ∧ id = s.nextPageId)} ∧
          t.nextPageId = s.nextPageId + (chain.splits entry.key).toNat := by
  refine (h.linked.ensures_btreeInsert hidle hpage txnId).mono ?_
  rintro inserted t ⟨hinserted, hlinked, hrest⟩
  exact ⟨hinserted, ⟨hlinked.leaves, hlinked.root, hlinked.nodup,
    h.distinct.insert _ _ _ h.ne_nil habsent⟩, hrest⟩

end FtsUring
