import FtsUring.Storage.SlottedPage

/-!
# B-tree pages

The layout of leaf and internal nodes. A leaf is a page header, the id of the next leaf at
offset 24, and from offset 28 on an array of 16-byte entries: the key, a page id, a slot id and
two bytes of padding. Internal nodes have the same shape with child page ids.

`IsLeaf` reads a page as a leaf with a list of entries; the operations on leaf pages are then
operations on that list.
-/

namespace FtsUring

open Foundation

/-- `BTREE_MAX_LEAF_ENTRIES`. -/
def btreeMaxLeafEntries : ℕ := 250

/-- A key with the page and the slot it maps to. -/
structure BTreeLeafEntry where
  key : UInt64
  pageId : UInt32
  slotId : UInt16
  deriving DecidableEq, Repr

namespace Page

/-- `leaf->next_leaf_id`. -/
def nextLeafId (page : Page) : ℕ := page.field 24 4

/-- Assign `leaf->next_leaf_id`. -/
def setNextLeafId (page : Page) (pageId : ℕ) : Page := page.setField 24 4 pageId

/-- `leaf->entries[i]`. -/
def leafEntry (page : Page) (i : ℕ) : BTreeLeafEntry where
  key := UInt64.ofNat (page.field (28 + 16 * i) 8)
  pageId := UInt32.ofNat (page.field (36 + 16 * i) 4)
  slotId := UInt16.ofNat (page.field (40 + 16 * i) 2)

/-- Assign the members of `leaf->entries[i]`. -/
def setLeafEntry (page : Page) (i : ℕ) (entry : BTreeLeafEntry) : Page :=
  ((page.setField (28 + 16 * i) 8 entry.key.toNat).setField (36 + 16 * i) 4
    entry.pageId.toNat).setField (40 + 16 * i) 2 entry.slotId.toNat

/-- `leaf->entries[target] = leaf->entries[source]`. -/
def copyLeafEntry (page : Page) (source target : ℕ) : Page :=
  page.overwrite (28 + 16 * target) (page.slice (28 + 16 * source) 16)

/-- The entries of a leaf. -/
def leafEntries (page : Page) : List BTreeLeafEntry :=
  (List.range page.slotCount).map page.leafEntry

/-- Shift the entries from `insertIdx` on to the right, starting with the last. -/
def shiftLeafEntries (page : Page) (insertIdx : ℕ) : ℕ → Page
  | 0 => page
  | i + 1 =>
    if insertIdx < i + 1 then (page.copyLeafEntry i (i + 1)).shiftLeafEntries insertIdx i else page

/-- The index before which a key is inserted: the first entry with a greater key. -/
def leafInsertIdx (page : Page) (key : UInt64) : ℕ :=
  page.leafEntries.findIdx fun entry => key < entry.key

/-- Insert an entry at an index. -/
def insertLeafEntry (page : Page) (insertIdx : ℕ) (entry : BTreeLeafEntry) : Page :=
  let page := (page.shiftLeafEntries insertIdx page.slotCount).setLeafEntry insertIdx entry
  page.setSlotCount (page.slotCount + 1)

/-- `memcpy` of the last `count` entries of another leaf, which start at `first`. -/
def takeLeafEntries (page source : Page) (first count : ℕ) : Page :=
  (page.overwrite 28 (source.slice (28 + 16 * first) (16 * count))).setSlotCount count

/-- The child of an internal node to descend to: entries are taken as long as the key is not
below them. -/
def internalChild (page : Page) (key : UInt64) : ℕ :=
  let entryKey (i : ℕ) : UInt64 := UInt64.ofNat (page.field (28 + 16 * i) 8)
  let taken := (List.range page.slotCount).takeWhile fun i => entryKey i ≤ key
  match taken.getLast? with
  | none => page.field 24 4
  | some i => page.field (36 + 16 * i) 4

/-! ## Stores and the fields of a leaf -/

/-- Two pages that agree from the page type on; the LSN and the checksum may differ. -/
def SameBody (page other : Page) : Prop :=
  ∀ start width, 16 ≤ start → other.field start width = page.field start width

/-- Storing the LSN. -/
theorem sameBody_setLsn (page : Page) (lsn : UInt64) : page.SameBody (page.setLsn lsn) :=
  fun start width h => page.field_setField_of_disjoint 0 8 _ start width (Or.inr (by omega))

/-- Storing the checksum. -/
theorem sameBody_computeChecksum (page : Page) :
    page.SameBody (slottedPageComputeChecksum page) := by
  intro start width h
  have hdisjoint : start + width ≤ 12 ∨ 12 + 4 ≤ start := Or.inr h
  rw [slottedPageComputeChecksum, setChecksum, field_setField_of_disjoint _ _ _ _ _ _ hdisjoint,
    setChecksum, field_setField_of_disjoint _ _ _ _ _ _ hdisjoint]

/-- Two stores. -/
theorem SameBody.trans {page other third : Page} (h : page.SameBody other)
    (h' : other.SameBody third) : page.SameBody third :=
  fun start width hstart => (h' start width hstart).trans (h start width hstart)

/-- A store in front of the entries leaves the entries alone. -/
theorem leafEntry_setField (page : Page) {offset width : ℕ} (value : ℕ) (h : offset + width ≤ 28)
    (i : ℕ) : (page.setField offset width value).leafEntry i = page.leafEntry i := by
  simp only [leafEntry, page.field_setField_of_disjoint offset width value _ _
    (Or.inr (by omega : offset + width ≤ 28 + 16 * i)),
    page.field_setField_of_disjoint offset width value _ _
      (Or.inr (by omega : offset + width ≤ 36 + 16 * i)),
    page.field_setField_of_disjoint offset width value _ _
      (Or.inr (by omega : offset + width ≤ 40 + 16 * i))]

/-- Entries whose bytes agree are equal. -/
theorem leafEntry_eq_of_fields {page other : Page} {i j : ℕ}
    (h : ∀ start width, start + width ≤ 16 →
      page.field (28 + 16 * i + start) width = other.field (28 + 16 * j + start) width) :
    page.leafEntry i = other.leafEntry j := by
  have hkey := h 0 8 (by omega)
  have hpage := h 8 4 (by omega)
  have hslot := h 12 2 (by omega)
  rw [Nat.add_zero, Nat.add_zero] at hkey
  rw [show 28 + 16 * i + 8 = 36 + 16 * i by omega,
    show 28 + 16 * j + 8 = 36 + 16 * j by omega] at hpage
  rw [show 28 + 16 * i + 12 = 40 + 16 * i by omega,
    show 28 + 16 * j + 12 = 40 + 16 * j by omega] at hslot
  simp only [leafEntry]
  rw [hkey, hpage, hslot]

/-- The target of a copied entry. -/
theorem leafEntry_copyLeafEntry_self (page : Page) {source target : ℕ} (hsource : source ≤ 253)
    (htarget : target ≤ 253) : (page.copyLeafEntry source target).leafEntry target =
      page.leafEntry source := by
  have hlength : (page.slice (28 + 16 * source) 16).length = 16 := page.length_slice _ _ (by omega)
  apply leafEntry_eq_of_fields
  intro start width hwidth
  rw [copyLeafEntry, field_overwrite_of_within _ _ _ _ _ (by omega) (by omega) (by omega),
    Nat.add_sub_cancel_left, field_slice _ _ _ _ _ hwidth]

/-- The other entries after one was copied. -/
theorem leafEntry_copyLeafEntry_of_ne (page : Page) (source : ℕ) {target i : ℕ} (h : i ≠ target) :
    (page.copyLeafEntry source target).leafEntry i = page.leafEntry i := by
  have hlength : (page.slice (28 + 16 * source) 16).length ≤ 16 := by
    rw [slice, Foundation.length_slice]
    omega
  simp only [leafEntry, copyLeafEntry]
  rw [field_overwrite_of_disjoint _ _ _ _ _ (by omega),
    field_overwrite_of_disjoint _ _ _ _ _ (by omega),
    field_overwrite_of_disjoint _ _ _ _ _ (by omega)]

/-- A copied entry leaves the fields in front of the entries alone. -/
theorem field_copyLeafEntry (page : Page) (source target : ℕ) {start width : ℕ}
    (h : start + width ≤ 28) :
    (page.copyLeafEntry source target).field start width = page.field start width :=
  field_overwrite_of_disjoint _ _ _ _ _ (Or.inl (by omega))

/-- The assigned entry. -/
theorem leafEntry_setLeafEntry_self (page : Page) {i : ℕ} (h : i ≤ 253) (entry : BTreeLeafEntry) :
    (page.setLeafEntry i entry).leafEntry i = entry := by
  have hkey : entry.key.toNat < 256 ^ 8 := entry.key.toNat_lt
  have hpage : entry.pageId.toNat < 256 ^ 4 := entry.pageId.toNat_lt
  have hslot : entry.slotId.toNat < 256 ^ 2 := entry.slotId.toNat_lt
  simp only [leafEntry, setLeafEntry]
  rw [field_setField_of_disjoint _ _ _ _ _ _ (by omega),
    field_setField_of_disjoint _ _ _ _ _ _ (by omega), field_setField_self _ _ _ _ (by omega),
    field_setField_of_disjoint _ _ _ _ _ _ (by omega), field_setField_self _ _ _ _ (by omega),
    field_setField_self _ _ _ _ (by omega), Nat.mod_eq_of_lt hkey, Nat.mod_eq_of_lt hpage,
    Nat.mod_eq_of_lt hslot, UInt64.ofNat_toNat, UInt32.ofNat_toNat, UInt16.ofNat_toNat]

/-- The other entries after one was assigned. -/
theorem leafEntry_setLeafEntry_of_ne (page : Page) {i j : ℕ} (h : j ≠ i) (entry : BTreeLeafEntry) :
    (page.setLeafEntry i entry).leafEntry j = page.leafEntry j := by
  simp only [leafEntry, setLeafEntry]
  simp (disch := omega) only [field_setField_of_disjoint]

/-- An assigned entry leaves the fields in front of the entries alone. -/
theorem field_setLeafEntry (page : Page) (i : ℕ) (entry : BTreeLeafEntry) {start width : ℕ}
    (h : start + width ≤ 28) :
    (page.setLeafEntry i entry).field start width = page.field start width := by
  rw [setLeafEntry]
  simp (disch := omega) only [field_setField_of_disjoint]

/-- The entries after the shift. -/
theorem leafEntry_shiftLeafEntries (page : Page) (insertIdx : ℕ) {count : ℕ} (hcount : count ≤ 252)
    (j : ℕ) :
    (page.shiftLeafEntries insertIdx count).leafEntry j =
      if insertIdx < j ∧ j ≤ count then page.leafEntry (j - 1) else page.leafEntry j := by
  induction count generalizing page with
  | zero =>
    rw [shiftLeafEntries, if_neg (by omega)]
  | succ i ih =>
    rw [shiftLeafEntries]
    by_cases hshift : insertIdx < i + 1
    · rw [if_pos hshift, ih _ (by omega)]
      by_cases hlast : j = i + 1
      · subst hlast
        rw [if_neg (by omega), if_pos (by omega),
          page.leafEntry_copyLeafEntry_self (by omega) (by omega), Nat.add_sub_cancel]
      · rw [page.leafEntry_copyLeafEntry_of_ne i hlast]
        by_cases hinside : insertIdx < j ∧ j ≤ i
        · rw [if_pos hinside, if_pos (by omega),
            page.leafEntry_copyLeafEntry_of_ne i (by omega)]
        · rw [if_neg hinside, if_neg (by omega)]
    · rw [if_neg hshift, if_neg (by omega)]

/-- The shift leaves the fields in front of the entries alone. -/
theorem field_shiftLeafEntries (page : Page) (insertIdx count : ℕ) {start width : ℕ}
    (h : start + width ≤ 28) :
    (page.shiftLeafEntries insertIdx count).field start width = page.field start width := by
  induction count generalizing page with
  | zero => rfl
  | succ i ih =>
    rw [shiftLeafEntries]
    split_ifs
    · rw [ih, page.field_copyLeafEntry i (i + 1) h]
    · rfl

/-- A page has the entries of a list when their number and each of them is right. -/
theorem leafEntries_eq {page : Page} {entries : List BTreeLeafEntry}
    (hcount : page.slotCount = entries.length)
    (hentry : ∀ i (h : i < entries.length), page.leafEntry i = entries[i]) :
    page.leafEntries = entries := by
  apply List.ext_getElem
  · rw [leafEntries, List.length_map, List.length_range, hcount]
  · intro i hleft hright
    simp only [leafEntries, List.getElem_map, List.getElem_range]
    exact hentry i hright

/-- The slot count after it was assigned. -/
theorem slotCount_setSlotCount (page : Page) {count : ℕ} (h : count < 2 ^ 16) :
    (page.setSlotCount count).slotCount = count := by
  rw [slotCount, setSlotCount, field_setField_self _ _ _ _ (by omega)]
  exact Nat.mod_eq_of_lt h

end Page

/-! ## Leaves as lists of entries -/

/-- The page is a leaf with the given entries and successor. -/
structure IsLeaf (page : Page) (entries : List BTreeLeafEntry) (next : ℕ) : Prop where
  pageType : page.pageType = PageType.btreeLeaf.code
  leafEntries : page.leafEntries = entries
  nextLeafId : page.nextLeafId = next
  fits : entries.length ≤ btreeMaxLeafEntries

namespace IsLeaf

variable {page : Page} {entries : List BTreeLeafEntry} {next : ℕ}

/-- The slot count of a leaf. -/
theorem slotCount (h : IsLeaf page entries next) : page.slotCount = entries.length := by
  rw [← h.leafEntries, Page.leafEntries, List.length_map, List.length_range]

/-- The entries of a leaf, one by one. -/
theorem entry (h : IsLeaf page entries next) {i : ℕ} (hi : i < entries.length) :
    page.leafEntry i = entries[i] := by
  have hlength : i < page.leafEntries.length := by
    rw [h.leafEntries]
    exact hi
  have hget : page.leafEntries[i] = entries[i] := by
    simp only [h.leafEntries]
  rw [← hget]
  simp [Page.leafEntries]

/-- A leaf has room for fewer than 251 entries. -/
theorem length_le (h : IsLeaf page entries next) : entries.length ≤ 250 := h.fits

/-- The LSN and the checksum of a leaf do not matter. -/
theorem sameBody (h : IsLeaf page entries next) {other : Page} (hbody : page.SameBody other) :
    IsLeaf other entries next := by
  refine ⟨(hbody 16 2 (by omega)).trans h.pageType, Page.leafEntries_eq ?_ ?_,
    (hbody 24 4 (by omega)).trans h.nextLeafId, h.fits⟩
  · exact (hbody 22 2 (by omega)).trans h.slotCount
  · intro i hi
    rw [← h.entry hi]
    simp only [Page.leafEntry]
    rw [hbody _ _ (by omega), hbody _ _ (by omega), hbody _ _ (by omega)]

/-- A newly formatted leaf. -/
theorem init (pageId : ℕ) (hnext : next < 2 ^ 32) :
    IsLeaf ((slottedPageInit pageId .btreeLeaf).setNextLeafId next) [] next := by
  refine ⟨?_, Page.leafEntries_eq ?_ (fun i hi => absurd hi (by simp)), ?_, by simp⟩
  · rw [Page.pageType, Page.setNextLeafId, Page.field_setField_of_disjoint _ _ _ _ _ _ (by omega)]
    exact (slottedPageInit_fields pageId .btreeLeaf).1
  · rw [Page.slotCount, Page.setNextLeafId, Page.field_setField_of_disjoint _ _ _ _ _ _ (by omega)]
    exact (slottedPageInit_fields pageId .btreeLeaf).2.1
  · rw [Page.nextLeafId, Page.setNextLeafId, Page.field_setField_self _ _ _ _ (by omega)]
    exact Nat.mod_eq_of_lt hnext

/-- Changing the successor of a leaf. -/
theorem setNextLeafId (h : IsLeaf page entries next) {next' : ℕ} (hnext : next' < 2 ^ 32) :
    IsLeaf (page.setNextLeafId next') entries next' := by
  refine ⟨?_, Page.leafEntries_eq ?_ ?_, ?_, h.fits⟩
  · rw [← h.pageType]
    exact page.field_setField_of_disjoint _ _ _ _ _ (by omega)
  · rw [← h.slotCount]
    exact page.field_setField_of_disjoint _ _ _ _ _ (by omega)
  · intro i hi
    rw [← h.entry hi]
    exact page.leafEntry_setField _ (by omega) i
  · rw [Page.nextLeafId, Page.setNextLeafId, Page.field_setField_self _ _ _ _ (by omega)]
    exact Nat.mod_eq_of_lt hnext

/-- Dropping the last entries of a leaf. -/
theorem setSlotCount (h : IsLeaf page entries next) {count : ℕ} (hcount : count ≤ entries.length) :
    IsLeaf (page.setSlotCount count) (entries.take count) next := by
  have hlength := h.length_le
  refine ⟨?_, Page.leafEntries_eq ?_ ?_, ?_, le_trans (List.length_take_le' _ _) h.fits⟩
  · rw [← h.pageType]
    exact page.field_setField_of_disjoint _ _ _ _ _ (by omega)
  · rw [page.slotCount_setSlotCount (by omega), List.length_take, min_eq_left hcount]
  · intro i hi
    have hi' : i < entries.length := lt_of_lt_of_le hi (List.length_take_le' _ _)
    rw [List.getElem_take, ← h.entry hi']
    exact page.leafEntry_setField _ (by omega) i
  · rw [← h.nextLeafId]
    exact page.field_setField_of_disjoint _ _ _ _ _ (by omega)

/-- Assigning one entry. -/
theorem setLeafEntry (h : IsLeaf page entries next) {i : ℕ} (hi : i < entries.length)
    (entry : BTreeLeafEntry) : IsLeaf (page.setLeafEntry i entry) (entries.set i entry) next := by
  have hlength := h.length_le
  refine ⟨?_, Page.leafEntries_eq ?_ ?_, ?_, by rw [List.length_set]; exact h.fits⟩
  · rw [← h.pageType]
    exact page.field_setLeafEntry i entry (by omega)
  · rw [List.length_set, ← h.slotCount]
    exact page.field_setLeafEntry i entry (by omega)
  · intro j hj
    rw [List.length_set] at hj
    rw [List.getElem_set]
    split_ifs with hij
    · subst hij
      exact page.leafEntry_setLeafEntry_self (by omega) entry
    · rw [← h.entry hj]
      exact page.leafEntry_setLeafEntry_of_ne (Ne.symm hij) entry
  · rw [← h.nextLeafId]
    exact page.field_setLeafEntry i entry (by omega)

/-- Inserting one entry into a leaf that is not full. -/
theorem insertLeafEntry (h : IsLeaf page entries next) (hroom : entries.length < btreeMaxLeafEntries)
    {i : ℕ} (hi : i ≤ entries.length) (entry : BTreeLeafEntry) :
    IsLeaf (page.insertLeafEntry i entry) (entries.insertIdx i entry) next := by
  have hlength : entries.length < 250 := hroom
  have hfield {start width : ℕ} (hstart : start + width ≤ 28) :
      ((page.shiftLeafEntries i page.slotCount).setLeafEntry i entry).field start width =
        page.field start width := by
    rw [Page.field_setLeafEntry _ _ _ hstart, Page.field_shiftLeafEntries _ _ _ hstart]
  have hcount : ((page.shiftLeafEntries i page.slotCount).setLeafEntry i entry).slotCount =
      entries.length := (hfield (by omega)).trans h.slotCount
  have hinserted : (entries.insertIdx i entry).length = entries.length + 1 :=
    List.length_insertIdx_of_le_length hi entry
  unfold Page.insertLeafEntry
  simp only [hcount]
  refine ⟨?_, Page.leafEntries_eq ?_ ?_, ?_, by rw [hinserted]; exact hroom⟩
  · rw [← h.pageType]
    exact (Page.field_setField_of_disjoint _ _ _ _ _ _ (by omega)).trans (hfield (by omega))
  · rw [Page.slotCount_setSlotCount _ (by omega), hinserted]
  · intro j hj
    rw [hinserted] at hj
    rw [Page.setSlotCount, Page.leafEntry_setField _ _ (by omega), List.getElem_insertIdx]
    by_cases hji : j = i
    · subst hji
      rw [Page.leafEntry_setLeafEntry_self _ (by omega), dif_neg (by omega), dif_pos rfl]
    · rw [Page.leafEntry_setLeafEntry_of_ne _ hji, h.slotCount,
        Page.leafEntry_shiftLeafEntries _ _ (by omega)]
      by_cases hlt : j < i
      · rw [if_neg (by omega), dif_pos hlt, h.entry (by omega)]
      · rw [if_pos (by omega), dif_neg hlt, dif_neg hji, h.entry (by omega)]
  · rw [← h.nextLeafId]
    exact (Page.field_setField_of_disjoint _ _ _ _ _ _ (by omega)).trans (hfield (by omega))

/-- Copying the last entries of a leaf into a newly formatted one. -/
theorem takeLeafEntries (h : IsLeaf page entries next) {first : ℕ} (hfirst : first ≤ entries.length)
    (pageId : ℕ) :
    IsLeaf ((slottedPageInit pageId .btreeLeaf).takeLeafEntries page first (entries.length - first))
      (entries.drop first) 0 := by
  have hlength := h.length_le
  have hslice : (page.slice (28 + 16 * first) (16 * (entries.length - first))).length =
      16 * (entries.length - first) := page.length_slice _ _ (by omega)
  obtain ⟨htype, -, -, -, hzero⟩ := slottedPageInit_fields pageId .btreeLeaf
  have hheader {start width : ℕ} (hstart : start + width ≤ 22 ∨ (24 ≤ start ∧ start + width ≤ 28)) :
      ((slottedPageInit pageId .btreeLeaf).takeLeafEntries page first
        (entries.length - first)).field start width =
        (slottedPageInit pageId .btreeLeaf).field start width := by
    rw [Page.takeLeafEntries, Page.setSlotCount, Page.field_setField_of_disjoint _ _ _ _ _ _ (by omega),
      Page.field_overwrite_of_disjoint _ _ _ _ _ (by omega)]
  refine ⟨(hheader (by omega)).trans htype, Page.leafEntries_eq ?_ ?_,
    (hheader (by omega)).trans (hzero 24 4 (by omega)), ?_⟩
  · rw [Page.takeLeafEntries, Page.slotCount_setSlotCount _ (by omega), List.length_drop]
  · intro i hi
    rw [List.length_drop] at hi
    rw [List.getElem_drop, ← h.entry (by omega)]
    apply Page.leafEntry_eq_of_fields
    intro start width hwidth
    rw [Page.takeLeafEntries, Page.setSlotCount,
      Page.field_setField_of_disjoint _ _ _ _ _ _ (by omega),
      Page.field_overwrite_of_within _ _ _ _ _ (by omega) (by omega) (by omega),
      Page.field_slice _ _ _ _ _ (by omega)]
    have hstart : 28 + 16 * first + (28 + 16 * i + start - 28) = 28 + 16 * (first + i) + start := by
      omega
    rw [hstart]
  · rw [List.length_drop]
    exact le_trans (Nat.sub_le _ _) h.fits

end IsLeaf

end FtsUring
