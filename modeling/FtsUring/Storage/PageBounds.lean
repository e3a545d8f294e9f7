import FtsUring.Storage.SlottedPage

/-!
# The bounds of a page

The functions on slotted pages take the header and the slots as they find them, and pages come from the data
file unchecked. What an insertion writes besides the counters of the header is a list of stores into the
memory at the page buffer, and a slot may lie behind the page, where it reads whatever stands there.
-/

namespace FtsUring

open Foundation

/-- Bytes that are written at an offset from the page buffer. -/
structure MemoryStore where
  offset : ℕ
  bytes : List UInt8

/-- What an insertion writes besides the counters of the header: the tuple, and the two fields of its slot.
The position of the slot is read after the tuple was copied. -/
def slottedPageInsertStores (page : Page) (tuple : List UInt8) : Option (List MemoryStore) :=
  let neededSpace := 4 + tuple.length
  let free := (page.freeSpaceUpper + 2 ^ 32 - page.freeSpaceLower) % 2 ^ 32
  if free < neededSpace then none
  else
    let page := page.setFreeSpaceUpper ((page.freeSpaceUpper + 2 ^ 16 - tuple.length) % 2 ^ 16)
    let tupleOffset := page.freeSpaceUpper
    let slot := (page.overwrite tupleOffset tuple).freeSpaceLower
    some [⟨tupleOffset, tuple⟩, ⟨slot, leBytes 2 tupleOffset⟩, ⟨slot + 2, leBytes 2 tuple.length⟩]

/-- A store as far as it concerns the page. -/
def Page.store (page : Page) (store : MemoryStore) : Page := page.overwrite store.offset store.bytes

/-- A slot as it is read from the page and the memory behind it. -/
def slottedPageGetTupleIn (page : Page) (behind : List UInt8) (slotIdx : ℕ) : Option TupleRef :=
  if page.slotCount ≤ slotIdx then none
  else some ⟨field (page.bytes ++ behind) (24 + 4 * slotIdx) 2,
    field (page.bytes ++ behind) (24 + 4 * slotIdx + 2) 2⟩

/-- An insertion writes between the header and the end of the page only, and no tuple below the end of the
slots. -/
structure InsertsInside (page : Page) (tuple : List UInt8) : Prop where
  inside : ∀ stores, slottedPageInsertStores page tuple = some stores → ∀ store ∈ stores,
    store.bytes ≠ [] → 24 ≤ store.offset ∧ store.offset + store.bytes.length ≤ 4096
  above : (slottedPageInsertTuple page tuple).1 = true →
    (slottedPageInsertTuple page tuple).2.freeSpaceLower ≤ (slottedPageInsertTuple page tuple).2.freeSpaceUpper

/-- A slot that is found denotes bytes of the page, whatever the memory behind the page holds. -/
def ReadsInside (page : Page) (slotIdx : ℕ) : Prop :=
  ∀ behind ref, slottedPageGetTupleIn page behind slotIdx = some ref → ref.offset + ref.length ≤ 4096

/-- The header leaves no room for the tuple, or it describes a free range of the page that has room. -/
def RoomInside (page : Page) (tuple : List UInt8) : Prop :=
  page.freeSpaceLower ≤ page.freeSpaceUpper ∧
    (page.freeSpaceUpper < page.freeSpaceLower + 4 + tuple.length ∨
      24 ≤ page.freeSpaceLower ∧
        if tuple = [] then page.freeSpaceLower + 4 ≤ 4096 else page.freeSpaceUpper ≤ 4096)

/-- There is no such slot, or it lies in the page and so do the bytes that it describes. -/
def SlotInside (page : Page) (slotIdx : ℕ) : Prop :=
  page.slotCount ≤ slotIdx ∨ 24 + 4 * slotIdx + 4 ≤ 4096 ∧
    page.field (24 + 4 * slotIdx) 2 + page.field (24 + 4 * slotIdx + 2) 2 ≤ 4096

/-! ## Stores -/

/-- The free space as the test of an insertion computes it. -/
def Page.freeSpace (page : Page) : ℕ := (page.freeSpaceUpper + 2 ^ 32 - page.freeSpaceLower) % 2 ^ 32

/-- A refused insertion has no stores. -/
theorem insertStores_of_lt {page : Page} {tuple : List UInt8} (h : page.freeSpace < 4 + tuple.length) :
    slottedPageInsertStores page tuple = none := by
  rw [slottedPageInsertStores]
  exact if_pos h

/-- An insertion without stores is refused. -/
theorem insertTuple_of_lt {page : Page} {tuple : List UInt8} (h : page.freeSpace < 4 + tuple.length) :
    slottedPageInsertTuple page tuple = (false, page) := by
  rw [slottedPageInsertTuple]
  exact if_pos h

/-- The stores of an insertion whose tuple and slot go to given places. -/
theorem insertStores_of_le {page raised : Page} {tuple : List UInt8} {tupleOffset slot : ℕ}
    (h : 4 + tuple.length ≤ page.freeSpace)
    (hraised : page.setFreeSpaceUpper ((page.freeSpaceUpper + 2 ^ 16 - tuple.length) % 2 ^ 16) = raised)
    (htuple : raised.freeSpaceUpper = tupleOffset)
    (hslot : (raised.overwrite tupleOffset tuple).freeSpaceLower = slot) :
    slottedPageInsertStores page tuple =
      some [⟨tupleOffset, tuple⟩, ⟨slot, leBytes 2 tupleOffset⟩, ⟨slot + 2, leBytes 2 tuple.length⟩] := by
  subst hslot htuple hraised
  rw [slottedPageInsertStores]
  exact if_neg (not_lt.mpr h)

/-- An insertion is its stores and the counters of the header. -/
theorem insertTuple_of_le {page raised stored moved : Page} {tuple : List UInt8} {stores : List MemoryStore}
    (h : 4 + tuple.length ≤ page.freeSpace)
    (hraised : page.setFreeSpaceUpper ((page.freeSpaceUpper + 2 ^ 16 - tuple.length) % 2 ^ 16) = raised)
    (hstores : slottedPageInsertStores page tuple = some stores)
    (hstored : stores.foldl Page.store raised = stored)
    (hmoved : stored.setFreeSpaceLower (stored.freeSpaceLower + 4) = moved) :
    slottedPageInsertTuple page tuple = (true, moved.setSlotCount (moved.slotCount + 1)) := by
  rw [insertStores_of_le h hraised rfl rfl, Option.some.injEq] at hstores
  subst hmoved hstored hstores hraised
  rw [slottedPageInsertTuple]
  exact if_neg (not_lt.mpr h)

/-- A slot in the page does not depend on what stands behind the page. -/
theorem slottedPageGetTupleIn_eq (page : Page) (behind : List UInt8) {slotIdx : ℕ}
    (h : 24 + 4 * slotIdx + 4 ≤ 4096) :
    slottedPageGetTupleIn page behind slotIdx = slottedPageGetTuple page slotIdx := by
  have hsize := page.length_bytes
  rw [slottedPageGetTupleIn, slottedPageGetTuple, Page.field, Page.field, field_append_left _ _ _ _ (by omega),
    field_append_left _ _ _ _ (by omega)]

/-! ## The header -/

/-- A store behind the header changes no field of it. -/
theorem field_store_of_header (page : Page) {store : MemoryStore} (h : store.bytes ≠ [] → 24 ≤ store.offset)
    {start width : ℕ} (hend : start + width ≤ 24) :
    (page.store store).field start width = page.field start width := by
  by_cases hempty : store.bytes = []
  · have hsame : page.overwrite store.offset [] = page := by
      apply Page.ext
      simp [Page.overwrite, overwrite]
    rw [Page.store, hempty, hsame]
  · have hoffset := h hempty
    rw [Page.store, Page.field_overwrite_of_disjoint _ _ _ _ _ (by omega)]

/-- Stores behind the header change no field of it. -/
theorem field_foldl_store_of_header {stores : List MemoryStore}
    (h : ∀ store ∈ stores, store.bytes ≠ [] → 24 ≤ store.offset) (page : Page) {start width : ℕ}
    (hend : start + width ≤ 24) : (stores.foldl Page.store page).field start width = page.field start width := by
  induction stores generalizing page with
  | nil => rfl
  | cons store stores ih =>
    rw [List.foldl_cons, ih fun other hother => h other (List.mem_cons_of_mem _ hother),
      field_store_of_header _ (h store List.mem_cons_self) hend]

/-- The bounds of the free space after an insertion whose stores lie behind the header. -/
theorem bounds_of_insertTuple {page : Page} {tuple : List UInt8} {stores : List MemoryStore}
    (h : 4 + tuple.length ≤ page.freeSpace) (hstores : slottedPageInsertStores page tuple = some stores)
    (hbehind : ∀ store ∈ stores, store.bytes ≠ [] → 24 ≤ store.offset) :
    (slottedPageInsertTuple page tuple).1 = true ∧
      (slottedPageInsertTuple page tuple).2.freeSpaceLower = (page.freeSpaceLower + 4) % 2 ^ 16 ∧
      (slottedPageInsertTuple page tuple).2.freeSpaceUpper =
        (page.freeSpaceUpper + 2 ^ 16 - tuple.length) % 2 ^ 16 := by
  set upper := (page.freeSpaceUpper + 2 ^ 16 - tuple.length) % 2 ^ 16 with hupper
  set stored := stores.foldl Page.store (page.setFreeSpaceUpper upper) with hstored
  have hlower : stored.freeSpaceLower = page.freeSpaceLower := by
    rw [hstored, Page.freeSpaceLower, field_foldl_store_of_header hbehind _ (by omega), Page.setFreeSpaceUpper,
      Page.field_setField_of_disjoint _ _ _ _ _ _ (by omega)]
    rfl
  rw [insertTuple_of_le h rfl hstores hstored.symm rfl]
  refine ⟨rfl, ?_, ?_⟩
  · rw [Page.freeSpaceLower, Page.setSlotCount, Page.field_setField_of_disjoint _ _ _ _ _ _ (by omega),
      Page.setFreeSpaceLower, Page.field_setField_self _ _ _ _ (by omega), hlower]
    norm_num
  · rw [Page.freeSpaceUpper, Page.setSlotCount, Page.field_setField_of_disjoint _ _ _ _ _ _ (by omega),
      Page.setFreeSpaceLower, Page.field_setField_of_disjoint _ _ _ _ _ _ (by omega), hstored,
      field_foldl_store_of_header hbehind _ (by omega), Page.setFreeSpaceUpper,
      Page.field_setField_self _ _ _ _ (by omega)]
    exact Nat.mod_eq_of_lt (Nat.mod_lt _ (by decide))

/-- The place of the tuple that an insertion writes. -/
theorem freeSpaceUpper_setFreeSpaceUpper (page : Page) {upper : ℕ} (h : upper < 2 ^ 16) :
    (page.setFreeSpaceUpper upper).freeSpaceUpper = upper := by
  rw [Page.freeSpaceUpper, Page.setFreeSpaceUpper, Page.field_setField_self _ _ _ _ (by omega)]
  exact Nat.mod_eq_of_lt h

/-- The place of the slot that an insertion writes, when the tuple does not go into the header. -/
theorem slot_of_insertStores {page : Page} {tuple : List UInt8} (h : 4 + tuple.length ≤ page.freeSpace)
    (hbehind : tuple ≠ [] → 24 ≤ (page.freeSpaceUpper + 2 ^ 16 - tuple.length) % 2 ^ 16) :
    slottedPageInsertStores page tuple =
      some [⟨(page.freeSpaceUpper + 2 ^ 16 - tuple.length) % 2 ^ 16, tuple⟩,
        ⟨page.freeSpaceLower, leBytes 2 ((page.freeSpaceUpper + 2 ^ 16 - tuple.length) % 2 ^ 16)⟩,
        ⟨page.freeSpaceLower + 2, leBytes 2 tuple.length⟩] := by
  set upper := (page.freeSpaceUpper + 2 ^ 16 - tuple.length) % 2 ^ 16 with hupper
  apply insertStores_of_le h rfl
  · exact freeSpaceUpper_setFreeSpaceUpper page (Nat.mod_lt _ (by decide))
  · have hheader := @field_store_of_header (page.setFreeSpaceUpper upper) ⟨upper, tuple⟩ hbehind 18 2 (by omega)
    rw [Page.freeSpaceLower]
    refine hheader.trans ?_
    rw [Page.setFreeSpaceUpper, Page.field_setField_of_disjoint _ _ _ _ _ _ (by omega)]
    rfl

/-! ## Insertions -/

/-- The free space of a page whose bounds are in order. -/
theorem freeSpace_of_le {page : Page} (h : page.freeSpaceLower ≤ page.freeSpaceUpper) :
    page.freeSpace = page.freeSpaceUpper - page.freeSpaceLower := by
  have hupper : page.freeSpaceUpper < 256 ^ 2 := page.field_lt _ _
  rw [Page.freeSpace]
  omega

/-- The free space of a page whose bounds are not in order is almost `2 ^ 32`. -/
theorem freeSpace_of_lt {page : Page} (h : page.freeSpaceUpper < page.freeSpaceLower) :
    2 ^ 32 - 2 ^ 16 ≤ page.freeSpace := by
  have hlower : page.freeSpaceLower < 256 ^ 2 := page.field_lt _ _
  rw [Page.freeSpace]
  omega

/-- An insertion stays in the page exactly when the header of the page has no room for it, or describes a
range of the page. -/
theorem insertsInside_iff (page : Page) {tuple : List UInt8} (hlength : tuple.length < 2 ^ 16) :
    InsertsInside page tuple ↔ RoomInside page tuple := by
  have hlower : page.freeSpaceLower < 256 ^ 2 := page.field_lt _ _
  have hupper : page.freeSpaceUpper < 256 ^ 2 := page.field_lt _ _
  have hempty : tuple = [] ↔ tuple.length = 0 := List.length_eq_zero_iff.symm
  obtain hrefused | haccepted := Nat.lt_or_ge page.freeSpace (4 + tuple.length)
  · have horder : page.freeSpaceLower ≤ page.freeSpaceUpper := by
      by_contra hgt
      have hfree := freeSpace_of_lt (not_le.mp hgt)
      omega
    rw [freeSpace_of_le horder] at hrefused
    refine iff_of_true ⟨fun stores hstores => ?_, fun hok => ?_⟩ ⟨horder, .inl (by omega)⟩
    · rw [insertStores_of_lt (by rwa [freeSpace_of_le horder])] at hstores
      cases hstores
    · rw [insertTuple_of_lt (by rwa [freeSpace_of_le horder])] at hok
      cases hok
  set upper := (page.freeSpaceUpper + 2 ^ 16 - tuple.length) % 2 ^ 16 with hraised
  have hupperLt : upper < 2 ^ 16 := Nat.mod_lt _ (by decide)
  constructor
  · intro h
    have hall := h.inside _ (insertStores_of_le haccepted rfl
      (freeSpaceUpper_setFreeSpaceUpper page hupperLt) rfl)
    have htuple : tuple ≠ [] → 24 ≤ upper ∧ upper + tuple.length ≤ 4096 :=
      hall ⟨upper, tuple⟩ List.mem_cons_self
    have hstores := slot_of_insertStores haccepted fun hne => (htuple hne).1
    have hinside := h.inside _ hstores
    have hslot : 24 ≤ page.freeSpaceLower ∧ page.freeSpaceLower + 2 ≤ 4096 := by
      have hfirst := hinside ⟨page.freeSpaceLower, leBytes 2 upper⟩ (List.mem_cons_of_mem _ List.mem_cons_self)
      rw [length_leBytes] at hfirst
      exact hfirst (List.ne_nil_of_length_pos (by simp))
    have hslotEnd : page.freeSpaceLower + 2 + 2 ≤ 4096 := by
      have hsecond := hinside ⟨page.freeSpaceLower + 2, leBytes 2 tuple.length⟩
        (List.mem_cons_of_mem _ (List.mem_cons_of_mem _ List.mem_cons_self))
      rw [length_leBytes] at hsecond
      exact (hsecond (List.ne_nil_of_length_pos (by simp))).2
    obtain ⟨hok, hnewLower, hnewUpper⟩ := bounds_of_insertTuple haccepted hstores fun store hstore hne =>
      (hinside store hstore hne).1
    have habove := h.above hok
    rw [hnewLower, hnewUpper, Nat.mod_eq_of_lt (by omega)] at habove
    -- the new upper bound wraps only when the tuple would end behind the page
    have horder : page.freeSpaceLower ≤ page.freeSpaceUpper := by
      by_contra hgt
      by_cases hzero : tuple.length = 0
      · omega
      · have hend := (htuple fun hnil => hzero (hempty.mp hnil)).2
        omega
    refine ⟨horder, .inr ⟨hslot.1, ?_⟩⟩
    rw [freeSpace_of_le horder] at haccepted
    split_ifs with hnil
    · omega
    · have hend := (htuple hnil).2
      omega
  · rintro ⟨horder, hsmall | ⟨hheader, hend⟩⟩
    · rw [freeSpace_of_le horder] at haccepted
      omega
    · have hspace := haccepted
      rw [freeSpace_of_le horder] at hspace
      have hvalue : upper = page.freeSpaceUpper - tuple.length := by omega
      have hslotEnd : page.freeSpaceLower + 4 ≤ 4096 := by
        split_ifs at hend <;> omega
      have hstores := slot_of_insertStores haccepted fun _ => by omega
      have hinside : ∀ store ∈ [⟨upper, tuple⟩, ⟨page.freeSpaceLower, leBytes 2 upper⟩,
          (⟨page.freeSpaceLower + 2, leBytes 2 tuple.length⟩ : MemoryStore)], store.bytes ≠ [] →
            24 ≤ store.offset ∧ store.offset + store.bytes.length ≤ 4096 := by
        intro store hstore hne
        simp only [List.mem_cons, List.not_mem_nil, or_false] at hstore
        obtain rfl | rfl | rfl := hstore
        · rw [if_neg hne] at hend
          dsimp only
          omega
        · rw [length_leBytes]
          dsimp only
          omega
        · rw [length_leBytes]
          dsimp only
          omega
      obtain ⟨-, hnewLower, hnewUpper⟩ := bounds_of_insertTuple haccepted hstores fun store hstore hne =>
        (hinside store hstore hne).1
      constructor
      · intro stores hother
        rw [hstores, Option.some.injEq] at hother
        subst hother
        exact hinside
      · intro _
        rw [hnewLower, hnewUpper, ← hraised, hvalue, Nat.mod_eq_of_lt (by omega)]
        omega

/-! ## Lookups -/

/-- A field that consists of bytes 255. -/
theorem field_replicate (count offset : ℕ) (h : offset + 2 ≤ count) :
    field (List.replicate count 255) offset 2 = 65535 := by
  have hslice : slice (List.replicate count 255) offset 2 = [255, 255] := by
    rw [slice, List.drop_replicate, List.take_replicate, min_eq_left (by omega)]
    rfl
  rw [field, hslice]
  rfl

/-- A lookup stays in the page exactly when there is no such slot or the slot and its bytes are in the page. -/
theorem readsInside_iff (page : Page) (slotIdx : ℕ) : ReadsInside page slotIdx ↔ SlotInside page slotIdx := by
  have hsize := page.length_bytes
  obtain hnull | hslot := Nat.lt_or_ge slotIdx page.slotCount
  swap
  · refine iff_of_true (fun behind ref hfound => ?_) (.inl hslot)
    rw [slottedPageGetTupleIn, if_pos hslot] at hfound
    cases hfound
  obtain hinside | hbehind := Nat.lt_or_ge 4096 (24 + 4 * slotIdx + 4)
  · -- the memory behind the page may hold any slot
    refine iff_of_false (fun h => ?_) ?_
    · have hall := h (List.replicate (4 * slotIdx + 4) 255) _ (if_neg (not_le.mpr hnull))
      have hend := hall
      rw [field_append_right _ _ _ _ (by omega), field_append_right _ _ _ _ (by omega),
        field_replicate _ _ (by omega), field_replicate _ _ (by omega)] at hend
      exact absurd hend (by decide)
    · rintro (hno | ⟨hfits, -⟩) <;> omega
  · constructor
    · intro h
      have hread := h [] _ (if_neg (not_le.mpr hnull))
      rw [List.append_nil] at hread
      exact .inr ⟨hbehind, hread⟩
    · rintro (hno | ⟨-, hend⟩) behind ref hfound
      · omega
      · rw [slottedPageGetTupleIn_eq page behind hbehind, slottedPageGetTuple, if_neg (not_le.mpr hnull),
          Option.some.injEq] at hfound
        rw [← hfound]
        exact hend

/-! ## Both -/

/-- Both functions stay inside the page exactly when the page leaves no room for the tuple or has room inside,
and the slot is not there or lies in the page with its bytes. -/
theorem pageBounds_iff (page : Page) {tuple : List UInt8} (hlength : tuple.length < 2 ^ 16) (slotIdx : ℕ) :
    InsertsInside page tuple ∧ ReadsInside page slotIdx ↔ RoomInside page tuple ∧ SlotInside page slotIdx :=
  and_congr (insertsInside_iff page hlength) (readsInside_iff page slotIdx)

/-- An empty page keeps both functions inside. -/
theorem pageBounds_iff_init :
    InsertsInside (slottedPageInit 2 .row) [7] ∧ ReadsInside (slottedPageInit 2 .row) 0 ↔
      RoomInside (slottedPageInit 2 .row) [7] ∧ SlotInside (slottedPageInit 2 .row) 0 :=
  pageBounds_iff _ (by decide) 0

/-- A page with bounds out of order accepts a tuple and writes it behind the page. -/
theorem exists_not_insertsInside : ¬∀ (page : Page) (tuple : List UInt8) (slotIdx : ℕ),
    tuple.length < 2 ^ 16 → InsertsInside page tuple ∧ ReadsInside page slotIdx := by
  intro hall
  have hlength : [(7 : UInt8)].length < 2 ^ 16 := by decide
  have horder := ((insertsInside_iff _ hlength).mp (hall (Page.zero.setFreeSpaceLower 24) [7] 0 hlength).1).1
  rw [Page.freeSpaceLower, Page.freeSpaceUpper, Page.setFreeSpaceLower, Page.field_setField_self _ _ _ _ (by decide),
    Page.field_setField_of_disjoint _ _ _ _ _ _ (by decide), Page.field_zero] at horder
  exact absurd horder (by decide)

end FtsUring
