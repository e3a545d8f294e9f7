import FtsUring.Foundation.ByteFields
import Mathlib.Tactic

/-!
# Pages of 4096 bytes and the slotted page layout

Every page is a raw byte buffer that the different modules view through their own packed
structures. `Page` carries its size, so a view never leaves the buffer, and the first 24
bytes of most pages are a `PageHeader`: LSN at 0, page id at 8, checksum at 12, page type
at 16, the two free space bounds at 18 and 20, and the slot count at 22.
-/

namespace FtsUring

open Foundation

/-- `PAGE_SIZE`. -/
def pageSize : ℕ := 4096

/-- `INVALID_PAGE_ID`, the page id that no page has. -/
abbrev invalidPageId : ℕ := 4294967295

/-- The page types stored in page headers. -/
inductive PageType
  | invalid
  | row
  | ftsPosting
  | lengthMap
  | btreeLeaf
  | btreeInternal
  | tombstoneBitset
  | vectorData
  deriving DecidableEq, Repr

/-- The 16-bit code of a page type. -/
def PageType.code : PageType → ℕ
  | .invalid => 0
  | .row => 1
  | .ftsPosting => 2
  | .lengthMap => 3
  | .btreeLeaf => 4
  | .btreeInternal => 5
  | .tombstoneBitset => 6
  | .vectorData => 7

/-- A page buffer. -/
@[ext] structure Page where
  bytes : List UInt8
  size : bytes.length = pageSize
  deriving DecidableEq

namespace Page

/-- The integer field of `width` bytes at `offset`. -/
def field (page : Page) (offset width : ℕ) : ℕ :=
  Foundation.field page.bytes offset width

/-- The bytes at `offset`. -/
def slice (page : Page) (offset count : ℕ) : List UInt8 :=
  Foundation.slice page.bytes offset count

/-- Copy bytes into the page. -/
def overwrite (page : Page) (offset : ℕ) (data : List UInt8) : Page :=
  ⟨Foundation.overwrite page.bytes offset data, by rw [length_overwrite, page.size]⟩

/-- Store an integer field. -/
def setField (page : Page) (offset width value : ℕ) : Page :=
  page.overwrite offset (leBytes width value)

/-- A page of zero bytes. -/
def zero : Page := ⟨List.replicate pageSize 0, List.length_replicate⟩

/-- The size of a page in bytes. -/
theorem length_bytes (page : Page) : page.bytes.length = 4096 := page.size

/-- A field is bounded by its width. -/
theorem field_lt (page : Page) (offset width : ℕ) : page.field offset width < 256 ^ width :=
  Foundation.field_lt _ _ _

/-- Reading back a stored field. -/
theorem field_setField_self (page : Page) (offset width value : ℕ) (h : offset + width ≤ 4096) :
    (page.setField offset width value).field offset width = value % 256 ^ width :=
  Foundation.field_setField_self _ _ _ _ (by rw [page.length_bytes]; exact h)

/-- A store does not change a disjoint field. -/
theorem field_setField_of_disjoint (page : Page) (offset width value start count : ℕ)
    (h : start + count ≤ offset ∨ offset + width ≤ start) :
    (page.setField offset width value).field start count = page.field start count :=
  Foundation.field_setField_of_disjoint _ _ _ _ _ _ h

/-- A store does not change a disjoint slice. -/
theorem slice_setField_of_disjoint (page : Page) (offset width value start count : ℕ)
    (h : start + count ≤ offset ∨ offset + width ≤ start) :
    (page.setField offset width value).slice start count = page.slice start count :=
  Foundation.slice_setField_of_disjoint _ _ _ _ _ _ h

/-- A copy does not change a disjoint field. -/
theorem field_overwrite_of_disjoint (page : Page) (offset : ℕ) (data : List UInt8)
    (start width : ℕ) (h : start + width ≤ offset ∨ offset + data.length ≤ start) :
    (page.overwrite offset data).field start width = page.field start width :=
  Foundation.field_overwrite_of_disjoint _ _ _ _ _ h

/-- A field inside a copied range is a field of the copied bytes. -/
theorem field_overwrite_of_within (page : Page) (offset : ℕ) (data : List UInt8)
    (start width : ℕ) (hstart : offset ≤ start) (hend : start + width ≤ offset + data.length)
    (hfit : offset + data.length ≤ 4096) :
    (page.overwrite offset data).field start width =
      Foundation.field data (start - offset) width :=
  Foundation.field_overwrite_of_within _ _ _ _ _ hstart hend (by rw [page.length_bytes]; exact hfit)

/-- A copy does not change a disjoint slice. -/
theorem slice_overwrite_of_disjoint (page : Page) (offset : ℕ) (data : List UInt8)
    (start count : ℕ) (h : start + count ≤ offset ∨ offset + data.length ≤ start) :
    (page.overwrite offset data).slice start count = page.slice start count :=
  Foundation.slice_overwrite_of_disjoint _ _ _ _ _ h

/-- Reading back copied bytes. -/
theorem slice_overwrite_self (page : Page) (offset : ℕ) (data : List UInt8)
    (h : offset + data.length ≤ 4096) :
    (page.overwrite offset data).slice offset data.length = data :=
  Foundation.slice_overwrite_self _ _ _ (by rw [page.length_bytes]; exact h)

/-- A field of a slice is a field of the page. -/
theorem field_slice (page : Page) (offset count start width : ℕ) (h : start + width ≤ count) :
    Foundation.field (page.slice offset count) start width = page.field (offset + start) width :=
  Foundation.field_slice _ _ _ _ _ h

/-- A slice that fits into the page has the requested length. -/
theorem length_slice (page : Page) (offset count : ℕ) (h : offset + count ≤ 4096) :
    (page.slice offset count).length = count := by
  rw [slice, Foundation.length_slice, page.length_bytes]
  omega

/-- The fields of a zero page are zero. -/
@[simp] theorem field_zero (offset width : ℕ) : zero.field offset width = 0 := by
  have hslice : Foundation.slice zero.bytes offset width =
      List.replicate (min width (pageSize - offset)) 0 := by
    simp only [zero, Foundation.slice, List.drop_replicate, List.take_replicate]
  rw [field, Foundation.field, hslice, leValue_replicate_zero]

/-! ## Header fields -/

/-- `hdr->checksum`. -/
def checksum (page : Page) : ℕ := page.field 12 4

/-- `hdr->page_type`. -/
def pageType (page : Page) : ℕ := page.field 16 2

/-- `hdr->free_space_lower`. -/
def freeSpaceLower (page : Page) : ℕ := page.field 18 2

/-- `hdr->free_space_upper`. -/
def freeSpaceUpper (page : Page) : ℕ := page.field 20 2

/-- `hdr->slot_count`. -/
def slotCount (page : Page) : ℕ := page.field 22 2

/-- Assign `hdr->lsn`. -/
def setLsn (page : Page) (lsn : UInt64) : Page := page.setField 0 8 lsn.toNat

/-- Assign `hdr->checksum`. -/
def setChecksum (page : Page) (value : ℕ) : Page := page.setField 12 4 value

/-- Assign `hdr->free_space_lower`. -/
def setFreeSpaceLower (page : Page) (value : ℕ) : Page := page.setField 18 2 value

/-- Assign `hdr->free_space_upper`. -/
def setFreeSpaceUpper (page : Page) (value : ℕ) : Page := page.setField 20 2 value

/-- Assign `hdr->slot_count`. -/
def setSlotCount (page : Page) (value : ℕ) : Page := page.setField 22 2 value

end Page

/-! ## Checksums -/

/-- One byte of the reflected CRC table: eight shifts, with the polynomial where the low bit
is clear. -/
def crc32ForByte (value : UInt32) : UInt32 :=
  let shift (r : UInt32) : UInt32 := (if r &&& 1 ≠ 0 then (0 : UInt32) else 0xEDB88320) ^^^ (r >>> 1)
  (shift^[8] value) ^^^ 0xFF000000

/-- The CRC of a byte string, one table lookup per byte. -/
def calculateCrc32 (data : List UInt8) : UInt32 :=
  ~~~data.foldl (fun crc byte => crc32ForByte (crc.toUInt8 ^^^ byte).toUInt32 ^^^ (crc >>> 8)) 0

/-- Store the checksum of the page, computed with the checksum field cleared. -/
def slottedPageComputeChecksum (page : Page) : Page :=
  let page := page.setChecksum 0
  page.setChecksum (calculateCrc32 page.bytes).toNat

/-- Compare the stored checksum with that of the page with the checksum field cleared. -/
def slottedPageVerifyChecksum (page : Page) : Bool :=
  (calculateCrc32 (page.setChecksum 0).bytes).toNat = page.checksum

/-! ## Tuples -/

/-- Format an empty page. -/
def slottedPageInit (pageId : ℕ) (pageType : PageType) : Page :=
  ((((Page.zero.setField 0 8 0).setField 8 4 pageId).setField 12 4 0).setField 16 2
    pageType.code).setField 22 2 0 |>.setField 18 2 24 |>.setField 20 2 pageSize

/-- The header of an empty page, and the zero bytes behind it. -/
theorem slottedPageInit_fields (pageId : ℕ) (pageType : PageType) :
    (slottedPageInit pageId pageType).pageType = pageType.code ∧
      (slottedPageInit pageId pageType).slotCount = 0 ∧
      (slottedPageInit pageId pageType).freeSpaceLower = 24 ∧
      (slottedPageInit pageId pageType).freeSpaceUpper = 4096 ∧
      ∀ start width, 24 ≤ start → (slottedPageInit pageId pageType).field start width = 0 := by
  have hcode : pageType.code % 256 ^ 2 = pageType.code := by cases pageType <;> rfl
  refine ⟨?_, ?_, ?_, ?_, fun start width h => ?_⟩
  all_goals
    simp (disch := omega) only [slottedPageInit, Page.pageType, Page.slotCount, Page.freeSpaceLower,
      Page.freeSpaceUpper, Page.field_setField_of_disjoint, Page.field_setField_self,
      Page.field_zero, hcode]
  all_goals rfl

/-- Store a tuple below the others and its slot behind the slot array. The free space is
compared as a 32-bit unsigned difference. -/
def slottedPageInsertTuple (page : Page) (tuple : List UInt8) : Bool × Page :=
  let neededSpace := 4 + tuple.length
  let free := (page.freeSpaceUpper + 2 ^ 32 - page.freeSpaceLower) % 2 ^ 32
  if free < neededSpace then (false, page)
  else
    let page := page.setFreeSpaceUpper ((page.freeSpaceUpper + 2 ^ 16 - tuple.length) % 2 ^ 16)
    let tupleOffset := page.freeSpaceUpper
    let page := page.overwrite tupleOffset tuple
    let slot := page.freeSpaceLower
    let page := (page.setField slot 2 tupleOffset).setField (slot + 2) 2 tuple.length
    let page := page.setFreeSpaceLower (page.freeSpaceLower + 4)
    (true, page.setSlotCount (page.slotCount + 1))

/-- A pointer into a page together with the tuple length. -/
structure TupleRef where
  offset : ℕ
  length : ℕ
  deriving DecidableEq, Repr

/-- Look a slot up; `none` is NULL. -/
def slottedPageGetTuple (page : Page) (slotIdx : ℕ) : Option TupleRef :=
  if page.slotCount ≤ slotIdx then none
  else some ⟨page.field (24 + 4 * slotIdx) 2, page.field (24 + 4 * slotIdx + 2) 2⟩

/-- The bytes that a tuple pointer denotes. -/
def Page.tuple (page : Page) (ref : TupleRef) : List UInt8 :=
  page.slice ref.offset ref.length

/-- What an insertion into a page with enough free space leaves there. -/
structure TupleInserted (page page' : Page) (tuple : List UInt8) : Prop where
  pageType : page'.pageType = page.pageType
  slotCount : page'.slotCount = page.slotCount + 1
  lower : page'.freeSpaceLower = page.freeSpaceLower + 4
  upper : page'.freeSpaceUpper = page.freeSpaceUpper - tuple.length
  slotOffset : page'.field page.freeSpaceLower 2 = page.freeSpaceUpper - tuple.length
  slotLength : page'.field (page.freeSpaceLower + 2) 2 = tuple.length
  tuple : page'.slice (page.freeSpaceUpper - tuple.length) tuple.length = tuple
  oldSlots : ∀ start width, 24 ≤ start → start + width ≤ page.freeSpaceLower →
    page'.field start width = page.field start width
  oldTuples : ∀ start count, page.freeSpaceUpper ≤ start →
    page'.slice start count = page.slice start count

/-- An insertion into a page without enough free space fails. -/
theorem slottedPageInsertTuple_full {page : Page} {tuple : List UInt8}
    (horder : page.freeSpaceLower ≤ page.freeSpaceUpper)
    (hspace : page.freeSpaceUpper < page.freeSpaceLower + 4 + tuple.length) :
    slottedPageInsertTuple page tuple = (false, page) := by
  have hupper : page.freeSpaceUpper < 256 ^ 2 := page.field_lt _ _
  simp only [slottedPageInsertTuple]
  exact if_pos (by omega)

/-- An insertion into a page with enough free space. -/
theorem slottedPageInsertTuple_fits {page : Page} {tuple : List UInt8}
    (hlower : 24 ≤ page.freeSpaceLower) (hupper : page.freeSpaceUpper ≤ 4096)
    (hslots : page.slotCount < 2 ^ 16 - 1)
    (hspace : page.freeSpaceLower + 4 + tuple.length ≤ page.freeSpaceUpper) :
    (slottedPageInsertTuple page tuple).1 = true ∧
      TupleInserted page (slottedPageInsertTuple page tuple).2 tuple := by
  set upper := page.freeSpaceUpper - tuple.length with hupperEq
  set lower := page.freeSpaceLower with hlowerEq
  have hwrap : (page.freeSpaceUpper + 2 ^ 16 - tuple.length) % 2 ^ 16 = upper := by omega
  have hupperField : (page.setFreeSpaceUpper upper).freeSpaceUpper = upper := by
    rw [Page.freeSpaceUpper, Page.setFreeSpaceUpper, Page.field_setField_self _ _ _ _ (by omega)]
    exact Nat.mod_eq_of_lt (by omega)
  have hlowerField : ((page.setFreeSpaceUpper upper).overwrite upper tuple).freeSpaceLower =
      lower := by
    rw [Page.freeSpaceLower, Page.field_overwrite_of_disjoint _ _ _ _ _ (by omega),
      Page.setFreeSpaceUpper, Page.field_setField_of_disjoint _ _ _ _ _ _ (by omega)]
    rfl
  have hinsert : slottedPageInsertTuple page tuple =
      (true,
        let stored := (((page.setFreeSpaceUpper upper).overwrite upper tuple).setField lower 2
          upper).setField (lower + 2) 2 tuple.length
        let moved := stored.setFreeSpaceLower (stored.freeSpaceLower + 4)
        moved.setSlotCount (moved.slotCount + 1)) := by
    simp only [slottedPageInsertTuple]
    rw [if_neg (by omega)]
    simp only [hwrap, hupperField, hlowerField]
  set stored := (((page.setFreeSpaceUpper upper).overwrite upper tuple).setField lower 2
    upper).setField (lower + 2) 2 tuple.length with hstored
  -- what the stores in front of the two counters leave in the page
  have hheader : ∀ {start width}, start + width ≤ 24 → (start + width ≤ 20 ∨ 22 ≤ start) →
      stored.field start width = page.field start width := by
    intro start width hend hupperField
    rw [hstored, Page.field_setField_of_disjoint _ _ _ _ _ _ (by omega),
      Page.field_setField_of_disjoint _ _ _ _ _ _ (by omega),
      Page.field_overwrite_of_disjoint _ _ _ _ _ (by omega), Page.setFreeSpaceUpper,
      Page.field_setField_of_disjoint _ _ _ _ _ _ (by omega)]
  have hstoredLower : stored.freeSpaceLower = lower := hheader (by omega) (by omega)
  have hstoredCount : (stored.setFreeSpaceLower (lower + 4)).slotCount = page.slotCount :=
    (Page.field_setField_of_disjoint _ _ _ _ _ _ (by omega)).trans (hheader (by omega) (by omega))
  have hlength : tuple.length % 256 ^ 2 = tuple.length := Nat.mod_eq_of_lt (by omega)
  rw [hinsert]
  simp only [hstoredLower, hstoredCount]
  have hfield : ∀ {start width}, start + width ≤ 18 ∨ (20 ≤ start ∧ start + width ≤ 22) ∨
      24 ≤ start → ((stored.setFreeSpaceLower (lower + 4)).setSlotCount
        (page.slotCount + 1)).field start width = stored.field start width := by
    intro start width hrange
    rw [Page.setSlotCount, Page.field_setField_of_disjoint _ _ _ _ _ _ (by omega),
      Page.setFreeSpaceLower, Page.field_setField_of_disjoint _ _ _ _ _ _ (by omega)]
  have hslice : ∀ {start count}, 24 ≤ start → ((stored.setFreeSpaceLower (lower + 4)).setSlotCount
      (page.slotCount + 1)).slice start count = stored.slice start count := by
    intro start count hstart
    rw [Page.setSlotCount, Page.slice_setField_of_disjoint _ _ _ _ _ _ (by omega),
      Page.setFreeSpaceLower, Page.slice_setField_of_disjoint _ _ _ _ _ _ (by omega)]
  refine ⟨trivial, (hfield (by omega)).trans (hheader (by omega) (by omega)), ?_, ?_, ?_, ?_, ?_, ?_, ?_,
    ?_⟩
  · rw [Page.slotCount, Page.setSlotCount, Page.field_setField_self _ _ _ _ (by omega)]
    exact Nat.mod_eq_of_lt (by omega)
  · rw [Page.freeSpaceLower, Page.setSlotCount,
      Page.field_setField_of_disjoint _ _ _ _ _ _ (by omega), Page.setFreeSpaceLower,
      Page.field_setField_self _ _ _ _ (by omega)]
    exact Nat.mod_eq_of_lt (by omega)
  · refine (hfield (by omega)).trans ?_
    rw [hstored, Page.field_setField_of_disjoint _ _ _ _ _ _ (by omega),
      Page.field_setField_of_disjoint _ _ _ _ _ _ (by omega),
      Page.field_overwrite_of_disjoint _ _ _ _ _ (by omega)]
    exact hupperField
  · refine (hfield (by omega)).trans ?_
    rw [hstored, Page.field_setField_of_disjoint _ _ _ _ _ _ (by omega),
      Page.field_setField_self _ _ _ _ (by omega)]
    exact Nat.mod_eq_of_lt (by omega)
  · refine (hfield (by omega)).trans ?_
    rw [hstored, Page.field_setField_self _ _ _ _ (by omega), hlength]
  · rw [hslice (by omega), hstored, Page.slice_setField_of_disjoint _ _ _ _ _ _ (by omega),
      Page.slice_setField_of_disjoint _ _ _ _ _ _ (by omega),
      Page.slice_overwrite_self _ _ _ (by omega)]
  · intro start width hstart hend
    refine (hfield (by omega)).trans ?_
    rw [hstored, Page.field_setField_of_disjoint _ _ _ _ _ _ (by omega),
      Page.field_setField_of_disjoint _ _ _ _ _ _ (by omega),
      Page.field_overwrite_of_disjoint _ _ _ _ _ (by omega), Page.setFreeSpaceUpper,
      Page.field_setField_of_disjoint _ _ _ _ _ _ (by omega)]
  · intro start count hstart
    rw [hslice (by omega), hstored, Page.slice_setField_of_disjoint _ _ _ _ _ _ (by omega),
      Page.slice_setField_of_disjoint _ _ _ _ _ _ (by omega),
      Page.slice_overwrite_of_disjoint _ _ _ _ _ (by omega), Page.setFreeSpaceUpper,
      Page.slice_setField_of_disjoint _ _ _ _ _ _ (by omega)]

end FtsUring
