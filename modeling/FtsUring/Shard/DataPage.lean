import FtsUring.Shard.Document
import FtsUring.Storage.SlottedPage

/-!
# Data pages

A data page is a slotted page of type `PAGE_TYPE_VECTOR_DATA` whose tuples are document records.
Two records fit.
-/

namespace FtsUring

open Foundation

/-- The number of records that fit into a page. -/
def dataPageCapacity : ℕ := 2

/-- Where the record of a slot is stored. -/
def recordRef (slotIdx : ℕ) : TupleRef := ⟨4096 - 1588 * (slotIdx + 1), 1588⟩

/-- The page is a data page with the given records. -/
structure IsDataPage (page : Page) (records : List UnifiedDocRecord) : Prop where
  pageType : page.pageType = PageType.vectorData.code
  slotCount : page.slotCount = records.length
  lower : page.freeSpaceLower = 24 + 4 * records.length
  upper : page.freeSpaceUpper = 4096 - 1588 * records.length
  fits : records.length ≤ dataPageCapacity
  getTuple : ∀ i < records.length, slottedPageGetTuple page i = some (recordRef i)
  tuple : ∀ i (h : i < records.length), page.tuple (recordRef i) = records[i].encode

namespace IsDataPage

variable {page : Page} {records : List UnifiedDocRecord}

/-- A newly formatted data page. -/
theorem init (pageId : ℕ) : IsDataPage (slottedPageInit pageId .vectorData) [] := by
  obtain ⟨htype, hcount, hlower, hupper, -⟩ := slottedPageInit_fields pageId .vectorData
  exact ⟨htype, hcount, hlower, hupper, Nat.zero_le _, by simp, by simp⟩

/-- The record in a slot. -/
theorem decode_tuple (h : IsDataPage page records) {i : ℕ} (hi : i < records.length) :
    UnifiedDocRecord.decode (page.tuple (recordRef i)) = records[i] := by
  rw [h.tuple i hi, UnifiedDocRecord.decode_encode]

/-- There is no third record. -/
theorem insertTuple_full (h : IsDataPage page records) (hfull : records.length = dataPageCapacity)
    (rec : UnifiedDocRecord) : slottedPageInsertTuple page rec.encode = (false, page) := by
  have hcapacity : dataPageCapacity = 2 := rfl
  have hlower := h.lower
  have hupper := h.upper
  have hlength := rec.length_encode
  exact slottedPageInsertTuple_full (by omega) (by omega)

/-- Inserting a record. -/
theorem insertTuple (h : IsDataPage page records) (hroom : records.length < dataPageCapacity)
    (rec : UnifiedDocRecord) :
    (slottedPageInsertTuple page rec.encode).1 = true ∧
      IsDataPage (slottedPageInsertTuple page rec.encode).2 (records ++ [rec]) := by
  have hcapacity : dataPageCapacity = 2 := rfl
  have hlower := h.lower
  have hupper := h.upper
  have hlength := rec.length_encode
  have hcount := h.slotCount
  obtain ⟨hok, hinserted⟩ := @slottedPageInsertTuple_fits page rec.encode (by omega) (by omega)
    (by omega) (by omega)
  refine ⟨hok, ?_⟩
  set page' := (slottedPageInsertTuple page rec.encode).2
  have htotal : (records ++ [rec]).length = records.length + 1 := by
    rw [List.length_append, List.length_singleton]
  have hslots : page'.slotCount = records.length + 1 := hinserted.slotCount.trans (by rw [hcount])
  refine ⟨hinserted.pageType.trans h.pageType, hslots.trans htotal.symm,
    by rw [hinserted.lower]; omega, by rw [hinserted.upper]; omega, by omega, ?_, ?_⟩
  · intro i hi
    rw [slottedPageGetTuple, if_neg (by omega)]
    by_cases hold : i < records.length
    · have hget := h.getTuple i hold
      rw [slottedPageGetTuple, if_neg (by omega)] at hget
      rw [hinserted.oldSlots _ _ (by omega) (by omega), hinserted.oldSlots _ _ (by omega) (by omega),
        hget]
    · rw [htotal] at hi
      have hlast : i = records.length :=
        Nat.le_antisymm (Nat.lt_succ_iff.mp hi) (not_lt.mp hold)
      have hoffset := hinserted.slotOffset
      have hwidth := hinserted.slotLength
      rw [hlower, hupper] at hoffset
      rw [hlower] at hwidth
      have hsame : 4096 - 1588 * records.length - rec.encode.length =
          4096 - 1588 * (records.length + 1) := by omega
      rw [hsame] at hoffset
      have href : recordRef records.length = ⟨4096 - 1588 * (records.length + 1), 1588⟩ := by
        unfold recordRef
        exact rfl
      rw [hlast, hoffset, hwidth, hlength]
      exact congrArg some href.symm
  · intro i hi
    rw [htotal] at hi
    by_cases hold : i < records.length
    · rw [List.getElem_append_left hold, ← h.tuple i hold]
      have hstart : page.freeSpaceUpper ≤ 4096 - 1588 * (i + 1) := by omega
      exact hinserted.oldTuples _ _ hstart
    · have hlast : i = records.length :=
        Nat.le_antisymm (Nat.lt_succ_iff.mp hi) (not_lt.mp hold)
      subst hlast
      have htuple := hinserted.tuple
      have hsame : page.freeSpaceUpper - rec.encode.length = 4096 - 1588 * (records.length + 1) := by
        omega
      rw [hsame, hlength] at htuple
      have hlastRecord : (records ++ [rec])[records.length] = rec := by simp
      rw [hlastRecord]
      exact htuple

end IsDataPage

end FtsUring
