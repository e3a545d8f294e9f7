import FtsUring.Shard.Document
import FtsUring.Storage.SlottedPage

/-!
# Length maps

One page holds a byte for each field of each document, behind the 24 bytes of the page header. The entry is
chosen by the document id modulo `DOC_NORMS_PER_PAGE`, which counts the entries of the whole page: the bytes
of the last six documents lie behind the end of the page, and are never stored.
-/

namespace FtsUring

open Foundation

/-- `DOC_NORMS_PER_PAGE`. -/
def docNormsPerPage : ℕ := pageSize / maxFtsFields

/-- `offset`. -/
def lengthMapOffset (docId : UInt32) (fieldIdx : UInt8) : ℕ :=
  24 + docId.toNat % docNormsPerPage * maxFtsFields + fieldIdx.toNat

/-- Format a length map. -/
def ftsLengthMapInit (pageId : ℕ) : Page := slottedPageInit pageId .lengthMap

/-- Store the length of a field. -/
def ftsLengthMapSet (page : Page) (docId : UInt32) (fieldIdx quantizedLen : UInt8) : Page :=
  if maxFtsFields ≤ fieldIdx.toNat then page
  else if lengthMapOffset docId fieldIdx < pageSize then
    page.setField (lengthMapOffset docId fieldIdx) 1 quantizedLen.toNat
  else page

/-- Read the length of a field. -/
def ftsLengthMapGet (page : Page) (docId : UInt32) (fieldIdx : UInt8) : UInt8 :=
  if maxFtsFields ≤ fieldIdx.toNat then 0
  else if lengthMapOffset docId fieldIdx < pageSize then
    UInt8.ofNat (page.field (lengthMapOffset docId fieldIdx) 1)
  else 0

/-- A document and a field of which the map is meant to keep the length. -/
def LengthMapCell (docId : UInt32) (fieldIdx : UInt8) : Prop :=
  docId.toNat < docNormsPerPage ∧ fieldIdx.toNat < maxFtsFields

/-- The number of documents of which all bytes lie in the page. -/
def lengthMapUsableDocs : ℕ := 1018

variable {docId other : UInt32} {fieldIdx otherIdx : UInt8}

/-- The byte of a cell lies in the page. -/
theorem lengthMapOffset_lt_iff (hcell : LengthMapCell docId fieldIdx) :
    lengthMapOffset docId fieldIdx < pageSize ↔ docId.toNat < lengthMapUsableDocs := by
  have hdoc := Nat.mod_eq_of_lt hcell.1
  have hfield := hcell.2
  unfold lengthMapOffset lengthMapUsableDocs
  rw [hdoc]
  simp only [pageSize, maxFtsFields] at hfield ⊢
  omega

/-- Different cells have different bytes. -/
theorem lengthMapOffset_inj (hcell : LengthMapCell docId fieldIdx) (hother : LengthMapCell other otherIdx)
    (h : lengthMapOffset docId fieldIdx = lengthMapOffset other otherIdx) :
    docId = other ∧ fieldIdx = otherIdx := by
  have hdoc := Nat.mod_eq_of_lt hcell.1
  have hdoc' := Nat.mod_eq_of_lt hother.1
  have hfield := hcell.2
  have hfield' := hother.2
  unfold lengthMapOffset at h
  rw [hdoc, hdoc'] at h
  simp only [maxFtsFields] at h hfield hfield'
  exact ⟨UInt32.toNat_inj.mp (by omega), UInt8.toNat_inj.mp (by omega)⟩

/-- A new map has no lengths. -/
theorem ftsLengthMapGet_init (pageId : ℕ) : ftsLengthMapGet (ftsLengthMapInit pageId) docId fieldIdx = 0 := by
  have hzero : (ftsLengthMapInit pageId).field (lengthMapOffset docId fieldIdx) 1 = 0 := by
    refine (slottedPageInit_fields pageId .lengthMap).2.2.2.2 _ _ ?_
    unfold lengthMapOffset
    omega
  unfold ftsLengthMapGet
  rw [hzero]
  simp

/-- Storing a length changes its own cell, if the byte lies in the page, and no other. -/
theorem ftsLengthMapGet_set (page : Page) (hcell : LengthMapCell docId fieldIdx)
    (hother : LengthMapCell other otherIdx) (quantizedLen : UInt8) :
    ftsLengthMapGet (ftsLengthMapSet page docId fieldIdx quantizedLen) other otherIdx =
      if other.toNat < lengthMapUsableDocs ∧ docId = other ∧ fieldIdx = otherIdx then quantizedLen
      else ftsLengthMapGet page other otherIdx := by
  have hfield := not_le.mpr hcell.2
  have hfield' := not_le.mpr hother.2
  unfold ftsLengthMapGet ftsLengthMapSet
  rw [if_neg hfield, if_neg hfield', if_neg hfield']
  simp only [lengthMapOffset_lt_iff hcell, lengthMapOffset_lt_iff hother]
  by_cases hdoc : docId.toNat < lengthMapUsableDocs
  swap
  · rw [if_neg hdoc]
    by_cases hsame : other.toNat < lengthMapUsableDocs ∧ docId = other ∧ fieldIdx = otherIdx
    · exact absurd (hsame.2.1 ▸ hsame.1) hdoc
    · rw [if_neg hsame]
  rw [if_pos hdoc]
  by_cases hsame : docId = other ∧ fieldIdx = otherIdx
  · obtain ⟨rfl, rfl⟩ := hsame
    have hfit : lengthMapOffset docId fieldIdx + 1 ≤ 4096 := (lengthMapOffset_lt_iff hcell).mpr hdoc
    have hbyte : quantizedLen.toNat % 256 ^ 1 = quantizedLen.toNat := Nat.mod_eq_of_lt quantizedLen.toNat_lt
    rw [if_pos hdoc, if_pos ⟨hdoc, rfl, rfl⟩, Page.field_setField_self _ _ _ _ hfit, hbyte, UInt8.ofNat_toNat]
  · have hdisjoint : lengthMapOffset docId fieldIdx ≠ lengthMapOffset other otherIdx :=
      fun h => hsame (lengthMapOffset_inj hcell hother h)
    have hbyte : (page.setField (lengthMapOffset docId fieldIdx) 1 quantizedLen.toNat).field
        (lengthMapOffset other otherIdx) 1 = page.field (lengthMapOffset other otherIdx) 1 :=
      Page.field_setField_of_disjoint _ _ _ _ _ _ (by omega)
    have hdiffer : ¬(other.toNat < lengthMapUsableDocs ∧ docId = other ∧ fieldIdx = otherIdx) :=
      fun h => hsame h.2
    rw [hbyte, if_neg hdiffer]

/-- Storing a length leaves the header. -/
theorem slice_ftsLengthMapSet (page : Page) (docId : UInt32) (fieldIdx quantizedLen : UInt8) :
    (ftsLengthMapSet page docId fieldIdx quantizedLen).slice 0 24 = page.slice 0 24 := by
  unfold ftsLengthMapSet
  split
  · rfl
  · split
    · refine Page.slice_setField_of_disjoint _ _ _ _ _ _ (.inl ?_)
      unfold lengthMapOffset
      omega
    · rfl

/-! ## Sequences of writes -/

/-- A call of `fts_length_map_set`. -/
structure LengthMapWrite where
  docId : UInt32
  fieldIdx : UInt8
  quantizedLen : UInt8
  cell : LengthMapCell docId fieldIdx

/-- The page after a sequence of calls. -/
def lengthMapAfter (pageId : ℕ) (writes : List LengthMapWrite) : Page :=
  writes.foldl (fun page write => ftsLengthMapSet page write.docId write.fieldIdx write.quantizedLen)
    (ftsLengthMapInit pageId)

/-- What the map is for: the length that was stored last, or zero. -/
def lastLengths (writes : List LengthMapWrite) : UInt32 × UInt8 → UInt8 :=
  writes.foldl (fun lengths write => Function.update lengths (write.docId, write.fieldIdx) write.quantizedLen)
    fun _ => 0

/-- The header never changes. -/
theorem slice_lengthMapAfter (pageId : ℕ) (writes : List LengthMapWrite) :
    (lengthMapAfter pageId writes).slice 0 24 = (ftsLengthMapInit pageId).slice 0 24 := by
  unfold lengthMapAfter
  induction writes using List.reverseRecOn with
  | nil => rfl
  | append_singleton writes write ih =>
    rw [List.foldl_append, List.foldl_cons, List.foldl_nil, slice_ftsLengthMapSet, ih]

/-- The map keeps the last lengths of the documents whose bytes lie in the page. -/
theorem ftsLengthMapGet_after (pageId : ℕ) (writes : List LengthMapWrite)
    (hcell : LengthMapCell docId fieldIdx) :
    ftsLengthMapGet (lengthMapAfter pageId writes) docId fieldIdx =
      if docId.toNat < lengthMapUsableDocs then lastLengths writes (docId, fieldIdx) else 0 := by
  unfold lengthMapAfter lastLengths
  induction writes using List.reverseRecOn with
  | nil =>
    rw [List.foldl_nil, ftsLengthMapGet_init, List.foldl_nil, ite_self]
  | append_singleton writes write ih =>
    rw [List.foldl_append, List.foldl_cons, List.foldl_nil, List.foldl_append, List.foldl_cons, List.foldl_nil,
      ftsLengthMapGet_set _ write.cell hcell, ih, Function.update_apply]
    by_cases hdoc : docId.toNat < lengthMapUsableDocs
    · by_cases hsame : write.docId = docId ∧ write.fieldIdx = fieldIdx
      · rw [if_pos ⟨hdoc, hsame⟩, if_pos hdoc, if_pos (Prod.ext hsame.1.symm hsame.2.symm)]
      · rw [if_neg fun h => hsame h.2, if_pos hdoc, if_pos hdoc, if_neg]
        intro h
        rw [Prod.mk.injEq] at h
        exact hsame ⟨h.1.symm, h.2.symm⟩
    · rw [if_neg fun h => hdoc h.1, if_neg hdoc, if_neg hdoc]

/-- The map keeps the last length of every cell. -/
def KeepsLengths (pageId : ℕ) (writes : List LengthMapWrite) : Prop :=
  (∀ docId fieldIdx, LengthMapCell docId fieldIdx →
    ftsLengthMapGet (lengthMapAfter pageId writes) docId fieldIdx = lastLengths writes (docId, fieldIdx)) ∧
  (lengthMapAfter pageId writes).slice 0 24 = (ftsLengthMapInit pageId).slice 0 24

/-- The map keeps the last length of every cell exactly if the last six documents have no lengths. -/
theorem keepsLengths_iff (pageId : ℕ) (writes : List LengthMapWrite) :
    KeepsLengths pageId writes ↔
      ∀ docId fieldIdx, LengthMapCell docId fieldIdx → lengthMapUsableDocs ≤ docId.toNat →
        lastLengths writes (docId, fieldIdx) = 0 := by
  constructor
  · intro hkeeps docId fieldIdx hcell hdoc
    rw [← hkeeps.1 docId fieldIdx hcell, ftsLengthMapGet_after pageId writes hcell, if_neg (not_lt.mpr hdoc)]
  · intro hzero
    refine ⟨fun docId fieldIdx hcell => ?_, slice_lengthMapAfter pageId writes⟩
    rw [ftsLengthMapGet_after pageId writes hcell]
    split
    · rfl
    · next hdoc => exact (hzero docId fieldIdx hcell (not_lt.mp hdoc)).symm

/-- The length of the document 1018 is lost. -/
theorem not_keepsLengths : ¬KeepsLengths 10 [⟨1018, 0, 1, ⟨by decide, by decide⟩⟩] := by
  intro h
  have hget := h.1 1018 0 ⟨by decide, by decide⟩
  rw [ftsLengthMapGet_after 10 _ ⟨by decide, by decide⟩, if_neg (by decide)] at hget
  exact absurd hget (by decide)

end FtsUring
