import FtsUring.Foundation.TopK
import FtsUring.Shard.Shard

/-!
# Looking at a record during a search

Every search of a shard looks at records one after the other. A record that is not deleted is
scored, and a buffer of `max_results` entries keeps the best ones. The text search and the vector
search differ in the score, in whether scores that are not positive count, and in the member of the
result that the buffer is ordered by.
-/

namespace FtsUring

open Foundation

/-- A search result. -/
@[ext] structure UnifiedSearchResult (F : Type) where
  nodeId : Vector UInt8 16
  bm25fScore : F
  cosineScore : F
  rrfScore : F
  bm25fRank : UInt32
  cosineRank : UInt32
  deriving DecidableEq

variable {F : Type} [Double F]

/-- What a search does with the records it finds. -/
structure Ranking (F : Type) [Double F] where
  score : UnifiedDocRecord → F
  /-- Whether a record with the score is a result. -/
  admits : F → Bool
  result : Vector UInt8 16 → F → UnifiedSearchResult F
  /-- The score by which the results are ordered. -/
  key : UnifiedSearchResult F → F

/-- The result of a text search. -/
def textResult (nodeId : Vector UInt8 16) (score : F) : UnifiedSearchResult F :=
  ⟨nodeId, score, 0, 0, 0, 0⟩

/-- The result of a vector search. -/
def vectorResult (nodeId : Vector UInt8 16) (score : F) : UnifiedSearchResult F :=
  ⟨nodeId, 0, score, 0, 0, 0⟩

/-- Text searches keep the records with a positive BM25F score. -/
def textRanking (params : Bm25fParams F) : Ranking F where
  score rec := computeBm25fScore rec.termFrequencies rec.documentLengths params
  admits score := 0 < score
  result := textResult
  key := UnifiedSearchResult.bm25fScore

/-- Vector searches keep every record. -/
def vectorRanking (queryVec : Vector UInt32 embeddingDim) : Ranking F where
  score rec := computeCosineSimilarity queryVec rec.embedding
  admits _ := true
  result := vectorResult
  key := UnifiedSearchResult.cosineScore

/-- The result for a record, if it is one. -/
def Ranking.resultOf (ranking : Ranking F) (rec : UnifiedDocRecord) : Option (UnifiedSearchResult F) :=
  if ranking.admits (ranking.score rec) then some (ranking.result rec.nodeId (ranking.score rec))
  else none

/-- Put a record among the results unless it is deleted. Without room for a single result the source
compares with a result that is not there. -/
def considerRecord (ranking : Ranking F) (maxResults : ℕ) (results : List (UnifiedSearchResult F))
    (rec : UnifiedDocRecord) : PageProgram (List (UnifiedSearchResult F)) := do
  if ← shardIsDeleted rec.docId then return results
  let score := ranking.score rec
  if ranking.admits score then
    if maxResults = 0 then .diverge
    else return offer ranking.key maxResults results (ranking.result rec.nodeId score)
  else return results

/-- The record in a slot of a page, if there is one of the right size. A tuple that leaves the page
cannot be read. -/
def readRecord (page : Page) (slotIdx : ℕ) : PageProgram (Option UnifiedDocRecord) :=
  match slottedPageGetTuple page slotIdx with
  | none => return none
  | some ref =>
    if ref.length ≠ unifiedDocRecordSize then return none
    else if ref.offset + ref.length ≤ pageSize then return some (.decode (page.tuple ref))
    else .diverge

/-! ## Reading records -/

/-- The record in a slot of a page. -/
def Page.recordAt (page : Page) (slotIdx : ℕ) : Option UnifiedDocRecord :=
  (slottedPageGetTuple page slotIdx).bind fun ref =>
    if ref.length = unifiedDocRecordSize then some (.decode (page.tuple ref)) else none

/-- The record in a slot, if there is one, lies in the page. -/
def Page.RecordInside (page : Page) (slotIdx : ℕ) : Prop :=
  ∀ ref, slottedPageGetTuple page slotIdx = some ref → ref.length = unifiedDocRecordSize →
    ref.offset + ref.length ≤ pageSize

/-- Reading a record that lies in the page. -/
theorem readRecord_eq {page : Page} {slotIdx : ℕ} (h : page.RecordInside slotIdx) :
    readRecord page slotIdx = pure (page.recordAt slotIdx) := by
  rw [readRecord, Page.recordAt]
  cases hget : slottedPageGetTuple page slotIdx with
  | none => rfl
  | some ref =>
    dsimp only [Option.bind_some]
    by_cases hlength : ref.length = unifiedDocRecordSize
    · rw [if_neg (not_not.mpr hlength), if_pos hlength, if_pos (h ref hget hlength)]
    · rw [if_pos hlength, if_neg hlength]

namespace IsDataPage

variable {page : Page} {records : List UnifiedDocRecord}

/-- The record in a slot of a data page. -/
theorem recordAt (h : IsDataPage page records) (slotIdx : ℕ) : page.recordAt slotIdx = records[slotIdx]? := by
  rw [Page.recordAt]
  have hlength : (recordRef slotIdx).length = unifiedDocRecordSize := rfl
  by_cases hslot : slotIdx < records.length
  · rw [h.getTuple slotIdx hslot, Option.bind_some, if_pos hlength, h.decode_tuple hslot,
      List.getElem?_eq_getElem hslot]
  · rw [slottedPageGetTuple, if_pos (h.slotCount ▸ not_lt.mp hslot), Option.bind_none,
      List.getElem?_eq_none (not_lt.mp hslot)]

/-- The records of a data page lie in it. -/
theorem recordInside (h : IsDataPage page records) (slotIdx : ℕ) : page.RecordInside slotIdx := by
  intro ref hget hlength
  by_cases hslot : slotIdx < records.length
  · rw [h.getTuple slotIdx hslot, Option.some.injEq] at hget
    subst hget
    change 4096 - 1588 * (slotIdx + 1) + 1588 ≤ 4096
    have hfits : records.length ≤ 2 := h.fits
    omega
  · rw [slottedPageGetTuple, if_pos (h.slotCount ▸ not_lt.mp hslot)] at hget
    cases hget

end IsDataPage

end FtsUring
