import FtsUring.Search.TermSearch

/-!
# Sequences of operations

All calls on a shard: insertions, deletions, the question whether a document is deleted, and the four
searches. Over the array of pages every call answers what its content says, and the searches leave the
pages as they are.
-/

namespace FtsUring

open Foundation

/-- The calls on a shard. -/
inductive ShardOperation (F : Type) where
  | update (update : ShardUpdate)
  | isDeleted (docId : UInt32)
  | searchBm25f (termId : UInt32) (params : Bm25fParams F) (maxResults : ℕ)
  | searchVector (queryVec : Vector UInt32 embeddingDim) (maxResults : ℕ)
  | searchBm25fIndexed (termId : UInt32) (params : Bm25fParams F) (maxResults : ℕ)
  | searchPhraseIndexed (termIds : List UInt32) (params : Bm25fParams F) (maxResults : ℕ)

/-- What a call returns. -/
inductive ShardAnswer (F : Type) where
  /-- Whether the return code is 0, or the document is deleted. -/
  | bool (value : Bool)
  | results (found : List (UnifiedSearchResult F))
  deriving DecidableEq

namespace ShardOperation

variable {F : Type}

/-- The updates among the calls. -/
def updates (operations : List (ShardOperation F)) : List ShardUpdate :=
  operations.filterMap fun operation =>
    match operation with
    | .update call => some call
    | _ => none

/-- A search has room for a result. Without it the source reads a result that is not there. -/
def HasRoom : ShardOperation F → Prop
  | .searchBm25f _ _ maxResults => 0 < maxResults
  | .searchVector _ maxResults => 0 < maxResults
  | .searchBm25fIndexed _ _ maxResults => 0 < maxResults
  | .searchPhraseIndexed _ _ maxResults => 0 < maxResults
  | _ => True

variable [Double F]

/-- Make a call. -/
def run (shard : Shard F) : ShardOperation F → PageProgram (ShardAnswer F × Shard F)
  | .update call => do
    let (ok, shard) ← call.run shard
    return (.bool ok, shard)
  | .isDeleted docId => do return (.bool (← shardIsDeleted docId), shard)
  | .searchBm25f termId params maxResults => do
    return (.results (← shardSearchBm25f termId params maxResults), shard)
  | .searchVector queryVec maxResults => do
    return (.results (← shardSearchVector queryVec maxResults), shard)
  | .searchBm25fIndexed termId params maxResults => do
    return (.results (← shardSearchBm25fIndexed termId params maxResults), shard)
  | .searchPhraseIndexed termIds params maxResults => do
    return (.results (← shardSearchPhraseIndexed termIds params maxResults), shard)

end ShardOperation

variable {F : Type} [Double F]

/-- Make a sequence of calls. -/
def runOperations : Shard F → List (ShardOperation F) → PageProgram (List (ShardAnswer F) × Shard F)
  | shard, [] => return ([], shard)
  | shard, operation :: operations => do
    let (answer, shard) ← operation.run shard
    let (answers, shard) ← runOperations shard operations
    return (answer :: answers, shard)

namespace ShardView

/-- The results of a search that finds records. -/
def answer (view : ShardView) (ranking : Ranking F) (maxResults : ℕ) (records : List UnifiedDocRecord) :
    ShardAnswer F :=
  .results (exchangeSort ranking.key (offerAll ranking.key maxResults [] (view.found ranking records)))

/-- What a call answers. -/
def answerTo (view : ShardView) : ShardOperation F → ShardAnswer F
  | .update _ => .bool true
  | .isDeleted docId => .bool (view.isDeleted docId)
  | .searchBm25f _ params maxResults => view.answer (textRanking params) maxResults view.data.chronological
  | .searchVector queryVec maxResults =>
    view.answer (vectorRanking queryVec) maxResults view.data.chronological
  | .searchBm25fIndexed termId params maxResults => view.answer (textRanking params) maxResults
    (((view.postings termId).contents.take maxPossiblePostings).filterMap view.recordOf)
  | .searchPhraseIndexed termIds params maxResults => view.answer (textRanking params) maxResults
    ((view.phrasePostings termIds).filterMap view.recordOf)

/-- The content after a call. -/
def after (view : ShardView) : ShardOperation F → ShardView
  | .update update => view.update update
  | _ => view

/-- What a sequence of calls answers. -/
def answersTo : ShardView → List (ShardOperation F) → List (ShardAnswer F)
  | _, [] => []
  | view, operation :: operations => view.answerTo operation :: (view.after operation).answersTo operations

omit [Double F] in
/-- One call more. -/
theorem updates_after (view : ShardView) (operation : ShardOperation F)
    (operations : List (ShardOperation F)) :
    view.updates (ShardOperation.updates (operation :: operations)) =
      (view.after operation).updates (ShardOperation.updates operations) := by
  cases operation <;> rfl

end ShardView

/-- The members of a shard after a call. -/
def Shard.after (shard : Shard F) (view : ShardView) : ShardOperation F → Shard F
  | .update update => shard.afterUpdate view update
  | _ => shard

/-- The members of a shard after a sequence of calls. -/
theorem Shard.afterUpdates_after (shard : Shard F) (view : ShardView) (operation : ShardOperation F)
    (operations : List (ShardOperation F)) :
    shard.afterUpdates view (ShardOperation.updates (operation :: operations)) =
      (shard.after view operation).afterUpdates (view.after operation)
        (ShardOperation.updates operations) := by
  cases operation <;> rfl

/-- The members keep agreeing with the content. -/
theorem Shard.Matches.after {shard : Shard F} {view : ShardView} (h : shard.Matches view)
    (operation : ShardOperation F) : (shard.after view operation).Matches (view.after operation) := by
  cases operation with
  | update update => exact h.afterUpdate update
  | _ => exact h

/-! ## Calls over the array -/

/-- The pages hold a shard into which documents were inserted that the scans can tell from posting
pages. -/
structure IndexedShardAt (s : PageArray) (view : ShardView) (docs : List Document) : Prop where
  shardAt : ShardAt s view
  indexed : Indexed view docs
  noRecordSlots : view.NoRecordSlots

namespace IndexedShardAt

variable {s : PageArray} {view : ShardView} {docs : List Document}

/-- The documents that a call inserts. -/
def insertedBy (operation : ShardOperation F) : List Document :=
  insertedDocuments (ShardOperation.updates [operation])

/-- One call. -/
theorem ensures_run (h : IndexedShardAt s view docs) {shard : Shard F} (hmatches : shard.Matches view)
    {operation : ShardOperation F} (hroom : operation.HasRoom)
    (hshort : ∀ doc ∈ insertedBy operation, doc.NoRecordSlots)
    (hfits : (view.after operation).nextPageId < invalidPageId) :
    arrayHandler.Ensures (operation.run shard) s fun result t =>
      result = (view.answerTo operation, shard.after view operation) ∧
        IndexedShardAt t (view.after operation) (docs ++ insertedBy operation) := by
  have haddressed := h.indexed.addressed h.shardAt.valid
  have hsame : insertedBy operation = [] → IndexedShardAt s view (docs ++ insertedBy operation) := by
    intro hnone
    rwa [hnone, List.append_nil]
  cases operation with
  | update update =>
    refine (h.shardAt.ensures_update hmatches update hfits.le).bind ?_
    rintro result t ⟨rfl, ht⟩
    refine .pure ⟨rfl, ht, ?_, ?_⟩
    · exact @Indexed.updates view docs h.indexed h.shardAt.valid [update] hfits.le
    · exact @ShardView.noRecordSlots_updates view h.shardAt.valid h.noRecordSlots [update] hshort hfits.le
  | isDeleted docId => exact .step (h.shardAt.exec_isDeleted docId) (.pure ⟨rfl, hsame rfl⟩)
  | searchBm25f termId params maxResults =>
    exact .step (h.shardAt.exec_searchPages h.noRecordSlots hfits (textRanking params) hroom)
      (.pure ⟨rfl, hsame rfl⟩)
  | searchVector queryVec maxResults =>
    exact .step (h.shardAt.exec_searchPages h.noRecordSlots hfits (vectorRanking queryVec) hroom)
      (.pure ⟨rfl, hsame rfl⟩)
  | searchBm25fIndexed termId params maxResults =>
    exact .step (h.shardAt.exec_searchIndexed haddressed termId params fun _ => hroom) (.pure ⟨rfl, hsame rfl⟩)
  | searchPhraseIndexed termIds params maxResults =>
    exact .step (h.shardAt.exec_searchPhrase haddressed termIds params fun _ => hroom) (.pure ⟨rfl, hsame rfl⟩)

/-- A sequence of calls. -/
theorem ensures_runOperations (h : IndexedShardAt s view docs) {shard : Shard F}
    (hmatches : shard.Matches view) {operations : List (ShardOperation F)}
    (hroom : ∀ operation ∈ operations, operation.HasRoom)
    (hshort : ∀ doc ∈ insertedDocuments (ShardOperation.updates operations), doc.NoRecordSlots)
    (hfits : (view.updates (ShardOperation.updates operations)).nextPageId < invalidPageId) :
    arrayHandler.Ensures (runOperations shard operations) s fun result t =>
      result = (view.answersTo operations,
        shard.afterUpdates view (ShardOperation.updates operations)) ∧
      IndexedShardAt t (view.updates (ShardOperation.updates operations))
        (docs ++ insertedDocuments (ShardOperation.updates operations)) := by
  induction operations generalizing s view docs shard with
  | nil =>
    refine .pure ⟨rfl, ?_⟩
    change IndexedShardAt s view (docs ++ [])
    rwa [List.append_nil]
  | cons operation operations ih =>
    have hsplit : insertedDocuments (ShardOperation.updates (operation :: operations)) =
        insertedBy operation ++ insertedDocuments (ShardOperation.updates operations) := by
      cases operation with
      | update update => cases update <;> rfl
      | _ => rfl
    rw [view.updates_after] at hfits
    rw [hsplit] at hshort
    have hnow := (ShardView.nextPageId_le_updates (view.after operation) _).trans_lt hfits
    rw [runOperations]
    refine (h.ensures_run hmatches (hroom operation List.mem_cons_self)
      (fun doc hdoc => hshort doc (List.mem_append_left _ hdoc)) hnow).bind ?_
    rintro result t ⟨rfl, ht⟩
    refine (ih ht (hmatches.after operation)
      (fun other hother => hroom other (List.mem_cons_of_mem _ hother))
      (fun doc hdoc => hshort doc (List.mem_append_right _ hdoc)) hfits).bind ?_
    rintro result u ⟨rfl, hu⟩
    refine .pure ⟨?_, ?_⟩
    · rw [shard.afterUpdates_after, ShardView.answersTo]
    · rw [hsplit, view.updates_after, ← List.append_assoc]
      exact hu

end IndexedShardAt

end FtsUring
