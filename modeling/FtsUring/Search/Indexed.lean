import FtsUring.Search.Scan
import FtsUring.Shard.Postings

/-!
# Searching through the index

The indexed searches read the postings of their terms and jump to the records that these address. A
phrase search merges the posting lists of its terms with one cursor for each list, which is right for
lists in ascending order of the document ids.
-/

namespace FtsUring

open Foundation

variable {F : Type} [Double F]

/-- `max_possible_postings`. -/
def maxPossiblePostings : ℕ := 1000000

/-- Look at the record that a posting addresses. -/
def considerPosting (ranking : Ranking F) (maxResults : ℕ) (results : List (UnifiedSearchResult F))
    (posting : InvertedPosting) : PageProgram (List (UnifiedSearchResult F)) := do
  if !(← fetchPage posting.dataPageId) then return results
  let page ← pageData posting.dataPageId
  let results ← match ← readRecord page posting.dataSlotId with
    | none => pure results
    | some rec => considerRecord ranking maxResults results rec
  unpinPage posting.dataPageId false .normal
  return results

/-- Search the documents of one term. -/
def shardSearchBm25fIndexed (termId : UInt32) (params : Bm25fParams F) (maxResults : ℕ) :
    PageProgram (List (UnifiedSearchResult F)) := do
  let postings ← invertedIndexGetPostings termId maxPossiblePostings
  let results ← postings.foldlM (considerPosting (textRanking params) maxResults) []
  return exchangeSort (textRanking params).key results

/-! ## Phrases -/

/-- The postings of all terms of a phrase; nothing when a term has none. -/
def getPhrasePostings : List UInt32 → PageProgram (Option (List (List InvertedPosting)))
  | [] => return some []
  | termId :: termIds => do
    let postings ← invertedIndexGetPostings termId maxPossiblePostings
    if postings.length = 0 then return none
    match ← getPhrasePostings termIds with
    | none => return none
    | some others => return some (postings :: others)

/-- Move the cursors to a document, up to the first one that does not find it. A cursor is what its
list has from there on. -/
def alignCursors (targetDocId : UInt32) : List (List InvertedPosting) → Bool × List (List InvertedPosting)
  | [] => (true, [])
  | cursor :: cursors =>
    let cursor := cursor.dropWhile fun posting => posting.docId < targetDocId
    match cursor.head? with
    | none => (false, cursor :: cursors)
    | some posting =>
      if posting.docId ≠ targetDocId then (false, cursor :: cursors)
      else
        let (docMatch, cursors) := alignCursors targetDocId cursors
        (docMatch, cursor :: cursors)

/-- The other terms follow the first one at some position. -/
def positionsMatch (post0 : InvertedPosting) (cursors : List (List InvertedPosting)) : Bool :=
  post0.positions.any fun startPos => (cursors.zipIdx 1).all fun (cursor, i) =>
    cursor.head?.any fun posting => posting.positions.contains (startPos + UInt32.ofNat i)

/-- The postings of the first term whose documents have the phrase, as the cursors find them. -/
def phraseMatches : List InvertedPosting → List (List InvertedPosting) → List InvertedPosting
  | [], _ => []
  | post0 :: rest, cursors =>
    let (docMatch, cursors) := alignCursors post0.docId cursors
    if docMatch ∧ positionsMatch post0 cursors then post0 :: phraseMatches rest cursors
    else phraseMatches rest cursors

/-- Merge the posting lists, and look at the records of the documents with the phrase. -/
def mergePhrase (ranking : Ranking F) (maxResults : ℕ) :
    List InvertedPosting → List (List InvertedPosting) → List (UnifiedSearchResult F) →
      PageProgram (List (UnifiedSearchResult F))
  | [], _, results => return results
  | post0 :: rest, cursors, results => do
    let (docMatch, cursors) := alignCursors post0.docId cursors
    if docMatch ∧ positionsMatch post0 cursors then
      let results ← considerPosting ranking maxResults results post0
      mergePhrase ranking maxResults rest cursors results
    else mergePhrase ranking maxResults rest cursors results

/-- Search the documents with a phrase. -/
def shardSearchPhraseIndexed (termIds : List UInt32) (params : Bm25fParams F) (maxResults : ℕ) :
    PageProgram (List (UnifiedSearchResult F)) :=
  match termIds with
  | [] => return []
  | [termId] => shardSearchBm25fIndexed termId params maxResults
  | _ => do
    match ← getPhrasePostings termIds with
    | some (postings :: cursors) =>
      let results ← mergePhrase (textRanking params) maxResults postings cursors []
      return exchangeSort (textRanking params).key results
    | _ => return []

/-! ## The records of postings -/

namespace ShardView

/-- The record that a posting addresses. -/
def recordOf (view : ShardView) (posting : InvertedPosting) : Option UnifiedDocRecord :=
  (view.data.itemsAt posting.dataPageId)[posting.dataSlotId]?

/-- The postings whose records a phrase search looks at. -/
def phrasePostings (view : ShardView) : List UInt32 → List InvertedPosting
  | [] => []
  | [termId] => (view.postings termId).contents.take maxPossiblePostings
  | termId :: termIds =>
    if ∃ other ∈ termId :: termIds, (view.postings other).contents = [] then []
    else phraseMatches ((view.postings termId).contents.take maxPossiblePostings)
      (termIds.map fun other => (view.postings other).contents.take maxPossiblePostings)

/-- Every posting addresses a record. -/
def Addressed (view : ShardView) : Prop :=
  ∀ termId, ∀ posting ∈ (view.postings termId).contents, (view.recordOf posting).isSome

end ShardView

namespace ShardAt

variable {s : PageArray} {view : ShardView}

/-- Looking at the record that a posting addresses. -/
theorem exec_considerPosting (h : ShardAt s view) {posting : InvertedPosting} {rec : UnifiedDocRecord}
    (hrecord : view.recordOf posting = some rec) (ranking : Ranking F) {maxResults : ℕ}
    (hmax : view.found ranking [rec] ≠ [] → 0 < maxResults) (results : List (UnifiedSearchResult F)) :
    arrayHandler.exec (considerPosting ranking maxResults results posting) s =
      some (offerAll ranking.key maxResults results (view.found ranking [rec]), s) := by
  have hnodup : view.data.ids.Nodup := h.valid.dataDescending.imp fun hgt => ne_of_gt hgt
  have hid : posting.dataPageId ∈ view.data.ids := by
    by_contra hnot
    rw [ShardView.recordOf, PageChain.itemsAt_eq_nil hnot] at hrecord
    exact absurd hrecord nofun
  obtain ⟨⟨id, records⟩, hmem, hsame⟩ := List.mem_map.mp hid
  change id = posting.dataPageId at hsame
  subst hsame
  rw [ShardView.recordOf, PageChain.itemsAt_of_mem hnodup hmem] at hrecord
  obtain ⟨-, page, hholds, hpage⟩ : _ ∧ ∃ page, s.Holds posting.dataPageId page ∧
      IsDataPage page records := h.data _ hmem
  have hvalid : posting.dataPageId < invalidPageId := h.lt_invalid (show view.Owns .data _ from hid)
  rw [considerPosting, Handler.exec_bind_of_eq _ (PageArray.exec_fetchPage (h.idle.fetchable hvalid))]
  simp only [Bool.not_true, Bool.false_eq_true, if_false]
  rw [Handler.exec_bind_of_eq _ (PageArray.exec_pageData (s.mem_pins_pin _) hholds),
    readRecord_eq (hpage.recordInside _), pure_bind, hpage.recordAt, hrecord]
  simp only
  rw [Handler.exec_bind_of_eq _ (h.exec_considerRecord _ ranking rec hmax results),
    Handler.exec_bind_of_eq _ (PageArray.exec_unpinPage_clean h.idle _ .normal)]
  rfl

/-- Looking at the records that postings address. -/
theorem exec_considerPostings (h : ShardAt s view) {postings : List InvertedPosting}
    (haddressed : ∀ posting ∈ postings, (view.recordOf posting).isSome) (ranking : Ranking F)
    {maxResults : ℕ} (hmax : view.found ranking (postings.filterMap view.recordOf) ≠ [] → 0 < maxResults)
    (results : List (UnifiedSearchResult F)) :
    arrayHandler.exec (postings.foldlM (considerPosting ranking maxResults) results) s =
      some (offerAll ranking.key maxResults results
        (view.found ranking (postings.filterMap view.recordOf)), s) := by
  induction postings generalizing results with
  | nil => rfl
  | cons posting postings ih =>
    obtain ⟨rec, hrecord⟩ := Option.isSome_iff_exists.mp (haddressed posting List.mem_cons_self)
    have hall : view.found ranking ((posting :: postings).filterMap view.recordOf) =
        view.found ranking [rec] ++ view.found ranking (postings.filterMap view.recordOf) := by
      rw [List.filterMap_cons_some hrecord, ← List.singleton_append, view.found_append]
    rw [hall] at hmax
    have hone := h.exec_considerPosting hrecord ranking
      (fun hsome => hmax (List.append_ne_nil_of_left_ne_nil hsome _)) results
    have hrest := ih (fun other hother => haddressed other (List.mem_cons_of_mem _ hother))
      fun hsome => hmax (List.append_ne_nil_of_right_ne_nil _ hsome)
    rw [List.foldlM_cons, Handler.exec_bind_of_eq _ hone, hrest, hall, offerAll_append]

/-- The postings that a search reads. -/
theorem exec_readPostings (h : ShardAt s view) (termId : UInt32) :
    arrayHandler.exec (invertedIndexGetPostings termId maxPossiblePostings) s =
      some ((view.postings termId).contents.take maxPossiblePostings, s) :=
  h.exec_getPostings termId (by decide)

/-- Searching the documents of one term. -/
theorem exec_searchIndexed (h : ShardAt s view) (haddressed : view.Addressed) (termId : UInt32)
    (params : Bm25fParams F) {maxResults : ℕ}
    (hmax : view.found (textRanking params)
      (((view.postings termId).contents.take maxPossiblePostings).filterMap view.recordOf) ≠ [] → 0 < maxResults) :
    arrayHandler.exec (shardSearchBm25fIndexed termId params maxResults) s =
      some (exchangeSort (textRanking params).key (offerAll (textRanking params).key maxResults []
        (view.found (textRanking params)
          (((view.postings termId).contents.take maxPossiblePostings).filterMap view.recordOf))), s) := by
  have hpostings : ∀ posting ∈ (view.postings termId).contents.take maxPossiblePostings,
      (view.recordOf posting).isSome :=
    fun posting hposting => haddressed termId posting (List.mem_of_mem_take hposting)
  rw [shardSearchBm25fIndexed, Handler.exec_bind_of_eq _ (h.exec_readPostings termId),
    Handler.exec_bind_of_eq _ (h.exec_considerPostings hpostings _ hmax [])]
  rfl

/-- The posting lists that a phrase search reads. -/
theorem exec_getPhrasePostings (h : ShardAt s view) (termIds : List UInt32) :
    arrayHandler.exec (getPhrasePostings termIds) s =
      some (if ∃ termId ∈ termIds, (view.postings termId).contents = [] then none
        else some (termIds.map fun termId => (view.postings termId).contents.take maxPossiblePostings),
        s) := by
  induction termIds with
  | nil => rfl
  | cons termId termIds ih =>
    rw [getPhrasePostings, Handler.exec_bind_of_eq _ (h.exec_readPostings termId)]
    by_cases hempty : (view.postings termId).contents = []
    · have hnone : (List.take maxPossiblePostings ([] : List InvertedPosting)).length = 0 := by
        rw [List.take_nil, List.length_nil]
      rw [hempty, if_pos hnone, if_pos ⟨termId, List.mem_cons_self, hempty⟩]
      rfl
    · have hsome : ((view.postings termId).contents.take maxPossiblePostings).length ≠ 0 := by
        rw [List.length_take]
        have hlength := List.length_pos_iff.mpr hempty
        have hlimit : maxPossiblePostings = 1000000 := rfl
        omega
      rw [if_neg hsome, Handler.exec_bind_of_eq _ ih]
      simp only [List.exists_mem_cons_iff, hempty, false_or]
      split_ifs
      · rfl
      · rfl

/-- Merging posting lists. -/
theorem exec_mergePhrase (h : ShardAt s view) {postings : List InvertedPosting}
    (haddressed : ∀ posting ∈ postings, (view.recordOf posting).isSome) (ranking : Ranking F)
    {maxResults : ℕ} (cursors : List (List InvertedPosting))
    (hmax : view.found ranking ((phraseMatches postings cursors).filterMap view.recordOf) ≠ [] → 0 < maxResults)
    (results : List (UnifiedSearchResult F)) :
    arrayHandler.exec (mergePhrase ranking maxResults postings cursors results) s =
      some (offerAll ranking.key maxResults results
        (view.found ranking ((phraseMatches postings cursors).filterMap view.recordOf)), s) := by
  induction postings generalizing cursors results with
  | nil => rfl
  | cons posting postings ih =>
    obtain ⟨rec, hrecord⟩ := Option.isSome_iff_exists.mp (haddressed posting List.mem_cons_self)
    have hrest := @ih fun other hother => haddressed other (List.mem_cons_of_mem _ hother)
    rw [phraseMatches] at hmax
    rw [mergePhrase, phraseMatches]
    dsimp only at hmax ⊢
    split_ifs at hmax ⊢ with hmatch
    · have hall : view.found ranking ((posting :: phraseMatches postings
          (alignCursors posting.docId cursors).2).filterMap view.recordOf) =
          view.found ranking [rec] ++ view.found ranking ((phraseMatches postings
            (alignCursors posting.docId cursors).2).filterMap view.recordOf) := by
        rw [List.filterMap_cons_some hrecord, ← List.singleton_append, view.found_append]
      rw [hall] at hmax
      have hone := h.exec_considerPosting hrecord ranking
        (fun hsome => hmax (List.append_ne_nil_of_left_ne_nil hsome _)) results
      rw [Handler.exec_bind_of_eq _ hone,
        hrest _ fun hsome => hmax (List.append_ne_nil_of_right_ne_nil _ hsome), hall, offerAll_append]
    · exact hrest _ hmax _

/-- Searching the documents with a phrase. -/
theorem exec_searchPhrase (h : ShardAt s view) (haddressed : view.Addressed) (termIds : List UInt32)
    (params : Bm25fParams F) {maxResults : ℕ}
    (hmax : view.found (textRanking params) ((view.phrasePostings termIds).filterMap view.recordOf) ≠ [] →
      0 < maxResults) :
    arrayHandler.exec (shardSearchPhraseIndexed termIds params maxResults) s =
      some (exchangeSort (textRanking params).key (offerAll (textRanking params).key maxResults []
        (view.found (textRanking params) ((view.phrasePostings termIds).filterMap view.recordOf))), s) := by
  match termIds with
  | [] => rfl
  | [termId] => exact h.exec_searchIndexed haddressed termId params hmax
  | termId :: other :: rest =>
    rw [shardSearchPhraseIndexed, Handler.exec_bind_of_eq _ (h.exec_getPhrasePostings _)]
    · rw [ShardView.phrasePostings] at hmax ⊢
      · split_ifs at hmax ⊢ with hempty
        · rfl
        · have hpostings : ∀ posting ∈ (view.postings termId).contents.take maxPossiblePostings,
              (view.recordOf posting).isSome :=
            fun posting hposting => haddressed termId posting (List.mem_of_mem_take hposting)
          simp only [List.map_cons] at hmax ⊢
          rw [Handler.exec_bind_of_eq _ (h.exec_mergePhrase hpostings _ _ hmax [])]
          rfl
      all_goals simp
    all_goals simp

end ShardAt

end FtsUring
