import FtsUring.Engine.AsyncText
import FtsUring.Foundation.Upsert

/-!
# Queries of several terms in a thread pool

A text query of several terms that is no phrase searches a shard for one term after the other and adds up the
scores of a node. A document of a small shard is found once for each term of the query under which it is posted.
As long as at most 64 documents of every shard are found at all, no score is lost: the answer consists of the
documents with the largest sums.
-/

namespace FtsUring

open Foundation

variable {F : Type} [Double F]

/-! ## Sums of scores -/

/-- The number of terms of a query under which a document is posted. -/
def Document.hits (termIds : List UInt32) (doc : Document) : ℕ :=
  termIds.countP fun termId => doc.PostedUnder termId

/-- A score that is added up, from the left. -/
def repeatedSum (score : F) : ℕ → F
  | 0 => 0
  | 1 => score
  | n + 2 => repeatedSum score (n + 1) + score

/-- The documents that a query finds. -/
def foundBy (params : Bm25fParams F) (termIds : List UInt32) (docs : List Document) : List Document :=
  docs.filter fun doc => 0 < doc.hits termIds ∧ 0 < doc.textScore params

/-- The sum of the scores of a document. -/
def Document.summedScore (params : Bm25fParams F) (termIds : List UInt32) (doc : Document) : F :=
  repeatedSum (doc.textScore params) (doc.hits termIds)

/-- The result for a document with the sum of its scores. -/
def summedResult (params : Bm25fParams F) (termIds : List UInt32) (doc : Document) : UnifiedSearchResult F :=
  textResult doc.nodeId (doc.summedScore params termIds)

/-- Positive scores have a positive sum. -/
theorem repeatedSum_positive (hadd : ∀ a b : F, 0 < a → 0 < b → 0 < a + b) {score : F}
    (hscore : 0 < score) (n : ℕ) :
    0 < repeatedSum score (n + 1) := by
  induction n with
  | zero => exact hscore
  | succ n ih => exact hadd _ _ ih hscore

/-! ## Adding up -/

/-- Add the score of a result to that of another one. -/
def UnifiedSearchResult.addTo (result other : UnifiedSearchResult F) : UnifiedSearchResult F :=
  { other with bm25fScore := other.bm25fScore + result.bm25fScore }

/-- The results that are accumulated when there is room for all. -/
def accumulated (found results : List (UnifiedSearchResult F)) : List (UnifiedSearchResult F) :=
  upsertAll UnifiedSearchResult.nodeId UnifiedSearchResult.nodeId UnifiedSearchResult.addTo id found results

/-- No node is accumulated twice. -/
theorem nodup_accumulated (found : List (UnifiedSearchResult F)) :
    ((accumulated found []).map UnifiedSearchResult.nodeId).Nodup :=
  nodup_upsertAll (fun _ _ hx => hx) (fun _ => rfl) List.nodup_nil

/-- The nodes that are accumulated. -/
theorem mem_map_nodeId_accumulated {found : List (UnifiedSearchResult F)} {nodeId : Vector UInt8 16} :
    nodeId ∈ (accumulated found []).map UnifiedSearchResult.nodeId ↔
      nodeId ∈ found.map UnifiedSearchResult.nodeId := by
  have hkeys := @mem_map_key_upsertAll _ _ _ _ UnifiedSearchResult.nodeId nodeId ([] : List (UnifiedSearchResult F))
    UnifiedSearchResult.nodeId UnifiedSearchResult.addTo id found (fun _ _ hx => hx) fun _ => rfl
  rwa [List.map_nil, or_iff_right List.not_mem_nil] at hkeys

/-- What is accumulated for a node. -/
theorem findKey_accumulated (found : List (UnifiedSearchResult F)) (nodeId : Vector UInt8 16) :
    findKey UnifiedSearchResult.nodeId nodeId (accumulated found []) =
      (found.filter fun result => result.nodeId = nodeId).foldl
        (fun (held : Option (UnifiedSearchResult F)) result => some (held.elim result result.addTo)) none :=
  findKey_upsertAll (fun _ _ hx => hx) fun _ => rfl

/-- Where there is room, a result is accumulated. -/
theorem accumulateResult_eq_upsert {results : List (UnifiedSearchResult F)} {result : UnifiedSearchResult F}
    (hroom : result.nodeId ∉ results.map UnifiedSearchResult.nodeId → results.length < maxResultsPerShard) :
    accumulateResult results result =
      upsert UnifiedSearchResult.nodeId result.nodeId result.addTo result results := by
  rw [accumulateResult, upsert]
  cases hfind : results.findIdx? fun other => other.nodeId = result.nodeId with
  | some m => rfl
  | none =>
    refine if_pos (hroom fun hmem => ?_)
    obtain ⟨other, hother, hsame⟩ := List.mem_map.mp hmem
    exact of_decide_eq_false (List.findIdx?_eq_none_iff.mp hfind other hother) hsame

/-- There is room for all results when they have few nodes. -/
theorem foldl_accumulateResult_eq {nodes : List (Vector UInt8 16)} (hnodes : nodes.length ≤ maxResultsPerShard)
    {found results : List (UnifiedSearchResult F)} (hfound : ∀ result ∈ found, result.nodeId ∈ nodes)
    (hresults : ∀ result ∈ results, result.nodeId ∈ nodes)
    (hnodup : (results.map UnifiedSearchResult.nodeId).Nodup) :
    found.foldl accumulateResult results = accumulated found results := by
  induction found generalizing results with
  | nil => rfl
  | cons result found ih =>
    have hstep : accumulateResult results result =
        upsert UnifiedSearchResult.nodeId result.nodeId result.addTo result results := by
      refine accumulateResult_eq_upsert fun hnew => ?_
      have hlonger : (result.nodeId :: results.map UnifiedSearchResult.nodeId).Nodup :=
        List.nodup_cons.mpr ⟨hnew, hnodup⟩
      have hsubset : result.nodeId :: results.map UnifiedSearchResult.nodeId ⊆ nodes := by
        refine List.cons_subset.mpr ⟨hfound result List.mem_cons_self, fun node hnode => ?_⟩
        obtain ⟨other, hother, rfl⟩ := List.mem_map.mp hnode
        exact hresults other hother
      have hlength := (List.subperm_of_subset hlonger hsubset).length_le
      rw [List.length_cons, List.length_map] at hlength
      omega
    rw [List.foldl_cons, hstep, ih fun other hother => hfound other (List.mem_cons_of_mem _ hother)]
    · rfl
    · intro other hother
      have hmem : other.nodeId ∈ (upsert UnifiedSearchResult.nodeId result.nodeId result.addTo result results).map
          UnifiedSearchResult.nodeId := List.mem_map_of_mem hother
      have hkeys := @map_key_upsert _ _ _ UnifiedSearchResult.nodeId result.nodeId result.addTo result results
        (fun x hx => hx) rfl
      rw [hkeys] at hmem
      have hbefore : ∀ node ∈ results.map UnifiedSearchResult.nodeId, node ∈ nodes := by
        intro node hnode
        obtain ⟨x, hx, rfl⟩ := List.mem_map.mp hnode
        exact hresults x hx
      split_ifs at hmem
      · exact hbefore _ hmem
      · obtain hmem | hmem := List.mem_append.mp hmem
        · exact hbefore _ hmem
        · rw [List.mem_singleton.mp hmem]
          exact hfound result List.mem_cons_self
    · exact nodup_upsert (fun x hx => hx) rfl hnodup

/-- A result that is found several times. -/
theorem foldl_replicate_textResult (nodeId : Vector UInt8 16) (score : F) (n : ℕ) :
    (List.replicate n (textResult nodeId score)).foldl
      (fun (held : Option (UnifiedSearchResult F)) result => some (held.elim result result.addTo)) none =
        if n = 0 then none else some (textResult nodeId (repeatedSum score n)) := by
  induction n with
  | zero => rfl
  | succ n ih =>
    rw [List.replicate_succ', List.foldl_append, ih]
    cases n <;> rfl

/-! ## One shard -/

/-- A document is the only one with its node. -/
theorem filter_nodeId {docs : List Document} (hnodes : (docs.map Document.nodeId).Nodup) {doc : Document}
    (hdoc : doc ∈ docs) : (docs.filter fun other => other.nodeId = doc.nodeId) = [doc] := by
  induction docs with
  | nil => exact absurd hdoc List.not_mem_nil
  | cons first docs ih =>
    rw [List.map_cons, List.nodup_cons] at hnodes
    obtain rfl | hdoc := List.mem_cons.mp hdoc
    · rw [List.filter_cons_of_pos (by simp), List.filter_eq_nil_iff.mpr]
      intro other hother hsame
      exact hnodes.1 (of_decide_eq_true hsame ▸ List.mem_map_of_mem hother)
    · rw [List.filter_cons_of_neg, ih hnodes.2 hdoc]
      rw [decide_eq_true_eq]
      exact fun hsame => hnodes.1 (hsame ▸ List.mem_map_of_mem hdoc)

/-- The results for one document and one term. -/
theorem filter_termResults {docs : List Document} (hnodes : (docs.map Document.nodeId).Nodup) {doc : Document}
    (hdoc : doc ∈ docs) (params : Bm25fParams F) (termId : UInt32) :
    (termResults params termId docs).filter (fun result => result.nodeId = doc.nodeId) =
      if doc.PostedUnder termId ∧ 0 < doc.textScore params then [textResult doc.nodeId (doc.textScore params)]
      else [] := by
  have hcommute : (docs.filter fun other => other.PostedUnder termId ∧ 0 < other.textScore params).filter
      (fun other => other.nodeId = doc.nodeId) =
        [doc].filter fun other => other.PostedUnder termId ∧ 0 < other.textScore params := by
    rw [← filter_nodeId hnodes hdoc, List.filter_filter, List.filter_filter]
    exact List.filter_congr fun other _ => Bool.and_comm _ _
  have hnode : ((fun result : UnifiedSearchResult F => decide (result.nodeId = doc.nodeId)) ∘
      fun other : Document => textResult other.nodeId (other.textScore params)) =
        fun other => decide (other.nodeId = doc.nodeId) := rfl
  rw [termResults, List.filter_map, hnode, hcommute]
  split_ifs with hcounts
  · rw [List.filter_cons_of_pos (by exact decide_eq_true hcounts)]
    rfl
  · rw [List.filter_cons_of_neg (by simpa using hcounts)]
    rfl

/-- What is found for one document, term after term. -/
theorem filter_flatten_found {docs : List Document} (hnodes : (docs.map Document.nodeId).Nodup) {doc : Document}
    (hdoc : doc ∈ docs) {params : Bm25fParams F} (hpositive : 0 < doc.textScore params) {termIds : List UInt32}
    {founds : List (List (UnifiedSearchResult F))}
    (hfounds : List.Forall₂ (fun termId found => found.Perm (termResults params termId docs)) termIds founds) :
    founds.flatten.filter (fun result => result.nodeId = doc.nodeId) =
      List.replicate (doc.hits termIds) (textResult doc.nodeId (doc.textScore params)) := by
  induction hfounds with
  | nil => rfl
  | @cons termId found termIds founds hfound _ ih =>
    have hone := hfound.filter fun result => result.nodeId = doc.nodeId
    rw [filter_termResults hnodes hdoc] at hone
    rw [List.flatten_cons, List.filter_append, ih, Document.hits, Document.hits, List.countP_cons]
    by_cases hposted : doc.PostedUnder termId
    · rw [if_pos ⟨hposted, hpositive⟩, List.perm_singleton] at hone
      rw [hone, if_pos (decide_eq_true hposted), List.replicate_succ]
      rfl
    · rw [if_neg fun hboth => hposted hboth.1, List.perm_nil] at hone
      rw [hone, if_neg (by simpa using hposted)]
      rfl

section Shards

variable {updates : List ShardUpdate} {pages : PageArray} {params : Bm25fParams F}

/-- The search for one term after the other. -/
theorem SmallShard.exec_searchTerms_found (hsmall : SmallShard updates)
    (hpages : ShardAt pages (ShardView.fresh.updates updates)) (hlinear : LinearOn fun score : F => 0 < score)
    {termIds : List UInt32} (hroom : ∀ termId ∈ termIds,
      (termResults params termId ((liveDocuments updates).map Prod.fst)).length ≤ maxResultsPerShard) :
    ∃ founds : List (List (UnifiedSearchResult F)), List.Forall₂ (fun termId found =>
        found.Perm (termResults params termId ((liveDocuments updates).map Prod.fst))) termIds founds ∧
      arrayHandler.exec (searchTerms params termIds) pages =
        some (founds.flatten.foldl accumulateResult [], pages) := by
  have hfrom : ∀ start : List (UnifiedSearchResult F), ∃ founds : List (List (UnifiedSearchResult F)),
      List.Forall₂ (fun termId found =>
        found.Perm (termResults params termId ((liveDocuments updates).map Prod.fst))) termIds founds ∧
      arrayHandler.exec (termIds.foldlM (fun results termId => do
        let found ← shardSearchBm25fIndexed termId params maxResultsPerShard
        return found.foldl accumulateResult results) start) pages =
          some (founds.flatten.foldl accumulateResult start, pages) := by
    induction termIds with
    | nil => exact fun start => ⟨[], .nil, rfl⟩
    | cons termId termIds ih =>
      intro start
      obtain ⟨found, hexec, htop⟩ := hsmall.exec_indexed hpages hlinear termId params
      rw [resultsOf_postedLive] at htop
      have hperm := htop.perm_of_length_le (hroom termId List.mem_cons_self)
      obtain ⟨founds, hfounds, hrest⟩ := ih (fun other hother => hroom other (List.mem_cons_of_mem _ hother))
        (found.foldl accumulateResult start)
      refine ⟨found :: founds, .cons hperm hfounds, ?_⟩
      rw [List.foldlM_cons, bind_assoc, Handler.exec_bind_of_eq _ hexec, pure_bind, hrest, List.flatten_cons,
        List.foldl_append]
  exact hfrom []

omit [Double F] in
/-- A found result belongs to a document that the query finds. -/
theorem exists_doc_of_found [Double F] {docs : List Document} {termIds : List UInt32}
    {founds : List (List (UnifiedSearchResult F))}
    (hfounds : List.Forall₂ (fun termId found => found.Perm (termResults params termId docs)) termIds founds)
    {result : UnifiedSearchResult F} (hresult : result ∈ founds.flatten) :
    ∃ doc ∈ foundBy params termIds docs, doc.nodeId = result.nodeId := by
  induction hfounds with
  | nil => exact absurd hresult List.not_mem_nil
  | @cons termId found termIds founds hfound _ ih =>
    have hmore : ∀ doc : Document, doc.hits termIds ≤ doc.hits (termId :: termIds) :=
      fun doc => (List.sublist_cons_self termId termIds).countP_le
    obtain hresult | hresult := List.mem_append.mp (List.flatten_cons ▸ hresult)
    · obtain ⟨doc, hdoc, rfl⟩ := List.mem_map.mp (hfound.mem_iff.mp hresult)
      obtain ⟨hmem, hcounts⟩ := List.mem_filter.mp hdoc
      obtain ⟨hposted, hpositive⟩ := of_decide_eq_true hcounts
      refine ⟨doc, List.mem_filter.mpr ⟨hmem, decide_eq_true ⟨?_, hpositive⟩⟩, rfl⟩
      exact List.countP_pos_iff.mpr ⟨termId, List.mem_cons_self, decide_eq_true hposted⟩
    · obtain ⟨doc, hdoc, hsame⟩ := ih hresult
      obtain ⟨hmem, hcounts⟩ := List.mem_filter.mp hdoc
      obtain ⟨hhits, hpositive⟩ := of_decide_eq_true hcounts
      exact ⟨doc, List.mem_filter.mpr ⟨hmem, decide_eq_true ⟨hhits.trans_le (hmore doc), hpositive⟩⟩, hsame⟩

/-- What is accumulated are the documents that the query finds, with the sums of their scores. -/
theorem accumulated_perm {docs : List Document} (hnodes : (docs.map Document.nodeId).Nodup)
    {termIds : List UInt32} {founds : List (List (UnifiedSearchResult F))}
    (hfounds : List.Forall₂ (fun termId found => found.Perm (termResults params termId docs)) termIds founds) :
    (accumulated founds.flatten []).Perm ((foundBy params termIds docs).map (summedResult params termIds)) := by
  have hkeys := nodup_accumulated founds.flatten
  have hkeys' : (((foundBy params termIds docs).map (summedResult params termIds)).map
      UnifiedSearchResult.nodeId).Nodup := by
    rw [List.map_map]
    exact hnodes.sublist (List.filter_sublist.map _)
  -- what is held for the node of a document
  have hheld : ∀ doc ∈ docs, 0 < doc.textScore params →
      findKey UnifiedSearchResult.nodeId doc.nodeId (accumulated founds.flatten []) =
        if doc.hits termIds = 0 then none else some (summedResult params termIds doc) := by
    intro doc hdoc hpositive
    rw [findKey_accumulated, filter_flatten_found hnodes hdoc hpositive hfounds]
    exact foldl_replicate_textResult _ _ _
  refine (List.perm_ext_iff_of_nodup hkeys.of_map hkeys'.of_map).mpr fun result => ?_
  rw [mem_iff_findKey hkeys]
  constructor
  · intro hfind
    have hnode : result.nodeId ∈ (accumulated founds.flatten []).map UnifiedSearchResult.nodeId :=
      List.mem_map_of_mem ((mem_iff_findKey hkeys).mpr hfind)
    rw [mem_map_nodeId_accumulated] at hnode
    obtain ⟨found, hfound, hsame⟩ := List.mem_map.mp hnode
    obtain ⟨doc, hdoc, hdocNode⟩ := exists_doc_of_found hfounds hfound
    obtain ⟨hmem, hcounts⟩ := List.mem_filter.mp hdoc
    obtain ⟨hhits, hpositive⟩ := of_decide_eq_true hcounts
    rw [← hsame, ← hdocNode, hheld doc hmem hpositive, if_neg hhits.ne', Option.some.injEq] at hfind
    exact List.mem_map.mpr ⟨doc, hdoc, hfind⟩
  · intro hresult
    obtain ⟨doc, hdoc, rfl⟩ := List.mem_map.mp hresult
    obtain ⟨hmem, hcounts⟩ := List.mem_filter.mp hdoc
    obtain ⟨hhits, hpositive⟩ := of_decide_eq_true hcounts
    exact (hheld doc hmem hpositive).trans (if_neg hhits.ne')

/-- The search of a small shard for several terms. -/
theorem SmallShard.exec_searchTerms (hsmall : SmallShard updates)
    (hpages : ShardAt pages (ShardView.fresh.updates updates)) (hlinear : LinearOn fun score : F => 0 < score)
    (hnodes : ((liveDocuments updates).map fun entry => entry.1.nodeId).Nodup) {termIds : List UInt32}
    (hfew : (foundBy params termIds ((liveDocuments updates).map Prod.fst)).length ≤ maxResultsPerShard) :
    ∃ results : List (UnifiedSearchResult F),
      arrayHandler.exec (searchTerms params termIds) pages = some (results, pages) ∧
      results.Perm ((foundBy params termIds ((liveDocuments updates).map Prod.fst)).map
        (summedResult params termIds)) := by
  set docs := (liveDocuments updates).map Prod.fst with hdocs
  have hnodes' : (docs.map Document.nodeId).Nodup := by
    rw [hdocs, List.map_map]
    exact hnodes
  have hroom : ∀ termId ∈ termIds, (termResults params termId docs).length ≤ maxResultsPerShard := by
    intro termId htermId
    rw [termResults, List.length_map]
    refine le_trans (List.Sublist.length_le ?_) hfew
    refine List.monotone_filter_right docs fun doc hcounts => ?_
    obtain ⟨hposted, hpositive⟩ := of_decide_eq_true hcounts
    exact decide_eq_true ⟨List.countP_pos_iff.mpr ⟨termId, htermId, decide_eq_true hposted⟩, hpositive⟩
  obtain ⟨founds, hfounds, hexec⟩ := hsmall.exec_searchTerms_found hpages hlinear hroom
  refine ⟨_, hexec, ?_⟩
  have hall : founds.flatten.foldl accumulateResult [] = accumulated founds.flatten [] := by
    refine @foldl_accumulateResult_eq F _ ((foundBy params termIds docs).map Document.nodeId)
      ?_ _ _ ?_ ?_ List.nodup_nil
    · rwa [List.length_map]
    · intro result hresult
      obtain ⟨doc, hdoc, hsame⟩ := exists_doc_of_found hfounds hresult
      exact hsame ▸ List.mem_map_of_mem hdoc
    · exact fun _ hresult => absurd hresult List.not_mem_nil
  rw [hall]
  exact accumulated_perm hnodes' hfounds

end Shards

/-! ## All shards -/

/-- The text search of a query of several terms. -/
theorem searchText_terms {query : UnifiedQuery} (hphrase : query.isPhrase = false) (hterms : query.termIds ≠ [])
    (params : Bm25fParams F) : searchText params query = searchTerms params query.termIds := by
  rw [searchText, hphrase, if_neg (by simp), if_pos (List.length_pos_of_ne_nil hterms)]

/-- The nodes of the live documents that a query finds, and the sums of their scores. -/
def summedScores (params : Bm25fParams F) (termIds : List UInt32) (docs : List Document) :
    List (Vector UInt8 16 × F) :=
  (foundBy params termIds docs).map fun doc => (doc.nodeId, doc.summedScore params termIds)

/-- The sum of the scores of a document that a query finds is positive. -/
theorem summedScore_positive (hadd : ∀ a b : F, 0 < a → 0 < b → 0 < a + b) {params : Bm25fParams F}
    {termIds : List UInt32} {docs : List Document} {doc : Document} (hdoc : doc ∈ foundBy params termIds docs) :
    0 < doc.summedScore params termIds := by
  obtain ⟨hhits, hpositive⟩ := of_decide_eq_true (List.mem_filter.mp hdoc).2
  obtain ⟨n, hn⟩ := Nat.exists_eq_add_of_lt hhits
  rw [Nat.zero_add] at hn
  rw [Document.summedScore, hn]
  exact repeatedSum_positive hadd hpositive n

omit [Double F] in
/-- What the parts have in common, the whole has. -/
theorem perm_flatMap_of_forall₂ {α β γ : Type} {f : α → List γ} {g : β → List γ} {front : List α}
    {back : List β}
    (h : List.Forall₂ (fun a b => (g b).Perm (f a)) front back) : (back.flatMap g).Perm (front.flatMap f) := by
  induction h with
  | nil => exact List.Perm.refl _
  | cons hfirst _ ih => exact hfirst.append ih

/-- A query of several terms returns the live documents with the largest sums of scores, each once, as long as no
shard has more than 64 documents that the query finds. -/
theorem engineSearchAsync_terms (hlinear : LinearOn fun score : F => 0 < score)
    (hadd : ∀ a b : F, 0 < a → 0 < b → 0 < a + b) {engine : UnifiedEngine F}
    {distribution : List (List ShardUpdate)}
    (hholds : List.Forall₂ EngineShard.HoldsAfter engine.shards distribution)
    (hsmall : ∀ updates ∈ distribution, SmallShard updates)
    (hnodes : ∀ updates ∈ distribution, ((liveDocuments updates).map fun entry => entry.1.nodeId).Nodup)
    {query : UnifiedQuery} (htext : query.useText = true) (hvector : query.useVector = false)
    (hphrase : query.isPhrase = false) (hterms : query.termIds ≠ [])
    (hfew : ∀ updates ∈ distribution, (foundBy engine.params query.termIds
      ((liveDocuments updates).map Prod.fst)).length ≤ maxResultsPerShard)
    (qsort : List (UnifiedSearchResult F) → List (UnifiedSearchResult F)) (maxResults : ℕ) :
    ∃ results engine', List.Forall₂ EngineShard.HoldsAfter engine'.shards distribution ∧
      (∀ threads, 0 < threads → ReturnsAsync qsort threads engine query maxResults (results, engine')) ∧
      AnswersBest maxResults (summedScores engine.params query.termIds
        (distribution.flatMap fun updates => (liveDocuments updates).map Prod.fst)) results := by
  have hexec : ∀ updates ∈ distribution, ∀ pages, ShardAt pages (ShardView.fresh.updates updates) → ∃ found,
      arrayHandler.exec (searchText engine.params query) pages = some (found, pages) ∧
        found.Perm ((foundBy engine.params query.termIds ((liveDocuments updates).map Prod.fst)).map
          (summedResult engine.params query.termIds)) := by
    intro updates hupdates pages hpages
    rw [searchText_terms hphrase hterms]
    exact (hsmall updates hupdates).exec_searchTerms hpages hlinear (hnodes updates hupdates) (hfew updates hupdates)
  have hpositive : ∀ (updates : List ShardUpdate) (found : List (UnifiedSearchResult F)),
      found.Perm ((foundBy engine.params query.termIds ((liveDocuments updates).map Prod.fst)).map
        (summedResult engine.params query.termIds)) → ∀ result ∈ found, 0 < result.bm25fScore := by
    intro updates found hperm result hresult
    obtain ⟨doc, hdoc, rfl⟩ := List.mem_map.mp (hperm.mem_iff.mp hresult)
    exact summedScore_positive hadd hdoc
  obtain ⟨found, fused, engine', hgood, hperm, hsorted, hafter, hreturns⟩ :=
    exists_returnsAsync_text hlinear hholds htext hvector hexec hpositive qsort
  refine ⟨fused.take maxResults, engine', hafter, fun threads hthreads => hreturns threads hthreads maxResults, ?_,
    hsorted.sublist (List.take_sublist _ _)⟩
  -- the shards together found the documents of all shards
  have hall : (found.flatten.map UnifiedSearchResult.nodeScore).Perm (summedScores engine.params query.termIds
      (distribution.flatMap fun updates => (liveDocuments updates).map Prod.fst)) := by
    have hparts : summedScores engine.params query.termIds
        (distribution.flatMap fun updates => (liveDocuments updates).map Prod.fst) = distribution.flatMap
          fun updates => summedScores engine.params query.termIds ((liveDocuments updates).map Prod.fst) := by
      rw [summedScores, foundBy, List.filter_flatMap, List.map_flatMap]
      rfl
    rw [hparts, List.map_flatten, ← List.flatMap_def]
    refine perm_flatMap_of_forall₂ (hgood.imp fun updates shardFound hshard => ?_)
    have hscores := hshard.map UnifiedSearchResult.nodeScore
    rwa [List.map_map] at hscores
  exact (isTopK_take_of_pairwise hsorted _).map UnifiedSearchResult.nodeScore (fun _ => rfl) |>.of_perm
    (hperm.trans hall)

/-- A query for term 7 and term 9. -/
def twoTermsQuery : UnifiedQuery := ⟨[7, 9], false, Vector.replicate embeddingDim 0, true, false⟩

/-- Two documents in two shards, of which one has both terms. -/
theorem engineSearchAsync_terms_two_documents : ∃ engine : UnifiedEngine ℚ, ∃ results engine',
    engine.shards.length = 2 ∧ List.Forall₂ EngineShard.HoldsAfter engine'.shards (routed 2 twoDocuments) ∧
      (∀ threads, 0 < threads → ReturnsAsync id threads engine twoTermsQuery 10 (results, engine')) ∧
      AnswersBest 10 (summedScores engine.params [7, 9]
        ((routed 2 twoDocuments).flatMap fun updates => (liveDocuments updates).map Prod.fst)) results := by
  have hsmall : ∀ updates ∈ routed 2 twoDocuments, SmallShard updates := smallShard_routed (by decide) (by decide)
  obtain ⟨-, engine, -, -, -, -, hparams, hholds⟩ := @exists_engine_inserted ℚ _ twoNewShards
    (List.cons_ne_nil _ _)
    isNew_twoNewShards 0 (by decide) _ hsmall
  have hfew : ∀ updates ∈ routed 2 twoDocuments, (foundBy engine.params [7, 9]
      ((liveDocuments updates).map Prod.fst)).length ≤ maxResultsPerShard := by
    intro updates hupdates
    obtain ⟨i, -, rfl⟩ := List.mem_map.mp hupdates
    refine (List.length_filter_le _ _).trans ?_
    rw [map_fst_liveDocuments_map_insert]
    exact (List.length_filter_le _ _).trans (by decide)
  obtain ⟨results, engine', hafter, hreturns, hbest⟩ := engineSearchAsync_terms (linearOn_rat _)
    (fun _ _ => add_pos) hholds hsmall (nodup_nodeId_routed (by decide)) (rfl : twoTermsQuery.useText = true) rfl rfl
    (List.cons_ne_nil _ _) hfew id 10
  exact ⟨engine, results, engine', hholds.length_eq.trans (length_routed _ _), hafter, hreturns, hbest⟩

end FtsUring
