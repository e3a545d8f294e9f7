import FtsUring.Bridge.Cursors
import FtsUring.Engine.AsyncPhrase
import FtsUring.Engine.Restarting

/-!
# Sessions

The Python bindings insert documents into a table while queries read it, and the table is closed and opened again,
in the same process or in another one. In any order of these events the shards hold the documents that were inserted
so far, and a query of one word finds the best of those whose text has the word. What a cursor delivers is what was
there when it searched.

The ids of tokens are their hashes as long as what the lexicon keeps of a token that it cuts is not taken for
another token. So they are the same in every process, although the lexicon is not saved.
-/

namespace FtsUring

open Foundation

variable {F : Type} [Double F]

/-! ## Events -/

/-- What happens to a table. It is opened with descriptors of the files of its shards, and with an amount of memory.
A new process starts with an empty lexicon. -/
inductive FtsEvent
  | call (made : FtsCall)
  | reopen (newProcess : Bool) (descriptors : List (ℤ × ℤ)) (maxRamMb : UInt32)

/-- One event. A table that cannot be opened again does not come back. -/
def FtsSession.event (st : FtsSession F) : FtsEvent → Option (FtsSession F)
  | .call made => st.step made
  | .reopen newProcess descriptors maxRamMb =>
    (engineInit (engineClose st.engine descriptors) maxRamMb).bind fun opened =>
      opened.map fun engine => ⟨engine, if newProcess then lexiconInit else st.lexicon, []⟩

/-! ## What a table is for -/

/-- The documents of a table, those with which it was opened, and the tokens that its lexicon has seen. -/
structure Table where
  documents : List PythonDocument
  opened : List PythonDocument
  tokens : List CString

namespace Table

/-- A new table. -/
def new : Table := ⟨[], [], []⟩

/-- The table after an event. -/
def after (table : Table) : FtsEvent → Table
  | .call (.insertDocument doc) =>
    { table with documents := table.documents ++ [doc], tokens := table.tokens ++ textTokens doc.text }
  | .call (.ftsFilter _ (some searchTerm) _ _) => { table with tokens := table.tokens ++ queryTokens searchTerm }
  | .call _ => table
  | .reopen newProcess _ _ =>
    { table with opened := table.documents, tokens := if newProcess then [] else table.tokens }

/-- The documents of each shard. -/
def dealt (table : Table) (numShards : ℕ) : List (List ShardUpdate) :=
  routed numShards (table.documents.map PythonDocument.document)

end Table

/-- What the lexicon keeps of a token is not taken for another one. -/
def TokensApart (tokens : List CString) : Prop :=
  ∀ token ∈ tokens, lexiconMaxTermLen < token.length → ∀ other ∈ tokens, ¬FoundBy token other

/-- The shards are small, and the tokens have their hashes. -/
structure Table.Fits (table : Table) (numShards : ℕ) : Prop where
  small : ∀ updates ∈ table.dealt numShards, SmallShard updates
  apart : TokensApart table.tokens

/-- An event after which the table still fits. When the files are opened again, they can be opened, and no posting
page behind the active data page of a shard looks like a data page. -/
def FtsEvent.Allowed (numShards : ℕ) (table : Table) : FtsEvent → Prop
  | .call made => (table.after (.call made)).Fits numShards
  | .reopen _ descriptors maxRamMb =>
    (∀ updates ∈ table.dealt numShards, (ShardView.fresh.updates updates).KeepsActivePage) ∧
      descriptors.length = numShards ∧ (∀ fds ∈ descriptors, 0 ≤ fds.1 ∧ 0 ≤ fds.2) ∧
        framesPerShard maxRamMb numShards < 2 ^ 31

/-- A session that holds a table. -/
structure FtsSession.Refines (numShards : ℕ) (st : FtsSession F) (table : Table) : Prop where
  fits : table.Fits numShards
  shards : List.Forall₂ EngineShard.HoldsAfter st.engine.shards (table.dealt numShards)
  members : List.Forall₂ Shard.Counts (st.engine.shards.map EngineShard.shard) (table.dealt numShards)
  params : st.engine.params = openedParams numShards (table.opened.map PythonDocument.document)
  lexicon : st.lexicon = (lexiconInserts lexiconInit table.tokens).2

/-! ## Tokens -/

/-- Part of the tokens. -/
theorem TokensApart.subset {tokens others : List CString} (h : TokensApart others) (hsubset : tokens ⊆ others) :
    TokensApart tokens :=
  fun token htoken hlong other hother => h token (hsubset htoken) hlong other (hsubset hother)

/-- The lexicon answers with hashes. -/
theorem TokensApart.fst_lexiconInserts {before tokens : List CString} (h : TokensApart (before ++ tokens)) :
    (lexiconInserts (lexiconInserts lexiconInit before).2 tokens).1 = tokens.map lexiconTermHash32 := by
  rw [FtsUring.fst_lexiconInserts (h.subset (List.subset_append_right _ _))]
  refine List.map_congr_left fun token htoken => ?_
  rw [termId_lexiconInserts fun other hother hlong =>
    h other (List.mem_append_left _ hother) hlong token (List.mem_append_right _ htoken)]
  rfl

/-- The shards of a table with few documents are small. -/
theorem Table.small_of_few {table : Table} (hfew : table.documents.length ≤ tombstoneUsableBits) (numShards : ℕ) :
    ∀ updates ∈ table.dealt numShards, SmallShard updates := by
  refine smallShard_routed (by rwa [List.length_map]) ?_
  rw [List.forall_mem_map]
  intro doc _
  exact (List.length_map _).trans_le (length_textTokens doc.text)

/-! ## One event -/

namespace FtsSession.Refines

variable {st next : FtsSession F} {numShards cursor : ℕ} {table : Table}

/-- There is a shard for each part of the documents. -/
theorem length_shards (h : Refines numShards st table) : st.engine.shards.length = numShards :=
  h.shards.length_eq.trans (length_routed _ _)

/-- The table does not depend on its cursors. -/
theorem withCursor {change : FtsUringCursor F → Option (FtsUringCursor F)} (h : Refines numShards st table)
    (hcursor : st.withCursor cursor change = some next) : Refines numShards next table := by
  obtain ⟨opened, -, rfl⟩ := FtsSession.withCursor_cases hcursor
  exact ⟨h.fits, h.shards, h.members, h.params, h.lexicon⟩

/-- Inserting a document. -/
theorem exists_insertDocument {doc : PythonDocument} (h : Refines numShards st table) (hshards : 0 < numShards)
    (hfits : (table.after (.call (.insertDocument doc))).Fits numShards) :
    ∃ engine, st.step (.insertDocument doc) =
        some ⟨engine, (lexiconInserts st.lexicon (textTokens doc.text)).2, st.cursors⟩ ∧
      Refines numShards ⟨engine, (lexiconInserts st.lexicon (textTokens doc.text)).2, st.cursors⟩
        (table.after (.call (.insertDocument doc))) := by
  -- the lexicon answers with the hashes of the tokens
  have hids : pythonTermIds st.lexicon doc.text = lexiconInserts st.lexicon (textTokens doc.text) := by
    cases doc.text <;> rfl
  have hdocument : pythonDocument doc.nodeId doc.tf doc.dl doc.embedding st.lexicon doc.text = doc.document := by
    have hhashes := TokensApart.fst_lexiconInserts hfits.apart
    rw [← h.lexicon] at hhashes
    simp only [pythonDocument, PythonDocument.document, hids, Document.mk.injEq, true_and]
    exact hhashes
  have hnumber := h.length_shards
  have hnonempty : st.engine.shards ≠ [] := List.ne_nil_of_length_pos (hnumber.symm ▸ hshards)
  have hdocs : (table.after (.call (.insertDocument doc))).documents.map PythonDocument.document =
      table.documents.map PythonDocument.document ++ [doc.document] := List.map_append
  have hsmall := hfits.small
  rw [Table.dealt, hdocs] at hsmall
  obtain ⟨s, s', view, hs, hmembers, hinsert, hafter⟩ := @exists_insert_routed F _ st.engine
    (table.documents.map PythonDocument.document) doc.document hnonempty
    (by rw [hnumber]; exact h.shards) (by rw [hnumber]; exact hsmall)
  rw [hnumber] at hs hinsert hafter
  refine ⟨{ st.engine with shards := st.engine.shards.set (shardIndex doc.document.nodeId numShards) s' },
    ?_, hfits, ?_, ?_, h.params, ?_⟩
  · rw [step, pythonInsertDocument]
    dsimp only
    rw [hdocument, hinsert, hids]
    rfl
  · rw [Table.dealt, hdocs]
    exact hafter
  · rw [Table.dealt, hdocs]
    exact counts_set h.members hs hmembers
  · rw [h.lexicon]
    exact (congrArg Prod.snd (lexiconInserts_append lexiconInit table.tokens (textTokens doc.text)) :).symm

/-- The ids of the tokens of a query. -/
theorem termIds_ftsQuery (h : Refines numShards st table) {searchTerm : Option CString}
    (hapart : TokensApart (table.tokens ++ queryTokens searchTerm)) :
    (ftsQuery st.lexicon searchTerm).termIds = (queryTokens searchTerm).map lexiconTermHash32 := by
  rw [ftsQuery, h.lexicon]
  exact hapart.fst_lexiconInserts

/-- What a search leaves. -/
theorem filter {searchTerm : Option CString} {threads : ℕ} {schedule : List ℕ} (h : Refines numShards st table)
    (hapart : TokensApart (table.tokens ++ queryTokens searchTerm))
    (hstep : st.step (.ftsFilter cursor (some searchTerm) threads schedule) = some next) :
    Refines numShards next (table.after (.call (.ftsFilter cursor (some searchTerm) threads schedule))) := by
  obtain ⟨answer, hanswer, hcursor⟩ := Option.bind_eq_some_iff.mp hstep
  obtain ⟨results, shards', hreturns, hafter, hmembers⟩ := @exists_returnsAsync_holds F _ st.engine
    (ftsQuery st.lexicon searchTerm) _ h.shards h.fits.small id (maxResultsPerShard * maxShards)
  obtain rfl := eq_of_returnsAsync hreturns hanswer
  have hsearched : Refines numShards ⟨{ st.engine with shards := shards' },
      (lexiconInserts st.lexicon (queryTokens searchTerm)).2, st.cursors⟩
        (table.after (.call (.ftsFilter cursor (some searchTerm) threads schedule))) := by
    refine ⟨⟨h.fits.small, hapart⟩, hafter, ?_, h.params, ?_⟩
    · rw [hmembers]
      exact h.members
    · rw [h.lexicon]
      exact (congrArg Prod.snd (lexiconInserts_append lexiconInit table.tokens (queryTokens searchTerm)) :).symm
  exact hsearched.withCursor hcursor

/-- An open cursor can search. -/
theorem exists_filter {row threads : ℕ} {held : List (UnifiedSearchResult F)} (h : Refines numShards st table)
    (hat : st.At cursor held row) (hthreads : 0 < threads) (searchTerm : Option CString) :
    ∃ schedule next results, st.step (.ftsFilter cursor (some searchTerm) threads schedule) = some next ∧
      next.At cursor results 0 := by
  obtain ⟨results, shards', hreturns, -⟩ := @exists_returnsAsync_holds F _ st.engine
    (ftsQuery st.lexicon searchTerm) _ h.shards h.fits.small id (maxResultsPerShard * maxShards)
  obtain ⟨schedule, hschedule⟩ := (hreturns threads hthreads).exists_schedule
  have hopen : FtsSession.At ⟨{ st.engine with shards := shards' },
      (lexiconInserts st.lexicon (queryTokens searchTerm)).2, st.cursors⟩ cursor held row := hat
  have hcursor := hopen.withCursor_eq fun _ => some ⟨results, 0⟩
  refine ⟨schedule, _, results, ?_, FtsSession.at_of_withCursor hcursor⟩
  rw [← hcursor, step, FtsSession.filter, hschedule]
  rfl

/-- Closing the table and opening it again. -/
theorem exists_reopen {newProcess : Bool} {descriptors : List (ℤ × ℤ)} {maxRamMb : UInt32}
    (h : Refines numShards st table) (hshards : 0 < numShards)
    (hallowed : FtsEvent.Allowed numShards table (.reopen newProcess descriptors maxRamMb)) :
    ∃ engine, st.event (.reopen newProcess descriptors maxRamMb) =
        some ⟨engine, if newProcess then lexiconInit else st.lexicon, []⟩ ∧
      Refines numShards ⟨engine, if newProcess then lexiconInit else st.lexicon, []⟩
        (table.after (.reopen newProcess descriptors maxRamMb)) := by
  obtain ⟨hkeeps, hlength, hopens, hframes⟩ := hallowed
  have hnumber := h.length_shards
  rw [← hnumber] at hkeeps hlength hframes
  obtain ⟨engine, hopened, hholds, hmembers, hparams⟩ := @engineInit_engineClose F _ st.engine
    (table.documents.map PythonDocument.document) (List.ne_nil_of_length_pos (hnumber.symm ▸ hshards))
    (by rw [hnumber]; exact h.shards) (by rw [hnumber]; exact h.members) (by rw [hnumber]; exact h.fits.small)
    hkeeps descriptors hlength hopens maxRamMb hframes
  rw [hnumber] at hholds hparams
  refine ⟨engine, ?_, ⟨h.fits.small, ?_⟩, hholds, ?_, hparams, ?_⟩
  · rw [event, hopened]
    rfl
  · cases newProcess with
    | true => exact fun token htoken => absurd htoken List.not_mem_nil
    | false => exact h.fits.apart
  · rw [hmembers]
    exact h.members
  · cases newProcess with
    | true => rfl
    | false => exact h.lexicon

/-- Every event that is allowed. -/
theorem event {event : FtsEvent} (h : Refines numShards st table) (hshards : 0 < numShards)
    (hallowed : event.Allowed numShards table) (hevent : st.event event = some next) :
    Refines numShards next (table.after event) := by
  cases event with
  | reopen newProcess descriptors maxRamMb =>
    obtain ⟨engine, hreopen, hafter⟩ := h.exists_reopen hshards hallowed
    obtain rfl := Option.some.inj (hreopen.symm.trans hevent)
    exact hafter
  | call made =>
    cases made with
    | insertDocument doc =>
      obtain ⟨engine, hinsert, hafter⟩ := h.exists_insertDocument hshards hallowed
      obtain rfl := Option.some.inj (hinsert.symm.trans hevent)
      exact hafter
    | ftsOpen =>
      obtain rfl := Option.some.inj hevent
      exact ⟨h.fits, h.shards, h.members, h.params, h.lexicon⟩
    | ftsClose cursor => exact h.withCursor hevent
    | ftsFilter cursor searchTerm threads schedule =>
      cases searchTerm with
      | none => exact h.withCursor hevent
      | some searchTerm => exact h.filter hallowed.apart hevent
    | ftsNext cursor => exact h.withCursor hevent

/-- A new table. -/
theorem exists_new {files : List (ShardFiles F)} (hfiles : files ≠ []) (hnew : ∀ f ∈ files, f.IsNew)
    {maxRamMb : UInt32} (hframes : framesPerShard maxRamMb files.length < 2 ^ 31) :
    ∃ engine : UnifiedEngine F, engineInit files maxRamMb = some (some engine) ∧
      Refines files.length ⟨engine, lexiconInit, []⟩ Table.new := by
  obtain ⟨engine, hengine, hshards, hparams, hinitial⟩ := engineInit_new hfiles hnew hframes
  have hlength : engine.shards.length = files.length := hshards.length_eq.trans (List.length_map _)
  have hdealt : Table.new.dealt files.length = files.map fun _ => [] := by
    rw [List.map_const', ← routed_nil]
    rfl
  refine ⟨engine, hengine, ⟨?_, fun token htoken => absurd htoken List.not_mem_nil⟩, ?_, ?_, ?_, rfl⟩
  · exact Table.small_of_few (Nat.zero_le _) _
  · rw [hdealt]
    exact hshards
  · rw [← hlength]
    exact counts_new hinitial
  · exact hparams.trans (openedParams_nil _).symm

end FtsSession.Refines

/-! ## Queries of one word -/

/-- The text of a document has all tokens of a search term. -/
def PythonDocument.HasTokens (searchTerm : Option CString) (doc : PythonDocument) : Prop :=
  ∀ token ∈ queryTokens searchTerm, token ∈ textTokens doc.text

instance (searchTerm : Option CString) (doc : PythonDocument) : Decidable (doc.HasTokens searchTerm) :=
  inferInstanceAs (Decidable (∀ token ∈ queryTokens searchTerm, token ∈ textTokens doc.text))

/-- The text score of a document. -/
def PythonDocument.textScore (params : Bm25fParams F) (doc : PythonDocument) : F :=
  computeBm25fScore doc.tf doc.dl params

/-- The nodes and the scores of the documents that have the tokens of a search term. -/
def matchingScores (params : Bm25fParams F) (searchTerm : Option CString) (docs : List PythonDocument) :
    List (Vector UInt8 16 × F) :=
  (docs.filter fun doc => doc.HasTokens searchTerm ∧ 0 < doc.textScore params).map fun doc =>
    (doc.nodeId, doc.textScore params)

/-- No token of the documents has the hash of another token of the search term. -/
def HashesApart (searchTerm : Option CString) (docs : List PythonDocument) : Prop :=
  ∀ token ∈ queryTokens searchTerm, ∀ doc ∈ docs, ∀ other ∈ textTokens doc.text,
    lexiconTermHash32 other = lexiconTermHash32 token → other = token

/-- A document is posted under the id of the only token if its text has the token. -/
theorem postedUnder_document_iff {searchTerm : Option CString} (hone : (queryTokens searchTerm).length ≤ 1)
    {docs : List PythonDocument} (hhashes : HashesApart searchTerm docs) {doc : PythonDocument} (hdoc : doc ∈ docs) :
    doc.document.PostedUnder (((queryTokens searchTerm).map lexiconTermHash32).headD 0) ↔
      doc.HasTokens searchTerm := by
  rw [PythonDocument.HasTokens]
  cases htokens : queryTokens searchTerm with
  | nil => exact iff_of_true (.inl rfl) fun _ htoken => absurd htoken List.not_mem_nil
  | cons token others =>
    rw [htokens, List.length_cons] at hone
    rw [List.length_eq_zero_iff.mp (show others.length = 0 by omega), List.forall_mem_singleton]
    have hnotZero : (([token].map lexiconTermHash32).headD 0) ≠ 0 := lexiconTermHash32_ne_zero token
    rw [Document.PostedUnder, or_iff_right hnotZero]
    constructor
    · intro hmem
      obtain ⟨other, hother, hsame⟩ := List.mem_map.mp hmem
      rwa [← hhashes token (htokens ▸ List.mem_cons_self) doc hdoc other hother hsame]
    · intro htoken
      exact List.mem_map_of_mem htoken

/-- The documents with the id of the only token are those with the token. -/
theorem documentScores_map_document (params : Bm25fParams F) {searchTerm : Option CString}
    (hone : (queryTokens searchTerm).length ≤ 1) {docs : List PythonDocument}
    (hhashes : HashesApart searchTerm docs) :
    documentScores params (((queryTokens searchTerm).map lexiconTermHash32).headD 0)
      (docs.map PythonDocument.document) = matchingScores params searchTerm docs := by
  rw [documentScores, matchingScores, List.filter_map, List.map_map]
  have hsame : docs.filter ((fun doc => decide (doc.PostedUnder (((queryTokens searchTerm).map
      lexiconTermHash32).headD 0) ∧ 0 < doc.textScore params)) ∘ PythonDocument.document) =
        docs.filter fun doc => decide (doc.HasTokens searchTerm ∧ 0 < doc.textScore params) := by
    refine List.filter_congr fun doc hdoc => ?_
    exact decide_eq_decide.mpr (and_congr_left' (postedUnder_document_iff hone hhashes hdoc))
  rw [hsame]
  rfl

/-- Every run of events on a new table that are allowed. -/
theorem FtsSession.refines_events {files : List (ShardFiles F)} (hfiles : files ≠ [])
    (hnew : ∀ f ∈ files, f.IsNew)
    {maxRamMb : UInt32} (hframes : framesPerShard maxRamMb files.length < 2 ^ 31) {engine : UnifiedEngine F}
    (hengine : engineInit files maxRamMb = some (some engine)) {events : List FtsEvent} {mid : FtsSession F}
    (hevents : runCalls FtsSession.event ⟨engine, lexiconInit, []⟩ events = some mid)
    (hallowed : AllowedCalls Table.after (FtsEvent.Allowed files.length) Table.new events) :
    FtsSession.Refines files.length mid (events.foldl Table.after Table.new) := by
  obtain ⟨opened, hopened, hstart⟩ := @FtsSession.Refines.exists_new F _ _ hfiles hnew _ hframes
  obtain rfl : engine = opened := Option.some.inj (Option.some.inj (hengine.symm.trans hopened))
  exact runCalls_refines (fun _ _ _ _ h hallows hevent => h.event (List.length_pos_of_ne_nil hfiles) hallows hevent)
    hstart hallowed hevents

/-- A cursor keeps the answer of the search that it made. -/
theorem FtsSession.exists_at_of_returnsAsync {mid st : FtsSession F} {cursor threads : ℕ}
    {searchTerm : Option CString} {schedule : List ℕ} {since : List FtsCall}
    (hsince : runCalls FtsSession.step mid (.ftsFilter cursor (some searchTerm) threads schedule :: since) = some st)
    (hkeeps : ∀ call ∈ since, ¬call.Resets cursor) {answer : List (UnifiedSearchResult F) × UnifiedEngine F}
    (hreturns : ∀ threads, 0 < threads → ReturnsAsync id threads mid.engine (ftsQuery mid.lexicon searchTerm)
      (maxResultsPerShard * maxShards) answer) :
    st.At cursor answer.1 (since.countP (FtsCall.advances cursor)) := by
  rw [runCalls_cons] at hsince
  obtain ⟨searched, hstep, hrest⟩ := Option.bind_eq_some_iff.mp hsince
  obtain ⟨found, hfound, hcursor⟩ := Option.bind_eq_some_iff.mp hstep
  obtain rfl := eq_of_returnsAsync hreturns hfound
  have hat := (FtsSession.at_of_withCursor hcursor).run hkeeps hrest
  rwa [Nat.zero_add] at hat

/-- A document with the text "a". -/
def noteA : PythonDocument :=
  ⟨Vector.replicate 16 1, Vector.replicate maxFtsFields 1, Vector.replicate maxFtsFields 0,
    Vector.replicate embeddingDim 0, some [0x61]⟩

/-- A document with the text "b a". -/
def noteBA : PythonDocument := { noteA with nodeId := Vector.replicate 16 2, text := some [0x62, 0x20, 0x61] }

/-- Their tokens. -/
def noteTokens : List CString := [[0x61], [0x62]]

/-- A document is inserted, the table is opened again in another process, and so is a cursor. -/
def noteEvents (doc : PythonDocument) : List FtsEvent :=
  [.call (.insertDocument doc), .reopen true [(3, 4), (5, 6)] 0, .call .ftsOpen]

/-- A table with at most two documents that have these tokens fits. -/
theorem fits_notes {table : Table} (hfew : table.documents.length ≤ 2) (htokens : table.tokens ⊆ noteTokens)
    (numShards : ℕ) : table.Fits numShards := by
  have hshort : ∀ token ∈ noteTokens, token.length ≤ lexiconMaxTermLen := by decide
  exact ⟨Table.small_of_few (hfew.trans (by decide)) numShards,
    fun token htoken hlong => absurd hlong (not_lt.mpr (hshort token (htokens htoken)))⟩

section Notes

variable {doc : PythonDocument}

/-- All events are allowed. -/
theorem allowed_noteEvents (htokens : textTokens doc.text ⊆ noteTokens)
    (hpages : ∀ updates ∈ routed 2 [doc.document],
      (ShardView.fresh.updates updates).nextPageId ≤ PageType.vectorData.code) :
    AllowedCalls Table.after (FtsEvent.Allowed 2) Table.new (noteEvents doc) := by
  have hfirst : (Table.new.after (.call (.insertDocument doc))).Fits 2 :=
    fits_notes (by simp [Table.after, Table.new]) htokens 2
  refine ⟨hfirst, ⟨fun updates hupdates => ?_, rfl, by decide, by decide⟩,
    fits_notes (by simp [Table.after, Table.new]) (List.nil_subset _) 2, trivial⟩
  exact (hfirst.small updates hupdates).keepsActivePage (hpages updates hupdates)

/-- A cursor searches between the insertions of two documents. -/
theorem exists_session_notes {later : PythonDocument} {searchTerm : Option CString}
    (htokens : textTokens doc.text ⊆ noteTokens) (hlater : textTokens later.text ⊆ noteTokens)
    (hquery : queryTokens searchTerm ⊆ noteTokens) (hpages : ∀ updates ∈ routed 2 [doc.document],
      (ShardView.fresh.updates updates).nextPageId ≤ PageType.vectorData.code) :
    ∃ (engine : UnifiedEngine ℚ) (schedule : List ℕ) (opened searched last : FtsSession ℚ)
      (results : List (UnifiedSearchResult ℚ)), engineInit twoNewShards 0 = some (some engine) ∧
      runCalls FtsSession.event ⟨engine, lexiconInit, []⟩ (noteEvents doc) = some opened ∧
      opened.step (.ftsFilter 0 (some searchTerm) 2 schedule) = some searched ∧
      searched.step (.insertDocument later) = some last ∧ last.At 0 results 0 := by
  obtain ⟨engine, hengine, hstart⟩ := @FtsSession.Refines.exists_new ℚ _ twoNewShards (List.cons_ne_nil _ _)
    isNew_twoNewShards 0 (by decide)
  obtain ⟨hinsertion, hreopening, hopening, -⟩ := allowed_noteEvents htokens hpages
  obtain ⟨engine₁, hinsert, hinserted⟩ := hstart.exists_insertDocument (by decide) hinsertion
  obtain ⟨engine₂, hreopen, hreopened⟩ := hinserted.exists_reopen (by decide) hreopening
  have hopened := @FtsSession.Refines.event _ _ _ _ _ _ (.call .ftsOpen) hreopened (by decide) hopening rfl
  obtain ⟨schedule, searched, results, hfilter, hat⟩ := @FtsSession.Refines.exists_filter _ _ _ _ 0 _ 0 2 []
    hopened rfl (by decide) searchTerm
  have hapart := (@fits_notes ⟨[], [], noteTokens⟩ (by decide) (List.Subset.refl _) 2).apart
  have hsearched := hopened.filter (hapart.subset hquery) hfilter
  obtain ⟨engine₃, hinsertLater, -⟩ := @FtsSession.Refines.exists_insertDocument _ _ _ _ _ later hsearched
    (by decide) (fits_notes (by simp [Table.after, Table.new]) (List.append_subset.mpr ⟨hquery, hlater⟩) 2)
  have hevents : runCalls FtsSession.event ⟨engine, lexiconInit, []⟩ (noteEvents doc) = some _ :=
    (@runCalls_cons_eq _ _ FtsSession.event _ _ (.call (.insertDocument doc)) hinsert _).trans
      ((runCalls_cons_eq hreopen _).trans rfl)
  exact ⟨engine, schedule, _, searched, _, results, hengine, hevents, hfilter, hinsertLater,
    @FtsSession.At.step _ _ _ _ _ _ _ (.insertDocument later) hat id hinsertLater⟩

end Notes

/-- The tokens of a search term follow each other in the text of a document. -/
def PythonDocument.HasPhrase (searchTerm : Option CString) (doc : PythonDocument) : Prop :=
  queryTokens searchTerm <:+: textTokens doc.text

instance (searchTerm : Option CString) (doc : PythonDocument) : Decidable (doc.HasPhrase searchTerm) :=
  inferInstanceAs (Decidable (_ <:+: _))

/-- The nodes and the scores of the documents in which the tokens of a search term follow each other. -/
def phraseMatchingScores (params : Bm25fParams F) (searchTerm : Option CString) (docs : List PythonDocument) :
    List (Vector UInt8 16 × F) :=
  (docs.filter fun doc => doc.HasPhrase searchTerm ∧ 0 < doc.textScore params).map fun doc =>
    (doc.nodeId, doc.textScore params)

/-- Parts of lists correspond under a function that tells their elements apart. -/
theorem map_infix_map_iff {α β : Type} {f : α → β} {part whole : List α}
    (hinj : ∀ x ∈ part, ∀ y ∈ whole, f y = f x → y = x) :
    part.map f <:+: whole.map f ↔ part <:+: whole := by
  refine ⟨fun h => ?_, fun h => h.map f⟩
  obtain ⟨before, after, hsplit⟩ := h
  obtain ⟨front, back, rfl, hfront, hback⟩ := List.map_eq_append_iff.mp hsplit.symm
  obtain ⟨first, middle, rfl, hfirst, hmiddle⟩ := List.map_eq_append_iff.mp hfront
  have hlength : middle.length = part.length := by
    have hlengths := congrArg List.length hmiddle
    rwa [List.length_map, List.length_map] at hlengths
  have hsame : middle = part := by
    refine List.ext_getElem hlength fun i hi hi' => ?_
    refine hinj _ (List.getElem_mem hi') _ ?_ ?_
    · exact List.mem_append_left _ (List.mem_append_right _ (List.getElem_mem hi))
    · have hget := congrArg (fun l => l[i]?) hmiddle
      simpa [hi, hi'] using hget
  exact ⟨first, back, by rw [hsame]⟩

/-- A document has the phrase of the hashes if the tokens follow each other in its text. -/
theorem hasPhrase_document_iff {searchTerm : Option CString} {docs : List PythonDocument}
    (hhashes : HashesApart searchTerm docs) {doc : PythonDocument} (hdoc : doc ∈ docs) :
    doc.document.HasPhrase ((queryTokens searchTerm).map lexiconTermHash32) ↔ doc.HasPhrase searchTerm :=
  map_infix_map_iff fun token htoken other hother hsame => hhashes token htoken doc hdoc other hother hsame

/-- The documents with the phrase of the hashes are those with the phrase. -/
theorem phraseScores_map_document (params : Bm25fParams F) {searchTerm : Option CString} {docs : List PythonDocument}
    (hhashes : HashesApart searchTerm docs) :
    phraseScores params ((queryTokens searchTerm).map lexiconTermHash32) (docs.map PythonDocument.document) =
      phraseMatchingScores params searchTerm docs := by
  rw [phraseScores, phraseMatchingScores, List.filter_map, List.map_map]
  have hsame : docs.filter ((fun doc => decide (doc.HasPhrase ((queryTokens searchTerm).map lexiconTermHash32) ∧
      0 < doc.textScore params)) ∘ PythonDocument.document) =
        docs.filter fun doc => decide (doc.HasPhrase searchTerm ∧ 0 < doc.textScore params) := by
    refine List.filter_congr fun doc hdoc => ?_
    exact decide_eq_decide.mpr (and_congr_left' (hasPhrase_document_iff hhashes hdoc))
  rw [hsame]
  rfl

end FtsUring
