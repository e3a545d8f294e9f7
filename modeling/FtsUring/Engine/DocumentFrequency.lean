import FtsUring.Engine.Words
import FtsUring.Lexicon.TermCounts

/-!
# Document frequencies

Insertions and queries share one lexicon, and every token of a document or of a query counts its term there.
The count of a term is the number of documents that contain it as long as no query has tokens, every document
whose tokens are counted is inserted, and no document repeats a token.
-/

namespace FtsUring

variable {F : Type} [Double F]

/-- A call that uses the lexicon: an insertion into the engine that is open, or a query. -/
inductive LexiconUse (F : Type)
  | insertDocument (gEngine : Option (UnifiedEngine F)) (nodeId : Vector UInt8 16)
    (tf dl : Vector UInt32 maxFtsFields) (embedding : Vector UInt32 embeddingDim) (text : Option CString)
  | filter (searchTerm : Option CString)

/-- The lexicon, and the tokens of the documents that were inserted. -/
structure IndexedTexts where
  lexicon : Lexicon
  documents : List (List CString)

/-- After `lexicon_init`, before the first document. -/
def IndexedTexts.start : IndexedTexts := ⟨lexiconInit, []⟩

/-- The tokens of a text that is inserted. -/
def textTokens : Option CString → List CString
  | none => []
  | some text => lexiconTokenize text 4096 1024

/-- The tokens of a query. -/
def queryTokens : Option CString → List CString
  | none => []
  | some searchTerm => lexiconTokenize searchTerm 4096 64

/-- Run a call. -/
def LexiconUse.run (st : IndexedTexts) : LexiconUse F → Option IndexedTexts
  | .insertDocument gEngine nodeId tf dl embedding text =>
    (pythonInsertDocument gEngine st.lexicon nodeId tf dl embedding text).map fun (ok, _, lexicon) =>
      ⟨lexicon, if ok then st.documents ++ [textTokens text] else st.documents⟩
  | .filter searchTerm => some { st with lexicon := (lexiconInserts st.lexicon (queryTokens searchTerm)).2 }

/-- The document frequency that a lookup reports; 0 when the term is absent. -/
def reportedFrequency (lex : Lexicon) (term : CString) : UInt64 :=
  ((lexiconLookup lex term).map Prod.snd).getD 0

/-- The number of documents that contain a term. -/
def IndexedTexts.documentsWith (st : IndexedTexts) (term : CString) : ℕ :=
  st.documents.countP fun tokens => term ∈ tokens

/-- The document frequency of every term that is not cut is the number of documents that contain it. -/
def IndexedTexts.CountsDocuments (st : IndexedTexts) : Prop :=
  ∀ term, term.length ≤ lexiconMaxTermLen → (reportedFrequency st.lexicon term).toNat = st.documentsWith term

/-- Documents are counted in every state that a sequence of calls reaches. -/
def IndexedTexts.AlwaysCounts (st : IndexedTexts) : List (LexiconUse F) → Prop
  | [] => st.CountsDocuments
  | call :: calls => st.CountsDocuments ∧ ∀ st', call.run st = some st' → st'.AlwaysCounts calls

/-- The tokens that a call counts; without an engine nothing is counted. -/
def LexiconUse.tokens : LexiconUse F → List CString
  | .insertDocument none _ _ _ _ _ => []
  | .insertDocument (some _) _ _ _ _ text => textTokens text
  | .filter searchTerm => queryTokens searchTerm

/-- What is stored of a token that is cut is not taken for another token. -/
def LexiconUse.NotMistaken (call : LexiconUse F) : Prop :=
  ∀ token ∈ call.tokens, lexiconMaxTermLen < token.length → ¬FoundBy token (token.take lexiconMaxTermLen)

/-- Whether a call inserts a document. -/
def LexiconUse.Inserts (st : IndexedTexts) : LexiconUse F → Prop
  | .insertDocument gEngine nodeId tf dl embedding text =>
    ∀ answer, pythonInsertDocument gEngine st.lexicon nodeId tf dl embedding text = some answer →
      answer.1 = true
  | .filter _ => False

/-- Every token that a call counts and that is not cut belongs to a document that is inserted, and occurs
there once. -/
def LexiconUse.CountsOnce (st : IndexedTexts) (call : LexiconUse F) : Prop :=
  ∀ token ∈ call.tokens, token.length ≤ lexiconMaxTermLen →
    call.Inserts st ∧ call.tokens.count token = 1 ∧ st.documentsWith token + 1 < 2 ^ 64

/-- All calls of a sequence that come back count tokens once. -/
def IndexedTexts.AllCountOnce (st : IndexedTexts) : List (LexiconUse F) → Prop
  | [] => True
  | call :: calls => ∀ st', call.run st = some st' → call.CountsOnce st ∧ st'.AllCountOnce calls

/-! ## Frequencies after insertions -/

/-- A term is counted by its own insertions only, unless it is taken for what is stored of a cut one. -/
theorem reportedFrequency_lexiconInsert (lex : Lexicon) {term other : CString}
    (hshort : other.length ≤ lexiconMaxTermLen)
    (hcut : lexiconMaxTermLen < term.length → ¬FoundBy term (term.take lexiconMaxTermLen)) :
    reportedFrequency (lexiconInsert lex term).2 other =
      reportedFrequency lex other + UInt64.ofNat ([term].count other) := by
  rw [reportedFrequency, reportedFrequency]
  by_cases hsame : other = term
  · subst hsame
    rw [lexiconLookup_lexiconInsert_self lex hshort, List.count_singleton_self]
    cases lexiconLookup lex other <;> rfl
  · have hother : ¬FoundBy term other := by
      intro hfound
      obtain hterm | hlong := le_or_gt term.length lexiconMaxTermLen
      · exact not_foundBy_of_ne hterm hsame hfound
      · exact hcut hlong (hfound.1 ▸ hfound)
    have hno : other ∉ [term] := by simpa using hsame
    rw [lexiconLookup_lexiconInsert_of_ne lex hsame hother, List.count_eq_zero_of_not_mem hno]
    exact (UInt64.add_zero _).symm

/-- The insertions of tokens count each of them. -/
theorem reportedFrequency_lexiconInserts (lex : Lexicon) {tokens : List CString} {other : CString}
    (hshort : other.length ≤ lexiconMaxTermLen)
    (hcut : ∀ token ∈ tokens, lexiconMaxTermLen < token.length →
      ¬FoundBy token (token.take lexiconMaxTermLen)) :
    reportedFrequency (lexiconInserts lex tokens).2 other =
      reportedFrequency lex other + UInt64.ofNat (tokens.count other) := by
  induction tokens generalizing lex with
  | nil => exact (UInt64.add_zero _).symm
  | cons token tokens ih =>
    have hrest := ih (lexiconInsert lex token).2 fun other hother => hcut other (List.mem_cons_of_mem _ hother)
    have hfirst := reportedFrequency_lexiconInsert lex hshort (hcut token List.mem_cons_self)
    have hcount : (token :: tokens).count other = [token].count other + tokens.count other := by
      rw [← List.count_append]
      rfl
    rw [hcount, UInt64.ofNat_add, ← UInt64.add_assoc, ← hfirst, ← hrest]
    rfl

/-! ## Calls -/

omit [Double F] in
/-- There are at most 1024 tokens. -/
theorem LexiconUse.length_tokens (call : LexiconUse F) : call.tokens.length ≤ 1024 := by
  have htokens : ∀ (text : CString) (maxTokens : ℕ), maxTokens ≤ 1024 →
      (lexiconTokenize text 4096 maxTokens).length ≤ 1024 := by
    intro text maxTokens hmax
    rw [lexiconTokenize_eq text (by decide), List.length_map, List.length_take]
    exact (min_le_left _ _).trans hmax
  cases call with
  | insertDocument gEngine nodeId tf dl embedding text =>
    cases gEngine with
    | none => exact Nat.zero_le _
    | some engine =>
      cases text with
      | none => exact Nat.zero_le _
      | some text => exact htokens text 1024 le_rfl
  | filter searchTerm =>
    cases searchTerm with
    | none => exact Nat.zero_le _
    | some searchTerm => exact htokens searchTerm 64 (by decide)

/-- What a call does: its tokens are inserted into the lexicon, and they are the tokens of a new document if
the call inserts one. -/
theorem LexiconUse.run_spec {st st' : IndexedTexts} {call : LexiconUse F} (h : call.run st = some st') :
    st'.lexicon = (lexiconInserts st.lexicon call.tokens).2 ∧
      (call.Inserts st ∧ st'.documents = st.documents ++ [call.tokens] ∨
        ¬call.Inserts st ∧ st'.documents = st.documents) := by
  cases call with
  | filter searchTerm =>
    obtain rfl := Option.some.inj h
    exact ⟨rfl, .inr ⟨id, rfl⟩⟩
  | insertDocument gEngine nodeId tf dl embedding text =>
    rw [LexiconUse.run, Option.map_eq_some_iff] at h
    obtain ⟨⟨ok, engine, lexicon⟩, hanswer, rfl⟩ := h
    have hinserts : LexiconUse.Inserts st (.insertDocument gEngine nodeId tf dl embedding text) ↔
        ok = true := by
      constructor
      · intro hall
        exact hall _ hanswer
      · rintro hok answer hother
        rw [hanswer, Option.some.injEq] at hother
        rw [← hother]
        exact hok
    rw [hinserts]
    cases gEngine with
    | none =>
      obtain ⟨rfl, rfl, rfl⟩ : ok = false ∧ engine = none ∧ lexicon = st.lexicon := by
        simpa [pythonInsertDocument, eq_comm] using hanswer
      exact ⟨rfl, .inr ⟨Bool.false_ne_true, rfl⟩⟩
    | some opened =>
      rw [pythonInsertDocument, Option.map_eq_some_iff] at hanswer
      obtain ⟨⟨inserted, changed⟩, -, hanswer⟩ := hanswer
      obtain ⟨rfl, -, rfl⟩ : inserted = ok ∧ some changed = engine ∧
          (pythonTermIds st.lexicon text).2 = lexicon := by simpa using hanswer
      refine ⟨?_, ?_⟩
      · cases text with
        | none => rfl
        | some text => rfl
      · cases inserted with
        | true => exact .inl ⟨rfl, rfl⟩
        | false => exact .inr ⟨Bool.false_ne_true, rfl⟩

/-- A counter that is advanced by some of at most 1024 occurrences counts the documents exactly when there is
one occurrence, in a document. -/
theorem counter_add_eq_iff {counter occurrences inserted : ℕ} (hpos : 0 < occurrences)
    (hmax : occurrences ≤ 1024) (hinserted : inserted ≤ 1) :
    (counter + occurrences) % 2 ^ 64 = counter + inserted ↔
      inserted = 1 ∧ occurrences = 1 ∧ counter + 1 < 2 ^ 64 := by
  omega

/-- A call keeps documents counted exactly when it counts tokens once. -/
theorem IndexedTexts.CountsDocuments.run_iff {st st' : IndexedTexts} (hcounts : st.CountsDocuments)
    {call : LexiconUse F} (hnot : call.NotMistaken) (hrun : call.run st = some st') :
    st'.CountsDocuments ↔ call.CountsOnce st := by
  obtain ⟨hlexicon, hdocuments⟩ := LexiconUse.run_spec hrun
  -- what one term sees of the call
  have hterm : ∀ term, term.length ≤ lexiconMaxTermLen →
      ((reportedFrequency st'.lexicon term).toNat = st'.documentsWith term ↔
        (term ∈ call.tokens → call.Inserts st ∧ call.tokens.count term = 1 ∧
          st.documentsWith term + 1 < 2 ^ 64)) := by
    intro term hshort
    have hmany : call.tokens.count term ≤ 1024 := List.count_le_length.trans call.length_tokens
    rw [hlexicon, reportedFrequency_lexiconInserts _ hshort hnot, UInt64.toNat_add, hcounts term hshort,
      UInt64.toNat_ofNat_of_lt' (hmany.trans_lt (by decide))]
    have hbound : st.documentsWith term < 2 ^ 64 := by
      rw [← hcounts term hshort]
      exact UInt64.toNat_lt _
    by_cases hmem : term ∈ call.tokens
    · have hpos := List.count_pos_iff.mpr hmem
      obtain ⟨hinserts, hdocuments⟩ | ⟨hinserts, hdocuments⟩ := hdocuments
      · have hwith : st'.documentsWith term = st.documentsWith term + 1 := by
          rw [documentsWith, hdocuments, List.countP_append, List.countP_singleton, if_pos (by simpa)]
          rfl
        rw [hwith, counter_add_eq_iff hpos hmany le_rfl]
        simp [hmem, hinserts]
      · have hwith : st'.documentsWith term = st.documentsWith term + 0 := by
          rw [documentsWith, hdocuments]
          rfl
        rw [hwith, counter_add_eq_iff hpos hmany (Nat.zero_le 1)]
        simp [hmem, hinserts]
    · have hwith : st'.documentsWith term = st.documentsWith term := by
        obtain ⟨-, hdocuments⟩ | ⟨-, hdocuments⟩ := hdocuments
        · rw [documentsWith, hdocuments, List.countP_append, List.countP_singleton,
            if_neg (by simpa using hmem), Nat.add_zero]
          rfl
        · rw [documentsWith, hdocuments]
          rfl
      rw [hwith, List.count_eq_zero_of_not_mem hmem, Nat.add_zero, Nat.mod_eq_of_lt hbound]
      simp [hmem]
  constructor
  · intro hall token htoken hshort
    exact (hterm token hshort).mp (hall token hshort) htoken
  · intro hall term hshort
    exact (hterm term hshort).mpr fun hmem => hall term hmem hshort

/-- Before the first document every count is zero. -/
theorem countsDocuments_start : IndexedTexts.start.CountsDocuments := fun _ _ => rfl

/-- Documents stay counted in a run exactly when its calls count tokens once. -/
theorem IndexedTexts.CountsDocuments.alwaysCounts_iff {st : IndexedTexts} (hcounts : st.CountsDocuments)
    {calls : List (LexiconUse F)} (hnot : ∀ call ∈ calls, call.NotMistaken) :
    st.AlwaysCounts calls ↔ st.AllCountOnce calls := by
  induction calls generalizing st with
  | nil => exact iff_of_true hcounts trivial
  | cons call calls ih =>
    have hcall := hnot call List.mem_cons_self
    have hrest := fun other hother => hnot other (List.mem_cons_of_mem call hother)
    constructor
    · rintro ⟨-, hall⟩ st' hrun
      have hnext : st'.CountsDocuments := by
        have halways := hall st' hrun
        cases calls with
        | nil => exact halways
        | cons other calls => exact halways.1
      exact ⟨(hcounts.run_iff hcall hrun).mp hnext, (ih hnext hrest).mp (hall st' hrun)⟩
    · intro hall
      refine ⟨hcounts, fun st' hrun => ?_⟩
      obtain ⟨honce, hlater⟩ := hall st' hrun
      exact (ih ((hcounts.run_iff hcall hrun).mpr honce) hrest).mpr hlater

/-- The document frequencies are right in every state that a run reaches exactly when every call that comes
back counts tokens once, as long as nothing that is stored of a cut token is taken for another one. -/
theorem documentFrequencies_iff (calls : List (LexiconUse F)) (hnot : ∀ call ∈ calls, call.NotMistaken) :
    IndexedTexts.start.AlwaysCounts calls ↔ IndexedTexts.start.AllCountOnce calls :=
  countsDocuments_start.alwaysCounts_iff hnot

/-- A query with one word counts it in no document. -/
theorem documentFrequencies_iff_query :
    IndexedTexts.start.AlwaysCounts [(.filter (some [0x61]) : LexiconUse ℚ)] ↔
      IndexedTexts.start.AllCountOnce [(.filter (some [0x61]) : LexiconUse ℚ)] := by
  apply documentFrequencies_iff
  intro call hcall token htoken hlong
  rw [List.mem_singleton] at hcall
  rw [hcall] at htoken
  have htokens : queryTokens (some [0x61]) = [[0x61]] := by decide
  rw [LexiconUse.tokens, htokens, List.mem_singleton] at htoken
  rw [htoken] at hlong
  exact absurd hlong (by decide)

/-- After the query `a` the document frequency of `a` is 1, without a document. -/
theorem exists_not_alwaysCounts :
    ¬IndexedTexts.start.AlwaysCounts [(.filter (some [0x61]) : LexiconUse ℚ)] := by
  rintro ⟨-, hall⟩
  have hcounted := hall _ rfl [0x61] (by decide)
  have hone : (reportedFrequency (lexiconInserts lexiconInit (queryTokens (some [0x61]))).2 [0x61]).toNat =
      1 := by decide +kernel
  exact absurd (hone.symm.trans hcounted) (by decide)

end FtsUring
