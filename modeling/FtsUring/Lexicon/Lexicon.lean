import Mathlib.Data.List.FinRange
import Mathlib.Logic.Function.Basic

/-!
# The lexicon

The lexicon is a hash table from terms to their ids. The id of a term is its 32-bit FNV-1a hash. A chain
holds the terms of one bucket, each cut to 255 characters.
-/

namespace FtsUring

/-- A C string: its bytes before the NUL. -/
abbrev CString : Type := List UInt8

/-- `LEXICON_BUCKET_COUNT`. -/
abbrev lexiconBucketCount : ℕ := 65536

/-- `LEXICON_MAX_TERM_LEN`. -/
def lexiconMaxTermLen : ℕ := 255

/-- `FNV_PRIME`. -/
def fnvPrime : UInt32 := 16777619

/-- `FNV_OFFSET_BASIS`. -/
def fnvOffsetBasis : UInt32 := 2166136261

/-- The FNV-1a hash of a term; 0 becomes 1. -/
def lexiconTermHash32 (term : CString) : UInt32 :=
  let hash := term.foldl (fun hash byte => (hash ^^^ byte.toUInt32) * fnvPrime) fnvOffsetBasis
  if hash = 0 then 1 else hash

/-- The bucket of a term. -/
def lexiconHash (term : CString) : Fin lexiconBucketCount :=
  ⟨(lexiconTermHash32 term).toNat % lexiconBucketCount, Nat.mod_lt _ (by decide)⟩

/-- An entry of the lexicon, without the link to the next one. -/
structure LexiconEntry where
  term : CString
  termId : UInt32
  documentFrequency : UInt64

/-- The lexicon. -/
structure Lexicon where
  buckets : Fin lexiconBucketCount → List LexiconEntry
  nextTermId : UInt32
  totalTerms : UInt32

/-- An empty lexicon; 0 is reserved. -/
def lexiconInit : Lexicon := ⟨fun _ => [], 1, 0⟩

/-- The entry that is made for a new term. -/
def newLexiconEntry (term : CString) : LexiconEntry :=
  ⟨term.take lexiconMaxTermLen, lexiconTermHash32 term, 1⟩

/-- Walk down a chain to the entry of a term and count the term there. -/
def countExisting (term : CString) : List LexiconEntry → Option (UInt32 × List LexiconEntry)
  | [] => none
  | entry :: next =>
    if entry.term = term then
      some (entry.termId, { entry with documentFrequency := entry.documentFrequency + 1 } :: next)
    else (countExisting term next).map fun (termId, rest) => (termId, entry :: rest)

/-- Insert a term; the answer is its id. -/
def lexiconInsert (lex : Lexicon) (term : CString) : UInt32 × Lexicon :=
  let bucket := lexiconHash term
  match countExisting term (lex.buckets bucket) with
  | some (termId, chain) => (termId, { lex with buckets := Function.update lex.buckets bucket chain })
  | none =>
    let newEntry := newLexiconEntry term
    (newEntry.termId, { lex with
      buckets := Function.update lex.buckets bucket (newEntry :: lex.buckets bucket)
      totalTerms := lex.totalTerms + 1 })

/-- How often the first entry with an id was counted. -/
def lexiconGetDocFreq (lex : Lexicon) (termId : UInt32) : UInt64 :=
  if termId = 0 then 0
  else
    (((List.finRange lexiconBucketCount).findSome? fun bucket =>
      (lex.buckets bucket).find? fun entry => entry.termId = termId).map
        LexiconEntry.documentFrequency).getD 0

/-- Insert terms one after the other; the answers are their ids. -/
def lexiconInserts (lex : Lexicon) : List CString → List UInt32 × Lexicon
  | [] => ([], lex)
  | term :: terms =>
    let (termId, lex) := lexiconInsert lex term
    let (termIds, lex) := lexiconInserts lex terms
    (termId :: termIds, lex)

/-! ## Hashes -/

/-- No term has the id 0. -/
theorem lexiconTermHash32_ne_zero (term : CString) : lexiconTermHash32 term ≠ 0 := by
  rw [lexiconTermHash32]
  split_ifs with hzero
  · decide
  · exact hzero

/-- Terms with one hash are in one bucket. -/
theorem lexiconHash_congr {term other : CString} (h : lexiconTermHash32 term = lexiconTermHash32 other) :
    lexiconHash term = lexiconHash other := by
  simp only [lexiconHash, h]

/-! ## Chains -/

/-- The entry that a term finds in a chain. -/
def findTerm (term : CString) (chain : List LexiconEntry) : Option LexiconEntry :=
  chain.find? fun entry => entry.term = term

/-- A term that no entry has is not counted. -/
theorem countExisting_eq_none {term : CString} {chain : List LexiconEntry} (h : findTerm term chain = none) :
    countExisting term chain = none := by
  induction chain with
  | nil => rfl
  | cons entry next ih =>
    rw [findTerm, List.find?_cons] at h
    by_cases hterm : entry.term = term
    · simp [hterm] at h
    · rw [countExisting, if_neg hterm, ih (by simpa [hterm, findTerm] using h)]
      rfl

/-- A term is counted in the entry that it finds. -/
theorem countExisting_eq_some {term : CString} {chain : List LexiconEntry} {entry : LexiconEntry}
    (h : findTerm term chain = some entry) :
    ∃ before after, chain = before ++ entry :: after ∧ entry.term = term ∧
      (∀ other ∈ before, other.term ≠ term) ∧
      countExisting term chain = some (entry.termId,
        before ++ { entry with documentFrequency := entry.documentFrequency + 1 } :: after) := by
  induction chain with
  | nil => exact absurd h nofun
  | cons head next ih =>
    by_cases hterm : head.term = term
    · rw [findTerm, List.find?_cons_of_pos (by simpa using hterm), Option.some.injEq] at h
      subst h
      exact ⟨[], next, rfl, hterm, nofun, by rw [countExisting, if_pos hterm]; rfl⟩
    · rw [findTerm, List.find?_cons_of_neg (by simpa using hterm)] at h
      obtain ⟨before, after, rfl, hentry, hbefore, hcount⟩ := ih h
      refine ⟨head :: before, after, rfl, hentry, ?_, ?_⟩
      · intro other hother
        obtain rfl | hrest := List.mem_cons.mp hother
        · exact hterm
        · exact hbefore other hrest
      · rw [countExisting, if_neg hterm, hcount]
        rfl

/-- Counting a term changes neither the terms nor the ids of a chain. -/
theorem findTerm_counted (other : CString) (before after : List LexiconEntry) (entry : LexiconEntry)
    (frequency : UInt64) :
    (findTerm other (before ++ { entry with documentFrequency := frequency } :: after)).map
      LexiconEntry.termId = (findTerm other (before ++ entry :: after)).map LexiconEntry.termId := by
  rw [findTerm, findTerm, List.find?_append, List.find?_append, List.find?_cons, List.find?_cons]
  cases before.find? fun entry => entry.term = other with
  | some found => rfl
  | none => cases decide (entry.term = other) <;> rfl

/-! ## Ids of terms -/

/-- The id that a term gets. -/
def Lexicon.termId (lex : Lexicon) (term : CString) : UInt32 :=
  ((findTerm term (lex.buckets (lexiconHash term))).map LexiconEntry.termId).getD (lexiconTermHash32 term)

/-- The entry of a term is found by another one: they are in one bucket, and the other one is what is
stored of the term. -/
def FoundBy (term other : CString) : Prop :=
  term.take lexiconMaxTermLen = other ∧ lexiconHash term = lexiconHash other

/-- A short term is found by itself only. -/
theorem FoundBy.eq {term other : CString} (h : FoundBy term other)
    (hshort : term.length ≤ lexiconMaxTermLen) : term = other := by
  rw [← h.1, List.take_of_length_le hshort]

/-- What an insertion does to a term that finds an entry. -/
theorem lexiconInsert_of_found {lex : Lexicon} {term : CString} {entry : LexiconEntry}
    (h : findTerm term (lex.buckets (lexiconHash term)) = some entry) :
    ∃ before after, lex.buckets (lexiconHash term) = before ++ entry :: after ∧ entry.term = term ∧
      (∀ other ∈ before, other.term ≠ term) ∧
      lexiconInsert lex term = (entry.termId, { lex with
        buckets := Function.update lex.buckets (lexiconHash term)
          (before ++ { entry with documentFrequency := entry.documentFrequency + 1 } :: after) }) := by
  obtain ⟨before, after, hchain, hterm, hbefore, hcount⟩ := countExisting_eq_some h
  exact ⟨before, after, hchain, hterm, hbefore, by rw [lexiconInsert, hcount]⟩

/-- What an insertion does to a term that finds no entry. -/
theorem lexiconInsert_of_not_found {lex : Lexicon} {term : CString}
    (h : findTerm term (lex.buckets (lexiconHash term)) = none) :
    lexiconInsert lex term = (lexiconTermHash32 term, { lex with
      buckets := Function.update lex.buckets (lexiconHash term)
        (newLexiconEntry term :: lex.buckets (lexiconHash term))
      totalTerms := lex.totalTerms + 1 }) := by
  rw [lexiconInsert, countExisting_eq_none h]
  rfl

/-- An insertion answers with the id of the term. -/
theorem fst_lexiconInsert (lex : Lexicon) (term : CString) :
    (lexiconInsert lex term).1 = lex.termId term := by
  rw [Lexicon.termId]
  cases h : findTerm term (lex.buckets (lexiconHash term)) with
  | none =>
    rw [lexiconInsert_of_not_found h]
    rfl
  | some entry =>
    obtain ⟨before, after, -, -, -, hinsert⟩ := lexiconInsert_of_found h
    rw [hinsert]
    rfl

/-- An insertion gives a term another id only when the new term is cut and found by it. -/
theorem termId_lexiconInsert (lex : Lexicon) {term other : CString}
    (h : lexiconMaxTermLen < term.length → ¬FoundBy term other) :
    (lexiconInsert lex term).2.termId other = lex.termId other := by
  cases hfound : findTerm term (lex.buckets (lexiconHash term)) with
  | some entry =>
    obtain ⟨before, after, hchain, -, -, hinsert⟩ := lexiconInsert_of_found hfound
    rw [hinsert, Lexicon.termId, Lexicon.termId]
    dsimp only
    by_cases hbucket : lexiconHash other = lexiconHash term
    · rw [hbucket, Function.update_self, findTerm_counted, hchain]
    · rw [Function.update_of_ne hbucket]
  | none =>
    rw [lexiconInsert_of_not_found hfound, Lexicon.termId, Lexicon.termId]
    dsimp only
    by_cases hbucket : lexiconHash other = lexiconHash term
    · rw [hbucket, Function.update_self, findTerm, List.find?_cons]
      by_cases hterm : term.take lexiconMaxTermLen = other
      · have hshort : term.length ≤ lexiconMaxTermLen :=
          not_lt.mp fun hlong => h hlong ⟨hterm, hbucket.symm⟩
        obtain rfl := FoundBy.eq ⟨hterm, hbucket.symm⟩ hshort
        rw [hfound]
        simp [newLexiconEntry, hterm]
      · simp [newLexiconEntry, hterm, findTerm]
    · rw [Function.update_of_ne hbucket]

/-- A new term that finds no entry is found by everything with its bucket and what is stored of it. -/
theorem termId_lexiconInsert_of_foundBy {lex : Lexicon} {term other : CString}
    (h : findTerm term (lex.buckets (lexiconHash term)) = none) (hfound : FoundBy term other) :
    (lexiconInsert lex term).2.termId other = lexiconTermHash32 term := by
  have hstored : decide ((newLexiconEntry term).term = other) = true := decide_eq_true hfound.1
  rw [lexiconInsert_of_not_found h, Lexicon.termId, ← hfound.2]
  dsimp only
  rw [Function.update_self, findTerm, List.find?_cons, hstored]
  rfl

end FtsUring
