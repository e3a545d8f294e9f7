import FtsUring.Lexicon.TermIds
import Mathlib.Data.Finset.Card

/-!
# The lexicon as a map with counts

A lookup walks down the chain of a term as an insertion does. After a sequence of insertions the lexicon is
the map from the inserted terms to their ids and the numbers of their insertions, as long as no term is cut
and the two counters do not wrap.
-/

namespace FtsUring

/-- Look a term up: its id and how often it was counted. -/
def lexiconLookup (lex : Lexicon) (term : CString) : Option (UInt32 × UInt64) :=
  (findTerm term (lex.buckets (lexiconHash term))).map fun entry =>
    (entry.termId, entry.documentFrequency)

/-- A sequence of insertions makes a map from the inserted terms: a lookup answers for these only, with the
id that every insertion of the term returned and the number of its insertions, and the terms are counted. -/
structure MapsTerms (terms : List CString) : Prop where
  found : ∀ term, (lexiconLookup (lexiconInserts lexiconInit terms).2 term).isSome ↔ term ∈ terms
  ids : ∀ term answer, lexiconLookup (lexiconInserts lexiconInit terms).2 term = some answer →
    ∀ call ∈ lexiconCalls terms, call.1 = term → call.2 = answer.1
  counts : ∀ term answer, lexiconLookup (lexiconInserts lexiconInit terms).2 term = some answer →
    answer.2.toNat = terms.count term
  total : (lexiconInserts lexiconInit terms).2.totalTerms.toNat = terms.toFinset.card

/-! ## Lookups after an insertion -/

/-- The entry that is found after a term was counted in its chain. -/
theorem findTerm_counted_self {term : CString} {before after : List LexiconEntry} {entry : LexiconEntry}
    (hentry : entry.term = term) (hbefore : ∀ other ∈ before, other.term ≠ term) :
    findTerm term (before ++ entry :: after) = some entry := by
  have hskip : before.find? (fun other => other.term = term) = none := by
    rw [List.find?_eq_none]
    intro other hother
    simpa using hbefore other hother
  rw [findTerm, List.find?_append, hskip, Option.none_or, List.find?_cons_of_pos (by simpa using hentry)]

/-- Another term finds what it found before. -/
theorem findTerm_counted_of_ne {term other : CString} (hne : other ≠ term) {before after : List LexiconEntry}
    {entry : LexiconEntry} (hentry : entry.term = term) (frequency : UInt64) :
    findTerm other (before ++ { entry with documentFrequency := frequency } :: after) =
      findTerm other (before ++ entry :: after) := by
  have hno : entry.term ≠ other := fun heq => hne (heq.symm.trans hentry)
  rw [findTerm, findTerm, List.find?_append, List.find?_append, List.find?_cons_of_neg (by simpa using hno),
    List.find?_cons_of_neg (by simpa using hno)]

/-- The answer for a term that is inserted once more. -/
def countedOnce (term : CString) : Option (UInt32 × UInt64) → UInt32 × UInt64
  | none => (lexiconTermHash32 term, 1)
  | some (termId, frequency) => (termId, frequency + 1)

/-- A term other than the inserted one, and other than what is stored of it if it is cut, has the answer that
it had. -/
theorem lexiconLookup_lexiconInsert_of_ne (lex : Lexicon) {term other : CString} (hne : other ≠ term)
    (hcut : ¬FoundBy term other) :
    lexiconLookup (lexiconInsert lex term).2 other = lexiconLookup lex other := by
  rw [lexiconLookup, lexiconLookup]
  cases hfound : findTerm term (lex.buckets (lexiconHash term)) with
  | some entry =>
    obtain ⟨before, after, hchain, hentry, -, hinsert⟩ := lexiconInsert_of_found hfound
    rw [hinsert]
    dsimp only
    by_cases hbucket : lexiconHash other = lexiconHash term
    · rw [hbucket, Function.update_self, findTerm_counted_of_ne hne hentry, hchain]
    · rw [Function.update_of_ne hbucket]
  | none =>
    rw [lexiconInsert_of_not_found hfound]
    dsimp only
    by_cases hbucket : lexiconHash other = lexiconHash term
    · have hno : (newLexiconEntry term).term ≠ other := fun hstored => hcut ⟨hstored, hbucket.symm⟩
      rw [hbucket, Function.update_self, findTerm, List.find?_cons_of_neg (by simpa using hno)]
      rfl
    · rw [Function.update_of_ne hbucket]

/-- A short term that is inserted is counted. -/
theorem lexiconLookup_lexiconInsert_self (lex : Lexicon) {term : CString}
    (hshort : term.length ≤ lexiconMaxTermLen) :
    lexiconLookup (lexiconInsert lex term).2 term = some (countedOnce term (lexiconLookup lex term)) := by
  rw [lexiconLookup, lexiconLookup]
  cases hfound : findTerm term (lex.buckets (lexiconHash term)) with
  | some entry =>
    obtain ⟨before, after, -, hentry, hbefore, hinsert⟩ := lexiconInsert_of_found hfound
    have hcounted := @findTerm_counted_self term before after
      { entry with documentFrequency := entry.documentFrequency + 1 } hentry hbefore
    rw [hinsert]
    dsimp only
    rw [Function.update_self, hcounted]
    rfl
  | none =>
    have hstored : (newLexiconEntry term).term = term := List.take_of_length_le hshort
    rw [lexiconInsert_of_not_found hfound]
    dsimp only
    rw [Function.update_self, findTerm, List.find?_cons_of_pos (by simpa using hstored)]
    rfl

/-- A new entry is made, and counted, for a term that is not found. -/
theorem totalTerms_lexiconInsert (lex : Lexicon) (term : CString) :
    (lexiconInsert lex term).2.totalTerms =
      if (lexiconLookup lex term).isSome then lex.totalTerms else lex.totalTerms + 1 := by
  rw [lexiconLookup, Option.isSome_map]
  cases hfound : findTerm term (lex.buckets (lexiconHash term)) with
  | some entry =>
    obtain ⟨before, after, -, -, -, hinsert⟩ := lexiconInsert_of_found hfound
    rw [hinsert]
    rfl
  | none =>
    rw [lexiconInsert_of_not_found hfound]
    rfl

/-- What is stored of a short term is found by that term only. -/
theorem not_foundBy_of_ne {term other : CString} (hshort : term.length ≤ lexiconMaxTermLen)
    (hne : other ≠ term) : ¬FoundBy term other :=
  fun hfound => hne (hfound.eq hshort).symm

/-! ## Lookups after a sequence of insertions -/

/-- The state of the counters after a sequence of insertions of short terms. -/
structure CountsTerms (lex : Lexicon) (terms : List CString) : Prop where
  lookup : ∀ term, lexiconLookup lex term =
    if term ∈ terms then some (lexiconTermHash32 term, UInt64.ofNat (terms.count term)) else none
  total : lex.totalTerms = UInt32.ofNat terms.toFinset.card

/-- Nothing was inserted into an empty lexicon. -/
theorem countsTerms_lexiconInit : CountsTerms lexiconInit [] where
  lookup := fun _ => rfl
  total := rfl

namespace CountsTerms

variable {lex : Lexicon} {terms : List CString}

/-- The insertion of a short term counts it. -/
theorem countTerm (h : CountsTerms lex terms) {term : CString} (hshort : term.length ≤ lexiconMaxTermLen) :
    CountsTerms (lexiconInsert lex term).2 (terms ++ [term]) where
  lookup := by
    intro other
    by_cases hother : other = term
    · subst hother
      have hinserted : other ∈ terms ++ [other] := by simp
      rw [lexiconLookup_lexiconInsert_self lex hshort, h.lookup, if_pos hinserted, List.count_append,
        List.count_singleton_self]
      split_ifs with hmem
      · rw [UInt64.ofNat_add]
        rfl
      · rw [List.count_eq_zero_of_not_mem hmem]
        rfl
    · have hno : other ∉ [term] := by simpa using hother
      rw [lexiconLookup_lexiconInsert_of_ne lex hother (not_foundBy_of_ne hshort hother), h.lookup,
        List.count_append, List.count_eq_zero_of_not_mem hno, Nat.add_zero]
      simp [hother]
  total := by
    rw [totalTerms_lexiconInsert, h.lookup, h.total, List.toFinset_append, Finset.union_comm]
    by_cases hmem : term ∈ terms
    · have hsubset : [term].toFinset ⊆ terms.toFinset := by simpa using hmem
      rw [if_pos hmem, Finset.union_eq_right.mpr hsubset]
      rfl
    · have hnew : term ∉ terms.toFinset := by simpa using hmem
      have hinsert : [term].toFinset ∪ terms.toFinset = insert term terms.toFinset := rfl
      rw [if_neg hmem, hinsert, Finset.card_insert_of_notMem hnew, UInt32.ofNat_add]
      rfl

/-- Insertions of short terms count them. -/
theorem inserts (h : CountsTerms lex terms) {others : List CString}
    (hshort : ∀ term ∈ others, term.length ≤ lexiconMaxTermLen) :
    CountsTerms (lexiconInserts lex others).2 (terms ++ others) := by
  induction others generalizing lex terms with
  | nil => rwa [List.append_nil]
  | cons term others ih =>
    rw [List.append_cons]
    exact ih (h.countTerm (hshort term List.mem_cons_self)) fun other hother =>
      hshort other (List.mem_cons_of_mem _ hother)

/-- The insertions of short terms return the hashes of the terms. -/
theorem calls (h : CountsTerms lex terms) {others : List CString}
    (hshort : ∀ term ∈ others, term.length ≤ lexiconMaxTermLen) :
    (lexiconInserts lex others).1 = others.map lexiconTermHash32 := by
  induction others generalizing lex terms with
  | nil => rfl
  | cons term others ih =>
    have hterm : (lexiconInsert lex term).1 = lexiconTermHash32 term := by
      have hlookup := h.lookup term
      rw [lexiconLookup] at hlookup
      rw [fst_lexiconInsert, Lexicon.termId]
      cases hfound : findTerm term (lex.buckets (lexiconHash term)) with
      | none => rfl
      | some entry =>
        rw [hfound] at hlookup
        split_ifs at hlookup
        · simpa using congrArg Prod.fst (Option.some.inj hlookup)
        · cases hlookup
    have hrest := ih (h.countTerm (hshort term List.mem_cons_self)) fun other hother =>
      hshort other (List.mem_cons_of_mem _ hother)
    rw [List.map_cons, ← hterm, ← hrest]
    rfl

end CountsTerms

/-! ## When the lexicon is a map -/

/-- No stored term is longer than what is stored of a cut one. -/
theorem length_le_of_mem_buckets {lex : Lexicon}
    (h : ∀ bucket, ∀ entry ∈ lex.buckets bucket, entry.term.length ≤ lexiconMaxTermLen) (term : CString) :
    ∀ bucket, ∀ entry ∈ (lexiconInsert lex term).2.buckets bucket,
      entry.term.length ≤ lexiconMaxTermLen := by
  intro bucket entry hentry
  cases hfound : findTerm term (lex.buckets (lexiconHash term)) with
  | some found =>
    obtain ⟨before, after, hchain, -, -, hinsert⟩ := lexiconInsert_of_found hfound
    rw [hinsert] at hentry
    dsimp only at hentry
    by_cases hbucket : bucket = lexiconHash term
    · have hold := h (lexiconHash term)
      rw [hchain] at hold
      rw [hbucket, Function.update_self] at hentry
      simp only [List.mem_append, List.mem_cons] at hentry hold
      obtain hentry | rfl | hentry := hentry
      · exact hold entry (.inl hentry)
      · exact hold found (.inr (.inl rfl))
      · exact hold entry (.inr (.inr hentry))
    · rw [Function.update_of_ne hbucket] at hentry
      exact h bucket entry hentry
  | none =>
    rw [lexiconInsert_of_not_found hfound] at hentry
    dsimp only at hentry
    by_cases hbucket : bucket = lexiconHash term
    · rw [hbucket, Function.update_self] at hentry
      obtain rfl | hentry := List.mem_cons.mp hentry
      · exact List.length_take_le _ _
      · exact h _ entry hentry
    · rw [Function.update_of_ne hbucket] at hentry
      exact h bucket entry hentry

/-- A term that is cut is never found. -/
theorem lexiconLookup_of_long {lex : Lexicon}
    (h : ∀ bucket, ∀ entry ∈ lex.buckets bucket, entry.term.length ≤ lexiconMaxTermLen) {term : CString}
    (hlong : lexiconMaxTermLen < term.length) : lexiconLookup lex term = none := by
  have hnone : findTerm term (lex.buckets (lexiconHash term)) = none := by
    rw [findTerm, List.find?_eq_none]
    intro entry hentry hterm
    have hstored := h _ entry hentry
    rw [of_decide_eq_true hterm] at hstored
    omega
  rw [lexiconLookup, hnone]
  rfl

/-- The stored terms after a sequence of insertions. -/
theorem length_le_of_mem_lexiconInserts {lex : Lexicon}
    (h : ∀ bucket, ∀ entry ∈ lex.buckets bucket, entry.term.length ≤ lexiconMaxTermLen)
    (terms : List CString) :
    ∀ bucket, ∀ entry ∈ (lexiconInserts lex terms).2.buckets bucket,
      entry.term.length ≤ lexiconMaxTermLen := by
  induction terms generalizing lex with
  | nil => exact h
  | cons term terms ih => exact ih (length_le_of_mem_buckets h term)

/-- The terms that were inserted into a map are short. -/
theorem MapsTerms.short {terms : List CString} (h : MapsTerms terms) {term : CString} (hterm : term ∈ terms) :
    term.length ≤ lexiconMaxTermLen := by
  by_contra hlong
  have hfound := (h.found term).mpr hterm
  have hempty : ∀ bucket, ∀ entry ∈ lexiconInit.buckets bucket, entry.term.length ≤ lexiconMaxTermLen :=
    fun _ _ hentry => absurd hentry List.not_mem_nil
  rw [lexiconLookup_of_long (length_le_of_mem_lexiconInserts hempty terms) (not_le.mp hlong)] at hfound
  cases hfound

/-- A sequence of insertions makes a map with counts exactly when no term is cut, no term is inserted
`2 ^ 64` times and there are fewer than `2 ^ 32` terms. -/
theorem mapsTerms_iff (terms : List CString) :
    MapsTerms terms ↔ (∀ term ∈ terms, term.length ≤ lexiconMaxTermLen) ∧
      (∀ term, terms.count term < 2 ^ 64) ∧ terms.toFinset.card < 2 ^ 32 := by
  constructor
  · intro h
    have hshort := fun term (hterm : term ∈ terms) => h.short hterm
    have hcounts := countsTerms_lexiconInit.inserts hshort
    rw [List.nil_append] at hcounts
    refine ⟨hshort, fun term => ?_, ?_⟩
    · by_cases hmem : term ∈ terms
      · have hlookup := hcounts.lookup term
        rw [if_pos hmem] at hlookup
        rw [← h.counts term _ hlookup]
        exact UInt64.toNat_lt _
      · rw [List.count_eq_zero_of_not_mem hmem]
        exact Nat.two_pow_pos 64
    · rw [← h.total]
      exact UInt32.toNat_lt _
  · rintro ⟨hshort, hfrequencies, hdistinct⟩
    have hcounts := countsTerms_lexiconInit.inserts hshort
    have hcalls := countsTerms_lexiconInit.calls hshort
    rw [List.nil_append] at hcounts
    refine ⟨fun term => ?_, fun term answer hanswer call hcall hterm => ?_,
      fun term answer hanswer => ?_, ?_⟩
    · rw [hcounts.lookup]
      split_ifs with hmem <;> simp [hmem]
    · rw [hcounts.lookup] at hanswer
      split_ifs at hanswer
      rw [lexiconCalls, hcalls, ← List.map_prod_left_eq_zip, List.mem_map] at hcall
      obtain ⟨other, -, rfl⟩ := hcall
      rw [← Option.some.inj hanswer, ← hterm]
    · rw [hcounts.lookup] at hanswer
      split_ifs at hanswer
      rw [← Option.some.inj hanswer]
      exact UInt64.toNat_ofNat_of_lt' (hfrequencies term)
    · rw [hcounts.total]
      exact UInt32.toNat_ofNat_of_lt' hdistinct

/-- A term of 256 characters is inserted and not found. -/
theorem exists_not_mapsTerms : ¬MapsTerms [List.replicate 256 0x61] := by
  intro h
  have hfound := (h.found (List.replicate 256 0x61)).mpr List.mem_cons_self
  have hno : (lexiconLookup (lexiconInserts lexiconInit [List.replicate 256 0x61]).2
      (List.replicate 256 0x61)).isSome = false := by decide +kernel
  rw [hno] at hfound
  cases hfound

end FtsUring
