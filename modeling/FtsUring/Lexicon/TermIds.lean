import FtsUring.Lexicon.Lexicon
import Mathlib.Data.List.Count
import Mathlib.Data.List.Induction
import Mathlib.Tactic.Ring

/-!
# Ids of different terms

A lexicon tells the terms of a sequence of insertions apart when their hashes differ and no term that is
cut is inserted before itself or before what is left of it in its bucket.
-/

namespace FtsUring

/-- The calls of a sequence of insertions, with their answers. -/
def lexiconCalls (terms : List CString) : List (CString × UInt32) :=
  terms.zip (lexiconInserts lexiconInit terms).1

/-- Different terms get different ids, and under the id of a term stands how often it was inserted. -/
structure TermsToldApart (terms : List CString) : Prop where
  ids : ∀ call ∈ lexiconCalls terms, ∀ other ∈ lexiconCalls terms, call.1 ≠ other.1 → call.2 ≠ other.2
  frequencies : ∀ call ∈ lexiconCalls terms,
    (lexiconGetDocFreq (lexiconInserts lexiconInit terms).2 call.2).toNat = terms.count call.1

/-- Different terms have different hashes, a term that is cut comes once and before no term that finds its
entry, and no term comes `2 ^ 64` times. -/
structure TermsSeparate (terms : List CString) : Prop where
  hashes : ∀ term ∈ terms, ∀ other ∈ terms, lexiconTermHash32 term = lexiconTermHash32 other → term = other
  cut : terms.Pairwise fun term other =>
    lexiconMaxTermLen < term.length → other ≠ term ∧ ¬FoundBy term other
  counts : ∀ term, terms.count term < 2 ^ 64

/-! ## Sequences of insertions -/

/-- Two sequences. -/
theorem lexiconInserts_append (lex : Lexicon) (terms others : List CString) :
    lexiconInserts lex (terms ++ others) =
      ((lexiconInserts lex terms).1 ++ (lexiconInserts (lexiconInserts lex terms).2 others).1,
        (lexiconInserts (lexiconInserts lex terms).2 others).2) := by
  induction terms generalizing lex with
  | nil => rfl
  | cons term terms ih =>
    simp only [List.cons_append, lexiconInserts, ih]

/-- One term more. -/
theorem lexiconInserts_concat (lex : Lexicon) (terms : List CString) (term : CString) :
    lexiconInserts lex (terms ++ [term]) =
      ((lexiconInserts lex terms).1 ++ [(lexiconInserts lex terms).2.termId term],
        (lexiconInsert (lexiconInserts lex terms).2 term).2) := by
  rw [lexiconInserts_append, ← fst_lexiconInsert]
  rfl

/-- Every insertion has an answer. -/
theorem length_lexiconInserts (lex : Lexicon) (terms : List CString) :
    (lexiconInserts lex terms).1.length = terms.length := by
  induction terms generalizing lex with
  | nil => rfl
  | cons term terms ih => exact congrArg Nat.succ (ih (lexiconInsert lex term).2)

/-- The calls of one term more. -/
theorem lexiconCalls_concat (terms : List CString) (term : CString) :
    lexiconCalls (terms ++ [term]) =
      lexiconCalls terms ++ [(term, (lexiconInserts lexiconInit terms).2.termId term)] := by
  rw [lexiconCalls, lexiconInserts_concat, List.zip_append (length_lexiconInserts _ _).symm]
  rfl

/-- The ids of terms none of which changes the id of another one. -/
theorem fst_lexiconInserts {lexicon : Lexicon} {terms : List CString}
    (h : ∀ term ∈ terms, lexiconMaxTermLen < term.length → ∀ other ∈ terms, ¬FoundBy term other) :
    (lexiconInserts lexicon terms).1 = terms.map lexicon.termId := by
  induction terms generalizing lexicon with
  | nil => rfl
  | cons term terms ih =>
    have hrest := @ih (lexiconInsert lexicon term).2 fun first hfirst hlong second hsecond =>
      h first (List.mem_cons_of_mem _ hfirst) hlong second (List.mem_cons_of_mem _ hsecond)
    rw [lexiconInserts]
    dsimp only
    rw [hrest, fst_lexiconInsert, List.map_cons]
    congr 1
    exact List.map_congr_left fun other hother => termId_lexiconInsert lexicon fun hlong =>
      h term List.mem_cons_self hlong other (List.mem_cons_of_mem _ hother)

/-- The id of a term after other terms that do not change it. -/
theorem termId_lexiconInserts {lexicon : Lexicon} {terms : List CString} {other : CString}
    (h : ∀ term ∈ terms, lexiconMaxTermLen < term.length → ¬FoundBy term other) :
    (lexiconInserts lexicon terms).2.termId other = lexicon.termId other := by
  induction terms generalizing lexicon with
  | nil => rfl
  | cons term terms ih =>
    exact (ih fun next hnext => h next (List.mem_cons_of_mem _ hnext)).trans
      (termId_lexiconInsert lexicon (h term List.mem_cons_self))

/-- The entries of a lexicon have the ids of terms. -/
theorem termId_ne_zero {lexicon : Lexicon}
    (h : ∀ bucket, ∀ entry ∈ lexicon.buckets bucket, entry.termId ≠ 0) (term : CString) :
    lexicon.termId term ≠ 0 := by
  rw [Lexicon.termId]
  cases hfound : findTerm term (lexicon.buckets (lexiconHash term)) with
  | none => exact lexiconTermHash32_ne_zero term
  | some entry => exact h _ entry (List.mem_of_find?_eq_some hfound)

/-- No entry of a lexicon has the id 0. -/
theorem entries_ne_zero (terms : List CString) : ∀ bucket,
    ∀ entry ∈ (lexiconInserts lexiconInit terms).2.buckets bucket, entry.termId ≠ 0 := by
  induction terms using List.reverseRecOn with
  | nil => exact nofun
  | append_singleton terms term ih =>
    rw [lexiconInserts_concat]
    dsimp only
    intro bucket entry hentry
    cases hfound : findTerm term ((lexiconInserts lexiconInit terms).2.buckets (lexiconHash term)) with
    | none =>
      rw [lexiconInsert_of_not_found hfound] at hentry
      dsimp only at hentry
      by_cases hbucket : bucket = lexiconHash term
      · subst hbucket
        rw [Function.update_self] at hentry
        obtain rfl | hentry := List.mem_cons.mp hentry
        · exact lexiconTermHash32_ne_zero term
        · exact ih _ entry hentry
      · rw [Function.update_of_ne hbucket] at hentry
        exact ih _ entry hentry
    | some found =>
      obtain ⟨before, after, hchain, -, -, hinsert⟩ := lexiconInsert_of_found hfound
      rw [hinsert] at hentry
      dsimp only at hentry
      by_cases hbucket : bucket = lexiconHash term
      · subst hbucket
        have hold := ih (lexiconHash term)
        rw [hchain] at hold
        rw [Function.update_self] at hentry
        rw [List.mem_append, List.mem_cons] at hentry
        obtain hentry | rfl | hentry := hentry
        · exact hold entry (List.mem_append_left _ hentry)
        · exact hold found (List.mem_append_right _ List.mem_cons_self)
        · exact hold entry (List.mem_append_right _ (List.mem_cons_of_mem _ hentry))
      · rw [Function.update_of_ne hbucket] at hentry
        exact ih _ entry hentry

/-! ## What a lexicon holds -/

/-- What stands under the id of a term. -/
def countedFrequency (terms : List CString) (term : CString) : UInt64 :=
  if lexiconMaxTermLen < term.length then 1 else UInt64.ofNat (terms.count term)

/-- A lexicon after insertions that were all answered with the hash of the term. -/
structure Lexicon.Holds (lex : Lexicon) (terms : List CString) : Prop where
  /-- Every entry was made for a term. -/
  made : ∀ bucket, ∀ entry ∈ lex.buckets bucket, ∃ term ∈ terms,
    entry.term = term.take lexiconMaxTermLen ∧ entry.termId = lexiconTermHash32 term ∧
      lexiconHash term = bucket ∧ entry.documentFrequency = countedFrequency terms term
  /-- Every term has an entry. -/
  present : ∀ term ∈ terms, ∃ entry ∈ lex.buckets (lexiconHash term),
    entry.term = term.take lexiconMaxTermLen ∧ entry.termId = lexiconTermHash32 term
  /-- A term that is not cut has one entry. -/
  single : ∀ bucket, ∀ term ∈ terms, term.length ≤ lexiconMaxTermLen →
    (lex.buckets bucket).Pairwise fun entry other =>
      entry.termId = lexiconTermHash32 term → other.termId ≠ lexiconTermHash32 term
  /-- What is left of a term that is cut finds the entry of such a term. -/
  newest : ∀ term ∈ terms, lexiconMaxTermLen < term.length → ∀ other, FoundBy term other →
    ∃ cutTerm ∈ terms, lexiconMaxTermLen < cutTerm.length ∧
      lex.termId other = lexiconTermHash32 cutTerm

namespace Lexicon

variable {lex : Lexicon} {terms : List CString} {term : CString}

/-- An empty lexicon. -/
theorem holds_init : lexiconInit.Holds [] where
  made := nofun
  present := nofun
  single := nofun
  newest := nofun

/-- The entry that a term finds was made for it, if it has its id; the term is not cut. -/
theorem Holds.of_found (h : lex.Holds terms) (hhash : lex.termId term = lexiconTermHash32 term)
    (hinjective : ∀ other ∈ terms, lexiconTermHash32 other = lexiconTermHash32 term → other = term)
    {entry : LexiconEntry} (hfound : findTerm term (lex.buckets (lexiconHash term)) = some entry) :
    term ∈ terms ∧ term.length ≤ lexiconMaxTermLen ∧ entry.termId = lexiconTermHash32 term ∧
      entry.documentFrequency = countedFrequency terms term := by
  have hid : entry.termId = lexiconTermHash32 term := by
    rw [← hhash, termId, hfound]
    rfl
  have hterm : entry.term = term := by simpa using List.find?_some hfound
  obtain ⟨source, hsource, hstored, hsourceId, -, hfrequency⟩ :=
    h.made _ entry (List.mem_of_find?_eq_some hfound)
  obtain rfl := hinjective source hsource (hsourceId.symm.trans hid)
  refine ⟨hsource, ?_, hid, hfrequency⟩
  rw [← hterm, hstored]
  exact List.length_take_le _ _

/-- A term that finds no entry is new or cut. -/
theorem Holds.of_not_found (h : lex.Holds terms)
    (hfound : findTerm term (lex.buckets (lexiconHash term)) = none) (hmem : term ∈ terms) :
    lexiconMaxTermLen < term.length := by
  by_contra hshort
  obtain ⟨entry, hentry, hstored, -⟩ := h.present term hmem
  rw [List.take_of_length_le (not_lt.mp hshort)] at hstored
  exact absurd hstored (by simpa using List.find?_eq_none.mp hfound entry hentry)

/-- Another term does not change what stands under an id. -/
theorem countedFrequency_concat_of_ne {other : CString} (hne : other ≠ term) :
    countedFrequency (terms ++ [term]) other = countedFrequency terms other := by
  have hcount : (terms ++ [term]).count other = terms.count other := by
    rw [List.count_append, List.count_singleton, if_neg fun heq => hne (beq_iff_eq.mp heq).symm,
      Nat.add_zero]
  rw [countedFrequency, countedFrequency, hcount]

/-- One insertion more under the id of the term. -/
theorem countedFrequency_concat_self (hshort : term.length ≤ lexiconMaxTermLen) :
    countedFrequency (terms ++ [term]) term = countedFrequency terms term + 1 := by
  rw [countedFrequency, countedFrequency, if_neg (by omega), if_neg (by omega), List.count_append,
    List.count_singleton_self, UInt64.ofNat_add]
  rfl

/-- An entry counts one insertion more if it has the id of a term. -/
def countedFor (term : CString) (entry : LexiconEntry) : LexiconEntry :=
  if entry.termId = lexiconTermHash32 term then
    { entry with documentFrequency := entry.documentFrequency + 1 }
  else entry

/-- Counting changes no term and no id. -/
theorem countedFor_term_termId (term : CString) (entry : LexiconEntry) :
    (countedFor term entry).term = entry.term ∧ (countedFor term entry).termId = entry.termId := by
  rw [countedFor]
  split_ifs <;> exact ⟨rfl, rfl⟩

/-- A term that finds its entry is counted under its id. -/
theorem Holds.buckets_insert (h : lex.Holds terms) (hhash : lex.termId term = lexiconTermHash32 term)
    (hinjective : ∀ other ∈ terms, lexiconTermHash32 other = lexiconTermHash32 term → other = term)
    {entry : LexiconEntry} (hfound : findTerm term (lex.buckets (lexiconHash term)) = some entry)
    (bucket : Fin lexiconBucketCount) :
    (lexiconInsert lex term).2.buckets bucket = (lex.buckets bucket).map (countedFor term) := by
  obtain ⟨hmem, hshort, hid, -⟩ := h.of_found hhash hinjective hfound
  obtain ⟨before, after, hchain, -, -, hinsert⟩ := lexiconInsert_of_found hfound
  have hsame : ∀ entries : List LexiconEntry, (∀ other ∈ entries, other.termId ≠ lexiconTermHash32 term) →
      entries.map (countedFor term) = entries := by
    intro entries hentries
    refine (List.map_congr_left fun other hother => ?_).trans (List.map_id entries)
    exact if_neg (hentries other hother)
  rw [hinsert]
  dsimp only
  by_cases hbucket : bucket = lexiconHash term
  · have hsingle := h.single (lexiconHash term) term hmem hshort
    rw [hchain, List.pairwise_append, List.pairwise_cons] at hsingle
    rw [hbucket, Function.update_self, hchain, List.map_append, List.map_cons,
      hsame before fun other hother hsame =>
        hsingle.2.2 other hother entry List.mem_cons_self hsame hid,
      hsame after fun other hother => hsingle.2.1.1 other hother hid, countedFor, if_pos hid]
  · rw [Function.update_of_ne hbucket, hsame]
    intro other hother hsame
    obtain ⟨source, hsource, -, hsourceId, hat, -⟩ := h.made bucket other hother
    exact hbucket (hat ▸ lexiconHash_congr (hsourceId.symm.trans hsame))

/-- Inserting a term that finds its entry. -/
theorem Holds.insert_found (h : lex.Holds terms) (hhash : lex.termId term = lexiconTermHash32 term)
    (hinjective : ∀ other ∈ terms, lexiconTermHash32 other = lexiconTermHash32 term → other = term)
    {entry : LexiconEntry} (hfound : findTerm term (lex.buckets (lexiconHash term)) = some entry) :
    (lexiconInsert lex term).2.Holds (terms ++ [term]) := by
  obtain ⟨hmem, hshort, -, -⟩ := h.of_found hhash hinjective hfound
  have hbuckets := h.buckets_insert hhash hinjective hfound
  have hids : ∀ other, (lexiconInsert lex term).2.termId other = lex.termId other :=
    fun other => termId_lexiconInsert lex fun hlong => absurd hlong (not_lt.mpr hshort)
  have hold : ∀ other ∈ terms ++ [term], other ∈ terms := by
    intro other hother
    obtain hother | hother := List.mem_append.mp hother
    · exact hother
    · exact List.mem_singleton.mp hother ▸ hmem
  refine ⟨fun bucket counted hcounted => ?_, fun other hother => ?_, fun bucket other hother hlength => ?_,
    fun other hother hlong found hfoundBy => ?_⟩
  · rw [hbuckets] at hcounted
    obtain ⟨before, hbefore, rfl⟩ := List.mem_map.mp hcounted
    obtain ⟨source, hsource, hstored, hid, hat, hfrequency⟩ := h.made bucket before hbefore
    obtain ⟨hsameTerm, hsameId⟩ := countedFor_term_termId term before
    refine ⟨source, List.mem_append_left _ hsource, hsameTerm.trans hstored, hsameId.trans hid, hat, ?_⟩
    rw [countedFor]
    split_ifs with hterm
    · obtain rfl := hinjective source hsource (hid.symm.trans hterm)
      rw [countedFrequency_concat_self hshort, ← hfrequency]
    · rw [countedFrequency_concat_of_ne fun heq => hterm (hid.trans (congrArg _ heq)), hfrequency]
  · obtain ⟨before, hbefore, hstored, hid⟩ := h.present other (hold other hother)
    obtain ⟨hsameTerm, hsameId⟩ := countedFor_term_termId term before
    rw [hbuckets]
    exact ⟨_, List.mem_map_of_mem hbefore, hsameTerm.trans hstored, hsameId.trans hid⟩
  · rw [hbuckets, List.pairwise_map]
    refine (h.single bucket other (hold other hother) hlength).imp fun {first second} hapart => ?_
    rwa [(countedFor_term_termId term first).2, (countedFor_term_termId term second).2]
  · obtain ⟨cutTerm, hcut, hcutLong, hcutId⟩ := h.newest other (hold other hother) hlong found hfoundBy
    exact ⟨cutTerm, List.mem_append_left _ hcut, hcutLong, (hids found).trans hcutId⟩

/-- Inserting a term that finds no entry. -/
theorem Holds.insert_not_found (h : lex.Holds terms)
    (hinjective : ∀ other ∈ terms, lexiconTermHash32 other = lexiconTermHash32 term → other = term)
    (hfound : findTerm term (lex.buckets (lexiconHash term)) = none) :
    (lexiconInsert lex term).2.Holds (terms ++ [term]) := by
  have hbuckets : (lexiconInsert lex term).2.buckets = Function.update lex.buckets (lexiconHash term)
      (newLexiconEntry term :: lex.buckets (lexiconHash term)) := by
    rw [lexiconInsert_of_not_found hfound]
  have hbefore : ∀ bucket, ∀ entry ∈ lex.buckets bucket,
      entry ∈ (lexiconInsert lex term).2.buckets bucket := by
    intro bucket entry hentry
    rw [hbuckets]
    by_cases hbucket : bucket = lexiconHash term
    · subst hbucket
      rw [Function.update_self]
      exact List.mem_cons_of_mem _ hentry
    · rwa [Function.update_of_ne hbucket]
  have hfrequency : ∀ other ∈ terms,
      countedFrequency (terms ++ [term]) other = countedFrequency terms other := by
    intro other hother
    by_cases heq : other = term
    · have hlong := h.of_not_found hfound (heq ▸ hother)
      rw [countedFrequency, countedFrequency, if_pos (heq ▸ hlong), if_pos (heq ▸ hlong)]
    · exact countedFrequency_concat_of_ne heq
  have hnew : (newLexiconEntry term).documentFrequency = countedFrequency (terms ++ [term]) term := by
    rw [countedFrequency]
    split_ifs with hlong
    · rfl
    · rw [List.count_append, List.count_singleton_self, List.count_eq_zero_of_not_mem fun hmem =>
        hlong (h.of_not_found hfound hmem)]
      rfl
  refine ⟨fun bucket entry hentry => ?_, fun other hother => ?_, fun bucket other hother hlength => ?_,
    fun other hother hlong found hfoundBy => ?_⟩
  · have hentry : entry ∈ lex.buckets bucket ∨ entry = newLexiconEntry term ∧ bucket = lexiconHash term := by
      rw [hbuckets] at hentry
      by_cases hbucket : bucket = lexiconHash term
      · subst hbucket
        rw [Function.update_self] at hentry
        exact (List.mem_cons.mp hentry).symm.imp id fun heq => ⟨heq, rfl⟩
      · rw [Function.update_of_ne hbucket] at hentry
        exact .inl hentry
    obtain hentry | ⟨rfl, rfl⟩ := hentry
    · obtain ⟨source, hsource, hstored, hid, hat, hcount⟩ := h.made bucket entry hentry
      exact ⟨source, List.mem_append_left _ hsource, hstored, hid, hat,
        hcount.trans (hfrequency source hsource).symm⟩
    · exact ⟨term, List.mem_append_right _ (List.mem_singleton_self _), rfl, rfl, rfl, hnew⟩
  · obtain hother | hother := List.mem_append.mp hother
    · obtain ⟨entry, hentry, hstored, hid⟩ := h.present other hother
      exact ⟨entry, hbefore _ entry hentry, hstored, hid⟩
    · rw [List.mem_singleton.mp hother, hbuckets, Function.update_self]
      exact ⟨newLexiconEntry term, List.mem_cons_self, rfl, rfl⟩
  · have hnone : term.length ≤ lexiconMaxTermLen → ∀ entry ∈ lex.buckets bucket,
        entry.termId ≠ lexiconTermHash32 term := by
      intro hshort entry hentry hsame
      obtain ⟨source, hsource, -, hid, -⟩ := h.made bucket entry hentry
      obtain rfl := hinjective source hsource (hid.symm.trans hsame)
      exact absurd (h.of_not_found hfound hsource) (not_lt.mpr hshort)
    have hold : (lex.buckets bucket).Pairwise fun entry next =>
        entry.termId = lexiconTermHash32 other → next.termId ≠ lexiconTermHash32 other := by
      obtain hother | hother := List.mem_append.mp hother
      · exact h.single bucket other hother hlength
      · obtain rfl := List.mem_singleton.mp hother
        exact List.pairwise_of_forall_mem_list fun _ _ next hnext _ => hnone hlength next hnext
    rw [hbuckets]
    by_cases hbucket : bucket = lexiconHash term
    · subst hbucket
      rw [Function.update_self, List.pairwise_cons]
      refine ⟨fun entry hentry hid => ?_, hold⟩
      have hsame : other = term := by
        obtain hother | hother := List.mem_append.mp hother
        · exact hinjective other hother hid.symm
        · exact List.mem_singleton.mp hother
      rw [hsame] at hlength ⊢
      exact hnone hlength entry hentry
    · rwa [Function.update_of_ne hbucket]
  · by_cases hcut : lexiconMaxTermLen < term.length ∧ FoundBy term found
    · exact ⟨term, List.mem_append_right _ (List.mem_singleton_self _), hcut.1,
        termId_lexiconInsert_of_foundBy hfound hcut.2⟩
    · rw [not_and] at hcut
      rw [termId_lexiconInsert lex hcut]
      obtain hother | hother := List.mem_append.mp hother
      · obtain ⟨cutTerm, hmem, hcutLong, hid⟩ := h.newest other hother hlong found hfoundBy
        exact ⟨cutTerm, List.mem_append_left _ hmem, hcutLong, hid⟩
      · rw [List.mem_singleton.mp hother] at hlong hfoundBy
        exact absurd hfoundBy (hcut hlong)

/-- Inserting a term that is answered with its hash. -/
theorem Holds.insert (h : lex.Holds terms) (hhash : lex.termId term = lexiconTermHash32 term)
    (hinjective : ∀ other ∈ terms, lexiconTermHash32 other = lexiconTermHash32 term → other = term) :
    (lexiconInsert lex term).2.Holds (terms ++ [term]) := by
  cases hfound : findTerm term (lex.buckets (lexiconHash term)) with
  | none => exact h.insert_not_found hinjective hfound
  | some entry => exact h.insert_found hhash hinjective hfound

/-- What stands under the id of a term. -/
theorem Holds.lexiconGetDocFreq (h : lex.Holds terms)
    (hinjective : ∀ other ∈ terms, lexiconTermHash32 other = lexiconTermHash32 term → other = term)
    (hmem : term ∈ terms) :
    lexiconGetDocFreq lex (lexiconTermHash32 term) = countedFrequency terms term := by
  rw [FtsUring.lexiconGetDocFreq, if_neg (lexiconTermHash32_ne_zero term)]
  obtain ⟨entry, hentry, -, hid⟩ := h.present term hmem
  cases hfirst : (List.finRange lexiconBucketCount).findSome? fun bucket =>
      (lex.buckets bucket).find? fun entry => entry.termId = lexiconTermHash32 term with
  | none =>
    rw [List.findSome?_eq_none_iff] at hfirst
    have hnone := List.find?_eq_none.mp (hfirst _ (List.mem_finRange (lexiconHash term))) entry hentry
    simp [hid] at hnone
  | some found =>
    obtain ⟨bucket, -, hfound⟩ := List.exists_of_findSome?_eq_some hfirst
    have hsame : found.termId = lexiconTermHash32 term := by simpa using List.find?_some hfound
    obtain ⟨source, hsource, -, hsourceId, -, hfrequency⟩ :=
      h.made bucket found (List.mem_of_find?_eq_some hfound)
    obtain rfl := hinjective source hsource (hsourceId.symm.trans hsame)
    exact hfrequency

end Lexicon

/-! ## Insertions that are answered with hashes -/

/-- Every insertion is answered with the hash of the term, and different terms have different hashes. -/
structure AnsweredWithHashes (terms : List CString) : Prop where
  answers : (lexiconInserts lexiconInit terms).1 = terms.map lexiconTermHash32
  injective : ∀ term ∈ terms, ∀ other ∈ terms,
    lexiconTermHash32 term = lexiconTermHash32 other → term = other

namespace AnsweredWithHashes

variable {terms : List CString} {term : CString}

/-- One term more. -/
theorem concat_iff : AnsweredWithHashes (terms ++ [term]) ↔ AnsweredWithHashes terms ∧
    (lexiconInserts lexiconInit terms).2.termId term = lexiconTermHash32 term ∧
      ∀ other ∈ terms, lexiconTermHash32 other = lexiconTermHash32 term → other = term := by
  constructor
  · intro h
    have hanswers := h.answers
    rw [lexiconInserts_concat, List.map_append] at hanswers
    obtain ⟨hbefore, hlast⟩ := List.append_inj hanswers (by rw [length_lexiconInserts, List.length_map])
    have hsub : ∀ other ∈ terms, other ∈ terms ++ [term] := fun other => List.mem_append_left _
    exact ⟨⟨hbefore, fun first hfirst second hsecond => h.injective first (hsub _ hfirst) second
      (hsub _ hsecond)⟩, (List.cons.inj hlast).1, fun other hother => h.injective other (hsub _ hother) term
        (List.mem_append_right _ (List.mem_singleton_self _))⟩
  · rintro ⟨h, hlast, hnew⟩
    refine ⟨?_, fun first hfirst second hsecond hsame => ?_⟩
    · rw [lexiconInserts_concat, List.map_append, h.answers, hlast]
      rfl
    · rw [List.mem_append, List.mem_singleton] at hfirst hsecond
      obtain hfirst | rfl := hfirst <;> obtain hsecond | rfl := hsecond
      · exact h.injective first hfirst second hsecond hsame
      · exact hnew first hfirst hsame
      · exact (hnew second hsecond hsame.symm).symm
      · rfl

/-- What the lexicon holds. -/
theorem holds (h : AnsweredWithHashes terms) : (lexiconInserts lexiconInit terms).2.Holds terms := by
  induction terms using List.reverseRecOn with
  | nil => exact Lexicon.holds_init
  | append_singleton terms term ih =>
    obtain ⟨hbefore, hlast, hnew⟩ := concat_iff.mp h
    rw [lexiconInserts_concat]
    exact (ih hbefore).insert hlast hnew

/-- The calls. -/
theorem mem_calls (h : AnsweredWithHashes terms) {call : CString × UInt32} :
    call ∈ lexiconCalls terms ↔ call.1 ∈ terms ∧ call.2 = lexiconTermHash32 call.1 := by
  have hcalls : lexiconCalls terms = terms.map fun term => (term, lexiconTermHash32 term) := by
    have hzip := List.zip_map' (f := id) (g := lexiconTermHash32) (l := terms)
    rwa [List.map_id, ← h.answers] at hzip
  rw [hcalls, List.mem_map]
  constructor
  · rintro ⟨term, hterm, rfl⟩
    exact ⟨hterm, rfl⟩
  · rintro ⟨hterm, hhash⟩
    exact ⟨call.1, hterm, Prod.ext rfl hhash.symm⟩

end AnsweredWithHashes

/-- Terms with different ids are answered with their hashes. -/
theorem answeredWithHashes_of_ids {terms : List CString}
    (h : ∀ call ∈ lexiconCalls terms, ∀ other ∈ lexiconCalls terms, call.1 ≠ other.1 → call.2 ≠ other.2) :
    AnsweredWithHashes terms := by
  induction terms using List.reverseRecOn with
  | nil => exact ⟨rfl, nofun⟩
  | append_singleton terms term ih =>
    rw [lexiconCalls_concat] at h
    have hbefore := ih fun call hcall other hother =>
      h call (List.mem_append_left _ hcall) other (List.mem_append_left _ hother)
    have hlast : ∀ other ∈ terms, other ≠ term →
        lexiconTermHash32 other ≠ (lexiconInserts lexiconInit terms).2.termId term := by
      intro other hother hne
      exact h (other, lexiconTermHash32 other) (List.mem_append_left _
        (hbefore.mem_calls.mpr ⟨hother, rfl⟩)) _ (List.mem_append_right _ (List.mem_singleton_self _)) hne
    have hhash : (lexiconInserts lexiconInit terms).2.termId term = lexiconTermHash32 term := by
      cases hfound : findTerm term ((lexiconInserts lexiconInit terms).2.buckets (lexiconHash term)) with
      | none => rw [Lexicon.termId, hfound]; rfl
      | some entry =>
        obtain ⟨source, hsource, -, hid, -⟩ :=
          hbefore.holds.made _ entry (List.mem_of_find?_eq_some hfound)
        have htermId : (lexiconInserts lexiconInit terms).2.termId term = lexiconTermHash32 source := by
          rw [Lexicon.termId, hfound, ← hid]
          rfl
        by_cases hsame : source = term
        · rw [htermId, hsame]
        · exact absurd htermId.symm (hlast source hsource hsame)
    refine AnsweredWithHashes.concat_iff.mpr ⟨hbefore, hhash, fun other hother hsame => ?_⟩
    by_contra hne
    exact hlast other hother hne (hsame.trans hhash.symm)

/-- Terms that are separate are answered with their hashes. -/
theorem TermsSeparate.answeredWithHashes {terms : List CString} (h : TermsSeparate terms) :
    AnsweredWithHashes terms := by
  have hhashes := h.hashes
  have hcut := h.cut
  clear h
  induction terms using List.reverseRecOn with
  | nil => exact ⟨rfl, nofun⟩
  | append_singleton terms term ih =>
    have hmem : term ∈ terms ++ [term] := List.mem_append_right _ (List.mem_singleton_self _)
    rw [List.pairwise_append] at hcut
    have hbefore := ih (fun first hfirst second hsecond => hhashes first (List.mem_append_left _ hfirst)
      second (List.mem_append_left _ hsecond)) hcut.1
    refine AnsweredWithHashes.concat_iff.mpr ⟨hbefore, ?_, fun other hother =>
      hhashes other (List.mem_append_left _ hother) term hmem⟩
    cases hfound : findTerm term ((lexiconInserts lexiconInit terms).2.buckets (lexiconHash term)) with
    | none => rw [Lexicon.termId, hfound]; rfl
    | some entry =>
      have hterm : entry.term = term := by simpa using List.find?_some hfound
      obtain ⟨source, hsource, hstored, hid, hat, -⟩ :=
        hbefore.holds.made _ entry (List.mem_of_find?_eq_some hfound)
      have hfoundBy : FoundBy source term := ⟨hstored.symm.trans hterm, hat⟩
      have hshort : source.length ≤ lexiconMaxTermLen := not_lt.mp fun hlong =>
        (hcut.2.2 source hsource term (List.mem_singleton_self _) hlong).2 hfoundBy
      rw [Lexicon.termId, hfound, ← hfoundBy.eq hshort]
      exact hid

/-- A term that is cut is not followed by a term that finds its entry. -/
theorem AnsweredWithHashes.not_foundBy {terms : List CString} (h : AnsweredWithHashes terms) :
    terms.Pairwise fun term other => lexiconMaxTermLen < term.length → ¬FoundBy term other := by
  induction terms using List.reverseRecOn with
  | nil => exact .nil
  | append_singleton terms term ih =>
    obtain ⟨hbefore, hlast, hnew⟩ := concat_iff.mp h
    refine List.pairwise_append.mpr ⟨ih hbefore, List.pairwise_singleton _ _, ?_⟩
    intro cutTerm hcut other hother hlong hfoundBy
    obtain rfl := List.mem_singleton.mp hother
    obtain ⟨source, hsource, hsourceLong, hid⟩ :=
      hbefore.holds.newest cutTerm hcut hlong _ hfoundBy
    obtain rfl := hnew source hsource (hid.symm.trans hlast)
    rw [← hfoundBy.1, List.length_take] at hsourceLong
    omega

/-- Terms are told apart exactly when they are separate. -/
theorem termsToldApart_iff (terms : List CString) : TermsToldApart terms ↔ TermsSeparate terms := by
  constructor
  · intro h
    have hanswered := answeredWithHashes_of_ids h.ids
    have hcount : ∀ term ∈ terms, (countedFrequency terms term).toNat = terms.count term := by
      intro term hterm
      rw [← h.frequencies (term, lexiconTermHash32 term) (hanswered.mem_calls.mpr ⟨hterm, rfl⟩),
        hanswered.holds.lexiconGetDocFreq (fun other hother => hanswered.injective other hother term hterm)
          hterm]
    refine ⟨hanswered.injective, ?_, fun term => ?_⟩
    · rw [List.pairwise_iff_forall_sublist]
      intro term other hpair hlong
      refine ⟨?_, List.pairwise_iff_forall_sublist.mp hanswered.not_foundBy hpair hlong⟩
      rintro rfl
      have htwice : 2 ≤ terms.count other := List.replicate_sublist_iff.mp hpair
      have honce := hcount other (hpair.subset List.mem_cons_self)
      rw [countedFrequency, if_pos hlong] at honce
      exact absurd htwice (honce ▸ by decide)
    · by_cases hterm : term ∈ terms
      · rw [← hcount term hterm]
        exact UInt64.toNat_lt _
      · rw [List.count_eq_zero_of_not_mem hterm]
        exact Nat.two_pow_pos 64
  · intro h
    have hanswered := h.answeredWithHashes
    refine ⟨fun call hcall other hother hne hsame => ?_, fun call hcall => ?_⟩
    · obtain ⟨hterm, hid⟩ := hanswered.mem_calls.mp hcall
      obtain ⟨hotherTerm, hotherId⟩ := hanswered.mem_calls.mp hother
      exact hne (hanswered.injective _ hterm _ hotherTerm (hid.symm.trans (hsame.trans hotherId)))
    · obtain ⟨hterm, hid⟩ := hanswered.mem_calls.mp hcall
      rw [hid, hanswered.holds.lexiconGetDocFreq (fun other hother =>
        hanswered.injective other hother call.1 hterm) hterm, countedFrequency]
      split_ifs with hlong
      · refine (le_antisymm (not_lt.mp fun htwice => ?_) (List.count_pos_iff.mpr hterm)).symm
        have hpair := List.replicate_sublist_iff.mpr htwice
        exact (List.pairwise_iff_forall_sublist.mp h.cut hpair hlong).1 rfl
      · exact (UInt64.toNat_ofNat' ..).trans (Nat.mod_eq_of_lt (h.counts call.1))

/-- "costarring" and "liquid" have one hash. -/
theorem not_termsToldApart : ¬TermsToldApart
    [[0x63, 0x6f, 0x73, 0x74, 0x61, 0x72, 0x72, 0x69, 0x6e, 0x67], [0x6c, 0x69, 0x71, 0x75, 0x69, 0x64]] := by
  intro h
  have hanswered := answeredWithHashes_of_ids h.ids
  exact absurd (hanswered.injective _ List.mem_cons_self _
    (List.mem_cons_of_mem _ List.mem_cons_self) (by decide +kernel)) (by decide)

end FtsUring
