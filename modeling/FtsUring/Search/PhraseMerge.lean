import FtsUring.Foundation.Cursors
import FtsUring.Search.Indexed

/-!
# The merge of a phrase search

The merge goes through the postings of the first term, and moves one cursor forward in the posting list of every
other term. A list comes with its newest page in front. On this page the postings are ascending, and everything
behind it is below. So the merge finds the documents that are on the newest pages of all terms, and no others.
-/

namespace FtsUring

open Foundation

/-- Postings are ordered by their document ids. -/
def InvertedPosting.order (posting : InvertedPosting) : ℕ := posting.docId.toNat

/-- Move a cursor forward to a document. -/
abbrev seekDocument (docId : UInt32) (cursor : List InvertedPosting) : List InvertedPosting :=
  seek InvertedPosting.order docId.toNat cursor

/-- A cursor that is moved forward stops at the document. -/
def Finds (docId : UInt32) (cursor : List InvertedPosting) : Prop :=
  (seekDocument docId cursor).head?.map InvertedPosting.docId = some docId

instance (docId : UInt32) (cursor : List InvertedPosting) : Decidable (Finds docId cursor) :=
  inferInstanceAs (Decidable (_ = _))

/-- The cursors that are moved forward stop at the document of a posting, and the positions follow each other. -/
def PhraseAt (lists : List (List InvertedPosting)) (post0 : InvertedPosting) : Prop :=
  (∀ list ∈ lists, Finds post0.docId list) ∧ positionsMatch post0 (lists.map (seekDocument post0.docId)) = true

instance (lists : List (List InvertedPosting)) (post0 : InvertedPosting) : Decidable (PhraseAt lists post0) :=
  inferInstanceAs (Decidable (_ ∧ _))

section Alignment

variable {docId : UInt32} {cursors lists : List (List InvertedPosting)}

/-- The first cursor is moved, and the others if it finds the document. -/
theorem alignCursors_cons (docId : UInt32) (cursor : List InvertedPosting) (cursors : List (List InvertedPosting)) :
    alignCursors docId (cursor :: cursors) =
      if Finds docId cursor then
        ((alignCursors docId cursors).1, seekDocument docId cursor :: (alignCursors docId cursors).2)
      else (false, seekDocument docId cursor :: cursors) := by
  have hseek : cursor.dropWhile (fun posting => decide (posting.docId < docId)) = seekDocument docId cursor :=
    congrArg (cursor.dropWhile ·) (funext fun posting => decide_eq_decide.mpr UInt32.lt_iff_toNat_lt)
  rw [alignCursors, hseek]
  cases hhead : (seekDocument docId cursor).head? with
  | none =>
    have hfails : ¬Finds docId cursor := by simp [Finds, hhead]
    rw [if_neg hfails]
  | some posting =>
    have hfinds : Finds docId cursor ↔ posting.docId = docId := by simp [Finds, hhead]
    by_cases hsame : posting.docId = docId
    · rw [if_pos (hfinds.mpr hsame)]
      exact if_neg fun hother => hother hsame
    · rw [if_neg fun h => hsame (hfinds.mp h)]
      exact if_pos hsame

/-- All cursors find the document, or not. -/
theorem alignCursors_fst (docId : UInt32) (cursors : List (List InvertedPosting)) :
    (alignCursors docId cursors).1 = true ↔ ∀ cursor ∈ cursors, Finds docId cursor := by
  induction cursors with
  | nil => simp [alignCursors]
  | cons cursor rest ih =>
    rw [alignCursors_cons, List.forall_mem_cons]
    split
    · next hfinds => rw [ih, and_iff_right hfinds]
    · next hfails => exact iff_of_false Bool.false_ne_true fun h => hfails h.1

/-- If all cursors find the document, all have been moved. -/
theorem alignCursors_snd (h : (alignCursors docId cursors).1 = true) :
    (alignCursors docId cursors).2 = cursors.map (seekDocument docId) := by
  induction cursors with
  | nil => rfl
  | cons cursor rest ih =>
    rw [alignCursors_cons] at h ⊢
    split at h
    · next hfinds => rw [if_pos hfinds, List.map_cons, ih h]
    · exact absurd h Bool.false_ne_true

/-- Cursors that read like lists from a document on do so after they were moved to a document before it. -/
theorem forall₂_alignCursors {target : ℕ} (hle : docId.toNat ≤ target)
    (h : List.Forall₂ (fun cursor list => seek InvertedPosting.order target cursor =
      seek InvertedPosting.order target list) cursors lists) :
    List.Forall₂ (fun cursor list => seek InvertedPosting.order target cursor =
      seek InvertedPosting.order target list) (alignCursors docId cursors).2 lists := by
  induction h with
  | nil => exact .nil
  | @cons cursor list cursors lists hsame hrest ih =>
    rw [alignCursors_cons]
    split
    · exact .cons ((seek_seek hle cursor).trans hsame) ih
    · exact .cons ((seek_seek hle cursor).trans hsame) hrest

end Alignment

/-! ## The newest page of the first term -/

/-- On an ascending list the cursors read like the lists they are in. -/
theorem phraseMatches_ascending {front : List InvertedPosting}
    (hascending : front.Pairwise fun x y => x.order < y.order) {cursors lists : List (List InvertedPosting)}
    (hreads : ∀ post0 ∈ front, List.Forall₂ (fun cursor list => seek InvertedPosting.order post0.order cursor =
      seek InvertedPosting.order post0.order list) cursors lists) :
    phraseMatches front cursors = front.filter fun post0 => PhraseAt lists post0 := by
  induction front generalizing cursors with
  | nil => rfl
  | cons post0 rest ih =>
    have hbelow := List.pairwise_cons.mp hascending
    have hsame := hreads post0 List.mem_cons_self
    have hrest := ih hbelow.2 fun other hother => forall₂_alignCursors (hbelow.1 other hother).le
      (hreads other (List.mem_cons_of_mem _ hother))
    have hmoved : cursors.map (seekDocument post0.docId) = lists.map (seekDocument post0.docId) :=
      List.forall₂_eq_eq_eq ▸ (List.forall₂_map_left_iff.mpr (List.forall₂_map_right_iff.mpr hsame))
    have hfinds : (alignCursors post0.docId cursors).1 = true ↔ ∀ list ∈ lists, Finds post0.docId list := by
      rw [alignCursors_fst]
      have hall : ∀ others : List (List InvertedPosting), (∀ cursor ∈ others, Finds post0.docId cursor) ↔
          ∀ moved ∈ others.map (seekDocument post0.docId),
            moved.head?.map InvertedPosting.docId = some post0.docId := by
        intro others
        rw [List.forall_mem_map]
        rfl
      rw [hall, hall, hmoved]
    rw [phraseMatches]
    dsimp only
    rw [hrest]
    by_cases hdoc : (alignCursors post0.docId cursors).1 = true
    · rw [alignCursors_snd hdoc, hmoved]
      have hphrase : PhraseAt lists post0 ↔
          (alignCursors post0.docId cursors).1 = true ∧
            positionsMatch post0 (lists.map (seekDocument post0.docId)) = true := and_congr_left' hfinds.symm
      by_cases hboth : PhraseAt lists post0
      · rw [if_pos (hphrase.mp hboth), List.filter_cons, if_pos (decide_eq_true hboth)]
      · rw [if_neg fun h => hboth (hphrase.mpr h), List.filter_cons, if_neg (by simpa using hboth)]
    · have hnot : ¬PhraseAt lists post0 := fun h => hdoc (hfinds.mpr h.1)
      rw [if_neg fun h => hdoc h.1, List.filter_cons, if_neg (by simpa using hnot)]

/-! ## The other pages of the first term -/

/-- The cursors after some postings of the first term. -/
def advanceCursors (front : List InvertedPosting) (cursors : List (List InvertedPosting)) :
    List (List InvertedPosting) :=
  front.foldl (fun cursors post0 => (alignCursors post0.docId cursors).2) cursors

/-- The merge goes on where it is. -/
theorem phraseMatches_append (front back : List InvertedPosting) (cursors : List (List InvertedPosting)) :
    phraseMatches (front ++ back) cursors =
      phraseMatches front cursors ++ phraseMatches back (advanceCursors front cursors) := by
  induction front generalizing cursors with
  | nil => rfl
  | cons post0 rest ih =>
    rw [List.cons_append, phraseMatches, phraseMatches, advanceCursors, List.foldl_cons, ← advanceCursors]
    dsimp only
    rw [ih]
    split
    · rfl
    · rfl

/-- There is a cursor, and it does not stop at a document below the bound. -/
def Beyond (bound : ℕ) (cursors : List (List InvertedPosting)) : Prop :=
  ∃ cursor rest, cursors = cursor :: rest ∧ ∀ posting ∈ cursor.head?, bound ≤ posting.order

section Beyond

variable {bound : ℕ} {cursors : List (List InvertedPosting)}

/-- The first cursor is moved to the document or behind it. -/
theorem beyond_alignCursors (docId : UInt32) (h : cursors ≠ []) :
    Beyond docId.toNat (alignCursors docId cursors).2 := by
  cases cursors with
  | nil => exact absurd rfl h
  | cons cursor rest =>
    rw [alignCursors_cons]
    split
    · exact ⟨_, _, rfl, fun posting hmem => le_of_mem_head?_seek hmem⟩
    · exact ⟨_, _, rfl, fun posting hmem => le_of_mem_head?_seek hmem⟩

/-- No cursor goes back. -/
theorem Beyond.alignCursors (h : Beyond bound cursors) (docId : UInt32) :
    Beyond bound (alignCursors docId cursors).2 := by
  obtain ⟨cursor, rest, rfl, hbound⟩ := h
  rw [alignCursors_cons]
  split
  · exact ⟨_, _, rfl, fun posting hmem => le_of_mem_head?_seek_of_le hbound hmem⟩
  · exact ⟨_, _, rfl, fun posting hmem => le_of_mem_head?_seek_of_le hbound hmem⟩

/-- No cursor goes back, over any postings. -/
theorem Beyond.advanceCursors (h : Beyond bound cursors) (front : List InvertedPosting) :
    Beyond bound (advanceCursors front cursors) := by
  induction front generalizing cursors with
  | nil => exact h
  | cons post0 rest ih => exact ih (h.alignCursors post0.docId)

/-- The merge finds nothing below the bound. -/
theorem Beyond.phraseMatches (h : Beyond bound cursors) {back : List InvertedPosting}
    (hback : ∀ post0 ∈ back, post0.order < bound) : phraseMatches back cursors = [] := by
  induction back generalizing cursors with
  | nil => rfl
  | cons post0 rest ih =>
    have hrest := ih (h.alignCursors post0.docId) fun other hother => hback other (List.mem_cons_of_mem _ hother)
    have hbelow := hback post0 List.mem_cons_self
    have hfails : (FtsUring.alignCursors post0.docId cursors).1 ≠ true := by
      obtain ⟨cursor, others, rfl, hbound⟩ := h
      rw [ne_eq, alignCursors_fst]
      intro hall
      obtain ⟨posting, hhead, hsame⟩ := Option.map_eq_some_iff.mp (hall cursor List.mem_cons_self)
      have hle := le_of_mem_head?_seek_of_le hbound hhead
      rw [InvertedPosting.order, hsame] at hle
      exact absurd hbelow (not_lt.mpr hle)
    rw [FtsUring.phraseMatches]
    dsimp only
    rw [if_neg fun hboth => hfails hboth.1, hrest]

end Beyond

/-- The merge finds what it would find by looking at every list from its start, among the postings on the newest
page of the first term. -/
theorem phraseMatches_newestFirst {newest older : List InvertedPosting}
    (h : NewestFirst InvertedPosting.order newest older) (hne : newest ≠ []) {lists : List (List InvertedPosting)}
    (hlists : lists ≠ []) :
    phraseMatches (newest ++ older) lists = newest.filter fun post0 => PhraseAt lists post0 := by
  have hreads : ∀ post0 ∈ newest, List.Forall₂ (fun cursor list => seek InvertedPosting.order post0.order cursor =
      seek InvertedPosting.order post0.order list) lists lists :=
    fun post0 _ => List.forall₂_same.mpr fun list _ => rfl
  rw [phraseMatches_append, phraseMatches_ascending h.ascending hreads]
  cases newest with
  | nil => exact absurd rfl hne
  | cons first rest =>
    have hbeyond := (beyond_alignCursors first.docId hlists).advanceCursors rest
    have hnone := hbeyond.phraseMatches fun post0 hpost0 => h.below post0 hpost0 first List.mem_cons_self
    rw [advanceCursors, List.foldl_cons, ← advanceCursors, hnone, List.append_nil]

/-- A cursor in a list with the newest page in front finds the documents of this page. -/
theorem finds_iff {newest older : List InvertedPosting} (h : NewestFirst InvertedPosting.order newest older)
    (hne : newest ≠ []) (docId : UInt32) :
    Finds docId (newest ++ older) ↔ ∃ posting ∈ newest, posting.docId = docId := by
  rw [Finds, Option.map_eq_some_iff]
  have horder : ∀ posting : InvertedPosting, posting.docId = docId → posting.order = docId.toNat :=
    fun posting hsame => congrArg UInt32.toNat hsame
  constructor
  · intro hfound
    obtain ⟨posting, hhead, hsame⟩ := hfound
    exact ⟨posting, (h.mem_head?_seek_iff hne (horder posting hsame)).mp hhead, hsame⟩
  · intro hfound
    obtain ⟨posting, hmem, hsame⟩ := hfound
    exact ⟨posting, (h.mem_head?_seek_iff hne (horder posting hsame)).mpr hmem, hsame⟩

end FtsUring
