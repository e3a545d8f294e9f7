import Mathlib.Data.List.Induction
import Mathlib.Data.List.TakeWhile

/-!
# Runs of a list

The runs of a list are its maximal parts, one next to the other, whose elements all have a property.
-/

namespace Foundation

variable {α β : Type*} {p : α → Bool}

/-- The runs of a list. -/
def runs (p : α → Bool) (l : List α) : List (List α) :=
  (l.splitOnP fun a => !p a).filter fun run => !run.isEmpty

/-- A part of a list that cannot be made longer without losing the property. -/
structure IsRun (p : α → Bool) (run l : List α) : Prop where
  nonempty : run ≠ []
  all : ∀ a ∈ run, p a = true
  maximal : ∃ before after, l = before ++ run ++ after ∧ (∀ a ∈ before.getLast?, p a = false) ∧
    ∀ a ∈ after.head?, p a = false

/-- An empty list. -/
@[simp] theorem runs_nil : runs p [] = [] := rfl

/-- A list whose elements all have the property. -/
theorem runs_of_forall {run : List α} (hrun : run ≠ []) (h : ∀ a ∈ run, p a = true) :
    runs p run = [run] := by
  rw [runs, List.splitOnP_eq_singleton fun a ha => by rw [h a ha]; rfl]
  cases run with
  | nil => exact absurd rfl hrun
  | cons a rest => rfl

/-- An element without the property separates runs. -/
theorem runs_append_cons {l : List α} {a : α} (ha : p a = false) (l' : List α) :
    runs p (l ++ a :: l') = runs p l ++ runs p l' := by
  rw [runs, List.splitOnP_append_cons l l' (by rw [ha]; rfl), List.filter_append]
  rfl

/-- An element without the property starts no run. -/
theorem runs_cons_of_neg {a : α} (ha : p a = false) (l : List α) : runs p (a :: l) = runs p l :=
  runs_append_cons (l := []) ha l

/-- An element with the property starts a run. -/
theorem runs_cons_of_pos {a : α} (ha : p a = true) (l : List α) :
    runs p (a :: l) = (a :: l.takeWhile p) :: runs p (l.dropWhile p) := by
  have hall : ∀ b ∈ a :: l.takeWhile p, p b = true := by
    intro b hb
    obtain rfl | hrest := List.mem_cons.mp hb
    · exact ha
    · exact List.mem_takeWhile_imp hrest
  have hsplit : a :: l = (a :: l.takeWhile p) ++ l.dropWhile p := by
    rw [List.cons_append, List.takeWhile_append_dropWhile]
  conv_lhs => rw [hsplit]
  cases hdrop : l.dropWhile p with
  | nil => rw [List.append_nil, runs_of_forall (List.cons_ne_nil _ _) hall, runs_nil]
  | cons b rest =>
    have hb : p b = false := by
      have hhead := List.head?_dropWhile_not p l
      rwa [hdrop] at hhead
    rw [runs_append_cons hb, runs_of_forall (List.cons_ne_nil _ _) hall, runs_cons_of_neg hb]
    rfl

/-- Lists are made of runs. -/
theorem runs_induction {motive : List α → Prop} (hall : ∀ l, (∀ a ∈ l, p a = true) → motive l)
    (hsplit : ∀ l a l', p a = false → motive l → motive l' → motive (l ++ a :: l')) (l : List α) :
    motive l := by
  induction hlength : l.length using Nat.strongRecOn generalizing l with
  | ind n ih =>
    by_cases h : ∀ a ∈ l, p a = true
    · exact hall l h
    · rw [not_forall₂] at h
      obtain ⟨a, ha, hnot⟩ := h
      obtain ⟨before, after, rfl⟩ := List.append_of_mem ha
      rw [List.length_append, List.length_cons] at hlength
      exact hsplit before a after (Bool.not_eq_true _ ▸ hnot) (ih _ (by omega) before rfl)
        (ih _ (by omega) after rfl)

/-- The runs are the maximal parts. -/
theorem mem_runs_iff {l run : List α} : run ∈ runs p l ↔ IsRun p run l := by
  constructor
  · intro h
    induction l using runs_induction (p := p) with
    | hall l hall =>
      by_cases hempty : l = []
      · rw [hempty] at h
        exact absurd h List.not_mem_nil
      · rw [runs_of_forall hempty hall, List.mem_singleton] at h
        subst h
        exact ⟨hempty, hall, [], [], by simp, nofun, nofun⟩
    | hsplit l a l' ha ih ih' =>
      rw [runs_append_cons ha, List.mem_append] at h
      obtain h | h := h
      · obtain ⟨hne, hall, before, after, rfl, hbefore, hafter⟩ := ih h
        refine ⟨hne, hall, before, after ++ a :: l', by simp, hbefore, ?_⟩
        cases after with
        | nil => simpa using ha
        | cons b rest => exact hafter
      · obtain ⟨hne, hall, before, after, rfl, hbefore, hafter⟩ := ih' h
        refine ⟨hne, hall, l ++ a :: before, after, by simp, ?_, hafter⟩
        cases before using List.reverseRecOn with
        | nil => simpa using ha
        | append_singleton rest b =>
          rw [← List.cons_append, ← List.append_assoc, List.getLast?_concat]
          rwa [List.getLast?_concat] at hbefore
  · rintro ⟨hne, hall, before, after, rfl, hbefore, hafter⟩
    have hlast : runs p (run ++ after) = run :: runs p after.tail := by
      cases after with
      | nil => rw [List.append_nil, runs_of_forall hne hall]; rfl
      | cons a rest =>
        rw [runs_append_cons (hafter a rfl), runs_of_forall hne hall]
        rfl
    cases before using List.reverseRecOn with
    | nil => rw [List.nil_append, hlast]; exact List.mem_cons_self
    | append_singleton rest b =>
      rw [List.append_assoc, List.append_assoc, List.singleton_append,
        runs_append_cons (hbefore b (by simp)), hlast]
      exact List.mem_append_right _ List.mem_cons_self

/-- The runs of a list of values. -/
theorem runs_map (q : β → Bool) (f : α → β) (l : List α) :
    runs q (l.map f) = (runs (fun a => q (f a)) l).map (List.map f) := by
  induction l using runs_induction (p := fun a => q (f a)) with
  | hall l hall =>
    by_cases hempty : l = []
    · subst hempty
      rfl
    · rw [runs_of_forall hempty hall, runs_of_forall (by simpa using hempty) (by simpa using hall)]
      rfl
  | hsplit l a l' ha ih ih' =>
    have hsame := runs_append_cons (p := fun a => q (f a)) (l := l) ha l'
    rw [List.map_append, List.map_cons, runs_append_cons ha, ih, ih', hsame, List.map_append]

end Foundation
