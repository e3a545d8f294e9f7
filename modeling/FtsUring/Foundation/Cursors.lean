import Mathlib.Data.List.TakeWhile
import Mathlib.Tactic

/-!
# Cursors in lists

A cursor is what a list has from it on. It moves forward to the first item with at least a given key, and finds
an item if that has the key. In a list that is ascending it finds what is there. A list of two ascending parts of
which the one behind is below the one in front is searched in vain for what is behind.
-/

namespace Foundation

variable {α κ : Type*} [LinearOrder κ] (key : α → κ)

/-- Move a cursor forward to the first item that is not below the key. -/
def seek (target : κ) (cursor : List α) : List α := cursor.dropWhile fun x => key x < target

/-- A list that is ascending in front, and below all of that behind. -/
structure NewestFirst (newest older : List α) : Prop where
  ascending : newest.Pairwise fun x y => key x < key y
  below : ∀ x ∈ older, ∀ y ∈ newest, key x < key y

variable {key} {a b target : κ} {x : α} {cursor newest older : List α}

/-- A cursor that does not have to move. -/
theorem seek_eq_self (h : ∀ y ∈ cursor.head?, ¬key y < target) : seek key target cursor = cursor := by
  cases cursor with
  | nil => rfl
  | cons y rest => exact List.dropWhile_cons_of_neg (by simpa using h y rfl)

/-- A cursor that moves past its first item. -/
theorem seek_cons_of_lt {y : α} (h : key y < target) (rest : List α) :
    seek key target (y :: rest) = seek key target rest :=
  List.dropWhile_cons_of_pos (by simpa using h)

/-- The first move of two makes no difference if the second one goes at least as far. -/
theorem seek_seek (h : a ≤ b) (cursor : List α) : seek key b (seek key a cursor) = seek key b cursor := by
  induction cursor with
  | nil => rfl
  | cons y rest ih =>
    by_cases hy : key y < a
    · rw [seek_cons_of_lt hy, seek_cons_of_lt (hy.trans_le h), ih]
    · have hself : seek key a (y :: rest) = y :: rest := seek_eq_self fun z hz => by
        rwa [← Option.some.inj hz]
      rw [hself]

/-- The item that a cursor stops at. -/
theorem le_of_mem_head?_seek (h : x ∈ (seek key target cursor).head?) : target ≤ key x := by
  induction cursor with
  | nil => exact absurd h (by simp [seek])
  | cons y rest ih =>
    by_cases hy : key y < target
    · rw [seek_cons_of_lt hy] at h
      exact ih h
    · rw [seek_eq_self fun z hz => by rwa [← Option.some.inj hz]] at h
      rw [← Option.some.inj h]
      exact not_lt.mp hy

/-- A cursor that has been moved never stops at less. -/
theorem le_of_mem_head?_seek_of_le (hcursor : ∀ y ∈ cursor.head?, a ≤ key y)
    (h : x ∈ (seek key target cursor).head?) : a ≤ key x := by
  cases cursor with
  | nil => exact absurd h (by simp [seek])
  | cons y rest =>
    have hy := hcursor y rfl
    by_cases hmoves : key y < target
    · exact (hy.trans hmoves.le).trans (le_of_mem_head?_seek h)
    · rw [seek_eq_self fun z hz => by rwa [← Option.some.inj hz]] at h
      rw [← Option.some.inj h]
      exact hy

/-- A cursor finds what is in front, and nothing of what is behind. -/
theorem NewestFirst.mem_head?_seek_iff (h : NewestFirst key newest older) (hne : newest ≠ [])
    (hx : key x = target) : x ∈ (seek key target (newest ++ older)).head? ↔ x ∈ newest := by
  induction newest with
  | nil => exact absurd rfl hne
  | cons y rest ih =>
    have hascending := List.pairwise_cons.mp h.ascending
    rw [List.cons_append]
    by_cases hy : key y < target
    · have hother : x ≠ y := fun hsame => absurd hx (hsame ▸ hy.ne)
      rw [seek_cons_of_lt hy, List.mem_cons, or_iff_right hother]
      by_cases hrest : rest = []
      · -- everything behind is below the last item in front
        have hnone : seek key target older = [] := by
          rw [seek, List.dropWhile_eq_nil_iff]
          intro z hz
          simpa using (h.below z hz y List.mem_cons_self).trans hy
        rw [hrest, List.nil_append, hnone]
        simp
      · exact ih ⟨hascending.2, fun z hz w hw => h.below z hz w (List.mem_cons_of_mem _ hw)⟩ hrest
    · rw [seek_eq_self fun z hz => by rwa [← Option.some.inj hz], List.head?_cons, Option.mem_some_iff,
        List.mem_cons]
      refine ⟨fun hsame => .inl hsame.symm, fun hmem => hmem.elim Eq.symm fun hrest => ?_⟩
      exact absurd (hx ▸ hascending.1 x hrest) hy

end Foundation
