import Mathlib.Data.List.Basic
import Mathlib.Tactic

/-!
# Ownership of allocated ids

Several structures take ids from one counter. `Partition owns next` says that every id below the
counter belongs to exactly one owner and that no other id belongs to anyone. Handing the next id
to an owner keeps this.
-/

namespace Foundation

variable {ω : Type*}

/-- The ids below `next` are partitioned among the owners. -/
structure Partition (owns : ω → ℕ → Prop) (next : ℕ) : Prop where
  bound : ∀ owner id, owns owner id → id < next
  cover : ∀ id < next, ∃ owner, owns owner id
  unique : ∀ id owner owner', owns owner id → owns owner' id → owner = owner'

namespace Partition

variable {owns owns' : ω → ℕ → Prop} {next : ℕ}

/-- An id that belongs to one owner does not belong to another. -/
theorem not_owns (h : Partition owns next) {owner owner' : ω} {id : ℕ} (hid : owns owner id)
    (hne : owner' ≠ owner) : ¬owns owner' id :=
  fun hid' => hne (h.unique id owner' owner hid' hid)

/-- The next id belongs to nobody. -/
theorem not_owns_next (h : Partition owns next) (owner : ω) : ¬owns owner next :=
  fun hid => absurd (h.bound owner next hid) (lt_irrefl next)

/-- The same ownership under another description. -/
theorem congr (h : Partition owns next) (howns : ∀ owner id, owns' owner id ↔ owns owner id) :
    Partition owns' next where
  bound owner id hid := h.bound owner id ((howns owner id).mp hid)
  cover id hid := by
    obtain ⟨owner, howner⟩ := h.cover id hid
    exact ⟨owner, (howns owner id).mpr howner⟩
  unique id owner owner' hid hid' :=
    h.unique id owner owner' ((howns owner id).mp hid) ((howns owner' id).mp hid')

/-- Handing the next id to an owner. -/
theorem allocate (h : Partition owns next) (owner : ω)
    (howns : ∀ other id, owns' other id ↔ owns other id ∨ (other = owner ∧ id = next)) :
    Partition owns' (next + 1) where
  bound other id hid := by
    obtain hold | ⟨-, rfl⟩ := (howns other id).mp hid
    · exact Nat.lt_succ_of_lt (h.bound other id hold)
    · exact Nat.lt_succ_self id
  cover id hid := by
    obtain hlt | rfl := Nat.lt_succ_iff_lt_or_eq.mp hid
    · obtain ⟨other, hother⟩ := h.cover id hlt
      exact ⟨other, (howns other id).mpr (Or.inl hother)⟩
    · exact ⟨owner, (howns owner id).mpr (Or.inr ⟨rfl, rfl⟩)⟩
  unique id other other' hid hid' := by
    obtain hold | ⟨rfl, rfl⟩ := (howns other id).mp hid
    · obtain hold' | ⟨rfl, rfl⟩ := (howns other' id).mp hid'
      · exact h.unique id other other' hold hold'
      · exact absurd hold (h.not_owns_next other)
    · obtain hold' | ⟨rfl, -⟩ := (howns other' id).mp hid'
      · exact absurd hold' (h.not_owns_next other')
      · rfl

end Partition

end Foundation
