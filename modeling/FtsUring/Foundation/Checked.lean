import Mathlib.Tactic

/-!
# Checked arithmetic

The numbers of a field, and one more that stands for a division by zero; every operation on it gives it again.
So a computation that ends with a number has divided by nothing but units.
-/

namespace Foundation

/-- A number, or a division by zero. -/
structure Checked (K : Type) where
  value : Option K

namespace Checked

variable {K : Type}

/-- A number. -/
def of (a : K) : Checked K := ⟨some a⟩

/-- Apply an operation to two numbers. -/
def map₂ (op : K → K → K) (x y : Checked K) : Checked K := ⟨Option.map₂ op x.value y.value⟩

instance instZero [Zero K] : Zero (Checked K) := ⟨of 0⟩
instance instOne [One K] : One (Checked K) := ⟨of 1⟩
instance instAdd [Add K] : Add (Checked K) := ⟨map₂ (· + ·)⟩
instance instSub [Sub K] : Sub (Checked K) := ⟨map₂ (· - ·)⟩
instance instMul [Mul K] : Mul (Checked K) := ⟨map₂ (· * ·)⟩

/-- Division checks the divisor. -/
instance instDiv [Zero K] [Div K] [DecidableEq K] : Div (Checked K) :=
  ⟨fun x y => if y.value = some 0 then ⟨none⟩ else map₂ (· / ·) x y⟩

/-- Only numbers compare. -/
instance instLT [LT K] : LT (Checked K) := ⟨fun x y => ∃ a ∈ x.value, ∃ b ∈ y.value, a < b⟩

/-- Only numbers are equal. -/
instance instBEq [BEq K] : BEq (Checked K) := ⟨fun x y => (Option.map₂ BEq.beq x.value y.value).getD false⟩

/-- The comparison is decided on the values. -/
instance decidableLT [LT K] [DecidableLT K] : DecidableLT (Checked K) := fun x y =>
  inferInstanceAs (Decidable (∃ a ∈ x.value, ∃ b ∈ y.value, a < b))

/-! ## The operations on numbers -/

/-- The number zero. -/
@[simp] theorem of_zero [Zero K] : of (0 : K) = 0 := rfl

/-- The number one. -/
@[simp] theorem of_one [One K] : of (1 : K) = 1 := rfl

/-- Adding numbers. -/
@[simp] theorem of_add_of [Add K] (a b : K) : of a + of b = of (a + b) := rfl

/-- Subtracting numbers. -/
@[simp] theorem of_sub_of [Sub K] (a b : K) : of a - of b = of (a - b) := rfl

/-- Multiplying numbers. -/
@[simp] theorem of_mul_of [Mul K] (a b : K) : of a * of b = of (a * b) := rfl

/-- Dividing by a number other than zero. -/
theorem of_div_of [Zero K] [Div K] [DecidableEq K] (a : K) {b : K} (hb : b ≠ 0) :
    of a / of b = of (a / b) :=
  if_neg fun h => hb (Option.some.inj h)

/-- Comparing numbers. -/
@[simp] theorem of_lt_of [LT K] {a b : K} : of a < of b ↔ a < b := by
  constructor
  · rintro ⟨x, hx, y, hy, hlt⟩
    cases hx
    cases hy
    exact hlt
  · exact fun h => ⟨a, rfl, b, rfl, h⟩

/-- Equality of numbers. -/
@[simp] theorem of_beq_of [BEq K] (a b : K) : (of a == of b) = (a == b) := rfl

end Checked

end Foundation
