import FtsUring.Foundation.ByteFields
import Mathlib.Tactic

/-!
# Cyclic redundancy checks

The reflected register of `w` bits: each step shifts it right and adds the polynomial if a one went out. The
step is linear, and injective if the polynomial has its top bit. So equal registers come from equal data
when at most `w` bits may differ.
-/

namespace Foundation

variable {w : ℕ} (poly : BitVec w)

/-- One bit step. -/
def crcBit (r : BitVec w) : BitVec w := (if r.getLsbD 0 then poly else 0#w) ^^^ (r >>> 1)

/-- A number of bit steps. -/
def crcBits (count : ℕ) (r : BitVec w) : BitVec w := (crcBit poly)^[count] r

/-- The step for a byte: it is added to the low bits of the register. -/
def crcByte (r : BitVec w) (byte : UInt8) : BitVec w := crcBits poly 8 (r ^^^ byte.toBitVec.setWidth w)

/-- The register after a string of bytes. -/
def crcBytes (r : BitVec w) (data : List UInt8) : BitVec w := data.foldl (crcByte poly) r

/-! ## Linearity -/

/-- A bit step is linear. -/
theorem crcBit_xor (a b : BitVec w) : crcBit poly (a ^^^ b) = crcBit poly a ^^^ crcBit poly b := by
  simp only [crcBit, BitVec.getLsbD_xor, BitVec.ushiftRight_xor_distrib]
  cases a.getLsbD 0 <;> cases b.getLsbD 0
  · simp
  · simp
    ac_rfl
  · simp
    ac_rfl
  · have hcancel : poly ^^^ a >>> 1 ^^^ (poly ^^^ b >>> 1) = (poly ^^^ poly) ^^^ (a >>> 1 ^^^ b >>> 1) := by
      ac_rfl
    simp [hcancel]

/-- So are several. -/
theorem crcBits_xor (count : ℕ) (a b : BitVec w) :
    crcBits poly count (a ^^^ b) = crcBits poly count a ^^^ crcBits poly count b := by
  induction count generalizing a b with
  | zero => rfl
  | succ count ih =>
    simp only [crcBits, Function.iterate_succ_apply] at ih ⊢
    rw [crcBit_xor, ih]

/-- Steps in sequence. -/
theorem crcBits_add (count more : ℕ) (r : BitVec w) :
    crcBits poly (count + more) r = crcBits poly more (crcBits poly count r) := by
  rw [crcBits, crcBits, crcBits, Nat.add_comm, Function.iterate_add_apply]

/-- The register after two strings of bytes. -/
theorem crcBytes_append (r : BitVec w) (data more : List UInt8) :
    crcBytes poly r (data ++ more) = crcBytes poly (crcBytes poly r data) more :=
  List.foldl_append

/-! ## Injectivity -/

variable {poly}

/-- A bit step loses nothing if the polynomial has its top bit: the top bit tells what went out. -/
theorem crcBit_injective (hpoly : poly.msb = true) : Function.Injective (crcBit poly) := by
  intro a b h
  have hshift : ∀ r : BitVec w, (r >>> 1).msb = false := by
    intro r
    simp [BitVec.msb_ushiftRight]
  have hmsb := congrArg BitVec.msb h
  simp only [crcBit, BitVec.msb_xor, hshift, Bool.xor_false] at hmsb
  have hlow : a.getLsbD 0 = b.getLsbD 0 := by
    cases ha : a.getLsbD 0 <;> cases hb : b.getLsbD 0 <;> simp_all
  simp only [crcBit, hlow, BitVec.xor_right_inj] at h
  apply BitVec.eq_of_getLsbD_eq
  intro i hi
  cases i with
  | zero => exact hlow
  | succ i =>
    have hbit := congrArg (fun r => r.getLsbD i) h
    simp only [BitVec.getLsbD_ushiftRight] at hbit
    rwa [Nat.add_comm] at hbit

/-- Several steps lose nothing. -/
theorem crcBits_injective (hpoly : poly.msb = true) (count : ℕ) : Function.Injective (crcBits poly count) :=
  (crcBit_injective hpoly).iterate count

/-- The register before a string of bytes is determined by the one after it. -/
theorem crcBytes_injective (hpoly : poly.msb = true) (data : List UInt8) :
    Function.Injective fun r => crcBytes poly r data := by
  induction data with
  | nil => exact fun _ _ h => h
  | cons byte data ih =>
    intro a b h
    have hbyte : crcByte poly a byte = crcByte poly b byte := ih h
    have hsum := crcBits_injective hpoly 8 hbyte
    rwa [BitVec.xor_left_inj] at hsum

/-! ## Bytes as numbers -/

/-- A register with room at the top, shifted left, is shifted back. -/
theorem crcBits_shiftLeft {count value : ℕ} (h : value * 2 ^ count < 2 ^ w) :
    crcBits poly count (BitVec.ofNat w (value * 2 ^ count)) = BitVec.ofNat w value := by
  induction count with
  | zero => simp [crcBits]
  | succ count ih =>
    have hdouble : value * 2 ^ (count + 1) = 2 * (value * 2 ^ count) := by ring
    rw [hdouble] at h ⊢
    have hstep : crcBit poly (BitVec.ofNat w (2 * (value * 2 ^ count))) = BitVec.ofNat w (value * 2 ^ count) := by
      have hlow : (BitVec.ofNat w (2 * (value * 2 ^ count))).getLsbD 0 = false := by
        simp [BitVec.getLsbD_ofNat]
      rw [crcBit, hlow, if_neg Bool.false_ne_true, BitVec.zero_xor]
      apply BitVec.eq_of_toNat_eq
      rw [BitVec.toNat_ushiftRight, BitVec.toNat_ofNat, BitVec.toNat_ofNat, Nat.mod_eq_of_lt h,
        Nat.mod_eq_of_lt (by omega), Nat.shiftRight_one]
      omega
    rw [crcBits, Function.iterate_succ_apply, hstep]
    exact ih (by omega)

/-- Bytes that fit the register act as the number that they stand for. -/
theorem crcBytes_eq (r : BitVec w) {data : List UInt8} (hfit : 8 * data.length ≤ w) :
    crcBytes poly r data = crcBits poly (8 * data.length) (r ^^^ BitVec.ofNat w (leValue data)) := by
  induction data generalizing r with
  | nil => simp [crcBytes, crcBits, leValue]
  | cons byte data ih =>
    rw [List.length_cons] at hfit ⊢
    have hpow : (2 : ℕ) ^ (8 * (data.length + 1)) ≤ 2 ^ w := Nat.pow_le_pow_right (by decide) hfit
    have hrest := leValue_lt data
    rw [show (256 : ℕ) = 2 ^ 8 by rfl, ← pow_mul] at hrest
    have hroom : leValue data * 2 ^ 8 < 2 ^ w := by
      rw [Nat.mul_succ, pow_add] at hpow
      omega
    have hvalue : BitVec.ofNat w (leValue (byte :: data)) =
        byte.toBitVec.setWidth w ^^^ BitVec.ofNat w (leValue data * 2 ^ 8) := by
      apply BitVec.eq_of_getLsbD_eq
      intro i hi
      have hbyte := byte.toNat_lt
      rw [leValue, show (256 : ℕ) = 2 ^ 8 by rfl, Nat.add_comm, Nat.mul_comm (leValue data)]
      simp only [BitVec.getLsbD_xor, BitVec.getLsbD_setWidth, BitVec.getLsbD_ofNat, hi, decide_true,
        Bool.true_and, Nat.testBit_two_pow_mul_add _ hbyte, Nat.testBit_two_pow_mul]
      by_cases hlow : i < 8
      · simp [hlow, not_le.mpr hlow, BitVec.getLsbD]
      · simp [hlow, not_lt.mp hlow]
    rw [show crcBytes poly r (byte :: data) = crcBytes poly (crcByte poly r byte) data from rfl,
      ih _ (by omega), crcByte, Nat.mul_succ, Nat.add_comm, crcBits_add, hvalue, ← BitVec.xor_assoc,
      crcBits_xor poly 8 (r ^^^ _) (BitVec.ofNat w (leValue data * 2 ^ 8)), crcBits_shiftLeft hroom]

/-- Different bytes that fit the register lead to different registers. -/
theorem crcBytes_ne (hpoly : poly.msb = true) (r : BitVec w) {data other : List UInt8}
    (hlength : data.length = other.length) (hfit : 8 * data.length ≤ w) (hne : data ≠ other) :
    crcBytes poly r data ≠ crcBytes poly r other := by
  intro h
  rw [crcBytes_eq r hfit, crcBytes_eq r (hlength ▸ hfit), hlength] at h
  have hword := crcBits_injective hpoly _ h
  rw [BitVec.xor_right_inj] at hword
  have hpow : (256 : ℕ) ^ data.length ≤ 2 ^ w := by
    rw [show (256 : ℕ) = 2 ^ 8 by rfl, ← pow_mul]
    exact Nat.pow_le_pow_right (by decide) hfit
  have hdata := leValue_lt data
  have hother := leValue_lt other
  rw [← hlength] at hother
  have hvalue := congrArg BitVec.toNat hword
  rw [BitVec.toNat_ofNat, BitVec.toNat_ofNat, Nat.mod_eq_of_lt (hdata.trans_le hpow),
    Nat.mod_eq_of_lt (hother.trans_le hpow)] at hvalue
  refine hne ?_
  rw [← leBytes_leValue data, ← leBytes_leValue other, hvalue, hlength]

/-- Every burst of errors that fits the register is detected. -/
theorem crcBytes_burst_ne (hpoly : poly.msb = true) (r : BitVec w) (front back : List UInt8)
    {burst other : List UInt8} (hlength : burst.length = other.length) (hfit : 8 * burst.length ≤ w)
    (hne : burst ≠ other) :
    crcBytes poly r (front ++ burst ++ back) ≠ crcBytes poly r (front ++ other ++ back) := by
  rw [crcBytes_append, crcBytes_append, crcBytes_append, crcBytes_append]
  exact fun h => crcBytes_ne hpoly _ hlength hfit hne (crcBytes_injective hpoly back h)

/-- Strings that differ, but only in a window that fits the register, lead to different registers. -/
theorem crcBytes_window_ne (hpoly : poly.msb = true) (r : BitVec w) {data other : List UInt8}
    (hlength : data.length = other.length) {start width : ℕ} (hfit : 8 * width ≤ w)
    (hagree : ∀ i, i < start ∨ start + width ≤ i → data[i]? = other[i]?) (hne : data ≠ other) :
    crcBytes poly r data ≠ crcBytes poly r other := by
  have hparts : ∀ bytes : List UInt8,
      bytes = bytes.take start ++ slice bytes start width ++ bytes.drop (start + width) := by
    intro bytes
    rw [slice, List.append_assoc, ← List.drop_drop, List.take_append_drop, List.take_append_drop]
  have hfront : other.take start = data.take start := by
    apply List.ext_getElem?
    intro i
    rw [List.getElem?_take, List.getElem?_take]
    split
    · next hi => exact (hagree i (.inl hi)).symm
    · rfl
  have hback : other.drop (start + width) = data.drop (start + width) := by
    apply List.ext_getElem?
    intro i
    rw [List.getElem?_drop, List.getElem?_drop]
    exact (hagree _ (.inr (Nat.le_add_right _ _))).symm
  have hburst : slice data start width ≠ slice other start width := by
    intro h
    refine hne ?_
    rw [hparts data, hparts other, hfront, hback, h]
  have hcount : (slice data start width).length ≤ width := by
    rw [length_slice]
    exact Nat.min_le_left _ _
  rw [hparts data, hparts other, hfront, hback]
  refine crcBytes_burst_ne hpoly r _ _ ?_ (by omega) hburst
  rw [length_slice, length_slice, hlength]

/-! ## Table lookups -/

/-- Several steps at once: those of the low bits, and the high bits shifted down. -/
theorem crcBits_split (count : ℕ) (r : BitVec w) :
    crcBits poly count r = crcBits poly count ((r.setWidth count).setWidth w) ^^^ (r >>> count) := by
  have hhigh : (r.toNat / 2 ^ count) * 2 ^ count < 2 ^ w :=
    (Nat.div_mul_le_self _ _).trans_lt r.isLt
  have hsplit : r = (r.setWidth count).setWidth w ^^^ BitVec.ofNat w (r.toNat / 2 ^ count * 2 ^ count) := by
    apply BitVec.eq_of_getLsbD_eq
    intro i hi
    simp only [BitVec.getLsbD_xor, BitVec.getLsbD_setWidth, BitVec.getLsbD_ofNat, hi, decide_true, Bool.true_and,
      Nat.testBit_mul_two_pow, Nat.testBit_div_two_pow]
    by_cases hlow : i < count
    · simp [hlow, not_le.mpr hlow]
    · simp [hlow, not_lt.mp hlow, BitVec.getLsbD]
  have hshifted : BitVec.ofNat w (r.toNat / 2 ^ count) = r >>> count := by
    apply BitVec.eq_of_toNat_eq
    rw [BitVec.toNat_ofNat, BitVec.toNat_ushiftRight, Nat.shiftRight_eq_div_pow,
      Nat.mod_eq_of_lt ((Nat.div_le_self _ _).trans_lt r.isLt)]
  conv_lhs => rw [hsplit, crcBits_xor, crcBits_shiftLeft hhigh, hshifted]

end Foundation
