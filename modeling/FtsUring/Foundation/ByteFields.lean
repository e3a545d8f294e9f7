import Mathlib.Data.List.Basic
import Mathlib.Tactic.Ring

/-!
# Little-endian fields in byte buffers

A buffer is a list of bytes. `leBytes` and `leValue` convert between numbers and their
fixed-width little-endian encodings, `overwrite` is a bounded memory copy into a buffer,
and `field` and `setField` read and write one integer at a byte offset.

The laws say that a write is seen by exactly the reads that overlap it. Layout proofs for
records, page headers and arrays then reduce to linear arithmetic on offsets.
-/

namespace Foundation

/-! ## Integers as bytes -/

/-- The `width` low-order bytes of a number, least significant byte first. -/
def leBytes : ℕ → ℕ → List UInt8
  | 0, _ => []
  | width + 1, value => UInt8.ofNat value :: leBytes width (value / 256)

/-- The number that a little-endian byte string denotes. -/
def leValue : List UInt8 → ℕ
  | [] => 0
  | byte :: rest => byte.toNat + 256 * leValue rest

/-- An encoding has the width it was asked for. -/
@[simp] theorem length_leBytes (width value : ℕ) : (leBytes width value).length = width := by
  induction width generalizing value with
  | zero => rfl
  | succ width ih => simp [leBytes, ih]

/-- Decoding an encoding truncates the number to the encoded width. -/
theorem leValue_leBytes (width value : ℕ) : leValue (leBytes width value) = value % 256 ^ width := by
  induction width generalizing value with
  | zero => simp [leBytes, leValue, Nat.mod_one]
  | succ width ih =>
    rw [leBytes, leValue, ih, pow_succ, Nat.mul_comm (256 ^ width), Nat.mod_mul]
    simp

/-- A byte string of a given length denotes a number of that width. -/
theorem leValue_lt (bytes : List UInt8) : leValue bytes < 256 ^ bytes.length := by
  induction bytes with
  | nil => simp [leValue]
  | cons byte rest ih =>
    have hbyte := byte.toNat_lt
    rw [leValue, List.length_cons, pow_succ]
    omega

/-- Encoding is onto: every byte string is the encoding of the number it denotes. -/
theorem leBytes_leValue (bytes : List UInt8) : leBytes bytes.length (leValue bytes) = bytes := by
  induction bytes with
  | nil => rfl
  | cons byte rest ih =>
    have hbyte := byte.toNat_lt
    have hhead : UInt8.ofNat (byte.toNat + 256 * leValue rest) = byte := by
      apply UInt8.toNat_inj.mp
      rw [UInt8.toNat_ofNat']
      omega
    have htail : (byte.toNat + 256 * leValue rest) / 256 = leValue rest := by omega
    rw [List.length_cons, leValue, leBytes, hhead, htail, ih]

/-- A string of zero bytes denotes zero. -/
@[simp] theorem leValue_replicate_zero (count : ℕ) : leValue (List.replicate count 0) = 0 := by
  induction count with
  | zero => rfl
  | succ count ih => simp [List.replicate_succ, leValue, ih]

/-- The number that a concatenation denotes. -/
theorem leValue_append (low high : List UInt8) :
    leValue (low ++ high) = leValue low + 256 ^ low.length * leValue high := by
  induction low with
  | nil => simp [leValue]
  | cons byte rest ih =>
    rw [List.cons_append, leValue, ih, leValue, List.length_cons, pow_succ]
    ring

/-! ## Slices and bounded copies -/

/-- The `count` bytes of a buffer that start at `offset`, fewer at the end of the buffer. -/
def slice (buffer : List UInt8) (offset count : ℕ) : List UInt8 :=
  (buffer.drop offset).take count

/-- Copy `data` into a buffer at `offset`; bytes past the end of the buffer are dropped. -/
def overwrite (buffer : List UInt8) (offset : ℕ) (data : List UInt8) : List UInt8 :=
  buffer.take offset ++ data.take (buffer.length - offset) ++ buffer.drop (offset + data.length)

/-- A slice inside the buffer has the requested length. -/
theorem length_slice (buffer : List UInt8) (offset count : ℕ) :
    (slice buffer offset count).length = min count (buffer.length - offset) := by
  simp [slice]

/-- A bounded copy keeps the size of the buffer. -/
@[simp] theorem length_overwrite (buffer : List UInt8) (offset : ℕ) (data : List UInt8) :
    (overwrite buffer offset data).length = buffer.length := by
  simp only [overwrite, List.length_append, List.length_take, List.length_drop]
  omega

/-- Bytewise view of a slice. -/
theorem getElem?_slice (buffer : List UInt8) (offset count i : ℕ) :
    (slice buffer offset count)[i]? = if i < count then buffer[offset + i]? else none := by
  simp [slice, List.getElem?_take, List.getElem?_drop]

/-- Bytewise view of a bounded copy: positions in the copied range come from the data. -/
theorem getElem?_overwrite (buffer : List UInt8) (offset : ℕ) (data : List UInt8) (i : ℕ)
    (hi : i < buffer.length) :
    (overwrite buffer offset data)[i]? =
      if offset ≤ i ∧ i < offset + data.length then data[i - offset]? else buffer[i]? := by
  simp only [overwrite, List.getElem?_append, List.length_append, List.length_take,
    List.getElem?_take, List.getElem?_drop]
  split_ifs <;> first
    | rfl
    | omega
    | (congr 1; omega)

/-- A slice that the copy does not touch is unchanged. -/
theorem slice_overwrite_of_disjoint (buffer : List UInt8) (offset : ℕ) (data : List UInt8)
    (start count : ℕ) (h : start + count ≤ offset ∨ offset + data.length ≤ start) :
    slice (overwrite buffer offset data) start count = slice buffer start count := by
  apply List.ext_getElem?
  intro i
  rw [getElem?_slice, getElem?_slice]
  by_cases hcount : i < count
  · rw [if_pos hcount, if_pos hcount]
    by_cases hlength : start + i < buffer.length
    · rw [getElem?_overwrite _ _ _ _ hlength, if_neg (by omega)]
    · rw [List.getElem?_eq_none (by simpa using hlength), List.getElem?_eq_none (by omega)]
  · rw [if_neg hcount, if_neg hcount]

/-- A slice inside the copied range is the corresponding slice of the data. -/
theorem slice_overwrite_of_within (buffer : List UInt8) (offset : ℕ) (data : List UInt8)
    (start count : ℕ) (hstart : offset ≤ start) (hend : start + count ≤ offset + data.length)
    (hfit : offset + data.length ≤ buffer.length) :
    slice (overwrite buffer offset data) start count = slice data (start - offset) count := by
  apply List.ext_getElem?
  intro i
  rw [getElem?_slice, getElem?_slice]
  by_cases hcount : i < count
  · rw [if_pos hcount, if_pos hcount, getElem?_overwrite _ _ _ _ (by omega), if_pos (by omega)]
    congr 1
    omega
  · rw [if_neg hcount, if_neg hcount]

/-- Reading back exactly the copied range returns the data. -/
theorem slice_overwrite_self (buffer : List UInt8) (offset : ℕ) (data : List UInt8)
    (hfit : offset + data.length ≤ buffer.length) :
    slice (overwrite buffer offset data) offset data.length = data := by
  rw [slice_overwrite_of_within _ _ _ _ _ le_rfl le_rfl hfit]
  simp [slice]

/-- A slice of a slice is a slice. -/
theorem slice_slice (buffer : List UInt8) (offset count start inner : ℕ)
    (h : start + inner ≤ count) :
    slice (slice buffer offset count) start inner = slice buffer (offset + start) inner := by
  apply List.ext_getElem?
  intro i
  simp only [getElem?_slice]
  by_cases hinner : i < inner
  · rw [if_pos hinner, if_pos (by omega), if_pos hinner, Nat.add_assoc]
  · rw [if_neg hinner, if_neg hinner]

/-! ## Integer fields -/

/-- The little-endian integer of `width` bytes at `offset`. -/
def field (buffer : List UInt8) (offset width : ℕ) : ℕ :=
  leValue (slice buffer offset width)

/-- Store an integer of `width` bytes at `offset`. -/
def setField (buffer : List UInt8) (offset width value : ℕ) : List UInt8 :=
  overwrite buffer offset (leBytes width value)

/-- Storing a field keeps the size of the buffer. -/
@[simp] theorem length_setField (buffer : List UInt8) (offset width value : ℕ) :
    (setField buffer offset width value).length = buffer.length := by
  simp [setField]

/-- A field is smaller than its width allows. -/
theorem field_lt (buffer : List UInt8) (offset width : ℕ) :
    field buffer offset width < 256 ^ width := by
  refine lt_of_lt_of_le (leValue_lt _) (Nat.pow_le_pow_right (by norm_num) ?_)
  rw [length_slice]
  omega

/-- A field that the copy does not touch is unchanged. -/
theorem field_overwrite_of_disjoint (buffer : List UInt8) (offset : ℕ) (data : List UInt8)
    (start width : ℕ) (h : start + width ≤ offset ∨ offset + data.length ≤ start) :
    field (overwrite buffer offset data) start width = field buffer start width := by
  rw [field, slice_overwrite_of_disjoint _ _ _ _ _ h, field]

/-- A field inside the copied range is the corresponding field of the data. -/
theorem field_overwrite_of_within (buffer : List UInt8) (offset : ℕ) (data : List UInt8)
    (start width : ℕ) (hstart : offset ≤ start) (hend : start + width ≤ offset + data.length)
    (hfit : offset + data.length ≤ buffer.length) :
    field (overwrite buffer offset data) start width = field data (start - offset) width := by
  rw [field, slice_overwrite_of_within _ _ _ _ _ hstart hend hfit, field]

/-- A stored field reads back, truncated to its width. -/
theorem field_setField_self (buffer : List UInt8) (offset width value : ℕ)
    (hfit : offset + width ≤ buffer.length) :
    field (setField buffer offset width value) offset width = value % 256 ^ width := by
  have hslice := slice_overwrite_self buffer offset (leBytes width value) (by simpa using hfit)
  rw [length_leBytes] at hslice
  rw [field, setField, hslice, leValue_leBytes]

/-- Storing one field leaves a disjoint field alone. -/
theorem field_setField_of_disjoint (buffer : List UInt8) (offset width value start count : ℕ)
    (h : start + count ≤ offset ∨ offset + width ≤ start) :
    field (setField buffer offset width value) start count = field buffer start count := by
  rw [setField, field_overwrite_of_disjoint _ _ _ _ _ (by simpa using h)]

/-- Storing a field leaves a disjoint slice alone. -/
theorem slice_setField_of_disjoint (buffer : List UInt8) (offset width value start count : ℕ)
    (h : start + count ≤ offset ∨ offset + width ≤ start) :
    slice (setField buffer offset width value) start count = slice buffer start count := by
  rw [setField, slice_overwrite_of_disjoint _ _ _ _ _ (by simpa using h)]

/-- A field of a slice is a field of the buffer. -/
theorem field_slice (buffer : List UInt8) (offset count start width : ℕ)
    (h : start + width ≤ count) :
    field (slice buffer offset count) start width = field buffer (offset + start) width := by
  rw [field, slice_slice _ _ _ _ _ h, field]

/-- A field of the first part of a concatenation. -/
theorem field_append_left (left right : List UInt8) (offset width : ℕ)
    (h : offset + width ≤ left.length) :
    field (left ++ right) offset width = field left offset width := by
  have hfit : width - (left.length - offset) = 0 := by omega
  simp [field, slice, List.drop_append, List.take_append, hfit]

/-- A field of the second part of a concatenation. -/
theorem field_append_right (left right : List UInt8) (offset width : ℕ)
    (h : left.length ≤ offset) :
    field (left ++ right) offset width = field right (offset - left.length) width := by
  rw [field, field, slice, slice, List.drop_append, List.drop_of_length_le h, List.nil_append]

/-- The field that an encoding consists of. -/
theorem field_leBytes (width value : ℕ) : field (leBytes width value) 0 width = value % 256 ^ width := by
  rw [field, slice, List.drop_zero, List.take_of_length_le (by simp), leValue_leBytes]

/-- A single byte is a field of width one. -/
@[simp] theorem field_singleton (byte : UInt8) : field [byte] 0 1 = byte.toNat := by
  simp [field, slice, leValue]

/-- The lower and the upper part of a field. -/
theorem field_add (buffer : List UInt8) (offset low high : ℕ) (h : offset + low ≤ buffer.length) :
    field buffer offset (low + high) =
      field buffer offset low + 256 ^ low * field buffer (offset + low) high := by
  have hlow : (slice buffer offset low).length = low := by
    rw [length_slice]
    omega
  have hsplit : slice buffer offset (low + high) =
      slice buffer offset low ++ slice buffer (offset + low) high := by
    rw [slice, List.take_add, List.drop_drop, slice, slice]
  rw [field, hsplit, leValue_append, hlow, field, field]

/-! ## Arrays of 32-bit words -/

/-- The bytes of an array of 32-bit words. -/
def leWords (words : List UInt32) : List UInt8 := words.flatMap fun word => leBytes 4 word.toNat

/-- The array of 32-bit words at `offset`. -/
def wordsAt (buffer : List UInt8) (offset count : ℕ) : Vector UInt32 count :=
  Vector.ofFn fun i => UInt32.ofNat (field buffer (offset + 4 * i) 4)

/-- The size of an array of words. -/
@[simp] theorem length_leWords (words : List UInt32) : (leWords words).length = 4 * words.length := by
  induction words with
  | nil => rfl
  | cons word words ih =>
    rw [leWords, List.flatMap_cons, List.length_append, length_leBytes, List.length_cons, ← leWords,
      ih]
    omega

/-- One word of an array. -/
theorem field_leWords {words : List UInt32} {i : ℕ} (hi : i < words.length) :
    field (leWords words) (4 * i) 4 = words[i].toNat := by
  induction words generalizing i with
  | nil => exact absurd hi (Nat.not_lt_zero i)
  | cons word words ih =>
    rw [leWords, List.flatMap_cons, ← leWords]
    cases i with
    | zero =>
      rw [Nat.mul_zero, field_append_left _ _ _ _ (by simp), field_leBytes]
      exact Nat.mod_eq_of_lt word.toNat_lt
    | succ i =>
      rw [field_append_right _ _ _ _ (by rw [length_leBytes]; omega), length_leBytes,
        Nat.mul_succ, Nat.add_sub_cancel]
      exact ih (Nat.lt_of_succ_lt_succ hi)

/-- An array of words reads back from a concatenation. -/
theorem wordsAt_append {count : ℕ} (words : Vector UInt32 count) (left right : List UInt8) :
    wordsAt (left ++ (leWords words.toList ++ right)) left.length count = words := by
  apply Vector.ext
  intro i hi
  rw [wordsAt, Vector.getElem_ofFn, field_append_right _ _ _ _ (Nat.le_add_right _ _),
    Nat.add_sub_cancel_left, field_append_left _ _ _ _ (by rw [length_leWords, Vector.length_toList]; omega),
    field_leWords (by rw [Vector.length_toList]; exact hi), UInt32.ofNat_toNat,
    Vector.getElem_toList]

end Foundation
