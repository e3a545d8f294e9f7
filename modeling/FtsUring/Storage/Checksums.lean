import FtsUring.Foundation.Crc
import FtsUring.Storage.SlottedPage

/-!
# Checksums

The checksum of a page goes through a table into which the complements of CRC-32 are folded; the register
starts at zero and is the complement of that of CRC-32. The complement at the end then comes once too
often. What detects errors is not touched by it.
-/

namespace FtsUring

open Foundation

/-- The polynomial of IEEE 802.3, reflected. -/
def crc32Polynomial : BitVec 32 := 0xEDB88320

/-- The CRC-32 of IEEE 802.3, bit by bit. -/
def ieeeCrc32 (data : List UInt8) : UInt32 :=
  UInt32.ofBitVec (~~~crcBytes crc32Polynomial (BitVec.allOnes 32) data)

/-! ## The table -/

/-- One shift of the table. -/
def crc32Shift (r : UInt32) : UInt32 := (if r &&& 1 ≠ 0 then (0 : UInt32) else 0xEDB88320) ^^^ (r >>> 1)

/-- A shift adds the polynomial in the other case than the bit step. -/
theorem toBitVec_crc32Shift (r : UInt32) :
    (crc32Shift r).toBitVec = crcBit crc32Polynomial r.toBitVec ^^^ crc32Polynomial := by
  have hlow : r &&& 1 ≠ 0 ↔ r.toBitVec.getLsbD 0 = true := by
    have hmask : (r &&& 1).toBitVec = BitVec.setWidth 32 (BitVec.ofBool (r.toBitVec.getLsbD 0)) := by
      rw [UInt32.toBitVec_and]
      exact BitVec.and_one_eq_setWidth_ofBool_getLsbD
    rw [ne_eq, ← UInt32.toBitVec_inj, hmask]
    cases r.toBitVec.getLsbD 0 <;> decide
  have hshift : (r >>> 1).toBitVec = r.toBitVec >>> 1 := UInt32.toBitVec_shiftRight r 1
  rw [crc32Shift, crcBit, UInt32.toBitVec_xor, hshift]
  by_cases hbit : r.toBitVec.getLsbD 0 = true
  · rw [if_pos (hlow.mpr hbit), if_pos hbit, BitVec.xor_comm crc32Polynomial, BitVec.xor_assoc, BitVec.xor_self,
      BitVec.xor_comm]
    rfl
  · rw [if_neg (hlow.not.mpr hbit), if_neg hbit, BitVec.zero_xor, BitVec.xor_comm]
    rfl

/-- Several shifts differ from as many bit steps by what they make of zero. -/
theorem toBitVec_iterate_crc32Shift (count : ℕ) (r : UInt32) :
    (crc32Shift^[count] r).toBitVec =
      crcBits crc32Polynomial count r.toBitVec ^^^ (crc32Shift^[count] 0).toBitVec := by
  induction count with
  | zero => simp [crcBits]
  | succ count ih =>
    rw [Function.iterate_succ_apply', Function.iterate_succ_apply', toBitVec_crc32Shift, toBitVec_crc32Shift, ih,
      crcBit_xor, crcBits, crcBits, Function.iterate_succ_apply', BitVec.xor_assoc]

/-- An entry of the table. -/
theorem toBitVec_crc32ForByte (value : UInt32) :
    (crc32ForByte value).toBitVec =
      crcBits crc32Polynomial 8 value.toBitVec ^^^ ~~~crcBits crc32Polynomial 8 (BitVec.allOnes 32) := by
  have hentry : crc32ForByte value = crc32Shift^[8] value ^^^ 0xFF000000 := rfl
  have hcomplement : (crc32Shift^[8] 0).toBitVec ^^^ 0xFF000000 =
      ~~~crcBits crc32Polynomial 8 (BitVec.allOnes 32) := by decide
  rw [hentry, UInt32.toBitVec_xor, toBitVec_iterate_crc32Shift, BitVec.xor_assoc, ← hcomplement]
  rfl

/-- The step of the code is that of CRC-32 on the complements. -/
theorem toBitVec_crc32Step (crc : UInt32) (byte : UInt8) :
    (crc32ForByte (crc.toUInt8 ^^^ byte).toUInt32 ^^^ (crc >>> 8) : UInt32).toBitVec =
      ~~~crcByte crc32Polynomial (~~~crc.toBitVec) byte := by
  set sum := crc.toBitVec ^^^ byte.toBitVec.setWidth 32 with hsum
  have hlow : (crc.toUInt8 ^^^ byte).toUInt32.toBitVec = (sum.setWidth 8).setWidth 32 := by
    rw [UInt8.toBitVec_toUInt32, UInt8.toBitVec_xor, UInt32.toBitVec_toUInt8, hsum, BitVec.setWidth_xor]
    apply BitVec.eq_of_getLsbD_eq
    intro i hi
    simp [hi]
  have hhigh : (crc >>> 8).toBitVec = sum >>> 8 := by
    have hbyte : byte.toBitVec.setWidth 32 >>> 8 = 0#32 := by
      apply BitVec.eq_of_toNat_eq
      have hlt := byte.toNat_lt
      rw [BitVec.toNat_ushiftRight, BitVec.toNat_setWidth, UInt8.toNat_toBitVec, Nat.shiftRight_eq_div_pow]
      change byte.toNat % 2 ^ 32 / 2 ^ 8 = 0
      omega
    rw [hsum, BitVec.ushiftRight_xor_distrib, hbyte, BitVec.xor_zero]
    exact UInt32.toBitVec_shiftRight crc 8
  have hregister : ~~~crc.toBitVec ^^^ byte.toBitVec.setWidth 32 = sum ^^^ BitVec.allOnes 32 := by
    rw [← BitVec.xor_allOnes, hsum]
    ac_rfl
  have hsplit : crcBits crc32Polynomial 8 sum =
      crcBits crc32Polynomial 8 ((sum.setWidth 8).setWidth 32) ^^^ (sum >>> 8) := crcBits_split 8 sum
  rw [UInt32.toBitVec_xor, toBitVec_crc32ForByte, hlow, hhigh, crcByte, hregister, crcBits_xor, hsplit]
  simp only [← BitVec.xor_allOnes]
  ac_rfl

/-- The checksum is the register of CRC-32, without the complement at the end. -/
theorem toBitVec_calculateCrc32 (data : List UInt8) :
    (calculateCrc32 data).toBitVec = crcBytes crc32Polynomial (BitVec.allOnes 32) data := by
  have hfold : ∀ crc : UInt32, (data.foldl (fun (crc : UInt32) byte =>
      (crc32ForByte (crc.toUInt8 ^^^ byte).toUInt32 ^^^ (crc >>> 8) : UInt32)) crc).toBitVec =
        ~~~crcBytes crc32Polynomial (~~~crc.toBitVec) data := by
    induction data with
    | nil => exact fun crc => (BitVec.not_not).symm
    | cons byte data ih =>
      intro crc
      rw [List.foldl_cons, ih, toBitVec_crc32Step, BitVec.not_not]
      rfl
  rw [calculateCrc32, UInt32.toBitVec_not, hfold, BitVec.not_not]
  rfl

/-- The checksum is the complement of CRC-32. -/
theorem calculateCrc32_eq_not (data : List UInt8) : calculateCrc32 data = ~~~ieeeCrc32 data := by
  rw [← UInt32.toBitVec_inj, toBitVec_calculateCrc32, UInt32.toBitVec_not, ieeeCrc32, BitVec.not_not]

/-- No register is its own complement. -/
theorem not_ne_self (r : UInt32) : ~~~r ≠ r := by
  intro h
  rw [← UInt32.toBitVec_inj, UInt32.toBitVec_not] at h
  have hbit := congrArg (fun r => r.getLsbD 0) h
  simp at hbit

/-- The checksum is not CRC-32, for any string of bytes: it is the complement. -/
theorem calculateCrc32_ne_ieeeCrc32 (data : List UInt8) :
    calculateCrc32 data = ~~~ieeeCrc32 data ∧ calculateCrc32 data ≠ ieeeCrc32 data := by
  rw [calculateCrc32_eq_not]
  exact ⟨rfl, not_ne_self _⟩

/-- The checksum of a page of zeros is not its CRC-32. -/
theorem calculateCrc32_zero_ne : calculateCrc32 Page.zero.bytes ≠ ieeeCrc32 Page.zero.bytes := by
  rw [calculateCrc32_eq_not]
  exact not_ne_self _

/-! ## Errors in a page -/

/-- The top bit of the polynomial is set. -/
theorem msb_crc32Polynomial : crc32Polynomial.msb = true := by decide

/-- Strings that differ, but only in four consecutive bytes, have different checksums. -/
theorem calculateCrc32_window_ne {data other : List UInt8} (hlength : data.length = other.length)
    {start width : ℕ} (hwidth : width ≤ 4)
    (hagree : ∀ i, i < start ∨ start + width ≤ i → data[i]? = other[i]?) (hne : data ≠ other) :
    calculateCrc32 data ≠ calculateCrc32 other := by
  intro h
  refine crcBytes_window_ne msb_crc32Polynomial (BitVec.allOnes 32) hlength (by omega) hagree hne ?_
  rw [← toBitVec_calculateCrc32, ← toBitVec_calculateCrc32, h]

namespace Page

/-- There are no bytes behind the page. -/
theorem getElem?_bytes_of_le (page : Page) {i : ℕ} (hi : ¬i < 4096) : page.bytes[i]? = none := by
  rw [List.getElem?_eq_none]
  rw [page.length_bytes]
  exact not_lt.mp hi

/-- The page with its checksum cleared, byte by byte. -/
theorem getElem?_setChecksum (page : Page) (value i : ℕ) (hi : i < 4096) :
    (page.setChecksum value).bytes[i]? =
      if 12 ≤ i ∧ i < 16 then (leBytes 4 value)[i - 12]? else page.bytes[i]? := by
  rw [setChecksum, setField, overwrite, getElem?_overwrite _ _ _ _ (by rw [page.length_bytes]; exact hi),
    length_leBytes]

/-- Clearing the checksum again changes nothing. -/
theorem setChecksum_setChecksum (page : Page) (value other : ℕ) :
    (page.setChecksum value).setChecksum other = page.setChecksum other := by
  apply Page.ext
  apply List.ext_getElem?
  intro i
  by_cases hi : i < 4096
  · rw [getElem?_setChecksum _ _ _ hi, getElem?_setChecksum _ _ _ hi, getElem?_setChecksum _ _ _ hi]
    split <;> rfl
  · rw [getElem?_bytes_of_le _ hi, getElem?_bytes_of_le _ hi]

/-- A field of pages that agree there. -/
theorem field_congr {page other : Page} {offset width : ℕ}
    (h : ∀ i, offset ≤ i → i < offset + width → page.bytes[i]? = other.bytes[i]?) :
    page.field offset width = other.field offset width := by
  have hslice : Foundation.slice page.bytes offset width = Foundation.slice other.bytes offset width := by
    apply List.ext_getElem?
    intro i
    rw [getElem?_slice, getElem?_slice]
    split
    · next hi => exact h _ (Nat.le_add_right _ _) (by omega)
    · rfl
  rw [field, field, Foundation.field, Foundation.field, hslice]

end Page

/-- The stored checksum is the one that is compared. -/
theorem slottedPageVerifyChecksum_computeChecksum (page : Page) :
    slottedPageVerifyChecksum (slottedPageComputeChecksum page) = true := by
  have hlt := (calculateCrc32 (page.setChecksum 0).bytes).toNat_lt
  have hstored : ∀ value, (page.setChecksum value).checksum = value % 256 ^ 4 :=
    fun value => Page.field_setField_self page 12 4 value (by decide)
  rw [slottedPageVerifyChecksum, slottedPageComputeChecksum]
  simp only [Page.setChecksum_setChecksum, hstored, decide_eq_true_iff]
  exact (Nat.mod_eq_of_lt hlt).symm

/-- A page that differs from one that verifies, but only in four consecutive bytes that are not of the
checksum, does not verify. -/
theorem slottedPageVerifyChecksum_window {page other : Page} (hpage : slottedPageVerifyChecksum page = true)
    {start width : ℕ} (hwidth : width ≤ 4) (hfield : start + width ≤ 12 ∨ 16 ≤ start)
    (hagree : ∀ i, i < start ∨ start + width ≤ i → other.bytes[i]? = page.bytes[i]?) (hne : other ≠ page) :
    slottedPageVerifyChecksum other = false := by
  have hstored : other.checksum = page.checksum :=
    Page.field_congr fun i hlow hhigh => hagree i (by omega)
  have hcleared : ∀ i, i < start ∨ start + width ≤ i →
      (other.setChecksum 0).bytes[i]? = (page.setChecksum 0).bytes[i]? := by
    intro i hi
    by_cases hin : i < 4096
    · rw [Page.getElem?_setChecksum _ _ _ hin, Page.getElem?_setChecksum _ _ _ hin, hagree i hi]
    · rw [Page.getElem?_bytes_of_le _ hin, Page.getElem?_bytes_of_le _ hin]
  have hdiffer : (other.setChecksum 0).bytes ≠ (page.setChecksum 0).bytes := by
    intro h
    refine hne (Page.ext (List.ext_getElem? fun i => ?_))
    by_cases hi : i < start ∨ start + width ≤ i
    · exact hagree i hi
    by_cases hin : i < 4096
    · have hbyte : (other.setChecksum 0).bytes[i]? = (page.setChecksum 0).bytes[i]? := by rw [h]
      rwa [Page.getElem?_setChecksum _ _ _ hin, Page.getElem?_setChecksum _ _ _ hin, if_neg (by omega),
        if_neg (by omega)] at hbyte
    · rw [Page.getElem?_bytes_of_le _ hin, Page.getElem?_bytes_of_le _ hin]
  have hcrc := calculateCrc32_window_ne (by rw [Page.length_bytes, Page.length_bytes]) hwidth hcleared hdiffer
  rw [slottedPageVerifyChecksum, decide_eq_true_iff] at hpage
  rw [slottedPageVerifyChecksum, decide_eq_false_iff_not, hstored, ← hpage]
  exact fun h => hcrc (UInt32.toNat_inj.mp h)

/-- The checksum verifies, and it detects every change of at most four consecutive bytes beside it. -/
theorem checksum_detects (page : Page) :
    slottedPageVerifyChecksum (slottedPageComputeChecksum page) = true ∧
      ∀ (other : Page) (start width : ℕ), width ≤ 4 → (start + width ≤ 12 ∨ 16 ≤ start) →
        (∀ i, i < start ∨ start + width ≤ i →
          other.bytes[i]? = (slottedPageComputeChecksum page).bytes[i]?) →
        other ≠ slottedPageComputeChecksum page → slottedPageVerifyChecksum other = false :=
  ⟨slottedPageVerifyChecksum_computeChecksum page, fun _ _ _ hwidth hfield hagree hne =>
    slottedPageVerifyChecksum_window (slottedPageVerifyChecksum_computeChecksum page) hwidth hfield hagree hne⟩

/-- A changed byte in an empty page is detected. -/
theorem checksum_detects_byte :
    slottedPageVerifyChecksum ((slottedPageComputeChecksum Page.zero).setField 100 1 1) = false := by
  have hbyte : (slottedPageComputeChecksum Page.zero).field 100 1 = 0 := by
    simp only [slottedPageComputeChecksum, Page.setChecksum]
    rw [Page.field_setField_of_disjoint _ _ _ _ _ _ (.inr (by decide)),
      Page.field_setField_of_disjoint _ _ _ _ _ _ (.inr (by decide)), Page.field_zero]
  refine (checksum_detects Page.zero).2 _ 100 1 (by decide) (.inr (by decide)) ?_ ?_
  · intro i hi
    by_cases hin : i < 4096
    · rw [Page.setField, Page.overwrite,
        getElem?_overwrite _ _ _ _ (by rw [Page.length_bytes]; exact hin), length_leBytes, if_neg (by omega)]
    · rw [Page.getElem?_bytes_of_le _ hin, Page.getElem?_bytes_of_le _ hin]
  · intro h
    have hchanged := Page.field_setField_self (slottedPageComputeChecksum Page.zero) 100 1 1 (by decide)
    rw [h, hbyte] at hchanged
    exact absurd hchanged (by decide)

end FtsUring
