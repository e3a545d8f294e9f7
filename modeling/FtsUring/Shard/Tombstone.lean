import FtsUring.Storage.SlottedPage
import Mathlib.Data.Nat.Bitwise

/-!
# Tombstones

One page holds a bit for each deleted document, behind the 24 bytes of the page header. The bit is
chosen by the document id modulo `TOMBSTONE_BITS_PER_PAGE`, which counts the bits of the whole
page: ids whose bit would lie behind the end of the page are never marked.
-/

namespace FtsUring

open Foundation

/-- `TOMBSTONE_BITS_PER_PAGE`. -/
def tombstoneBitsPerPage : ℕ := pageSize * 8

/-- `bit_offset`. -/
def tombstoneBit (docId : UInt32) : ℕ := docId.toNat % tombstoneBitsPerPage

/-- `byte_idx`. -/
def tombstoneByte (docId : UInt32) : ℕ := 24 + tombstoneBit docId / 8

/-- Format a tombstone page. -/
def ftsTombstoneInit (pageId : ℕ) : Page := slottedPageInit pageId .tombstoneBitset

/-- Set the bit of a document. -/
def ftsTombstoneMarkDeleted (page : Page) (docId : UInt32) : Page :=
  if tombstoneByte docId < pageSize then
    page.setField (tombstoneByte docId) 1
      (page.field (tombstoneByte docId) 1 ||| 1 <<< (tombstoneBit docId % 8))
  else page

/-- Test the bit of a document. -/
def ftsTombstoneIsDeleted (page : Page) (docId : UInt32) : Bool :=
  if tombstoneByte docId < pageSize then
    page.field (tombstoneByte docId) 1 &&& 1 <<< (tombstoneBit docId % 8) ≠ 0
  else false

/-- The number of bits that lie in the page. -/
def tombstoneUsableBits : ℕ := 32576

/-- The bit of a document lies in the page. -/
theorem tombstoneByte_lt_iff (docId : UInt32) :
    tombstoneByte docId < pageSize ↔ tombstoneBit docId < tombstoneUsableBits := by
  rw [tombstoneByte, pageSize, tombstoneUsableBits]
  omega

/-- The test reads one bit of one byte. -/
theorem ftsTombstoneIsDeleted_eq (page : Page) (docId : UInt32) :
    ftsTombstoneIsDeleted page docId = (decide (tombstoneByte docId < pageSize) &&
      (page.field (tombstoneByte docId) 1).testBit (tombstoneBit docId % 8)) := by
  rw [ftsTombstoneIsDeleted]
  split_ifs with hbyte
  · rw [Nat.one_shiftLeft, Nat.and_two_pow, decide_eq_true hbyte, Bool.true_and]
    cases (page.field (tombstoneByte docId) 1).testBit (tombstoneBit docId % 8) with
    | false => simp
    | true => simp
  · rw [decide_eq_false hbyte, Bool.false_and]

/-- In a new page no document is deleted. -/
theorem ftsTombstoneIsDeleted_init (pageId : ℕ) (docId : UInt32) :
    ftsTombstoneIsDeleted (ftsTombstoneInit pageId) docId = false := by
  have hzero : (ftsTombstoneInit pageId).field (tombstoneByte docId) 1 = 0 :=
    (slottedPageInit_fields pageId .tombstoneBitset).2.2.2.2 _ _ (Nat.le_add_right _ _)
  rw [ftsTombstoneIsDeleted_eq, hzero, Nat.zero_testBit, Bool.and_false]

/-- Two documents share a bit that lies in the page. -/
def SharesTombstone (docId other : UInt32) : Prop :=
  tombstoneBit docId = tombstoneBit other ∧ tombstoneBit docId < tombstoneUsableBits

instance (docId other : UInt32) : Decidable (SharesTombstone docId other) :=
  inferInstanceAs (Decidable (_ ∧ _))

/-- Marking a document deletes all documents that share its bit. -/
theorem ftsTombstoneIsDeleted_markDeleted (page : Page) (docId other : UInt32) :
    ftsTombstoneIsDeleted (ftsTombstoneMarkDeleted page docId) other =
      (ftsTombstoneIsDeleted page other || decide (SharesTombstone docId other)) := by
  rw [ftsTombstoneIsDeleted_eq, ftsTombstoneIsDeleted_eq]
  by_cases hdoc : tombstoneByte docId < pageSize
  swap
  · have hshares : ¬SharesTombstone docId other :=
      fun h => hdoc ((tombstoneByte_lt_iff docId).mpr h.2)
    rw [ftsTombstoneMarkDeleted, if_neg hdoc, decide_eq_false hshares, Bool.or_false]
  have hfit : tombstoneByte docId + 1 ≤ 4096 := hdoc
  have hvalue : page.field (tombstoneByte docId) 1 ||| 1 <<< (tombstoneBit docId % 8) < 256 ^ 1 := by
    have hbit : 1 <<< (tombstoneBit docId % 8) < 2 ^ 8 := by
      rw [Nat.one_shiftLeft]
      exact Nat.pow_lt_pow_right (by omega) (Nat.mod_lt _ (by omega))
    exact Nat.or_lt_two_pow (n := 8) (page.field_lt _ 1) hbit
  rw [ftsTombstoneMarkDeleted, if_pos hdoc]
  by_cases hbyte : tombstoneByte other = tombstoneByte docId
  · rw [hbyte, Page.field_setField_self _ _ _ _ hfit, Nat.mod_eq_of_lt hvalue, Nat.testBit_or,
      Nat.one_shiftLeft, Nat.testBit_two_pow, decide_eq_true hdoc, Bool.true_and, Bool.true_and]
    congr 1
    rw [decide_eq_decide, SharesTombstone, ← tombstoneByte_lt_iff]
    rw [tombstoneByte, tombstoneByte] at hbyte
    constructor
    · intro hbit
      exact ⟨by omega, hdoc⟩
    · rintro ⟨hbit, -⟩
      rw [hbit]
  · have hshares : ¬SharesTombstone docId other := by
      rintro ⟨hbit, -⟩
      rw [tombstoneByte, tombstoneByte, hbit] at hbyte
      exact hbyte rfl
    rw [Page.field_setField_of_disjoint _ _ _ _ _ _ (by omega), decide_eq_false hshares,
      Bool.or_false]

end FtsUring
