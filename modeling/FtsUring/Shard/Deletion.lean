import FtsUring.Shard.Updates

/-!
# Which documents are deleted

The tombstone page has one bit for all document ids that agree modulo `TOMBSTONE_BITS_PER_PAGE`,
and no bit for those that would lie behind the end of the page. After a sequence of calls
`shardIsDeleted` is thus exact when every deleted id has a bit and shares it with deleted ids only.
-/

namespace FtsUring

open Foundation

/-- The documents that a sequence of calls deletes. -/
def deletedIds (updates : List ShardUpdate) : List UInt32 :=
  updates.filterMap fun update =>
    match update with
    | .insert _ => none
    | .delete docId => some docId

/-- A deletion more. -/
theorem deletedIds_delete (docId : UInt32) (updates : List ShardUpdate) :
    deletedIds (.delete docId :: updates) = docId :: deletedIds updates := rfl

/-- An insertion more. -/
theorem deletedIds_insert (doc : Document) (updates : List ShardUpdate) :
    deletedIds (.insert doc :: updates) = deletedIds updates := rfl

namespace ShardView

/-- No document of a new shard is deleted. -/
theorem isDeleted_fresh (docId : UInt32) : fresh.isDeleted docId = false :=
  ftsTombstoneIsDeleted_init tombstonePageId docId

/-- A document is deleted when it was before, or when it shares the bit of a deleted document. -/
theorem isDeleted_updates (view : ShardView) (updates : List ShardUpdate) (docId : UInt32) :
    (view.updates updates).isDeleted docId = true ↔ view.isDeleted docId = true ∨
      ∃ deleted ∈ deletedIds updates, SharesTombstone deleted docId := by
  induction updates generalizing view with
  | nil => simp [updates, deletedIds]
  | cons update updates ih =>
    rw [updates_cons, ih]
    cases update with
    | insert doc =>
      rw [deletedIds_insert, ShardView.update, isDeleted, tombstones_insertDocument, isDeleted]
    | delete first =>
      rw [deletedIds_delete, ShardView.update, isDeleted, deleteDocument,
        ftsTombstoneIsDeleted_markDeleted, Bool.or_eq_true, decide_eq_true_eq, List.exists_mem_cons_iff,
        or_assoc, isDeleted]

end ShardView

/-- Every id has a bit in the page that it shares with ids of the list only. -/
def HaveOwnTombstones (docIds : List UInt32) : Prop :=
  ∀ docId ∈ docIds, tombstoneBit docId < tombstoneUsableBits ∧
    ∀ other, tombstoneBit other = tombstoneBit docId → other ∈ docIds

/-- The ids that share the bit of a listed id are the listed ones exactly when these have their own
bits. -/
theorem haveOwnTombstones_iff (docIds : List UInt32) :
    HaveOwnTombstones docIds ↔
      ∀ docId, (∃ deleted ∈ docIds, SharesTombstone deleted docId) ↔ docId ∈ docIds := by
  constructor
  · intro h docId
    constructor
    · rintro ⟨deleted, hdeleted, hbit, -⟩
      exact (h deleted hdeleted).2 docId hbit.symm
    · intro hmem
      exact ⟨docId, hmem, rfl, (h docId hmem).1⟩
  · intro h docId hmem
    obtain ⟨deleted, hdeleted, hbit, husable⟩ := (h docId).mpr hmem
    have hown : tombstoneBit docId < tombstoneUsableBits := hbit ▸ husable
    refine ⟨hown, fun other hother => ?_⟩
    exact (h other).mp ⟨docId, hmem, hother.symm, hown⟩

/-- On a machine, after a sequence of calls on a new shard that all succeed, exactly the documents
that were deleted are found to be deleted. -/
def DeletesExactly (F : Type) [Double F] (m : Machine) (updates : List ShardUpdate) : Prop :=
  ∃ shard : Shard F, ∃ m', poolHandler.exec (runFreshShard updates) m =
      some (some (updates.map fun _ => true, shard), m') ∧
    ∀ docId, ∃ m'', poolHandler.exec (shardIsDeleted docId) m' =
      some (decide (docId ∈ deletedIds updates), m'')

section Pools

variable {F : Type} [Double F]

/-- What the calls and the questions afterwards answer. -/
theorem exec_runFreshShard_isDeleted {host : Host} (hfree : host.FaultFree)
    (hempty : host.dataFile = []) (wal : WALManager) {diskFd : ℤ} {poolSize nextPageId : ℕ}
    (hpool : UsablePool diskFd poolSize nextPageId) {updates : List ShardUpdate}
    (hfits : (ShardView.fresh.updates updates).nextPageId ≤ invalidPageId) :
    ∃ shard : Shard F, ∃ m, poolHandler.exec (runFreshShard updates)
        (newMachine diskFd wal host poolSize nextPageId) =
          some (some (updates.map fun _ => true, shard), m) ∧
      ∀ docId, ∃ m', poolHandler.exec (shardIsDeleted docId) m =
        some (decide (∃ deleted ∈ deletedIds updates, SharesTombstone deleted docId), m') := by
  obtain ⟨s, hs, hrun⟩ := exec_runFreshShard (F := F) hfree hempty wal hfits
  obtain ⟨m, hexec, hm⟩ := hrun diskFd poolSize nextPageId hpool
  refine ⟨_, m, hexec, fun docId => ?_⟩
  obtain ⟨m', hm', -⟩ := poolHandler_simulates.exec hm (hs.exec_isDeleted docId)
  refine ⟨m', hm'.trans ?_⟩
  congr 2
  rw [Bool.eq_iff_iff, ShardView.isDeleted_updates, ShardView.isDeleted_fresh,
    or_iff_right Bool.false_ne_true, decide_eq_true_eq]

/-- Deletion is exact when every deleted id has a bit in the page that it shares with deleted ids
only. -/
theorem deletesExactly_iff {host : Host} (hfree : host.FaultFree) (hempty : host.dataFile = [])
    (wal : WALManager) {diskFd : ℤ} {poolSize nextPageId : ℕ}
    (hpool : UsablePool diskFd poolSize nextPageId) {updates : List ShardUpdate}
    (hfits : (ShardView.fresh.updates updates).nextPageId ≤ invalidPageId) :
    DeletesExactly F (newMachine diskFd wal host poolSize nextPageId) updates ↔
      HaveOwnTombstones (deletedIds updates) := by
  obtain ⟨shard, m, hexec, hask⟩ :=
    exec_runFreshShard_isDeleted (F := F) hfree hempty wal hpool hfits
  rw [haveOwnTombstones_iff]
  constructor
  · rintro ⟨shard', m', hexec', hall⟩ docId
    rw [hexec, Option.some.injEq, Prod.mk.injEq] at hexec'
    obtain ⟨-, rfl⟩ := hexec'
    obtain ⟨m', hm'⟩ := hask docId
    obtain ⟨m'', hm''⟩ := hall docId
    rw [hm', Option.some.injEq, Prod.mk.injEq, decide_eq_decide] at hm''
    exact hm''.1
  · intro hown
    refine ⟨shard, m, hexec, fun docId => ?_⟩
    obtain ⟨m', hm'⟩ := hask docId
    refine ⟨m', hm'.trans ?_⟩
    rw [decide_eq_decide.mpr (hown docId)]

/-- The ids that have a bit. -/
def idsOfBit (bit : ℕ) : List UInt32 :=
  (List.range (2 ^ 17)).map fun i => UInt32.ofNat (bit + tombstoneBitsPerPage * i)

/-- These are all ids with that bit. -/
theorem mem_idsOfBit_iff {bit : ℕ} (hbit : bit < tombstoneBitsPerPage) {docId : UInt32} :
    docId ∈ idsOfBit bit ↔ tombstoneBit docId = bit := by
  have hbits : tombstoneBitsPerPage = 32768 := rfl
  rw [idsOfBit, List.mem_map, tombstoneBit]
  rw [hbits] at hbit ⊢
  constructor
  · rintro ⟨i, hi, rfl⟩
    rw [List.mem_range] at hi
    have hfits : bit + 32768 * i < 2 ^ 32 := by omega
    rw [UInt32.toNat_ofNat', Nat.mod_eq_of_lt hfits, Nat.add_mul_mod_self_left, Nat.mod_eq_of_lt hbit]
  · intro hdocId
    have hlt := docId.toNat_lt
    refine ⟨docId.toNat / 32768, List.mem_range.mpr (by omega), ?_⟩
    rw [← hdocId, Nat.mod_add_div, UInt32.ofNat_toNat]

/-- Deletions take no page. -/
theorem ShardView.nextPageId_deletions (view : ShardView) (docIds : List UInt32) :
    (view.updates (docIds.map ShardUpdate.delete)).nextPageId = view.nextPageId := by
  induction docIds generalizing view with
  | nil => rfl
  | cons docId docIds ih =>
    rw [List.map_cons, updates_cons, ih]
    rfl

/-- The ids of a list of deletions. -/
theorem deletedIds_deletions (docIds : List UInt32) : deletedIds (docIds.map ShardUpdate.delete) = docIds := by
  induction docIds with
  | nil => rfl
  | cons docId docIds ih => rw [List.map_cons, deletedIds_delete, ih]

/-- One document is inserted, and all ids that have its bit are deleted, in a pool of two frames. -/
theorem deletesExactly_bit_zero : DeletesExactly ℚ (newMachine 0 ⟨3, 0⟩ Host.empty 2 0)
    (.insert (.ofTerms 1 1 [7] (by decide)) :: (idsOfBit 0).map ShardUpdate.delete) := by
  refine (deletesExactly_iff ⟨rfl, rfl, rfl, rfl⟩ rfl ⟨3, 0⟩
    ⟨le_refl 0, le_refl 2, by decide, by decide⟩ ?_).mpr ?_
  · rw [ShardView.updates_cons, ShardView.nextPageId_deletions]
    decide
  · rw [deletedIds_insert, deletedIds_deletions]
    intro docId hdocId
    rw [mem_idsOfBit_iff (by decide)] at hdocId
    refine ⟨hdocId.trans_lt (by decide), fun other hother => ?_⟩
    exact (mem_idsOfBit_iff (by decide)).mpr (hother.trans hdocId)

/-- The deletion of document 32576 succeeds and has no effect. -/
theorem not_deletesExactly : ¬DeletesExactly ℚ (newMachine 0 ⟨3, 0⟩ Host.empty 2 0) [.delete 32576] := by
  obtain ⟨shard, m, hexec, hask⟩ := @exec_runFreshShard_isDeleted ℚ _ Host.empty ⟨rfl, rfl, rfl, rfl⟩
    rfl ⟨3, 0⟩ 0 2 0 ⟨le_refl 0, le_refl 2, by decide, by decide⟩ [.delete 32576] (by decide)
  rintro ⟨shard', m', hexec', hall⟩
  rw [hexec, Option.some.injEq, Prod.mk.injEq] at hexec'
  obtain ⟨-, rfl⟩ := hexec'
  obtain ⟨m', hm'⟩ := hask 32576
  obtain ⟨m'', hm''⟩ := hall 32576
  rw [hm', Option.some.injEq, Prod.mk.injEq, decide_eq_decide] at hm''
  obtain ⟨deleted, hmem, hshares⟩ := hm''.1.mpr (List.mem_singleton_self _)
  rw [List.mem_singleton.mp hmem] at hshares
  exact absurd hshares (by decide)

end Pools

end FtsUring
