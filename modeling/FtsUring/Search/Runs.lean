import FtsUring.Search.Operations
import FtsUring.Storage.PageImage

/-!
# Runs over different pools

The operations on a new shard over a pool and over the plain array of pages: they answer the same, and
leave the same log and the same pages. So two pools cannot be told apart, unless the bound of the clock
scan wraps for one of them.
-/

namespace FtsUring

open Foundation

variable {F : Type} [Double F]

/-- Open a new shard and make a sequence of calls. -/
def runFreshOperations (operations : List (ShardOperation F)) :
    PageProgram (Option (List (ShardAnswer F) × Shard F)) := do
  match ← shardInit 0 none with
  | none => return none
  | some shard => return some (← runOperations shard operations)

/-- The content of a new shard after a sequence of calls. -/
def viewAfter (operations : List (ShardOperation F)) : ShardView :=
  ShardView.fresh.updates (ShardOperation.updates operations)

/-- A new shard can make the calls: its page counter names valid pages, the documents are short enough
to be told from posting pages, and the searches have room for a result. -/
structure ShardOperation.Usable (operations : List (ShardOperation F)) : Prop where
  fits : (viewAfter operations).nextPageId < invalidPageId
  short : ∀ doc ∈ insertedDocuments (ShardOperation.updates operations), doc.NoRecordSlots
  room : ∀ operation ∈ operations, operation.HasRoom

variable {host : Host} {operations : List (ShardOperation F)}

/-- A sequence of calls on a new shard leaves one array of pages, whatever the pool. -/
theorem exec_runFreshOperations (hfree : host.FaultFree) (hempty : host.dataFile = []) (wal : WALManager)
    (husable : ShardOperation.Usable operations) :
    ∃ s, IndexedShardAt s (viewAfter operations)
        (insertedDocuments (ShardOperation.updates operations)) ∧
      ∀ diskFd poolSize nextPageId, UsablePool diskFd poolSize nextPageId →
        ∃ m, poolHandler.exec (runFreshOperations operations)
            (newMachine diskFd wal host poolSize nextPageId) =
              some (some (ShardView.fresh.answersTo operations, (Shard.initial : Shard F).afterUpdates
                ShardView.fresh (ShardOperation.updates operations)), m) ∧ Represents m s := by
  obtain ⟨start, hstart, hinit⟩ := @exec_shardInit_fresh F _ host hfree hempty wal
  have hnew : IndexedShardAt start ShardView.fresh [] :=
    ⟨hstart, Indexed.fresh, ShardView.noRecordSlots_fresh⟩
  obtain ⟨result, s, hexec, rfl, hs⟩ := hnew.ensures_runOperations (Shard.matches_initial (F := F))
    husable.room husable.short husable.fits
  refine ⟨s, hs, fun diskFd poolSize nextPageId hpool => ?_⟩
  obtain ⟨opened, hopen, hopened⟩ := hinit diskFd poolSize nextPageId hpool.opened hpool.frames
    hpool.small hpool.counter
  obtain ⟨m, hrun, hm⟩ := poolHandler_simulates.exec hopened hexec
  refine ⟨m, ?_, hm⟩
  rw [runFreshOperations, newMachine, Handler.exec_bind_of_eq _ hopen, Handler.exec_bind_of_eq _ hrun]
  rfl

/-! ## Two pools -/

/-- A sequence of calls on a new shard returns the same on two machines, writes the same records to the
log, and leaves the same pages in the data files once the pools are flushed. -/
def RunsAlike (m m' : Machine) (operations : List (ShardOperation F)) : Prop :=
  ∃ result n n', poolHandler.exec (runFreshOperations operations) m = some (result, n) ∧
    poolHandler.exec (runFreshOperations operations) m' = some (result, n') ∧
    n.storage.host.walFile = n'.storage.host.walFile ∧ n.nextPageId = n'.nextPageId ∧
    ∀ pageId < n.nextPageId, ∃ page, (bufferPoolFlushAll n.storage).host.HoldsPage pageId page ∧
      (bufferPoolFlushAll n'.storage).host.HoldsPage pageId page

/-- Pools of fewer than `2 ^ 31` frames cannot be told apart. -/
theorem runsAlike (hfree : host.FaultFree) (hempty : host.dataFile = []) (wal : WALManager)
    {diskFd : ℤ} {poolSize nextPageId : ℕ} (hpool : UsablePool diskFd poolSize nextPageId)
    {diskFd' : ℤ} {poolSize' nextPageId' : ℕ} (hpool' : UsablePool diskFd' poolSize' nextPageId')
    (husable : ShardOperation.Usable operations) :
    RunsAlike (newMachine diskFd wal host poolSize nextPageId)
      (newMachine diskFd' wal host poolSize' nextPageId') operations := by
  obtain ⟨s, hs, hrun⟩ := exec_runFreshOperations hfree hempty wal husable
  obtain ⟨n, hexec, hn⟩ := hrun _ _ _ hpool
  obtain ⟨n', hexec', hn'⟩ := hrun _ _ _ hpool'
  refine ⟨_, n, n', hexec, hexec', hn.walFile.trans hn'.walFile.symm,
    hn.nextPageId.trans hn'.nextPageId.symm, fun pageId hpage => ?_⟩
  have htouched : s.touched = ∅ := hs.shardAt.idle.touched
  rw [hn.nextPageId, hs.shardAt.counter] at hpage
  obtain ⟨page, hholds⟩ := hs.shardAt.exists_holds hpage
  have hextent : pageId < s.extent := hs.shardAt.extent ▸ hpage
  exact ⟨page, hn.holdsPage_flushAll htouched hextent hholds,
    hn'.holdsPage_flushAll htouched hextent hholds⟩

/-- A new shard over a pool that the clock scan does not cover is opened without its pages being
formatted. -/
theorem exec_shardInit_of_no_attempts (hfree : host.FaultFree) {diskFd : ℤ} (hopen : 0 ≤ diskFd)
    (wal : WALManager) {poolSize : ℕ} (hattempts : clockAttempts poolSize = 0) (nextPageId : ℕ) :
    poolHandler.exec (shardInit 0 (none : Option (ShardMetadata F)))
        (newMachine diskFd wal host poolSize nextPageId) =
      some (some Shard.initial, newMachine diskFd wal host.zeroShard poolSize 3) := by
  have hfetch : ∀ {pageId next}, pageId < invalidPageId →
      poolHandler.exec (fetchPage pageId) (newMachine diskFd wal host.zeroShard poolSize next) =
        some (false, newMachine diskFd wal host.zeroShard poolSize next) :=
    fun hvalid => exec_fetchPage_of_no_attempts hattempts diskFd (some wal) host.zeroShard _ hvalid
  have hformat : poolHandler.exec shardFormat (newMachine diskFd wal host poolSize nextPageId) =
      some (true, newMachine diskFd wal host.zeroShard poolSize 3) := by
    refine (exec_shardFormat hfree hopen (some wal) poolSize nextPageId).trans ?_
    rw [formatPages]
    change poolHandler.exec _ (newMachine diskFd wal host.zeroShard poolSize nextPageId) = _
    rw [Handler.exec_bind_of_eq _ (hfetch (by decide)), if_neg Bool.false_ne_true]
    dsimp only
    rw [Handler.exec_bind_of_eq _ (hfetch (by decide)), if_neg Bool.false_ne_true]
    rfl
  have htree : poolHandler.exec (btreeInit btreeRootPageId)
      (newMachine diskFd wal host.zeroShard poolSize 3) =
        some ((), newMachine diskFd wal host.zeroShard poolSize 3) := by
    rw [btreeInit, Handler.exec_bind_of_eq _ (hfetch (by decide))]
    rfl
  rw [shardInit, if_pos rfl, Handler.exec_bind_of_eq _ hformat]
  simp only [Bool.not_true, Bool.false_eq_true, if_false]
  rw [Handler.exec_bind_of_eq _ htree, pure_bind, if_pos trivial]
  rfl

/-- A new shard in such a pool deletes nothing. -/
theorem exec_delete_of_no_attempts (hfree : host.FaultFree) {diskFd : ℤ} (hopen : 0 ≤ diskFd)
    (wal : WALManager) {poolSize : ℕ} (hattempts : clockAttempts poolSize = 0) (nextPageId : ℕ)
    (docId : UInt32) :
    poolHandler.exec (runFreshOperations [.update (.delete docId)])
        (newMachine diskFd wal host poolSize nextPageId) =
      some (some ([.bool false], (Shard.initial : Shard F)),
        newMachine diskFd wal host.zeroShard poolSize 3) := by
  have hfetch := exec_fetchPage_of_no_attempts hattempts diskFd (some wal) host.zeroShard 3
    (by decide : tombstonePageId < invalidPageId)
  have hdelete : poolHandler.exec (shardDeleteDocument docId)
      (newMachine diskFd wal host.zeroShard poolSize 3) =
        some (false, newMachine diskFd wal host.zeroShard poolSize 3) := by
    rw [shardDeleteDocument]
    exact Handler.exec_bind_of_eq _ hfetch _
  rw [runFreshOperations,
    Handler.exec_bind_of_eq _ (exec_shardInit_of_no_attempts hfree hopen wal hattempts nextPageId)]
  dsimp only
  simp only [runOperations, ShardOperation.run, ShardUpdate.run, bind_assoc]
  rw [Handler.exec_bind_of_eq _ hdelete]
  rfl

/-- A deletion and a question, in pools of two and of three frames. -/
theorem runsAlike_two_three_frames :
    RunsAlike (F := ℚ) (newMachine 0 ⟨3, 0⟩ Host.empty 2 0) (newMachine 5 ⟨3, 0⟩ Host.empty 3 9)
      [.update (.insert (.ofTerms 1 1 [7] (by decide))), .update (.delete 4), .isDeleted 4,
        .searchBm25fIndexed 7 exactParams 3] :=
  runsAlike ⟨rfl, rfl, rfl, rfl⟩ rfl ⟨3, 0⟩ ⟨le_refl 0, le_refl 2, by decide, by decide⟩
    ⟨by decide, by decide, by decide, by decide⟩
    ⟨by decide, by decide, by simp [ShardOperation.HasRoom]⟩

/-- A pool of `2 ^ 31` frames can be told from a pool of two by the first deletion. -/
theorem not_runsAlike_two_pow :
    ¬RunsAlike (F := ℚ) (newMachine 0 ⟨3, 0⟩ Host.empty 2 0) (newMachine 0 ⟨3, 0⟩ Host.empty (2 ^ 31) 0)
      [.update (.delete 4)] := by
  have hfree : Host.empty.FaultFree := ⟨rfl, rfl, rfl, rfl⟩
  have husable : ShardOperation.Usable (F := ℚ) [.update (.delete 4)] :=
    ⟨by decide, by decide, by simp [ShardOperation.HasRoom]⟩
  obtain ⟨s, -, hrun⟩ := exec_runFreshOperations hfree rfl ⟨3, 0⟩ husable
  obtain ⟨n, hexec, -⟩ := hrun 0 2 0 ⟨le_refl 0, le_refl 2, by decide, by decide⟩
  have hother := exec_delete_of_no_attempts (F := ℚ) hfree (le_refl 0) ⟨3, 0⟩ clockAttempts_two_pow 0 4
  rintro ⟨result, n', n'', hexec', hexec'', -⟩
  rw [hexec, Option.some.injEq, Prod.mk.injEq] at hexec'
  rw [hother, Option.some.injEq, Prod.mk.injEq] at hexec''
  have hsame := Option.some.inj (hexec'.1.trans hexec''.1.symm)
  have hanswers := congrArg Prod.fst hsame
  change [ShardAnswer.bool true] = [ShardAnswer.bool false] at hanswers
  exact absurd hanswers (by simp)

end FtsUring
