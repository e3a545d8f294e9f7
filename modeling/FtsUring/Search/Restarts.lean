import FtsUring.Search.Reopening

/-!
# The page counter over restarts

The page counter of a shard has two sources: the size of the data file, and the metadata file that the last
close left. The second one wins, also when a later session that was cut off has made the data file longer.
-/

namespace FtsUring

open Foundation

variable {F : Type} [Double F]

/-! ## Sessions -/

/-- Open the files of a shard and make a sequence of calls. -/
def runSession (fileSize : ℕ) (saved : Option (ShardMetadata F)) (operations : List (ShardOperation F)) :
    PageProgram (Option (List (ShardAnswer F) × Shard F)) := do
  match ← shardInit fileSize saved with
  | none => return none
  | some shard => return some (← runOperations shard operations)

/-- The files, and the valid metadata file if there is one, that sessions leave on a shard. A session is
closed, or it is cut off before one of its calls to the pool. The outcomes of its reads and writes are
those queued in the host. -/
inductive FilesLeft (F : Type) [Double F] : Host → Option (ShardMetadata F) → Prop
  | new {host : Host} (hempty : host.dataFile = []) : FilesLeft F host none
  | closed {host : Host} {saved : Option (ShardMetadata F)} (hleft : FilesLeft F host saved)
      {diskFd : ℤ} {wal : WALManager} {poolSize nextPageId : ℕ} {operations : List (ShardOperation F)}
      {answers : List (ShardAnswer F)} {shard : Shard F} {m : Machine}
      (hrun : poolHandler.exec (runSession host.dataFile.length saved operations)
        (newMachine diskFd wal host poolSize nextPageId) = some (some (answers, shard), m)) :
      FilesLeft F (shardCloseWithPath shard m).2 (some (shardCloseWithPath shard m).1)
  | crashed {host : Host} {saved : Option (ShardMetadata F)} (hleft : FilesLeft F host saved)
      {diskFd : ℤ} {wal : WALManager} {poolSize nextPageId : ℕ} {operations : List (ShardOperation F)}
      {m : Machine} (hrun : poolHandler.Reaches (runSession host.dataFile.length saved operations)
        (newMachine diskFd wal host poolSize nextPageId) m) :
      FilesLeft F m.storage.host saved

/-! ## The counter of an opened shard -/

/-- A command that leaves the page counter as it is. -/
def PageCommand.KeepsCounter : PageCommand → Prop
  | .takePageId => False
  | .setNextPageId _ => False
  | _ => True

/-- A program of such commands leaves the page counter as it is, whatever the reads and writes do. -/
theorem nextPageId_exec {α : Type} {p : PageProgram α} (hp : p.Calls PageCommand.KeepsCounter)
    {m m' : Machine} {value : α} (hexec : poolHandler.exec p m = some (value, m')) :
    m'.nextPageId = m.nextPageId := by
  apply @Program.Calls.exec _ _ _ _ p hp poolHandler (fun n => n.nextPageId = m.nextPageId) ?_ _ _ _
    rfl hexec
  intro command hallowed n answer n' hsame hrun
  rw [← hsame]
  cases command with
  | takePageId => exact hallowed.elim
  | setNextPageId value => exact hallowed.elim
  | pageData pageId =>
    simp only [poolHandler, Option.map_eq_some_iff, Prod.mk.injEq] at hrun
    obtain ⟨i, -, -, rfl⟩ := hrun
    rfl
  | modifyPage pageId change =>
    simp only [poolHandler, Option.map_eq_some_iff, Prod.mk.injEq] at hrun
    obtain ⟨i, -, -, rfl⟩ := hrun
    rfl
  | writeZeroPage pageId =>
    simp only [poolHandler] at hrun
    split_ifs at hrun with hclosed
    · simp only [Option.some.injEq, Prod.mk.injEq] at hrun
      exact hrun.2 ▸ rfl
    · simp only [Option.some.injEq, Prod.mk.injEq] at hrun
      exact hrun.2 ▸ rfl
  | walAppend txnId recType pageId slotId payload =>
    simp only [poolHandler, Option.map_eq_some_iff, Prod.mk.injEq] at hrun
    obtain ⟨wal, -, -, rfl⟩ := hrun
    rfl
  | _ =>
    simp only [poolHandler, Option.some.injEq, Prod.mk.injEq] at hrun
    exact hrun.2 ▸ rfl

/-- Setting up the root of the tree takes no page. -/
theorem calls_btreeInit (rootPageId : ℕ) : (btreeInit rootPageId).Calls PageCommand.KeepsCounter := by
  rw [btreeInit]
  apply Program.Calls.bind (.perform trivial)
  intro found
  split_ifs with hfound
  · apply Program.Calls.bind (.perform trivial)
    intro page
    split_ifs with htype
    · exact .bind (.perform trivial) fun _ => .perform trivial
    · exact .perform trivial
  · exact .pure _

/-- Looking for the active page takes no page. -/
theorem calls_lastDataPage (pageId : ℕ) : (lastDataPage pageId).Calls PageCommand.KeepsCounter := by
  induction pageId with
  | zero => exact .pure _
  | succ pageId ih =>
    rw [lastDataPage]
    split_ifs with hlow
    · exact .pure _
    apply Program.Calls.bind (.perform trivial)
    intro found
    split_ifs with hfound
    · apply Program.Calls.bind (.perform trivial)
      intro page
      apply Program.Calls.bind (.perform trivial)
      intro _
      split_ifs with htype
      · exact .pure _
      · exact ih
    · exact ih

/-- The page counter with which a shard is opened over a data file that is not empty. -/
def openedCounter (fileSize : ℕ) : Option (ShardMetadata F) → ℕ
  | none => max 3 (fileSize / pageSize % 2 ^ 32)
  | some saved => saved.nextPageId.toNat

/-- The page counter of an opened shard, whatever the reads and writes do. -/
theorem nextPageId_shardInit {fileSize : ℕ} (hsize : fileSize ≠ 0) {saved : Option (ShardMetadata F)}
    {shard : Shard F} {m m' : Machine}
    (hexec : poolHandler.exec (shardInit fileSize saved) m = some (some shard, m')) :
    m'.nextPageId = openedCounter fileSize saved := by
  have hset : ∀ value (n n' : Machine), poolHandler.exec (setNextPageId value) n = some ((), n') →
      n'.nextPageId = value % 2 ^ 32 := by
    intro value n n' hrun
    rw [setNextPageId, Handler.exec_perform] at hrun
    simp only [poolHandler, Option.some.injEq, Prod.mk.injEq] at hrun
    exact hrun.2 ▸ rfl
  have hsearch : ∀ (answer : Option ℕ → PageProgram (Option (Shard F))) (n : Machine),
      (∀ found, ∃ value, answer found = pure value) → poolHandler.exec (do
        let next ← nextPageId
        answer (← lastDataPage ((next + 2 ^ 32 - 1) % 2 ^ 32))) n = some (some shard, m') →
        m'.nextPageId = n.nextPageId := by
    intro answer n hanswer hrun
    rw [Handler.exec_bind_eq_some] at hrun
    obtain ⟨next, asked, hasked, hrun⟩ := hrun
    rw [Handler.exec_bind_eq_some] at hrun
    obtain ⟨found, last, hlast, hrun⟩ := hrun
    have hsame : last = m' := by
      obtain ⟨value, hvalue⟩ := hanswer found
      rw [hvalue] at hrun
      exact (Prod.mk.inj (Option.some.inj hrun)).2
    rw [← hsame, nextPageId_exec (calls_lastDataPage _) hlast,
      nextPageId_exec (p := nextPageId) ⟨trivial, fun _ => trivial⟩ hasked]
  rw [shardInit, if_neg hsize, Handler.exec_bind_eq_some] at hexec
  obtain ⟨⟨⟩, counted, hcounted, hexec⟩ := hexec
  rw [Handler.exec_bind_eq_some] at hexec
  obtain ⟨⟨⟩, rooted, hrooted, hexec⟩ := hexec
  cases saved with
  | none =>
    simp only [pure_bind, if_neg hsize] at hexec
    rw [hsearch _ _ (fun found => by cases found <;> exact ⟨_, rfl⟩) hexec,
      nextPageId_exec (calls_btreeInit _) hrooted, hset _ _ _ hcounted, openedCounter]
    omega
  | some saved =>
    simp only [pure_bind, if_neg hsize] at hexec
    rw [Handler.exec_bind_eq_some] at hexec
    obtain ⟨⟨⟩, restored, hrestored, hexec⟩ := hexec
    rw [hsearch _ _ (fun found => by cases found <;> exact ⟨_, rfl⟩) hexec, hset _ _ _ hrestored, openedCounter]
    exact Nat.mod_eq_of_lt saved.nextPageId.toNat_lt

/-! ## Pages that the file already contains -/

/-- No page that the counter gives out from now on, until it wraps, is in the data file. -/
def CountsPastFile (host : Host) (m : Machine) : Prop :=
  host.dataFile.length / pageSize ≤ m.nextPageId ∧
    ∀ taken, m.nextPageId + taken < 2 ^ 32 → ¬host.Stores (m.nextPageId + taken)

/-- The page ids reach the end of the data file; with a metadata file, already the counter that was saved
when the shard was last closed does. -/
def CounterCovers (fileSize : ℕ) : Option (ShardMetadata F) → Prop
  | none => fileSize / pageSize < 2 ^ 32
  | some saved => fileSize / pageSize ≤ saved.nextPageId.toNat

omit [Double F] in
/-- A counter that reaches the end of the file counts past it. -/
theorem countsPastFile_of_le {host : Host} {m : Machine}
    (hle : host.dataFile.length / pageSize ≤ m.nextPageId) : CountsPastFile host m := by
  have hsize : 0 < pageSize := by decide
  refine ⟨hle, fun taken _ hstores => ?_⟩
  have hfile := (Nat.le_div_iff_mul_le hsize).mpr hstores
  omega

/-- Opening a shard counts past the data file exactly when there is no metadata file, and the file has
fewer than `2 ^ 32` pages, or the file did not outgrow the counter in the metadata file. -/
theorem countsPastFile_iff {host : Host} {saved : Option (ShardMetadata F)} {diskFd : ℤ} {wal : WALManager}
    {poolSize counter : ℕ} {shard : Shard F} {m : Machine}
    (hexec : poolHandler.exec (shardInit host.dataFile.length saved)
      (newMachine diskFd wal host poolSize counter) = some (some shard, m)) :
    CountsPastFile host m ↔ CounterCovers host.dataFile.length saved := by
  have hle : CountsPastFile host m ↔ host.dataFile.length / pageSize ≤ m.nextPageId :=
    ⟨fun h => h.1, countsPastFile_of_le⟩
  rw [hle]
  by_cases hsize : host.dataFile.length = 0
  · rw [hsize, Nat.zero_div]
    cases saved with
    | none => exact ⟨fun _ => (by decide : 0 / pageSize < 2 ^ 32), fun _ => Nat.zero_le _⟩
    | some saved => exact ⟨fun _ => (Nat.zero_div pageSize).trans_le (Nat.zero_le _), fun _ => Nat.zero_le _⟩
  rw [nextPageId_shardInit hsize hexec]
  cases saved with
  | none =>
    rw [openedCounter, CounterCovers]
    omega
  | some saved => rfl

/-- A shard with a document, closed and opened again with its metadata file, counts past its data file. -/
theorem countsPastFile_iff_reopened : ∃ (shard : Shard ℚ) (n : Machine),
    poolHandler.exec (runFreshShard [.insert (.ofTerms 1 1 [7] (by decide))]) (newMachine 0 ⟨3, 0⟩ Host.empty 2 0) =
      some (some ([true], shard), n) ∧
    ∃ reopened m, poolHandler.exec (shardInit (shardCloseWithPath shard n).2.dataFile.length
        (some (shardCloseWithPath shard n).1)) (newMachine 0 ⟨3, 0⟩ (shardCloseWithPath shard n).2 2 0) =
          some (some reopened, m) ∧
      CountsPastFile (shardCloseWithPath shard n).2 m := by
  have hfree : Host.empty.FaultFree := ⟨rfl, rfl, rfl, rfl⟩
  have hpool : UsablePool 0 2 0 := ⟨le_refl 0, le_refl 2, by decide, by decide⟩
  obtain ⟨s, hs, hrun⟩ := @exec_runFreshShard ℚ _ Host.empty hfree rfl ⟨3, 0⟩
    [.insert (.ofTerms 1 1 [7] (by decide))] (by decide)
  obtain ⟨n, hexec, hn⟩ := hrun 0 2 0 hpool
  refine ⟨_, n, hexec, ?_⟩
  set shard := (Shard.initial : Shard ℚ).afterUpdates ShardView.fresh [.insert (.ofTerms 1 1 [7] (by decide))]
  obtain ⟨m, t, hreopen, -⟩ := exec_reopen hs hn shard hpool ⟨3, 0⟩
  refine ⟨_, m, hreopen, (countsPastFile_iff hreopen).mpr ?_⟩
  -- the metadata file has the counter, which is the number of pages of the data file
  have hpages := (hs.shardAt_reopened hn (shardCloseWithPath_host shard hn.faultFree hn.wellFormed).1 ⟨3, 0⟩).2.2
  have hsaved : (shardCloseWithPath shard n).1.nextPageId = UInt32.ofNat n.nextPageId := rfl
  rw [CounterCovers, hpages, hsaved, hn.nextPageId, hs.counter]
  decide

/-! ## Opening any file -/

/-- What every page holds is known. -/
def PageArray.Certain (s : PageArray) : Prop := ∀ pageId, ∃ page, s.Holds pageId page

/-- Setting up the root ends. -/
theorem PageArray.Certain.ensures_btreeInit {s : PageArray} (h : s.Certain) (hidle : s.Idle)
    (hextent : btreeRootPageId < s.extent) :
    arrayHandler.Ensures (btreeInit btreeRootPageId) s fun _ t => t.Certain ∧ t.Idle := by
  have hvalid : btreeRootPageId < invalidPageId := by decide
  obtain ⟨page, hholds⟩ := h btreeRootPageId
  rw [btreeInit]
  refine .step (PageArray.exec_fetchPage (hidle.fetchable hvalid)) ?_
  rw [if_pos rfl]
  refine .step (PageArray.exec_pageData (s.mem_pins_pin _) hholds) ?_
  split_ifs with htype
  · refine .step (PageArray.exec_modifyPage_of_holds (s.mem_pins_pin _) hholds _) ?_
    obtain ⟨hunpin, hsettles, hroot⟩ := PageArray.settles_unpin_change hidle hextent
      (slottedPageComputeChecksum
        ((slottedPageInit btreeRootPageId .btreeLeaf).setNextLeafId invalidPageId))
    refine .of_exec hunpin ⟨fun pageId => ?_, hsettles.idle hidle⟩
    by_cases hpage : pageId = btreeRootPageId
    · rw [hpage]
      exact ⟨_, hroot⟩
    · obtain ⟨other, hother⟩ := h pageId
      refine ⟨other, ?_⟩
      exact (PageArray.content_change_of_lt (s.pin btreeRootPageId) hextent hpage _).trans hother
  · exact .of_exec (PageArray.exec_unpinPage_clean hidle _ .normal) ⟨h, hidle⟩

/-- Looking for the active page ends. -/
theorem PageArray.Certain.exec_lastDataPage {s : PageArray} (h : s.Certain) (hidle : s.Idle) {pageId : ℕ}
    (hpage : pageId < invalidPageId) :
    ∃ found, arrayHandler.exec (lastDataPage pageId) s = some (found, s) := by
  induction pageId with
  | zero => exact ⟨none, rfl⟩
  | succ pageId ih =>
    rw [lastDataPage]
    split_ifs with hlow
    · exact ⟨none, rfl⟩
    obtain ⟨page, hholds⟩ := h (pageId + 1)
    rw [Handler.exec_bind_of_eq _ (PageArray.exec_fetchPage (hidle.fetchable hpage)), if_pos rfl,
      Handler.exec_bind_of_eq _ (PageArray.exec_pageData (s.mem_pins_pin _) hholds),
      Handler.exec_bind_of_eq _ (PageArray.exec_unpinPage_clean hidle _ .normal)]
    split_ifs with htype
    · exact ⟨some (pageId + 1), rfl⟩
    · exact ih (by omega)

/-- A file of at least one page is opened, whatever it contains. -/
theorem exec_shardInit_any {host : Host} (hfree : host.FaultFree) (hsize : pageSize ≤ host.dataFile.length)
    {saved : ShardMetadata F} (hcounter : 0 < saved.nextPageId.toNat) {diskFd : ℤ} {poolSize counter : ℕ}
    (hpool : UsablePool diskFd poolSize counter) (wal : WALManager) :
    ∃ shard m, poolHandler.exec (shardInit host.dataFile.length (some saved))
      (newMachine diskFd wal host poolSize counter) = some (some shard, m) := by
  have hpositive : 0 < pageSize := by decide
  have hinvalid : invalidPageId = 2 ^ 32 - 1 := rfl
  have hnonempty : host.dataFile.length ≠ 0 := by omega
  have hbound := saved.nextPageId.toNat_lt
  have hcounted : max 3 (host.dataFile.length / pageSize % 2 ^ 32) < 2 ^ 32 := by omega
  set counted := PageArray.ofHost host (some wal) 2 (max 3 (host.dataFile.length / pageSize % 2 ^ 32))
  have hidle : counted.Idle := ⟨rfl, le_refl 2, (by decide : 0 + 2 < 2 ^ 32)⟩
  have hcertain : counted.Certain := fun pageId => ⟨host.diskPage pageId, rfl⟩
  have hextent : btreeRootPageId < counted.extent := Nat.div_pos hsize hpositive
  obtain ⟨⟨⟩, rooted, hroot, hrooted, hidle'⟩ := hcertain.ensures_btreeInit hidle hextent
  set restored : PageArray := { rooted with nextPageId := saved.nextPageId.toNat }
  have hrestoredIdle : restored.Idle := ⟨hidle'.touched, hidle'.room, hidle'.pinLimit⟩
  have hrestored : restored.Certain := hrooted
  obtain ⟨found, hfound⟩ := hrestored.exec_lastDataPage hrestoredIdle
    (by omega : (saved.nextPageId.toNat + 2 ^ 32 - 1) % 2 ^ 32 < invalidPageId)
  have harray : ∃ shard, arrayHandler.exec (shardInit host.dataFile.length (some saved))
      (PageArray.ofHost host (some wal) 2 counter) = some (some shard, restored) := by
    have hset : arrayHandler.exec (setNextPageId (max 3 (host.dataFile.length / pageSize % 2 ^ 32)))
        (PageArray.ofHost host (some wal) 2 counter) = some ((), counted) :=
      PageArray.exec_setNextPageId hcounted
    rw [shardInit, if_neg hnonempty, Handler.exec_bind_of_eq _ hset, Handler.exec_bind_of_eq _ hroot]
    simp only [pure_bind, if_neg hnonempty]
    rw [Handler.exec_bind_of_eq _ (PageArray.exec_setNextPageId hbound),
      Handler.exec_bind_of_eq _ (PageArray.exec_nextPageId _), Handler.exec_bind_of_eq _ hfound]
    cases found with
    | none => exact ⟨_, rfl⟩
    | some pageId => exact ⟨_, rfl⟩
  obtain ⟨shard, hshard⟩ := harray
  obtain ⟨m, hexec, -⟩ := poolHandler_simulates.exec
    (represents_bufferPoolInit hfree hpool.opened (some wal) hpool.small hpool.frames hpool.counter) hshard
  exact ⟨shard, m, hexec⟩

/-! ## A page counter that goes back -/

/-- A new shard is closed and opened again, a document with two terms is inserted, and the process is
killed: the metadata file still has the counter of the empty shard, and pages behind it are in use. -/
theorem not_countsPastFile :
    ¬∀ (host : Host) (saved : Option (ShardMetadata ℚ)), FilesLeft ℚ host saved →
      ∀ diskFd wal poolSize counter shard m,
        poolHandler.exec (shardInit host.dataFile.length saved)
          (newMachine diskFd wal host poolSize counter) = some (some shard, m) →
        CountsPastFile host m := by
  intro hall
  have hpool : UsablePool 0 2 0 := ⟨le_refl 0, le_refl 2, by decide, by decide⟩
  have hnew : FilesLeft ℚ Host.empty none := .new rfl
  -- the first session
  have husable : ShardOperation.Usable ([] : List (ShardOperation ℚ)) := ⟨by decide, nofun, nofun⟩
  have hfree : Host.empty.FaultFree := ⟨rfl, rfl, rfl, rfl⟩
  obtain ⟨s, hs, hrun⟩ := exec_runFreshOperations hfree rfl ⟨3, 0⟩ husable
  obtain ⟨n, hexec, hn⟩ := hrun 0 2 0 hpool
  set shard := (Shard.initial : Shard ℚ)
  have hclosed := hnew.closed hexec
  -- the second session
  have hshard : ShardAt s ShardView.fresh := hs.shardAt
  obtain ⟨n', t, hreopen, hn', ht, -⟩ := exec_reopen hshard hn shard hpool ⟨3, 0⟩
  set doc := Document.ofTerms 1 1 [1, 2] (by decide)
  have hactive : ShardView.fresh.rediscoveredPage = firstDataPageId :=
    ht.rediscoveredPage_eq_iff.mpr fun pageId _ ⟨termId, items, hmem, _⟩ => absurd hmem List.not_mem_nil
  have hmatches : ({ shard with activeDataPageId := ShardView.fresh.rediscoveredPage } : Shard ℚ).Matches
      ShardView.fresh := ⟨hactive, rfl⟩
  have hroom : ∀ operation ∈ [(.update (.insert doc) : ShardOperation ℚ)], operation.HasRoom := by
    simp [ShardOperation.HasRoom]
  obtain ⟨result, u, hinsert, -, hu⟩ := IndexedShardAt.ensures_runOperations
    ⟨ht, Indexed.fresh, ShardView.noRecordSlots_fresh⟩ hmatches hroom (by decide) (by decide)
  obtain ⟨m, hinserted, hm⟩ := poolHandler_simulates.exec hn' hinsert
  have hsession : poolHandler.exec (runSession (shardCloseWithPath shard n).2.dataFile.length
      (some (shardCloseWithPath shard n).1) [.update (.insert doc)])
        (newMachine 0 ⟨3, 0⟩ (shardCloseWithPath shard n).2 2 0) = some (some result, m) := by
    rw [runSession, Handler.exec_bind_of_eq _ hreopen, Handler.exec_bind_of_eq _ hinserted]
    rfl
  have hleft := hclosed.crashed (.of_exec hsession)
  -- one of the three pages of the insertion is in the file
  have hframes : m.storage.bpm.poolSize = 2 :=
    (poolSize_exec hsession).trans (List.length_replicate : (List.replicate 2 Frame.empty).length = 2)
  have hextent : u.extent = 6 := hu.shardAt.extent.trans (by decide)
  have hmany : 3 + m.storage.bpm.poolSize < u.extent := by omega
  obtain ⟨pageId, hlow, hstores⟩ := hm.exists_stores hu.shardAt.idle.touched hmany
    fun pageId hpage => hu.shardAt.exists_holds (hu.shardAt.extent ▸ hpage)
  have hpages : 4 ≤ m.storage.host.dataFile.length / pageSize := by
    have hstored := (Nat.le_div_iff_mul_le (by decide : 0 < pageSize)).mpr hstores
    omega
  -- the third session
  have hsaved : (shardCloseWithPath shard n).1.nextPageId.toNat = 3 := by
    change (UInt32.ofNat n.nextPageId).toNat = 3
    rw [hn.nextPageId, hs.shardAt.counter]
    rfl
  have hsize : pageSize ≤ m.storage.host.dataFile.length := by
    have hle := (Nat.le_div_iff_mul_le (by decide : 0 < pageSize)).mp hpages
    omega
  have hpositive : 0 < (shardCloseWithPath shard n).1.nextPageId.toNat := by omega
  obtain ⟨reopened, k, hopen⟩ := exec_shardInit_any hm.faultFree hsize hpositive hpool ⟨3, 0⟩
  have hcounts := hall _ _ hleft _ _ _ _ _ _ hopen
  have hcounter := nextPageId_shardInit (Nat.ne_of_gt (Nat.lt_of_lt_of_le (by decide) hsize)) hopen
  rw [openedCounter, hsaved] at hcounter
  have hle := hcounts.1
  omega

end FtsUring
