import FtsUring.BTree.Map
import FtsUring.Shard.Inserting

/-!
# New shards

`shardInit` on an empty data file: three pages are zeroed in the file before the pool is used, then
the tombstone page, the first data page and the root of the B-tree are formatted in the pool. What
it leaves is the content `ShardView.fresh`, whatever the number of frames.
-/

namespace FtsUring

open Foundation

/-- A host after a page was zeroed in its data file. -/
def Host.zeroPage (host : Host) (pageId : ℕ) : Host :=
  { host with dataFile := pwriteFile host.dataFile (pageId * pageSize) Page.zero.bytes }

/-- A host after the three pages of a new shard were zeroed. -/
def Host.zeroShard (host : Host) : Host :=
  ((host.zeroPage btreeRootPageId).zeroPage tombstonePageId).zeroPage firstDataPageId

/-- Zeroing a page fails no other call. -/
theorem Host.FaultFree.zeroPage {host : Host} (h : host.FaultFree) (pageId : ℕ) :
    (host.zeroPage pageId).FaultFree :=
  ⟨h.pageReads, h.pageWrites, h.walWrites, h.walSyncs⟩

/-- The pages of a new shard lie in its data file, and nothing else does. -/
theorem Host.zeroShard_pages {host : Host} (hempty : host.dataFile = []) :
    host.zeroShard.HoldsPage btreeRootPageId Page.zero ∧
      host.zeroShard.dataFile.length = 3 * pageSize := by
  have hnonempty : Page.zero.bytes ≠ [] := by
    rw [← List.length_pos_iff, Page.zero.size]
    decide
  have hlength : ∀ (host : Host) (pageId : ℕ), (host.zeroPage pageId).dataFile.length =
      max host.dataFile.length (pageId * pageSize + pageSize) := by
    intro host pageId
    rw [Host.zeroPage, length_pwriteFile _ _ hnonempty, Page.zero.size]
  refine ⟨?_, ?_⟩
  · obtain ⟨hself, -⟩ := @holdsPage_pwriteFile host (host.zeroPage btreeRootPageId) Page.zero
      btreeRootPageId rfl
    obtain ⟨-, hother⟩ := @holdsPage_pwriteFile (host.zeroPage btreeRootPageId)
      ((host.zeroPage btreeRootPageId).zeroPage tombstonePageId) Page.zero tombstonePageId rfl
    obtain ⟨-, hlast⟩ := @holdsPage_pwriteFile
      ((host.zeroPage btreeRootPageId).zeroPage tombstonePageId) host.zeroShard Page.zero
      firstDataPageId rfl
    exact hlast _ _ (by decide) (hother _ _ (by decide) hself)
  · rw [Host.zeroShard, hlength, hlength, hlength, hempty]
    decide

/-- Zeroing a page before the pool was used. -/
theorem exec_writeZeroPage_init {host : Host} (hfree : host.FaultFree) {diskFd : ℤ} (hopen : 0 ≤ diskFd)
    (wal : Option WALManager) (poolSize nextPageId pageId : ℕ) :
    poolHandler.exec (writeZeroPage pageId) ⟨bufferPoolInit diskFd wal host poolSize, nextPageId⟩ =
      some (true, ⟨bufferPoolInit diskFd wal (host.zeroPage pageId) poolSize, nextPageId⟩) := by
  set st := bufferPoolInit diskFd wal host poolSize
  rw [writeZeroPage, Handler.exec_perform]
  change (if diskFd < 0 then some (false, (⟨st, nextPageId⟩ : Machine)) else
    some (decide (0 ≤ (ftsVfsWriteSync host Page.zero.bytes (pageId * pageSize)).1),
      (⟨{ st with host := (ftsVfsWriteSync host Page.zero.bytes (pageId * pageSize)).2 }, nextPageId⟩ :
        Machine))) = _
  rw [if_neg (not_lt.mpr hopen), ftsVfsWriteSync_eq hfree]
  rfl

/-- The pages of a new shard that are formatted in the pool. -/
def formatPages : PageProgram Bool := do
  if ← fetchPage tombstonePageId then
    modifyPage tombstonePageId fun _ => ftsTombstoneInit tombstonePageId
    unpinPage tombstonePageId true .normal
  if ← fetchPage firstDataPageId then
    modifyPage firstDataPageId fun _ => slottedPageInit firstDataPageId .vectorData
    unpinPage firstDataPageId true .normal
  setNextPageId 3
  return true

/-- Formatting a new shard is zeroing three pages and formatting two of them in the pool. -/
theorem exec_shardFormat {host : Host} (hfree : host.FaultFree) {diskFd : ℤ} (hopen : 0 ≤ diskFd)
    (wal : Option WALManager) (poolSize nextPageId : ℕ) :
    poolHandler.exec shardFormat ⟨bufferPoolInit diskFd wal host poolSize, nextPageId⟩ =
      poolHandler.exec formatPages ⟨bufferPoolInit diskFd wal host.zeroShard poolSize, nextPageId⟩ := by
  have hroot := hfree.zeroPage btreeRootPageId
  have htombstone := hroot.zeroPage tombstonePageId
  rw [shardFormat, Handler.exec_bind_of_eq _ (exec_writeZeroPage_init hfree hopen wal _ _ _)]
  simp only [Bool.not_true, Bool.false_eq_true, if_false]
  rw [Handler.exec_bind_of_eq _ (exec_writeZeroPage_init hroot hopen wal _ _ _)]
  simp only [Bool.not_true, Bool.false_eq_true, if_false]
  rw [Handler.exec_bind_of_eq _ (exec_writeZeroPage_init htombstone hopen wal _ _ _)]
  rfl

/-! ## The pages in the pool -/

/-- The array of a new shard before its pages are formatted. -/
def PageArray.zeroShard (host : Host) (wal : WALManager) (nextPageId : ℕ) : PageArray :=
  PageArray.ofHost host.zeroShard (some wal) 2 nextPageId

/-- Format one page. -/
def PageArray.format (s : PageArray) (pageId : ℕ) (page : Page) : PageArray :=
  ((s.pin pageId).change pageId page).unpin pageId true

/-- The array of a new shard. -/
def PageArray.freshShard (host : Host) (wal : WALManager) (nextPageId : ℕ) : PageArray :=
  ((PageArray.zeroShard host wal nextPageId).format tombstonePageId
    (ftsTombstoneInit tombstonePageId)).format firstDataPageId
      (slottedPageInit firstDataPageId .vectorData)

/-- Nothing is pinned in the array of a new shard. -/
theorem PageArray.idle_zeroShard (host : Host) (wal : WALManager) (nextPageId : ℕ) :
    (PageArray.zeroShard host wal nextPageId).Idle :=
  ⟨rfl, le_refl 2, (by decide : 0 + 2 < 2 ^ 32)⟩

/-- The array of a new shard has three pages. -/
theorem PageArray.extent_zeroShard {host : Host} (hempty : host.dataFile = []) (wal : WALManager)
    (nextPageId : ℕ) : (PageArray.zeroShard host wal nextPageId).extent = 3 := by
  change host.zeroShard.dataFile.length / pageSize = 3
  rw [(Host.zeroShard_pages hempty).2]
  exact Nat.mul_div_cancel _ (by decide)

/-- Formatting the pages of a new shard changes these pages only. -/
theorem PageArray.settles_freshShard {host : Host} (hempty : host.dataFile = []) (wal : WALManager)
    (nextPageId : ℕ) :
    (PageArray.zeroShard host wal nextPageId).Settles (PageArray.freshShard host wal nextPageId)
        {tombstonePageId, firstDataPageId} ∧
      (PageArray.freshShard host wal nextPageId).Holds tombstonePageId
        (ftsTombstoneInit tombstonePageId) ∧
      (PageArray.freshShard host wal nextPageId).Holds firstDataPageId
        (slottedPageInit firstDataPageId .vectorData) := by
  have hextent := PageArray.extent_zeroShard hempty wal nextPageId
  have hwritten : tombstonePageId < (PageArray.zeroShard host wal nextPageId).extent :=
    lt_of_lt_of_eq (by decide) hextent.symm
  obtain ⟨-, hfirst, hholds⟩ := PageArray.settles_unpin_change
    (PageArray.idle_zeroShard host wal nextPageId) hwritten (ftsTombstoneInit tombstonePageId)
  have hextent' : 3 ≤ ((PageArray.zeroShard host wal nextPageId).format tombstonePageId
      (ftsTombstoneInit tombstonePageId)).extent := hextent ▸ hfirst.evolves.extent
  have hlt : firstDataPageId < ((PageArray.zeroShard host wal nextPageId).format tombstonePageId
      (ftsTombstoneInit tombstonePageId)).extent := lt_of_lt_of_le (by decide) hextent'
  obtain ⟨-, hsecond, hholds'⟩ := PageArray.settles_unpin_change
    (hfirst.idle (PageArray.idle_zeroShard host wal nextPageId)) hlt
    (slottedPageInit firstDataPageId .vectorData)
  refine ⟨hfirst.trans hsecond, ?_, hholds'⟩
  exact hsecond.evolves.holds (lt_of_lt_of_le (by decide) hextent') (by decide) hholds

/-- Formatting the pages of a new shard. -/
theorem exec_formatPages {host : Host} (hempty : host.dataFile = []) (wal : WALManager)
    (nextPageId : ℕ) :
    arrayHandler.exec formatPages (PageArray.zeroShard host wal nextPageId) =
      some (true, PageArray.freshShard host wal 3) := by
  have hidle := PageArray.idle_zeroShard host wal nextPageId
  have hextent := PageArray.extent_zeroShard hempty wal nextPageId
  have hvalid : tombstonePageId < invalidPageId := by decide
  have hvalid' : firstDataPageId < invalidPageId := by decide
  set first := (PageArray.zeroShard host wal nextPageId).format tombstonePageId
    (ftsTombstoneInit tombstonePageId) with hfirst
  have hwritten : tombstonePageId < (PageArray.zeroShard host wal nextPageId).extent :=
    lt_of_lt_of_eq (by decide) hextent.symm
  have hwritten' : firstDataPageId < (PageArray.zeroShard host wal nextPageId).extent :=
    lt_of_lt_of_eq (by decide) hextent.symm
  obtain ⟨hunpin, hsettles, -⟩ : arrayHandler.exec (unpinPage tombstonePageId true .normal) _ =
      some ((), first) ∧ (PageArray.zeroShard host wal nextPageId).Settles first _ ∧ _ :=
    PageArray.settles_unpin_change hidle hwritten (ftsTombstoneInit tombstonePageId)
  have hidle' : first.Idle := hsettles.idle hidle
  have hlt : firstDataPageId < first.extent := hwritten'.trans_le hsettles.evolves.extent
  obtain ⟨hunpin', -, -⟩ := PageArray.settles_unpin_change hidle' hlt
    (slottedPageInit firstDataPageId .vectorData)
  have hheld : first.Holds firstDataPageId (host.zeroShard.diskPage firstDataPageId) :=
    hsettles.evolves.holds hwritten' (by decide) rfl
  have hmodify := PageArray.exec_modifyPage_of_holds
    ((PageArray.zeroShard host wal nextPageId).mem_pins_pin tombstonePageId)
    (rfl : (PageArray.zeroShard host wal nextPageId).Holds _ (host.zeroShard.diskPage tombstonePageId))
    fun _ => ftsTombstoneInit tombstonePageId
  have hmodify' := PageArray.exec_modifyPage_of_holds (first.mem_pins_pin firstDataPageId) hheld
    fun _ => slottedPageInit firstDataPageId .vectorData
  rw [formatPages, Handler.exec_bind_of_eq _ (PageArray.exec_fetchPage (hidle.fetchable hvalid)),
    if_pos rfl, Handler.exec_bind_of_eq _ hmodify, Handler.exec_bind_of_eq _ hunpin]
  simp only
  rw [Handler.exec_bind_of_eq _ (PageArray.exec_fetchPage (hidle'.fetchable hvalid')),
    if_pos rfl, Handler.exec_bind_of_eq _ hmodify', Handler.exec_bind_of_eq _ hunpin',
    Handler.exec_bind_of_eq _ (PageArray.exec_setNextPageId (by decide))]
  rfl

/-! ## The new shard -/

/-- A new shard in the array. -/
theorem shardAt_btreeInit {host : Host} (hempty : host.dataFile = []) (wal : WALManager) :
    arrayHandler.Ensures (btreeInit btreeRootPageId) (PageArray.freshShard host wal 3) fun _ t =>
      ShardAt t ShardView.fresh := by
  set start := PageArray.zeroShard host wal 3
  obtain ⟨hsettles, htombstones, hdata⟩ := PageArray.settles_freshShard hempty wal 3
  set formatted := PageArray.freshShard host wal 3
  have hextent : start.extent = 3 := PageArray.extent_zeroShard hempty wal 3
  have hidle : formatted.Idle := hsettles.idle (PageArray.idle_zeroShard host wal 3)
  obtain ⟨-, hzero⟩ := (Host.zeroShard_pages hempty).1.diskPage_eq
  have hroot : formatted.Holds btreeRootPageId Page.zero := by
    refine hsettles.evolves.holds (lt_of_lt_of_eq (by decide) hextent.symm) (by decide) ?_
    change ({host.zeroShard.diskPage btreeRootPageId} : Set Page) = {Page.zero}
    rw [hzero]
  have htype : Page.zero.pageType = 0 := Page.field_zero _ _
  have hcompact : formatted.extent = 3 := hsettles.evolves.compact hextent
  refine (ensures_btreeInit hidle (by decide) hroot (by rw [htype]; decide)
    (by rw [htype]; decide)).mono ?_
  rintro - t ⟨htree, hidle', hcounter, hsettles'⟩
  have hsettles' := hsettles' (lt_of_lt_of_eq (by decide) hcompact.symm)
  have hextent' : t.extent = 3 := (hsettles'.evolves.compact hcompact).trans hcounter
  have hall := hsettles.trans hsettles'
  refine ⟨hidle', ShardView.valid_fresh, hextent', hcounter, ?_, ?_, htree, fun _ => trivial, ?_, ?_⟩
  · intro pageId hpage
    have hmissing : ¬host.zeroShard.Stores pageId := by
      rw [Host.Stores, (Host.zeroShard_pages hempty).2, Nat.mul_le_mul_right_iff (by decide)]
      omega
    refine (hall.evolves.beyond pageId hpage).trans ?_
    change ({host.zeroShard.diskPage pageId} : Set Page) = _
    rw [Host.diskPage_of_not_stores hmissing]
  · rw [hall.evolves.wal]
    rfl
  · exact hsettles'.evolves.holds (lt_of_lt_of_eq (by decide) hcompact.symm) (by decide) htombstones
  · intro page hpage
    obtain rfl := List.mem_singleton.mp hpage
    refine ⟨lt_of_lt_of_eq (by decide) hextent'.symm, _, ?_, IsDataPage.init firstDataPageId⟩
    exact hsettles'.evolves.holds (lt_of_lt_of_eq (by decide) hcompact.symm) (by decide) hdata

variable {F : Type} [Double F]

/-- The members of a new shard. -/
theorem Shard.matches_initial : (Shard.initial : Shard F).Matches ShardView.fresh := ⟨rfl, rfl⟩

/-- Opening a new shard. It leaves the same array for every number of frames. -/
theorem exec_shardInit_fresh {host : Host} (hfree : host.FaultFree) (hempty : host.dataFile = [])
    (wal : WALManager) :
    ∃ s, ShardAt s ShardView.fresh ∧ ∀ diskFd poolSize nextPageId, 0 ≤ diskFd → 2 ≤ poolSize →
      poolSize < 2 ^ 31 → nextPageId < 2 ^ 32 →
        ∃ m, poolHandler.exec (shardInit 0 (none : Option (ShardMetadata F)))
            ⟨bufferPoolInit diskFd (some wal) host poolSize, nextPageId⟩ =
              some (some Shard.initial, m) ∧ Represents m s := by
  obtain ⟨⟨⟩, s, hinit, hs⟩ := shardAt_btreeInit hempty wal
  refine ⟨s, hs, fun diskFd poolSize nextPageId hopen hroom hsmall hcounter => ?_⟩
  have hfree' : host.zeroShard.FaultFree :=
    ((hfree.zeroPage btreeRootPageId).zeroPage tombstonePageId).zeroPage firstDataPageId
  obtain ⟨formatted, hformat, hrepresents⟩ := poolHandler_simulates.exec
    (represents_bufferPoolInit hfree' hopen (some wal) hsmall hroom hcounter)
    (exec_formatPages hempty wal nextPageId)
  obtain ⟨m, hexec, hm⟩ := poolHandler_simulates.exec hrepresents hinit
  have hshard := (exec_shardFormat hfree hopen (some wal) poolSize nextPageId).trans hformat
  refine ⟨m, ?_, hm⟩
  rw [shardInit, if_pos rfl, Handler.exec_bind_of_eq _ hshard]
  simp only [Bool.not_true, Bool.false_eq_true, if_false]
  rw [Handler.exec_bind_of_eq _ hexec, pure_bind, if_pos trivial]
  rfl

end FtsUring
