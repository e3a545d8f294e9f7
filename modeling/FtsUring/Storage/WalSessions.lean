import FtsUring.Storage.WalRecovery

/-!
# Log sequence numbers over several sessions

Within a session an LSN counts the records, but a new session starts from the size of the log in
bytes. Both fit together because a record takes more than one byte: the last LSN never exceeds
the number of bytes in the log, and every LSN of a later session exceeds the size that the log
had when the session began.
-/

namespace FtsUring

/-- `wal_close`. -/
def walClose (wal : WALManager) (host : Host) : WALManager × Host :=
  if 0 ≤ wal.walFd then ({ wal with walFd := -1 }, (walFlush wal host).2)
  else (wal, host)

/-- How a session ends. -/
inductive SessionEnd
  | close
  | crash
  deriving DecidableEq, Repr

/-- A session on a log: what `open` returns, what happens to the writes and to the final sync, the
appends, and the end. A crash inside of an append is an append whose write moves a part. -/
structure WALSession where
  fd : ℤ
  writes : List IoOutcome
  syncs : List IoOutcome
  calls : List WALAppend
  ending : SessionEnd

/-- The results of the appends of a session, and the files that it leaves. -/
def WALSession.run (session : WALSession) (host : Host) : List UInt64 × Host :=
  let host := { host with walWrites := session.writes, walSyncs := session.syncs }
  let (_, wal) := walInit host session.fd
  let (lsns, wal, host) := walAppendAll session.calls wal host
  match session.ending with
  | .close => (lsns, (walClose wal host).2)
  | .crash => (lsns, host)

/-- The results of all appends of several sessions. -/
def runWALSessions : List WALSession → Host → List UInt64 × Host
  | [], host => ([], host)
  | session :: rest, host =>
    let (lsns, host) := session.run host
    let (more, host) := runWALSessions rest host
    (lsns ++ more, host)

/-- The LSNs of the appends that succeeded. -/
def assignedLsns (lsns : List UInt64) : List UInt64 := lsns.filter fun lsn => lsn ≠ 0

/-- The LSNs of several calls. -/
theorem assignedLsns_append (lsns more : List UInt64) :
    assignedLsns (lsns ++ more) = assignedLsns lsns ++ assignedLsns more :=
  List.filter_append lsns more

/-! ## Within a session -/

/-- An append to an open log leaves it longer and returns the next number, or it fails and leaves
the number alone. -/
theorem WALAppend.run_lsn (call : WALAppend) (wal : WALManager) (host : Host) :
    ((call.run wal host).1 = 0 ∧ (call.run wal host).2.1 = wal) ∨
      (0 ≤ wal.walFd ∧ (call.run wal host).1 = wal.currentLsn + 1 ∧
        (call.run wal host).2.1.currentLsn = wal.currentLsn + 1 ∧
          host.walFile.length < (call.run wal host).2.2.walFile.length) := by
  simp only [run, walAppendRecord]
  set hdr : WALHeader :=
    ⟨wal.currentLsn + 1, call.txnId, call.recType.code, call.pageId, call.slotId, call.payloadLen⟩
  have hgrows (host : Host) (data : List UInt8) :
      host.walFile.length ≤ (host.appendWal wal.walFd data).2.walFile.length := by
    obtain ⟨moved, -, hfile, -⟩ := host.appendWal_walFile wal.walFd data
    rw [hfile, List.length_append]
    exact Nat.le_add_right _ _
  obtain ⟨moved, hle, hfile, hmoved⟩ := host.appendWal_walFile wal.walFd hdr.encode
  rw [WALHeader.length_encode] at hle hmoved
  split
  · exact Or.inl ⟨rfl, rfl⟩
  · rename_i hheader
    have hopen : 0 ≤ wal.walFd := by
      by_contra hclosed
      exact (Host.appendWal_leavesNothing (Or.inl (not_le.mp hclosed)) hdr).1 (not_not.mp hheader)
    have hgrown : host.walFile.length < (host.appendWal wal.walFd hdr.encode).2.walFile.length := by
      have hpos : 0 < walHeaderSize := by decide
      rw [hfile, List.length_append, List.length_take, WALHeader.length_encode,
        hmoved (not_not.mp hheader)]
      omega
    cases call.payload with
    | none => exact Or.inr ⟨hopen, rfl, rfl, hgrown⟩
    | some bytes =>
      dsimp only
      split
      · split
        · exact Or.inl ⟨rfl, rfl⟩
        · exact Or.inr ⟨hopen, rfl, rfl, hgrown.trans_le (hgrows _ _)⟩
      · exact Or.inr ⟨hopen, rfl, rfl, hgrown⟩

/-- The first of several appends. -/
theorem walAppendAll_cons (call : WALAppend) (rest : List WALAppend) (wal : WALManager)
    (host : Host) :
    walAppendAll (call :: rest) wal host =
      ((call.run wal host).1 :: (walAppendAll rest (call.run wal host).2.1
        (call.run wal host).2.2).1,
        (walAppendAll rest (call.run wal host).2.1 (call.run wal host).2.2).2) := rfl

/-- The numbers of a session follow each other from the one that was current, which stays below the
size of the log. -/
theorem walAppendAll_lsns (calls : List WALAppend) {wal : WALManager} {host : Host}
    (hcurrent : wal.currentLsn.toNat ≤ host.walFile.length)
    (hsize : (walAppendAll calls wal host).2.2.walFile.length < 2 ^ 64) :
    (assignedLsns (walAppendAll calls wal host).1).Pairwise (· < ·) ∧
      ∀ lsn ∈ assignedLsns (walAppendAll calls wal host).1, wal.currentLsn < lsn ∧
        lsn.toNat ≤ (walAppendAll calls wal host).2.2.walFile.length := by
  induction calls generalizing wal host with
  | nil => exact ⟨List.Pairwise.nil, fun lsn hlsn => absurd hlsn List.not_mem_nil⟩
  | cons call rest ih =>
    have hstep := call.run_lsn wal host
    have hgrows := (call.prefix_run wal host).length_le
    rw [walAppendAll_cons] at hsize ⊢
    generalize call.run wal host = result at hstep hgrows hsize ⊢
    obtain ⟨lsn, wal', host'⟩ := result
    have hfile := (prefix_walAppendAll rest wal' host').length_le
    simp only at hstep hgrows hsize ⊢
    obtain ⟨rfl, rfl⟩ | ⟨-, rfl, hnext, hlonger⟩ := hstep
    · exact ih (hcurrent.trans hgrows) hsize
    · have hvalue : (wal.currentLsn + 1).toNat = wal.currentLsn.toNat + 1 := by
        rw [UInt64.toNat_add]
        exact Nat.mod_eq_of_lt (by rw [UInt64.toNat_one]; omega)
      have habove : wal.currentLsn < wal.currentLsn + 1 := by
        rw [UInt64.lt_iff_toNat_lt, hvalue]
        exact Nat.lt_succ_self _
      have hne : wal.currentLsn + 1 ≠ 0 := by
        intro heq
        rw [heq] at habove
        exact absurd habove UInt64.not_lt_zero
      have hcurrent' : wal'.currentLsn.toNat ≤ host'.walFile.length := by
        rw [hnext]
        omega
      obtain ⟨hpairwise, hbounds⟩ := ih hcurrent' hsize
      rw [hnext] at hbounds
      rw [assignedLsns, List.filter_cons_of_pos (by simpa using hne)]
      refine ⟨List.pairwise_cons.mpr ⟨fun lsn hmem => (hbounds lsn hmem).1, hpairwise⟩, ?_⟩
      intro lsn hmem
      rw [List.mem_cons] at hmem
      obtain rfl | hmem := hmem
      · exact ⟨habove, by omega⟩
      · exact ⟨UInt64.lt_trans habove (hbounds lsn hmem).1, (hbounds lsn hmem).2⟩

/-- On a log that is not open every append fails. -/
theorem assignedLsns_walAppendAll_of_closed (calls : List WALAppend) {wal : WALManager} {host : Host}
    (hclosed : wal.walFd < 0) : assignedLsns (walAppendAll calls wal host).1 = [] := by
  induction calls generalizing wal host with
  | nil => rfl
  | cons call rest ih =>
    have hstep := call.run_lsn wal host
    rw [walAppendAll_cons]
    generalize call.run wal host = result at hstep ⊢
    obtain ⟨lsn, wal', host'⟩ := result
    obtain ⟨rfl, rfl⟩ | ⟨hopen, -⟩ := hstep
    · exact ih hclosed
    · exact absurd hopen (not_le.mpr hclosed)

/-! ## Over several sessions -/

/-- The end of a session leaves the log as it is. -/
theorem walFile_walClose (wal : WALManager) (host : Host) :
    (walClose wal host).2.walFile = host.walFile := by
  rw [walClose]
  split_ifs with hopen
  · rw [walFlush, if_pos hopen, Host.syncWal]
    dsimp only
    split <;> rfl
  · rfl

/-- The number that a session starts from is at most the size of the log. -/
theorem currentLsn_walInit_le (host : Host) (fd : ℤ) :
    (walInit host fd).2.currentLsn.toNat ≤ host.walFile.length := by
  rw [walInit]
  split_ifs
  · exact Nat.zero_le _
  · exact (UInt64.toNat_ofNat).trans_le (Nat.mod_le _ _)

/-- The appends of a session, as calls on the log that it opened. -/
def WALSession.append (session : WALSession) (host : Host) : List UInt64 × WALManager × Host :=
  let opened := { host with walWrites := session.writes, walSyncs := session.syncs }
  walAppendAll session.calls (walInit opened session.fd).2 opened

/-- The end of a session changes nothing in the log. -/
theorem WALSession.run_eq (session : WALSession) (host : Host) :
    (session.run host).1 = (session.append host).1 ∧
      (session.run host).2.walFile = (session.append host).2.2.walFile := by
  rw [run]
  cases session.ending with
  | close => exact ⟨rfl, walFile_walClose _ _⟩
  | crash => exact ⟨rfl, rfl⟩

/-- The log only grows during a session. -/
theorem WALSession.length_walFile_le (session : WALSession) (host : Host) :
    host.walFile.length ≤ (session.run host).2.walFile.length := by
  rw [(session.run_eq host).2]
  exact (prefix_walAppendAll session.calls _
    { host with walWrites := session.writes, walSyncs := session.syncs }).length_le

/-- A session numbers its records from the size of the log on, and its numbers stay below the size
that it leaves. -/
theorem WALSession.run_lsns (session : WALSession) {host : Host}
    (hsize : (session.run host).2.walFile.length < 2 ^ 64) :
    (assignedLsns (session.run host).1).Pairwise (· < ·) ∧
      ∀ lsn ∈ assignedLsns (session.run host).1, host.walFile.length < lsn.toNat ∧
        lsn.toNat ≤ (session.run host).2.walFile.length := by
  have hgrows := (session.length_walFile_le host).trans_lt hsize
  obtain ⟨hlsns, hfile⟩ := session.run_eq host
  rw [hfile] at hsize ⊢
  rw [hlsns]
  set opened := { host with walWrites := session.writes, walSyncs := session.syncs } with hopened
  have hcurrent := currentLsn_walInit_le opened session.fd
  obtain ⟨hpairwise, hbounds⟩ := walAppendAll_lsns session.calls hcurrent hsize
  refine ⟨hpairwise, fun lsn hmem => ⟨?_, (hbounds lsn hmem).2⟩⟩
  by_cases hfd : session.fd < 0
  · have hclosed : (walInit opened session.fd).2.walFd < 0 := by
      rw [walInit, if_pos hfd]
      exact hfd
    rw [append, assignedLsns_walAppendAll_of_closed session.calls hclosed] at hmem
    exact absurd hmem List.not_mem_nil
  · have hstart : (walInit opened session.fd).2.currentLsn.toNat = host.walFile.length := by
      rw [walInit, if_neg hfd]
      exact UInt64.toNat_ofNat_of_lt hgrows
    rw [← hstart, ← UInt64.lt_iff_toNat_lt]
    exact (hbounds lsn hmem).1

/-- The log only grows over the sessions. -/
theorem length_walFile_runWALSessions (sessions : List WALSession) (host : Host) :
    host.walFile.length ≤ (runWALSessions sessions host).2.walFile.length := by
  induction sessions generalizing host with
  | nil => exact le_refl _
  | cons session rest ih => exact (session.length_walFile_le host).trans (ih _)

/-- The numbers that are assigned from a state of the log on exceed its size and increase. -/
theorem lsns_runWALSessions (sessions : List WALSession) {host : Host}
    (hsize : (runWALSessions sessions host).2.walFile.length < 2 ^ 64) :
    (assignedLsns (runWALSessions sessions host).1).Pairwise (· < ·) ∧
      ∀ lsn ∈ assignedLsns (runWALSessions sessions host).1, host.walFile.length < lsn.toNat := by
  induction sessions generalizing host with
  | nil => exact ⟨List.Pairwise.nil, fun lsn hlsn => absurd hlsn List.not_mem_nil⟩
  | cons session rest ih =>
    have hlater := length_walFile_runWALSessions rest (session.run host).2
    obtain ⟨hsession, hsessionBounds⟩ := session.run_lsns (lt_of_le_of_lt hlater hsize)
    obtain ⟨hrest, hrestBounds⟩ := @ih (session.run host).2 hsize
    have hlsns : assignedLsns (runWALSessions (session :: rest) host).1 =
        assignedLsns (session.run host).1 ++
          assignedLsns (runWALSessions rest (session.run host).2).1 :=
      assignedLsns_append _ _
    rw [hlsns]
    refine ⟨List.pairwise_append.mpr ⟨hsession, hrest, ?_⟩, ?_⟩
    · intro lsn hlsn later hlaterMem
      have hlow := (hsessionBounds lsn hlsn).2
      have hhigh := hrestBounds later hlaterMem
      exact UInt64.lt_iff_toNat_lt.mpr (hlow.trans_lt hhigh)
    · intro lsn hmem
      rw [List.mem_append] at hmem
      obtain hmem | hmem := hmem
      · exact (hsessionBounds lsn hmem).1
      · exact (session.length_walFile_le host).trans_lt (hrestBounds lsn hmem)

/-- The LSNs of the successful appends of all sessions on a log increase strictly, as long as the
size of the log fits into 64 bits. -/
theorem pairwise_lsns_runWALSessions (sessions : List WALSession) (host : Host)
    (hsize : (runWALSessions sessions host).2.walFile.length < 2 ^ 64) :
    (assignedLsns (runWALSessions sessions host).1).Pairwise (· < ·) :=
  (lsns_runWALSessions sessions hsize).1

/-- Two sessions: one in which the payload of the second record is torn by a crash, and one that is
closed. -/
def tornSessions : List WALSession :=
  [⟨3, [.full, .full, .short 0], [], [commitAppend, byteAppend], .crash⟩,
    ⟨3, [], [], [byteAppend, commitAppend], .close⟩]

/-- The first session assigns 1, and the second one goes on from the size of 46 bytes. -/
theorem pairwise_lsns_tornSessions :
    assignedLsns (runWALSessions tornSessions Host.empty).1 = [1, 47, 48] ∧
      (assignedLsns (runWALSessions tornSessions Host.empty).1).Pairwise (· < ·) :=
  ⟨by decide, pairwise_lsns_runWALSessions tornSessions Host.empty (by decide)⟩

end FtsUring
