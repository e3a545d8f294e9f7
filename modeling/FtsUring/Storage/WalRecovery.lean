import FtsUring.Storage.Wal
import Mathlib.Tactic

/-!
# Replaying a log that a crash or a failed append has damaged

Recovery delivers exactly the appended records when the log consists of complete records and
a tail that recovery does not mistake for one. Two kinds of damage are covered: the file is
cut off at an arbitrary byte, and appends fail after writing an arbitrary part of a record.

The loop stops at a short payload, but it accepts a short header: it only asks whether the
read returned anything. A torn header therefore passes for a record whenever the length field
that happens to be in the header variable is zero.
-/

namespace FtsUring

open Foundation

/-! ## Sequences of appends -/

/-- The arguments of one call of `walAppendRecord`. -/
structure WALAppend where
  txnId : UInt32
  recType : WALRecordType
  pageId : UInt32
  slotId : UInt16
  payload : Option (List UInt8)
  payloadLen : UInt32
  deriving DecidableEq, Repr

/-- A positive payload length comes with a buffer that holds at least that many bytes. -/
def WALAppend.WellFormed (call : WALAppend) : Prop :=
  0 < call.payloadLen →
    ∃ bytes, call.payload = some bytes ∧ call.payloadLen.toNat ≤ bytes.length

/-- Make the call. -/
def WALAppend.run (call : WALAppend) (wal : WALManager) (host : Host) :
    UInt64 × WALManager × Host :=
  walAppendRecord wal host call.txnId call.recType call.pageId call.slotId call.payload
    call.payloadLen

/-- The record that a call writes when it is given an LSN. -/
def WALAppend.record (call : WALAppend) (lsn : UInt64) : WALRecord where
  header :=
    { lsn, txnId := call.txnId, recordType := call.recType.code, pageId := call.pageId,
      slotId := call.slotId, payloadLen := call.payloadLen }
  payload := (call.payload.getD []).take call.payloadLen.toNat

/-- Make several calls in turn, collecting the returned LSNs. -/
def walAppendAll : List WALAppend → WALManager → Host → List UInt64 × WALManager × Host
  | [], wal, host => ([], wal, host)
  | call :: rest, wal, host =>
    let (lsn, wal, host) := call.run wal host
    let (lsns, wal, host) := walAppendAll rest wal host
    (lsn :: lsns, wal, host)

/-- The records of the calls that returned a non-zero LSN, in append order. -/
def appendedRecords : List WALAppend → List UInt64 → List WALRecord
  | call :: calls, lsn :: lsns =>
    if lsn = 0 then appendedRecords calls lsns else call.record lsn :: appendedRecords calls lsns
  | _, _ => []

/-- The first write of the call returns an error or puts no byte into the log. -/
def LeavesNothing (wal : WALManager) (host : Host) : Prop :=
  wal.walFd < 0 ∨ (host.walWrites.headD .full).transferred walHeaderSize = none ∨
    (host.walWrites.headD .full).transferred walHeaderSize = some 0

/-- Every call either succeeds or fails without leaving a byte in the log. -/
def FailsCleanly : List WALAppend → WALManager → Host → Prop
  | [], _, _ => True
  | call :: rest, wal, host =>
    ((call.run wal host).1 ≠ 0 ∨ LeavesNothing wal host) ∧
      FailsCleanly rest (call.run wal host).2.1 (call.run wal host).2.2

/-- The payload of a well-formed call has the length that its header announces. -/
theorem WALAppend.length_payload_record {call : WALAppend} (h : call.WellFormed) (lsn : UInt64) :
    (call.record lsn).payload.length = (call.record lsn).header.payloadLen.toNat := by
  by_cases hpos : 0 < call.payloadLen
  · obtain ⟨bytes, hpayload, hlength⟩ := h hpos
    simp [record, hpayload, hlength]
  · have hzero : call.payloadLen.toNat = 0 := by
      rw [UInt32.lt_iff_toNat_lt] at hpos
      simpa using hpos
    simp [record, hzero]

/-- The outcome of appending to the log, spelled out. -/
theorem Host.appendWal_walFile (host : Host) (walFd : ℤ) (data : List UInt8) :
    ∃ moved ≤ data.length, (host.appendWal walFd data).2.walFile = host.walFile ++ data.take moved ∧
      ((host.appendWal walFd data).1 = data.length → moved = data.length) := by
  unfold Host.appendWal
  by_cases hfd : walFd < 0
  · rw [if_pos hfd]
    exact ⟨0, by omega, by simp, by intro h; simp only at h; omega⟩
  · rw [if_neg hfd]
    cases houtcome : (host.walWrites.headD IoOutcome.full).transferred data.length with
    | none => exact ⟨0, by omega, by simp, by intro h; simp only at h; omega⟩
    | some moved =>
      have hle : moved ≤ data.length := by
        cases h : host.walWrites.headD IoOutcome.full <;>
          simp only [h, IoOutcome.transferred, Option.some.injEq, reduceCtorEq] at houtcome <;> omega
      exact ⟨moved, hle, rfl, by intro h; simpa using h⟩

/-- A call that returns an LSN has written its complete record. -/
theorem WALAppend.run_success {call : WALAppend} (hcall : call.WellFormed) {wal : WALManager}
    {host : Host} (h : (call.run wal host).1 ≠ 0) :
    (call.run wal host).2.2.walFile =
      host.walFile ++ (call.record (call.run wal host).1).encode := by
  obtain ⟨txnId, recType, pageId, slotId, payload, payloadLen⟩ := call
  simp only [run, walAppendRecord] at h ⊢
  set hdr : WALHeader := ⟨wal.currentLsn + 1, txnId, recType.code, pageId, slotId, payloadLen⟩
  obtain ⟨moved, -, hfile, hmoved⟩ := host.appendWal_walFile wal.walFd hdr.encode
  rw [WALHeader.length_encode] at hmoved
  split at h
  · exact absurd rfl h
  · rename_i hheader
    rw [if_neg hheader]
    rw [hmoved (not_not.mp hheader), List.take_of_length_le (by simp)] at hfile
    by_cases hpos : 0 < payloadLen
    · obtain ⟨bytes, hsome, hlength⟩ := hcall hpos
      obtain rfl : payload = some bytes := hsome
      simp only [if_pos hpos] at h ⊢
      obtain ⟨moved', -, hfile', hmoved'⟩ :=
        (host.appendWal wal.walFd hdr.encode).2.appendWal_walFile wal.walFd
          (bytes.take payloadLen.toNat)
      have htaken : (bytes.take payloadLen.toNat).length = payloadLen.toNat := by
        simpa using hlength
      split at h
      · exact absurd rfl h
      · rename_i hpayload
        rw [if_neg hpayload]
        rw [hmoved' (by rw [htaken]; exact not_not.mp hpayload), hfile, List.take_length] at hfile'
        exact hfile'.trans (List.append_assoc _ _ _)
    · obtain rfl : payloadLen = 0 := by
        by_contra hne
        exact hpos (UInt32.pos_iff_ne_zero.mpr hne)
      have hrecord : (record ⟨txnId, recType, pageId, slotId, payload, 0⟩ hdr.lsn).encode =
          hdr.encode := by
        simp [record, WALRecord.encode, hdr]
      cases payload with
      | none => exact hfile.trans (by rw [← hrecord])
      | some bytes => exact hfile.trans (by rw [← hrecord]; rfl)

/-- A header write that leaves nothing is seen by the caller and changes no byte of the log. -/
theorem Host.appendWal_leavesNothing {wal : WALManager} {host : Host} (h : LeavesNothing wal host)
    (hdr : WALHeader) :
    (host.appendWal wal.walFd hdr.encode).1 ≠ walHeaderSize ∧
      (host.appendWal wal.walFd hdr.encode).2.walFile = host.walFile := by
  unfold Host.appendWal
  by_cases hfd : wal.walFd < 0
  · rw [if_pos hfd]
    exact ⟨(by decide : (-1 : ℤ) ≠ walHeaderSize), rfl⟩
  · rw [if_neg hfd, WALHeader.length_encode]
    rcases h with hclosed | hnone | hzero
    · exact absurd hclosed hfd
    · rw [hnone]
      exact ⟨(by decide : (-1 : ℤ) ≠ walHeaderSize), rfl⟩
    · rw [hzero]
      exact ⟨(by decide : ((0 : ℕ) : ℤ) ≠ walHeaderSize), List.append_nil _⟩

/-- A call whose header write leaves nothing returns 0 and changes no byte of the log. -/
theorem WALAppend.run_leavesNothing (call : WALAppend) {wal : WALManager} {host : Host}
    (h : LeavesNothing wal host) :
    (call.run wal host).1 = 0 ∧ (call.run wal host).2.2.walFile = host.walFile := by
  simp only [run, walAppendRecord]
  set hdr : WALHeader :=
    ⟨wal.currentLsn + 1, call.txnId, call.recType.code, call.pageId, call.slotId, call.payloadLen⟩
  obtain ⟨hshort, hfile⟩ := Host.appendWal_leavesNothing h hdr
  rw [if_pos hshort]
  exact ⟨rfl, hfile⟩

/-- As long as failing calls leave nothing, the log grows by exactly the successful records. -/
theorem walAppendAll_walFile (calls : List WALAppend) (wal : WALManager) (host : Host)
    (hcalls : ∀ call ∈ calls, call.WellFormed) (hclean : FailsCleanly calls wal host) :
    (walAppendAll calls wal host).2.2.walFile =
      host.walFile ++
        frames WALRecord.encode (appendedRecords calls (walAppendAll calls wal host).1) := by
  induction calls generalizing wal host with
  | nil => simp [walAppendAll, appendedRecords, frames]
  | cons call rest ih =>
    obtain ⟨hcall, hrest⟩ := List.forall_mem_cons.mp hcalls
    obtain ⟨hhead, htail⟩ := hclean
    have hih := ih _ _ hrest htail
    rw [walAppendAll, appendedRecords, hih]
    by_cases hlsn : (call.run wal host).1 = 0
    · have hnothing := hhead.resolve_left (not_not.mpr hlsn)
      rw [if_pos hlsn, (call.run_leavesNothing hnothing).2]
    · rw [if_neg hlsn, WALAppend.run_success hcall hlsn, frames_cons, List.append_assoc]

/-- A run of successful calls has no failing call at all. -/
theorem failsCleanly_of_success {calls : List WALAppend} {wal : WALManager} {host : Host}
    (h : ∀ lsn ∈ (walAppendAll calls wal host).1, lsn ≠ 0) : FailsCleanly calls wal host := by
  induction calls generalizing wal host with
  | nil => trivial
  | cons call rest ih =>
    obtain ⟨hhead, htail⟩ := List.forall_mem_cons.mp h
    exact ⟨Or.inl hhead, ih htail⟩

/-- The payload of every appended record has the length that its header announces. -/
theorem length_payload_of_mem_appendedRecords {calls : List WALAppend} {lsns : List UInt64}
    (hcalls : ∀ call ∈ calls, call.WellFormed) {record : WALRecord}
    (h : record ∈ appendedRecords calls lsns) :
    record.payload.length = record.header.payloadLen.toNat := by
  induction calls generalizing lsns with
  | nil => simp [appendedRecords] at h
  | cons call rest ih =>
    obtain ⟨hcall, hrest⟩ := List.forall_mem_cons.mp hcalls
    cases lsns with
    | nil => simp [appendedRecords] at h
    | cons lsn lsns =>
      rw [appendedRecords] at h
      split at h
      · exact ih hrest h
      · rcases List.mem_cons.mp h with rfl | hmem
        · exact WALAppend.length_payload_record hcall lsn
        · exact ih hrest hmem

/-! ## The recovery loop -/

/-- The header variable after the first read from the remaining bytes of a log. -/
def firstHeader (leftover : HeaderBuffer) (unread : List UInt8) : WALHeader :=
  WALHeader.decode (leftover.fill (unread.take walHeaderSize))

/-- Recovery takes nothing from these bytes: either none are left, or the header variable
announces more payload than the file still holds. -/
def ReplaySilent (leftover : HeaderBuffer) (unread : List UInt8) : Prop :=
  unread = [] ∨ (unread.drop walHeaderSize).length < (firstHeader leftover unread).payloadLen.toNat

/-- A header cut short whose length field, completed by the leftover bytes, reads as zero. -/
def TornHeaderPasses (leftover : HeaderBuffer) (unread : List UInt8) : Prop :=
  unread ≠ [] ∧ unread.length < walHeaderSize ∧ (firstHeader leftover unread).payloadLen = 0

/-- Reading from a log without read errors. -/
theorem LogReader.read_noFault (unread : List UInt8) (count : ℕ) :
    LogReader.read ⟨unread, []⟩ count = (some (unread.take count), ⟨unread.drop count, []⟩) := by
  simp [read, IoOutcome.transferred]

/-- The loop ends at the end of the file. -/
theorem walReplayLoop_nil (leftover : ℕ → HeaderBuffer) (fuel iteration : ℕ) (replayed : Int32) :
    walReplayLoop leftover fuel iteration replayed ⟨[], []⟩ = (replayed, []) := by
  cases fuel with
  | zero => rfl
  | succ fuel => simp [walReplayLoop, LogReader.read_noFault]

/-- One iteration on a log that is not exhausted: it stops when the payload is short, and
otherwise delivers whatever the header variable and the payload bytes say. -/
theorem walReplayLoop_step (leftover : ℕ → HeaderBuffer) (fuel iteration : ℕ) (replayed : Int32)
    (unread : List UInt8) (hunread : unread ≠ []) :
    walReplayLoop leftover (fuel + 1) iteration replayed ⟨unread, []⟩ =
      if (unread.drop walHeaderSize).length <
          (firstHeader (leftover iteration) unread).payloadLen.toNat then
        (replayed, [])
      else
        let hdr := firstHeader (leftover iteration) unread
        let payload := (unread.drop walHeaderSize).take hdr.payloadLen.toNat
        let unread := (unread.drop walHeaderSize).drop hdr.payloadLen.toNat
        let result := walReplayLoop leftover fuel (iteration + 1) (replayed + 1) ⟨unread, []⟩
        (result.1, ⟨hdr, payload⟩ :: result.2) := by
  obtain ⟨byte, more, hread⟩ : ∃ byte more, unread.take walHeaderSize = byte :: more :=
    List.exists_cons_of_ne_nil (by simpa [walHeaderSize] using hunread)
  rw [walReplayLoop, LogReader.read_noFault]
  simp only [hread, firstHeader, LogReader.read_noFault, List.length_take]
  set hdr := WALHeader.decode ((leftover iteration).fill (byte :: more))
  by_cases hpos : 0 < hdr.payloadLen
  · rw [if_pos hpos]
    split_ifs <;> first
      | rfl
      | omega
  · have hzero : hdr.payloadLen = 0 := by
      by_contra hne
      exact hpos (UInt32.pos_iff_ne_zero.mpr hne)
    simp [hzero]

/-- A complete record is delivered and the loop goes on behind it. -/
theorem walReplayLoop_record (leftover : ℕ → HeaderBuffer) (fuel iteration : ℕ) (replayed : Int32)
    (record : WALRecord) (hrecord : record.payload.length = record.header.payloadLen.toNat)
    (rest : List UInt8) :
    walReplayLoop leftover (fuel + 1) iteration replayed ⟨record.encode ++ rest, []⟩ =
      let result := walReplayLoop leftover fuel (iteration + 1) (replayed + 1) ⟨rest, []⟩
      (result.1, record :: result.2) := by
  have hne : record.encode ++ rest ≠ [] := by
    intro hnil
    have hlength := congrArg List.length hnil
    simp [walHeaderSize] at hlength
  have htake : (record.encode ++ rest).take walHeaderSize = record.header.encode := by
    rw [WALRecord.encode, List.append_assoc, ← WALHeader.length_encode record.header,
      List.take_left]
  have hdrop : (record.encode ++ rest).drop walHeaderSize = record.payload ++ rest := by
    rw [WALRecord.encode, List.append_assoc, ← WALHeader.length_encode record.header,
      List.drop_left]
  have hheader : firstHeader (leftover iteration) (record.encode ++ rest) = record.header := by
    rw [firstHeader, htake, HeaderBuffer.fill_complete _ _ (by simp), WALHeader.decode_encode]
  rw [walReplayLoop_step _ _ _ _ _ hne, hheader, hdrop, if_neg (by simp [← hrecord])]
  simp only [← hrecord, List.take_left, List.drop_left]

/-- Complete records are delivered one after the other, whatever follows them. -/
theorem walReplayLoop_frames (leftover : ℕ → HeaderBuffer) (records : List WALRecord)
    (hrecords : ∀ record ∈ records, record.payload.length = record.header.payloadLen.toNat)
    (fuel iteration : ℕ) (replayed : Int32) (rest : List UInt8) :
    walReplayLoop leftover (fuel + records.length) iteration replayed
        ⟨frames WALRecord.encode records ++ rest, []⟩ =
      let result := walReplayLoop leftover fuel (iteration + records.length)
        (replayed + Int32.ofNat records.length) ⟨rest, []⟩
      (result.1, records ++ result.2) := by
  induction records generalizing iteration replayed with
  | nil => simp [frames]
  | cons record records ih =>
    obtain ⟨hrecord, hrest⟩ := List.forall_mem_cons.mp hrecords
    have hcount : replayed + 1 + Int32.ofNat records.length =
        replayed + Int32.ofNat (records.length + 1) := by
      rw [Int32.ofNat_add, Int32.add_assoc, Int32.add_comm (Int32.ofNat records.length)]
      rfl
    have hiteration : iteration + 1 + records.length = iteration + (records.length + 1) := by omega
    rw [List.length_cons, ← Nat.add_assoc, frames_cons, List.append_assoc,
      walReplayLoop_record _ _ _ _ _ hrecord, ih hrest, hcount, hiteration]
    rfl

/-- Records are never shorter than a byte each. -/
theorem length_le_length_frames (records : List WALRecord) :
    records.length ≤ (frames WALRecord.encode records).length := by
  induction records with
  | nil => simp
  | cons record records ih =>
    rw [frames_cons, List.length_append, WALRecord.length_encode, List.length_cons, walHeaderSize]
    omega

/-- Silent bytes end the loop without a delivery. -/
theorem walReplayLoop_silent (leftover : ℕ → HeaderBuffer) (fuel iteration : ℕ)
    (replayed : Int32) (unread : List UInt8) (h : ReplaySilent (leftover iteration) unread) :
    walReplayLoop leftover fuel iteration replayed ⟨unread, []⟩ = (replayed, []) := by
  rcases h with rfl | hshort
  · exact walReplayLoop_nil leftover fuel iteration replayed
  · cases fuel with
    | zero => rfl
    | succ fuel =>
      by_cases hnil : unread = []
      · rw [hnil, walReplayLoop_nil]
      · rw [walReplayLoop_step _ _ _ _ _ hnil, if_pos hshort]

/-- Bytes that are not silent make the loop deliver something. -/
theorem walReplayLoop_of_not_silent (leftover : ℕ → HeaderBuffer) (fuel iteration : ℕ)
    (replayed : Int32) (unread : List UInt8) (h : ¬ReplaySilent (leftover iteration) unread) :
    (walReplayLoop leftover (fuel + 1) iteration replayed ⟨unread, []⟩).2 ≠ [] := by
  obtain ⟨hne, hlong⟩ := not_or.mp h
  rw [walReplayLoop_step leftover fuel iteration replayed unread hne, if_neg hlong]
  exact List.cons_ne_nil _ _

/-! ## Recovery as a whole -/

/-- Recovery returns the number of the given records and hands exactly these to the callback. -/
def ReplaysExactly (leftover : ℕ → HeaderBuffer) (wal : WALManager) (host : Host)
    (records : List WALRecord) : Prop :=
  (walReplayRecovery leftover wal host).1.toInt = records.length ∧
    (walReplayRecovery leftover wal host).2 = records

/-- The 32-bit signed counter shows the number of records as long as it has not wrapped. -/
theorem toInt_ofNat_eq_iff (count : ℕ) : (Int32.ofNat count).toInt = count ↔ count < 2 ^ 31 := by
  rw [Int32.toInt_ofNat', show Int32.size = 4294967296 from rfl]
  constructor
  · intro h
    have hlt := Int.bmod_lt (x := (count : ℤ)) (m := 4294967296) (by norm_num)
    omega
  · intro h
    exact Int.bmod_eq_of_le (by omega) (by omega)

/-- Recovery of complete records and a tail is exact if and only if the tail is silent and the
counter has not wrapped. -/
theorem replaysExactly_iff (leftover : ℕ → HeaderBuffer) (wal : WALManager) (host : Host)
    (records : List WALRecord) (tail : List UInt8) (hopen : 0 ≤ wal.walFd)
    (hreads : host.walReads = [])
    (hrecords : ∀ record ∈ records, record.payload.length = record.header.payloadLen.toNat)
    (hfile : host.walFile = frames WALRecord.encode records ++ tail) :
    ReplaysExactly leftover wal host records ↔
      records.length < 2 ^ 31 ∧ ReplaySilent (leftover records.length) tail := by
  have hlength := length_le_length_frames records
  have hloop : walReplayRecovery leftover wal host =
      let result := walReplayLoop leftover (host.walFile.length + 1 - records.length)
        records.length (Int32.ofNat records.length) ⟨tail, []⟩
      (result.1, records ++ result.2) := by
    have hfuel : host.walFile.length + 1 =
        host.walFile.length + 1 - records.length + records.length := by
      rw [hfile, List.length_append]
      omega
    rw [walReplayRecovery, if_neg (by omega), hreads]
    conv_lhs => rw [hfuel]
    rw [hfile, walReplayLoop_frames leftover records hrecords, Nat.zero_add, Int32.zero_add]
  by_cases hsilent : ReplaySilent (leftover records.length) tail
  · have hdelivered : walReplayRecovery leftover wal host =
        (Int32.ofNat records.length, records) := by
      rw [hloop, walReplayLoop_silent leftover _ _ _ tail hsilent]
      simp
    rw [ReplaysExactly, hdelivered, toInt_ofNat_eq_iff]
    simp [hsilent]
  · obtain ⟨fuel, hfuel⟩ : ∃ fuel, host.walFile.length + 1 - records.length = fuel + 1 := by
      refine ⟨host.walFile.length - records.length, ?_⟩
      rw [hfile, List.length_append]
      omega
    rw [hfuel] at hloop
    have hextra := walReplayLoop_of_not_silent leftover fuel records.length
      (Int32.ofNat records.length) tail hsilent
    constructor
    · intro hexact
      have hdelivered := hexact.2
      rw [hloop] at hdelivered
      exact absurd (List.append_right_eq_self.mp hdelivered) hextra
    · exact fun h => absurd h.2 hsilent

/-! ## Crashes -/

/-- A torn header that passes for a record is not silent. -/
theorem TornHeaderPasses.not_silent {buffer : HeaderBuffer} {unread : List UInt8}
    (h : TornHeaderPasses buffer unread) : ¬ReplaySilent buffer unread := by
  obtain ⟨hne, -, hzero⟩ := h
  rintro (hnil | hlong)
  · exact hne hnil
  · simp [hzero] at hlong

/-- What a cut leaves of a record is silent unless it is a torn header that passes. -/
theorem replaySilent_tornFrame (buffer : HeaderBuffer) (records : List WALRecord) (cut : ℕ)
    (hrecords : ∀ record ∈ records, record.payload.length = record.header.payloadLen.toNat)
    (h : ¬TornHeaderPasses buffer (tornFrame WALRecord.encode records cut)) :
    ReplaySilent buffer (tornFrame WALRecord.encode records cut) := by
  rcases tornFrame_spec WALRecord.encode records cut with hnil | ⟨record, hmem, count, hcount, htail⟩
  · exact Or.inl hnil
  · rw [htail] at h ⊢
    rw [WALRecord.length_encode] at hcount
    have hlength : (record.encode.take count).length = count := by
      rw [List.length_take, WALRecord.length_encode]
      omega
    by_cases hzero : count = 0
    · left
      rw [hzero, List.take_zero]
    · right
      by_cases hheader : count < walHeaderSize
      · have hpositive : (firstHeader buffer (record.encode.take count)).payloadLen ≠ 0 :=
          fun hpayload => h ⟨List.ne_nil_of_length_pos (by omega), by omega, hpayload⟩
        have hdrop : (record.encode.take count).drop walHeaderSize = [] :=
          List.drop_of_length_le (by omega)
        rw [hdrop, List.length_nil]
        exact UInt32.lt_iff_toNat_lt.mp (UInt32.pos_iff_ne_zero.mpr hpositive)
      · have htake : (record.encode.take count).take walHeaderSize = record.header.encode := by
          rw [List.take_take, min_eq_left (by omega), WALRecord.encode,
            ← WALHeader.length_encode record.header, List.take_left]
        rw [firstHeader, htake, HeaderBuffer.fill_complete _ _ (by simp),
          WALHeader.decode_encode, ← hrecords record hmem, List.length_drop, hlength]
        omega

/-- Without torn headers that pass for records, and as long as the counter does not wrap,
recovery of a log cut off at any byte delivers exactly the records before the cut; and only
then. -/
theorem walReplayRecovery_cut_iff (leftover : ℕ → HeaderBuffer) (calls : List WALAppend)
    (wal reopened : WALManager) (host crashed : Host) (cut : ℕ) (hnew : host.walFile = [])
    (hcalls : ∀ call ∈ calls, call.WellFormed)
    (hsuccess : ∀ lsn ∈ (walAppendAll calls wal host).1, lsn ≠ 0)
    (hopen : 0 ≤ reopened.walFd) (hreads : crashed.walReads = [])
    (hcrash : crashed.walFile = (walAppendAll calls wal host).2.2.walFile.take cut) :
    let records := appendedRecords calls (walAppendAll calls wal host).1
    let survivors := completeFrames WALRecord.encode records cut
    ReplaysExactly leftover reopened crashed survivors ↔
      survivors.length < 2 ^ 31 ∧
        ¬TornHeaderPasses (leftover survivors.length) (tornFrame WALRecord.encode records cut) := by
  intro records survivors
  have hrecords : ∀ record ∈ records,
      record.payload.length = record.header.payloadLen.toNat :=
    fun record hmem => length_payload_of_mem_appendedRecords hcalls hmem
  have hsurvivors : ∀ record ∈ survivors,
      record.payload.length = record.header.payloadLen.toNat :=
    fun record hmem => hrecords record (mem_of_mem_completeFrames _ hmem)
  have hfile : crashed.walFile = frames WALRecord.encode survivors ++
      tornFrame WALRecord.encode records cut := by
    rw [hcrash, walAppendAll_walFile calls wal host hcalls (failsCleanly_of_success hsuccess),
      hnew, List.nil_append, take_frames]
  have hsilent : ReplaySilent (leftover survivors.length) (tornFrame WALRecord.encode records cut) ↔
      ¬TornHeaderPasses (leftover survivors.length) (tornFrame WALRecord.encode records cut) :=
    ⟨fun hsilent htorn => htorn.not_silent hsilent, replaySilent_tornFrame _ records cut hrecords⟩
  rw [replaysExactly_iff leftover reopened crashed survivors _ hopen hreads hsurvivors hfile, hsilent]

/-- A header variable that happens to hold zero bytes. -/
def HeaderBuffer.zero : HeaderBuffer := ⟨List.replicate walHeaderSize 0, by simp⟩

/-- A commit record without payload, as the log benchmark appends it. -/
def commitAppend : WALAppend := ⟨101, .recCommit, 0, 0, none, 0⟩

/-- The append of the commit record succeeds. -/
theorem walAppendAll_commit : ∀ lsn ∈ (walAppendAll [commitAppend] ⟨3, 0⟩ Host.empty).1, lsn ≠ 0 := by
  have hone : (walAppendAll [commitAppend] ⟨3, 0⟩ Host.empty).1 = [1] := by decide +kernel
  rw [hone]
  simp

/-- A log with one committed record, cut off behind its first byte. -/
def tornCommitHost : Host :=
  { Host.empty with
    walFile := (walAppendAll [commitAppend] ⟨3, 0⟩ Host.empty).2.2.walFile.take 1 }

/-- Recovery is not exact at every cut: behind a header cut off after one byte, with zero
bytes in the header variable, no complete record is left but one is delivered. -/
theorem walReplayRecovery_cut_not_exact :
    (∀ lsn ∈ (walAppendAll [commitAppend] ⟨3, 0⟩ Host.empty).1, lsn ≠ 0) ∧
      ¬ReplaysExactly (fun _ => HeaderBuffer.zero) ⟨3, 0⟩ tornCommitHost
        (completeFrames WALRecord.encode
          (appendedRecords [commitAppend] (walAppendAll [commitAppend] ⟨3, 0⟩ Host.empty).1) 1) := by
  refine ⟨walAppendAll_commit, ?_⟩
  unfold ReplaysExactly
  decide +kernel

/-- Two insertions and their commit. -/
def transactionAppends : List WALAppend :=
  [⟨101, .recInsert, 3, 0, some [1, 2, 3, 4], 4⟩, ⟨101, .recInsert, 3, 1, some [5, 6], 2⟩, commitAppend]

/-- The log of the transaction, cut off in the payload of the second record. -/
def tornTransactionHost : Host :=
  { Host.empty with
    walFile := (walAppendAll transactionAppends ⟨3, 0⟩ Host.empty).2.2.walFile.take 51 }

/-- Recovery delivers the first of the records. -/
theorem walReplayRecovery_cut_iff_transaction :
    let records := appendedRecords transactionAppends
      (walAppendAll transactionAppends ⟨3, 0⟩ Host.empty).1
    let survivors := completeFrames WALRecord.encode records 51
    records.length = 3 ∧ survivors.map WALRecord.payload = [[1, 2, 3, 4]] ∧
      ReplaysExactly (fun _ => HeaderBuffer.zero) ⟨3, 0⟩ tornTransactionHost survivors := by
  intro records survivors
  have hwellFormed : ∀ call ∈ transactionAppends, call.WellFormed := by
    rw [transactionAppends, List.forall_mem_cons, List.forall_mem_cons, List.forall_mem_singleton]
    exact ⟨fun _ => ⟨_, rfl, le_refl 4⟩, fun _ => ⟨_, rfl, le_refl 2⟩, fun hpositive =>
      absurd hpositive (by decide)⟩
  have hlsns : (walAppendAll transactionAppends ⟨3, 0⟩ Host.empty).1 = [1, 2, 3] := by decide +kernel
  have hsuccess : ∀ lsn ∈ (walAppendAll transactionAppends ⟨3, 0⟩ Host.empty).1, lsn ≠ 0 := by
    rw [hlsns, List.forall_mem_cons, List.forall_mem_cons, List.forall_mem_singleton]
    exact ⟨by decide, by decide, by decide⟩
  have hpayloads : survivors.map WALRecord.payload = [[1, 2, 3, 4]] := by decide +kernel
  have hone : survivors.length = 1 := by
    rw [← List.length_map WALRecord.payload, hpayloads]
    rfl
  -- the second header is complete
  have htorn : ¬(tornFrame WALRecord.encode records 51).length < walHeaderSize := by decide +kernel
  refine ⟨by decide +kernel, hpayloads, ?_⟩
  apply (walReplayRecovery_cut_iff (fun _ => HeaderBuffer.zero) transactionAppends ⟨3, 0⟩ ⟨3, 0⟩ Host.empty
    tornTransactionHost 51 rfl hwellFormed hsuccess (by decide) rfl rfl).mpr
  exact ⟨hone.trans_lt (by decide), fun hpasses => htorn hpasses.2.1⟩

/-! ## Failed appends -/

/-- Running two batches of calls one after the other. -/
theorem walAppendAll_append (before after : List WALAppend) (wal : WALManager) (host : Host) :
    walAppendAll (before ++ after) wal host =
      let first := walAppendAll before wal host
      let second := walAppendAll after first.2.1 first.2.2
      (first.1 ++ second.1, second.2) := by
  induction before generalizing wal host with
  | nil => rfl
  | cons call rest ih => simp only [List.cons_append, walAppendAll, ih]

/-- One LSN is returned per call. -/
theorem length_walAppendAll (calls : List WALAppend) (wal : WALManager) (host : Host) :
    (walAppendAll calls wal host).1.length = calls.length := by
  induction calls generalizing wal host with
  | nil => rfl
  | cons call rest ih => simp [walAppendAll, ih]

/-- Calls that all fail append no records. -/
theorem appendedRecords_of_failed (calls : List WALAppend) (lsns : List UInt64)
    (h : ∀ lsn ∈ lsns, lsn = 0) : appendedRecords calls lsns = [] := by
  induction calls generalizing lsns with
  | nil => simp [appendedRecords]
  | cons call rest ih =>
    cases lsns with
    | nil => rfl
    | cons lsn lsns =>
      obtain ⟨hlsn, hrest⟩ := List.forall_mem_cons.mp h
      rw [appendedRecords, if_pos hlsn, ih lsns hrest]

/-- The records of two batches concatenate. -/
theorem appendedRecords_append (before after : List WALAppend) (lsns more : List UInt64)
    (h : lsns.length = before.length) :
    appendedRecords (before ++ after) (lsns ++ more) =
      appendedRecords before lsns ++ appendedRecords after more := by
  induction before generalizing lsns with
  | nil =>
    obtain rfl := List.eq_nil_of_length_eq_zero h
    simp [appendedRecords]
  | cons call rest ih =>
    cases lsns with
    | nil => simp at h
    | cons lsn lsns =>
      have hrest := ih lsns (by simpa using h)
      simp only [List.cons_append, appendedRecords]
      split <;> simp [hrest]

/-- An append never takes bytes out of the log. -/
theorem WALAppend.prefix_run (call : WALAppend) (wal : WALManager) (host : Host) :
    host.walFile <+: (call.run wal host).2.2.walFile := by
  have hwrite (host : Host) (data : List UInt8) :
      host.walFile <+: (host.appendWal wal.walFd data).2.walFile := by
    obtain ⟨moved, -, hfile, -⟩ := host.appendWal_walFile wal.walFd data
    exact ⟨data.take moved, hfile.symm⟩
  simp only [run, walAppendRecord]
  split
  · exact hwrite _ _
  · cases call.payload with
    | none => exact hwrite _ _
    | some bytes =>
      dsimp only
      split
      · split <;> exact (hwrite _ _).trans (hwrite _ _)
      · exact hwrite _ _

/-- Appends never take bytes out of the log. -/
theorem prefix_walAppendAll (calls : List WALAppend) (wal : WALManager) (host : Host) :
    host.walFile <+: (walAppendAll calls wal host).2.2.walFile := by
  induction calls generalizing wal host with
  | nil => exact List.prefix_rfl
  | cons call rest ih => exact (call.prefix_run wal host).trans (ih _ _)

/-- When no successful append comes after a failed one that has left bytes in the log, recovery
delivers exactly the records of the successful appends if and only if what the failed ones
leave at the end is silent. -/
theorem walReplayRecovery_failed_appends_iff (leftover : ℕ → HeaderBuffer)
    (before after : List WALAppend) (wal reopened : WALManager) (host later : Host)
    (hnew : host.walFile = []) (hcalls : ∀ call ∈ before, call.WellFormed)
    (hclean : FailsCleanly before wal host)
    (hafter : ∀ lsn ∈ (walAppendAll after (walAppendAll before wal host).2.1
      (walAppendAll before wal host).2.2).1, lsn = 0)
    (hopen : 0 ≤ reopened.walFd) (hreads : later.walReads = [])
    (hlater : later.walFile = (walAppendAll (before ++ after) wal host).2.2.walFile) :
    let records := appendedRecords (before ++ after) (walAppendAll (before ++ after) wal host).1
    let left := later.walFile.drop (walAppendAll before wal host).2.2.walFile.length
    ReplaysExactly leftover reopened later records ↔
      records.length < 2 ^ 31 ∧ ReplaySilent (leftover records.length) left := by
  intro records left
  have hrecords : records = appendedRecords before (walAppendAll before wal host).1 := by
    simp only [records, walAppendAll_append]
    rw [appendedRecords_append _ _ _ _ (length_walAppendAll before wal host),
      appendedRecords_of_failed after _ hafter, List.append_nil]
  have hbefore := walAppendAll_walFile before wal host hcalls hclean
  rw [hnew, List.nil_append, ← hrecords] at hbefore
  have hfile : later.walFile = frames WALRecord.encode records ++ left := by
    obtain ⟨extra, hextra⟩ := prefix_walAppendAll after (walAppendAll before wal host).2.1
      (walAppendAll before wal host).2.2
    have hall : later.walFile = (walAppendAll before wal host).2.2.walFile ++ extra := by
      rw [hlater, walAppendAll_append, hextra]
    simp only [left]
    rw [hall, List.drop_left, hbefore]
  refine replaysExactly_iff leftover reopened later records left hopen hreads ?_ hfile
  intro record hmem
  rw [hrecords] at hmem
  exact length_payload_of_mem_appendedRecords hcalls hmem

/-- An insert record with one byte of payload. -/
def byteAppend : WALAppend := ⟨101, .recInsert, 7, 0, some [42], 1⟩

/-- The payload write of the first record fails, everything else completes. -/
def payloadFailureHost : Host :=
  { Host.empty with walWrites := [.full, .error] }

/-- Recovery is not exact after a failed append: the payload write of the first record fails,
the second record is appended in full, and recovery does not deliver it. -/
theorem walReplayRecovery_failed_append_not_exact :
    (walAppendAll [byteAppend, commitAppend] ⟨3, 0⟩ payloadFailureHost).1 = [0, 1] ∧
      ¬ReplaysExactly (fun _ => HeaderBuffer.zero) ⟨3, 0⟩
        (walAppendAll [byteAppend, commitAppend] ⟨3, 0⟩ payloadFailureHost).2.2
        (appendedRecords [byteAppend, commitAppend] [0, 1]) := by
  unfold ReplaysExactly
  decide +kernel

/-- A header write that fails without leaving a byte does no harm to the next append. -/
theorem walReplayRecovery_failed_appends_iff_commit :
    let host := { Host.empty with walWrites := [.error] }
    let later := (walAppendAll ([byteAppend, commitAppend] ++ []) ⟨3, 0⟩ host).2.2
    let records := appendedRecords ([byteAppend, commitAppend] ++ [])
      (walAppendAll ([byteAppend, commitAppend] ++ []) ⟨3, 0⟩ host).1
    ReplaysExactly (fun _ => HeaderBuffer.zero) ⟨3, 0⟩ later records ↔
      records.length < 2 ^ 31 ∧ ReplaySilent HeaderBuffer.zero
        (later.walFile.drop
          (walAppendAll [byteAppend, commitAppend] ⟨3, 0⟩ host).2.2.walFile.length) :=
  walReplayRecovery_failed_appends_iff (fun _ => HeaderBuffer.zero) [byteAppend, commitAppend] []
    ⟨3, 0⟩ ⟨3, 0⟩ { Host.empty with walWrites := [.error] } _ rfl
    (by simp [WALAppend.WellFormed, byteAppend, commitAppend])
    ⟨Or.inr (by unfold LeavesNothing; decide +kernel), Or.inl (by decide +kernel), trivial⟩
    (fun _ h => absurd h List.not_mem_nil) (by decide) (by decide +kernel) rfl

end FtsUring
