import FtsUring.Foundation.ByteFields
import FtsUring.Foundation.Framing
import FtsUring.Storage.Host

/-!
# The write-ahead log

A record is a packed 23-byte header followed by its payload, appended by two separate
writes. Recovery reads the log from the start, one header and one payload at a time.

The header buffer of the recovery loop is a local variable that `read` fills from the front,
so a short read leaves the rest of it as it was. The model takes those leftover bytes as a
parameter, one buffer for each iteration.
-/

namespace FtsUring

open Foundation

/-- The kinds of log records. -/
inductive WALRecordType
  | recInsert
  | recUpdate
  | recCommit
  | recAbort
  | btreeSplit
  | ftsTombstone
  | ftsDeltaInsert
  deriving DecidableEq, Repr

/-- The byte that stands for a record type in a header. -/
def WALRecordType.code : WALRecordType → UInt8
  | .recInsert => 1
  | .recUpdate => 2
  | .recCommit => 3
  | .recAbort => 4
  | .btreeSplit => 5
  | .ftsTombstone => 6
  | .ftsDeltaInsert => 7

/-- The packed record header. -/
structure WALHeader where
  lsn : UInt64
  txnId : UInt32
  recordType : UInt8
  pageId : UInt32
  slotId : UInt16
  payloadLen : UInt32
  deriving DecidableEq, Repr

/-- `sizeof(WALHeader)`. -/
def walHeaderSize : ℕ := 23

/-- The bytes of a header in memory order. -/
def WALHeader.encode (hdr : WALHeader) : List UInt8 :=
  leBytes 8 hdr.lsn.toNat ++ leBytes 4 hdr.txnId.toNat ++ [hdr.recordType] ++
    leBytes 4 hdr.pageId.toNat ++ leBytes 2 hdr.slotId.toNat ++ leBytes 4 hdr.payloadLen.toNat

/-- The header that a 23-byte buffer holds. -/
def WALHeader.decode (buffer : List UInt8) : WALHeader where
  lsn := UInt64.ofNat (field buffer 0 8)
  txnId := UInt32.ofNat (field buffer 8 4)
  recordType := UInt8.ofNat (field buffer 12 1)
  pageId := UInt32.ofNat (field buffer 13 4)
  slotId := UInt16.ofNat (field buffer 17 2)
  payloadLen := UInt32.ofNat (field buffer 19 4)

/-- A record as recovery delivers it: the header and the payload bytes. -/
structure WALRecord where
  header : WALHeader
  payload : List UInt8
  deriving DecidableEq, Repr

/-- The bytes of a record in the log. -/
def WALRecord.encode (record : WALRecord) : List UInt8 :=
  record.header.encode ++ record.payload

/-- The open log of a shard. -/
structure WALManager where
  walFd : ℤ
  currentLsn : UInt64
  deriving DecidableEq, Repr

/-- Open the log; `fd` is what `open` returned. The first LSN is derived from the file size. -/
def walInit (host : Host) (fd : ℤ) : ℤ × WALManager :=
  if fd < 0 then (-1, ⟨fd, 0⟩)
  else (0, ⟨fd, UInt64.ofNat host.walFile.length⟩)

/-- Append one record, returning its LSN, or 0 when a write failed or was short.
A NULL payload is `none`. -/
def walAppendRecord (wal : WALManager) (host : Host) (txnId : UInt32) (recType : WALRecordType)
    (pageId : UInt32) (slotId : UInt16) (payload : Option (List UInt8)) (payloadLen : UInt32) :
    UInt64 × WALManager × Host :=
  let hdr : WALHeader :=
    { lsn := wal.currentLsn + 1, txnId, recordType := recType.code, pageId, slotId, payloadLen }
  let (written, host) := host.appendWal wal.walFd hdr.encode
  if written ≠ walHeaderSize then (0, wal, host)
  else
    match payload with
    | some bytes =>
      if 0 < payloadLen then
        let (written, host) := host.appendWal wal.walFd (bytes.take payloadLen.toNat)
        if written ≠ payloadLen.toNat then (0, wal, host)
        else (hdr.lsn, { wal with currentLsn := hdr.lsn }, host)
      else (hdr.lsn, { wal with currentLsn := hdr.lsn }, host)
    | none => (hdr.lsn, { wal with currentLsn := hdr.lsn }, host)

/-- Force the log to disk. -/
def walFlush (wal : WALManager) (host : Host) : ℤ × Host :=
  if 0 ≤ wal.walFd then host.syncWal else (-1, host)

/-- A file descriptor positioned in the log: the bytes not yet read. -/
structure LogReader where
  unread : List UInt8
  outcomes : List IoOutcome

/-- `read` from the log; `none` is an error and `some []` is the end of the file. -/
def LogReader.read (reader : LogReader) (count : ℕ) : Option (List UInt8) × LogReader :=
  let rest := reader.outcomes.tail
  match (reader.outcomes.headD .full).transferred count with
  | none => (none, { reader with outcomes := rest })
  | some moved => (some (reader.unread.take moved), ⟨reader.unread.drop moved, rest⟩)

/-- A local header variable: exactly 23 bytes. -/
structure HeaderBuffer where
  bytes : List UInt8
  size : bytes.length = walHeaderSize

/-- The header variable after `read` has stored `filled` at its front. -/
def HeaderBuffer.fill (buffer : HeaderBuffer) (filled : List UInt8) : List UInt8 :=
  overwrite buffer.bytes 0 filled

/-- The recovery loop. `leftover i` is the content of the header variable before the read of
iteration `i`; the result is the return value and the records given to the callback. -/
def walReplayLoop (leftover : ℕ → HeaderBuffer) :
    ℕ → ℕ → Int32 → LogReader → Int32 × List WALRecord
  | 0, _, replayed, _ => (replayed, [])
  | fuel + 1, iteration, replayed, reader =>
    match reader.read walHeaderSize with
    | (none, _) | (some [], _) => (replayed, [])
    | (some (byte :: more), reader) =>
      let hdr := WALHeader.decode ((leftover iteration).fill (byte :: more))
      let deliver (payload : List UInt8) (reader : LogReader) : Int32 × List WALRecord :=
        let (total, records) := walReplayLoop leftover fuel (iteration + 1) (replayed + 1) reader
        (total, ⟨hdr, payload⟩ :: records)
      if 0 < hdr.payloadLen then
        match reader.read hdr.payloadLen.toNat with
        | (some payload, reader) =>
          if payload.length ≠ hdr.payloadLen.toNat then (replayed, []) else deliver payload reader
        | (none, _) => (replayed, [])
      else deliver [] reader

/-- Replay the log from its start. Every iteration reads at least one byte, so one more
iteration than there are bytes reaches the end of the file. -/
def walReplayRecovery (leftover : ℕ → HeaderBuffer) (wal : WALManager) (host : Host) :
    Int32 × List WALRecord :=
  if wal.walFd < 0 then (-1, [])
  else walReplayLoop leftover (host.walFile.length + 1) 0 0 ⟨host.walFile, host.walReads⟩

/-! ## Headers and their bytes -/

/-- A header occupies 23 bytes. -/
@[simp] theorem WALHeader.length_encode (hdr : WALHeader) : hdr.encode.length = walHeaderSize := by
  simp [encode, walHeaderSize]

/-- A record occupies its header and its payload. -/
@[simp] theorem WALRecord.length_encode (record : WALRecord) :
    record.encode.length = walHeaderSize + record.payload.length := by
  simp [encode]

/-- Decoding the bytes of a header gives the header back. -/
theorem WALHeader.decode_encode (hdr : WALHeader) : WALHeader.decode hdr.encode = hdr := by
  obtain ⟨lsn, txnId, recordType, pageId, slotId, payloadLen⟩ := hdr
  have hlsn : lsn.toNat < 256 ^ 8 := lsn.toNat_lt
  have htxn : txnId.toNat < 256 ^ 4 := txnId.toNat_lt
  have hpage : pageId.toNat < 256 ^ 4 := pageId.toNat_lt
  have hslot : slotId.toNat < 256 ^ 2 := slotId.toNat_lt
  have hlen : payloadLen.toNat < 256 ^ 4 := payloadLen.toNat_lt
  simp only [decode, encode, List.append_assoc, mk.injEq]
  refine ⟨?_, ?_, ?_, ?_, ?_, ?_⟩
  all_goals
    simp (disch := simp) only [field_append_left, field_append_right, length_leBytes,
      List.length_singleton, Nat.reduceSub, field_leBytes, field_singleton]
  · rw [Nat.mod_eq_of_lt hlsn, UInt64.ofNat_toNat]
  · rw [Nat.mod_eq_of_lt htxn, UInt32.ofNat_toNat]
  · rw [UInt8.ofNat_toNat]
  · rw [Nat.mod_eq_of_lt hpage, UInt32.ofNat_toNat]
  · rw [Nat.mod_eq_of_lt hslot, UInt16.ofNat_toNat]
  · rw [Nat.mod_eq_of_lt hlen, UInt32.ofNat_toNat]

/-- A header variable that a complete read has filled holds exactly the bytes read. -/
theorem HeaderBuffer.fill_complete (buffer : HeaderBuffer) (filled : List UInt8)
    (h : filled.length = walHeaderSize) : buffer.fill filled = filled := by
  have hsize := buffer.size
  rw [fill, overwrite, List.take_zero, List.nil_append, Nat.zero_add, Nat.sub_zero, hsize,
    List.take_of_length_le h.le, List.drop_of_length_le (by omega), List.append_nil]

/-- A filled header variable still has the size of a header. -/
@[simp] theorem HeaderBuffer.length_fill (buffer : HeaderBuffer) (filled : List UInt8) :
    (buffer.fill filled).length = walHeaderSize := by
  simp [fill, buffer.size]

end FtsUring
