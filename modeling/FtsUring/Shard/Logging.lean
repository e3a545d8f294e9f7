import FtsUring.Shard.Updates

/-!
# What the calls on a shard log

An insertion first appends a record with the document, and later one record for each key that it adds to
the B-tree and for each leaf that it splits. A deletion appends one record. The records of documents and
deletions can be told from those of the B-tree by their type and the length of their payload.
-/

namespace FtsUring

open Foundation

/-! ## Records -/

/-- The length in the header is that of the payload. -/
def WALRecord.WellFormed (record : WALRecord) : Prop :=
  record.header.payloadLen.toNat = record.payload.length

/-- The record of an insertion: it has a document as its payload. -/
def WALRecord.IsDocument (record : WALRecord) : Prop :=
  record.header.recordType = WALRecordType.recInsert.code ∧ record.payload.length = unifiedDocRecordSize

instance (record : WALRecord) : Decidable record.IsDocument := inferInstanceAs (Decidable (_ ∧ _))

/-- The record of a deletion. -/
def WALRecord.IsTombstone (record : WALRecord) : Prop :=
  record.header.recordType = WALRecordType.ftsTombstone.code

instance (record : WALRecord) : Decidable record.IsTombstone := inferInstanceAs (Decidable (_ = _))

/-- What the record of a call on a shard says. -/
structure LoggedCall where
  recordType : UInt8
  pageId : UInt32
  slotId : UInt16
  payload : List UInt8
  deriving DecidableEq

/-- What a record says. -/
def WALRecord.call (record : WALRecord) : LoggedCall :=
  ⟨record.header.recordType, record.header.pageId, record.header.slotId, record.payload⟩

/-- The calls on a shard that a log records. -/
def callsOf (records : List WALRecord) : List LoggedCall :=
  (records.filter fun record => record.IsDocument ∨ record.IsTombstone).map WALRecord.call

/-- A well-formed record can be told from what follows it. -/
theorem WALRecord.split_encode {left right : WALRecord} {rest rest' : List UInt8} (hleft : left.WellFormed)
    (hright : right.WellFormed) (h : left.encode ++ rest = right.encode ++ rest') :
    left = right ∧ rest = rest' := by
  obtain ⟨header, payload⟩ := left
  obtain ⟨header', payload'⟩ := right
  rw [encode, encode, List.append_assoc, List.append_assoc] at h
  obtain ⟨hheader, hbody⟩ := List.append_inj h (by simp)
  have hsame : header = header' := by
    rw [← header.decode_encode, hheader, header'.decode_encode]
  subst hsame
  obtain ⟨rfl, hrest⟩ := List.append_inj hbody (hleft.symm.trans hright)
  exact ⟨rfl, hrest⟩

/-- A log determines its records. -/
theorem frames_injective_records {records others : List WALRecord}
    (hrecords : ∀ record ∈ records, record.WellFormed) (hothers : ∀ record ∈ others, record.WellFormed)
    (h : frames WALRecord.encode records = frames WALRecord.encode others) : records = others := by
  have hnonempty : ∀ record, WALRecord.encode record ≠ [] := by
    intro record hnil
    have hlength := congrArg List.length hnil
    rw [WALRecord.length_encode, walHeaderSize, List.length_nil] at hlength
    omega
  exact frames_injective WALRecord.encode hnonempty (fun _ _ _ _ => WALRecord.split_encode) hrecords hothers h

/-! ## Insertions and new shards -/

/-- Adding the postings of a document logs changes of the tree. -/
theorem logs_addPostings (docId : UInt32) (pageId slotId position : ℕ) (terms : List UInt32) :
    (addPostings docId pageId slotId position terms).Calls PageCommand.AppendsTree := by
  induction terms generalizing position with
  | nil => exact .pure _
  | cons termId terms ih =>
    rw [addPostings]
    exact .bind (logs_addPosting _ _ _ _ _) fun _ => ih _

variable {F : Type} [Double F]

/-- The end of an insertion logs changes of the tree. -/
theorem logs_shardIndexDocument (shard : Shard F) (doc : Document) (docId : UInt32) :
    (shardIndexDocument shard doc docId).Calls PageCommand.AppendsTree := by
  rw [shardIndexDocument]
  refine .bind (.perform trivial) fun page => .bind (.perform trivial) fun _ => ?_
  refine .bind (logs_addPostings _ _ _ _ _) fun _ => ?_
  exact .bind (logs_addPosting _ _ _ _ _) fun _ => .pure _

/-- Setting up the root of the tree logs nothing. -/
theorem logs_btreeInit (rootPageId : ℕ) : (btreeInit rootPageId).Calls PageCommand.AppendsNothing := by
  rw [btreeInit]
  apply Program.Calls.bind (.perform trivial)
  intro found
  split_ifs with hfound
  · apply Program.Calls.bind (.perform trivial)
    intro page
    split_ifs with htype
    · exact .bind (.perform trivial) fun _ => .perform trivial
    · exact .perform trivial
  · exact .pure _

/-- Formatting a new shard logs nothing. -/
theorem logs_shardFormat : shardFormat.Calls PageCommand.AppendsNothing := by
  rw [shardFormat]
  apply Program.Calls.bind (.perform trivial)
  intro root
  split_ifs with hroot
  · exact .pure _
  apply Program.Calls.bind (.perform trivial)
  intro tombstones
  split_ifs with htombstones
  · exact .pure _
  apply Program.Calls.bind (.perform trivial)
  intro data
  split_ifs with hdata
  · exact .pure _
  apply Program.Calls.bind (.perform trivial)
  intro fetched
  have hlast : (do
      if ← fetchPage firstDataPageId then
        modifyPage firstDataPageId fun _ => slottedPageInit firstDataPageId .vectorData
        unpinPage firstDataPageId true .normal
      setNextPageId 3
      return true : PageProgram Bool).Calls PageCommand.AppendsNothing := by
    apply Program.Calls.bind (.perform trivial)
    intro found
    split_ifs with hfound
    · refine .bind (.perform trivial) fun _ => .bind (.perform trivial) fun _ => ?_
      exact .bind (.perform trivial) fun _ => .pure _
    · exact .bind (.perform trivial) fun _ => .pure _
  split_ifs with hfetched
  · exact .bind (.perform trivial) fun _ => .bind (.perform trivial) fun _ => hlast
  · exact hlast

/-- Opening a new shard logs nothing. -/
theorem logs_shardInit_new :
    (shardInit 0 (none : Option (ShardMetadata F))).Calls PageCommand.AppendsNothing := by
  rw [shardInit, if_pos rfl]
  apply Program.Calls.bind logs_shardFormat
  intro formatted
  cases formatted with
  | false => exact .pure _
  | true => exact .bind (logs_btreeInit _) fun _ => .pure _

/-! ## The log of the array -/

/-- Appending a record to a log that is open. -/
theorem PageArray.append_eq (s : PageArray) {wal : WALManager} (hopen : 0 ≤ wal.walFd) (txnId : UInt32)
    (recType : WALRecordType) (pageId : UInt32) (slotId : UInt16) {payload : List UInt8}
    (hpositive : 0 < payload.length) (hlength : payload.length < 2 ^ 32) :
    ∃ record : WALRecord, record.WellFormed ∧
      record.call = ⟨recType.code, pageId, slotId, payload⟩ ∧
      s.append wal txnId recType pageId slotId payload =
        (record.header.lsn, { s with
          wal := some { wal with currentLsn := record.header.lsn }
          walFile := s.walFile ++ record.encode }) := by
  have hlen : (UInt32.ofNat payload.length).toNat = payload.length := by
    rw [UInt32.toNat_ofNat', Nat.mod_eq_of_lt hlength]
  have hpos : 0 < UInt32.ofNat payload.length := by
    rw [UInt32.lt_iff_toNat_lt, hlen]
    exact hpositive
  refine ⟨⟨⟨wal.currentLsn + 1, txnId, recType.code, pageId, slotId, UInt32.ofNat payload.length⟩,
    payload⟩, hlen, rfl, ?_⟩
  have happend := fun (host : Host) (hwrites : host.walWrites = []) (data : List UInt8) =>
    (Host.appendWal_eq hwrites wal.walFd data).trans (if_neg (not_lt.mpr hopen))
  rw [PageArray.append, walAppendRecord]
  dsimp only
  rw [happend _ rfl]
  dsimp only
  rw [if_neg (by simp), if_pos hpos, happend _ rfl, hlen, List.take_length]
  dsimp only
  rw [if_neg (by simp), WALRecord.encode, List.append_assoc]

/-- The log has grown by whole records, and these are the calls that it records. -/
def LogHolds (start : List UInt8) (s : PageArray) (calls : List LoggedCall) : Prop :=
  ∃ wal records, s.wal = some wal ∧ 0 ≤ wal.walFd ∧
    s.walFile = start ++ frames WALRecord.encode records ∧
    (∀ record ∈ records, record.WellFormed) ∧ callsOf records = calls

namespace LogHolds

variable {start : List UInt8} {s t : PageArray} {calls : List LoggedCall}

/-- Appending a record. -/
theorem append (h : LogHolds start s calls) {txnId : UInt32} {recType : WALRecordType} {pageId : UInt32}
    {slotId : UInt16} {payload : List UInt8} (hpositive : 0 < payload.length)
    (hlength : payload.length < 2 ^ 32) {lsn : UInt64}
    (hexec : arrayHandler.exec (walAppend txnId recType pageId slotId payload) s = some (lsn, t)) :
    LogHolds start t (calls ++
      if (recType = .recInsert ∧ payload.length = unifiedDocRecordSize) ∨ recType = .ftsTombstone then
        [⟨recType.code, pageId, slotId, payload⟩]
      else []) := by
  obtain ⟨wal, records, hwal, hopen, hfile, hformed, hcalls⟩ := h
  obtain ⟨record, hrecord, hcall, happend⟩ :=
    s.append_eq hopen txnId recType pageId slotId hpositive hlength
  rw [PageArray.exec_walAppend hwal, happend, Option.some.injEq, Prod.mk.injEq] at hexec
  rw [← hexec.2]
  refine ⟨_, records ++ [record], rfl, hopen, ?_, ?_, ?_⟩
  · change s.walFile ++ record.encode = _
    rw [hfile, frames_append, List.append_assoc]
    simp [frames]
  · intro other hother
    obtain hold | hnew := List.mem_append.mp hother
    · exact hformed other hold
    · exact List.mem_singleton.mp hnew ▸ hrecord
  · have htype : record.header.recordType = recType.code := congrArg LoggedCall.recordType hcall
    have hpayload : record.payload = payload := congrArg LoggedCall.payload hcall
    have hkind : (record.IsDocument ∨ record.IsTombstone) ↔
        ((recType = .recInsert ∧ payload.length = unifiedDocRecordSize) ∨ recType = .ftsTombstone) := by
      rw [WALRecord.IsDocument, WALRecord.IsTombstone, htype, hpayload]
      cases recType <;> simp [WALRecordType.code]
    rw [callsOf, List.filter_append, List.map_append, ← callsOf, hcalls]
    congr 1
    by_cases hkept : record.IsDocument ∨ record.IsTombstone
    · rw [if_pos (hkind.mp hkept), List.filter_cons_of_pos (by simpa using hkept), List.filter_nil,
        List.map_singleton, hcall]
    · rw [if_neg fun h => hkept (hkind.mpr h), List.filter_cons_of_neg (by simpa using hkept)]
      rfl

/-- A command that appends no record but one of the B-tree. -/
theorem run (h : LogHolds start s calls) {command : PageCommand} (hallowed : command.AppendsTree)
    {answer : command.Answer} (hrun : arrayHandler.run command s = some (answer, t)) :
    LogHolds start t calls := by
  by_cases hnothing : command.AppendsNothing
  · obtain ⟨wal, records, hwal, hopen, hfile, hrest⟩ := h
    obtain ⟨hsame, hsameFile⟩ := sameLog_run hnothing hrun
    exact ⟨wal, records, hsame.trans hwal, hopen, hsameFile.trans hfile, hrest⟩
  cases command with
  | walAppend txnId recType pageId slotId payload =>
    have hlength : payload.length = 8 ∨ payload.length = 16 :=
      hallowed.imp (fun hinsert => hinsert.2) fun hsplit => hsplit.2
    have hrun' : arrayHandler.exec (walAppend txnId recType pageId slotId payload) s =
        some (answer, t) := by
      rw [walAppend, Handler.exec_perform]
      exact hrun
    have happended := h.append (by omega) (by omega) hrun'
    rw [if_neg] at happended
    · rwa [List.append_nil] at happended
    · rintro (⟨-, hdocument⟩ | htombstone)
      · rw [unifiedDocRecordSize] at hdocument
        omega
      · obtain ⟨hinsert, -⟩ | ⟨hsplit, -⟩ := hallowed
        · cases htombstone.symm.trans hinsert
        · cases htombstone.symm.trans hsplit
  | _ => exact absurd trivial hnothing

/-- A program that appends no record but those of the B-tree. -/
theorem exec {α : Type} (h : LogHolds start s calls) {p : PageProgram α}
    (hp : p.Calls PageCommand.AppendsTree) {value : α}
    (hexec : arrayHandler.exec p s = some (value, t)) : LogHolds start t calls :=
  @Program.Calls.exec _ _ _ _ p hp arrayHandler (fun u => LogHolds start u calls)
    (fun _ hallowed _ _ _ hholds hrun => hholds.run hallowed hrun) _ _ _ h hexec

/-- An insertion records the document, under the page that is active before it. -/
theorem insertDocument (h : LogHolds start s calls) {shard : Shard F} {doc : Document}
    {result : Bool × Shard F} (hexec : arrayHandler.exec (shardInsertDocument shard doc) s = some (result, t)) :
    LogHolds start t (calls ++ [⟨WALRecordType.recInsert.code, UInt32.ofNat shard.activeDataPageId, 0,
      (doc.record shard.nextDocId).encode⟩]) := by
  have hlength := (doc.record shard.nextDocId).length_encode
  rw [shardInsertDocument, Handler.exec_bind_eq_some] at hexec
  obtain ⟨lsn, mid, hlog, hexec⟩ := hexec
  have hlogged := h.append (by omega) (by omega) hlog
  rw [if_pos (Or.inl ⟨rfl, hlength⟩)] at hlogged
  refine hlogged.exec ?_ hexec
  apply Program.Calls.bind (.perform trivial)
  intro found
  split_ifs with hfound
  · exact .pure _
  apply Program.Calls.bind (.perform trivial)
  intro page
  split_ifs with hroom
  · exact .bind (.perform trivial) fun _ => logs_shardIndexDocument _ _ _
  refine .bind (.perform trivial) fun _ => .bind (.perform trivial) fun newPageId => ?_
  apply Program.Calls.bind (.perform trivial)
  intro zeroed
  split_ifs with hzeroed
  · exact .pure _
  apply Program.Calls.bind (.perform trivial)
  intro fetched
  split_ifs with hfetched
  · exact .pure _
  refine .bind (.perform trivial) fun _ => .bind (.perform trivial) fun _ => ?_
  exact logs_shardIndexDocument _ _ _

/-- A deletion records the document id. -/
theorem deleteDocument (h : LogHolds start s calls) {docId : UInt32} {deleted : Bool}
    (hexec : arrayHandler.exec (shardDeleteDocument docId) s = some (deleted, t)) (hdeleted : deleted = true) :
    LogHolds start t (calls ++ [⟨WALRecordType.ftsTombstone.code, UInt32.ofNat tombstonePageId, 0,
      leBytes 4 docId.toNat⟩]) := by
  rw [shardDeleteDocument, Handler.exec_bind_eq_some] at hexec
  obtain ⟨found, fetched, hfetch, hexec⟩ := hexec
  have hfetched := h.exec (p := fetchPage tombstonePageId) ⟨trivial, fun _ => trivial⟩ hfetch
  cases found with
  | false =>
    simp only [Bool.not_false, if_true, Handler.exec_pure, Option.some.injEq, Prod.mk.injEq] at hexec
    cases hexec.1.trans hdeleted
  | true =>
    simp only [Bool.not_true, Bool.false_eq_true, if_false] at hexec
    rw [Handler.exec_bind_eq_some] at hexec
    obtain ⟨⟨⟩, changed, hchange, hexec⟩ := hexec
    have hchanged := hfetched.exec (p := modifyPage tombstonePageId _) ⟨trivial, fun _ => trivial⟩ hchange
    rw [Handler.exec_bind_eq_some] at hexec
    obtain ⟨lsn, logged, hlog, hexec⟩ := hexec
    have hlogged := hchanged.append (by simp) (by simp) hlog
    rw [if_pos (Or.inr rfl)] at hlogged
    refine hlogged.exec ?_ hexec
    exact .bind (.perform trivial) fun _ => .pure _

end LogHolds

/-! ## Sequences of calls -/

/-- What the record of a call says, given the content before the call. -/
def ShardView.logged (view : ShardView) : ShardUpdate → LoggedCall
  | .insert doc => ⟨WALRecordType.recInsert.code, UInt32.ofNat view.activePage, 0,
      (doc.record view.nextDocId).encode⟩
  | .delete docId => ⟨WALRecordType.ftsTombstone.code, UInt32.ofNat tombstonePageId, 0,
      leBytes 4 docId.toNat⟩

/-- What the records of a sequence of calls say. -/
def ShardView.loggedCalls : ShardView → List ShardUpdate → List LoggedCall
  | _, [] => []
  | view, update :: updates => view.logged update :: (view.update update).loggedCalls updates

/-- A call and its record. -/
theorem LogHolds.update {start : List UInt8} {s t : PageArray} {calls : List LoggedCall}
    (h : LogHolds start s calls) {shard : Shard F} {view : ShardView} (hmatches : shard.Matches view)
    (update : ShardUpdate) {result : Shard F}
    (hexec : arrayHandler.exec (update.run shard) s = some ((true, result), t)) :
    LogHolds start t (calls ++ [view.logged update]) := by
  cases update with
  | insert doc =>
    rw [ShardView.logged, ← hmatches.activePage, ← hmatches.nextDocId]
    exact h.insertDocument hexec
  | delete docId =>
    rw [ShardUpdate.run, Handler.exec_bind_eq_some] at hexec
    obtain ⟨deleted, mid, hdelete, hexec⟩ := hexec
    simp only [Handler.exec_pure, Option.some.injEq, Prod.mk.injEq] at hexec
    obtain ⟨⟨hdeleted, -⟩, rfl⟩ := hexec
    exact h.deleteDocument hdelete hdeleted

/-- A sequence of calls and its records. -/
theorem ShardAt.ensures_runUpdates_logged {start : List UInt8} {s : PageArray} {view : ShardView}
    (h : ShardAt s view) {calls : List LoggedCall} (hlog : LogHolds start s calls) {shard : Shard F}
    (hmatches : shard.Matches view) {updates : List ShardUpdate}
    (hfits : (view.updates updates).nextPageId ≤ invalidPageId) :
    arrayHandler.Ensures (runUpdates shard updates) s fun result t =>
      result = (updates.map fun _ => true, shard.afterUpdates view updates) ∧
        ShardAt t (view.updates updates) ∧ LogHolds start t (calls ++ view.loggedCalls updates) := by
  induction updates generalizing s view calls shard with
  | nil =>
    refine .pure ⟨rfl, h, ?_⟩
    rwa [ShardView.loggedCalls, List.append_nil]
  | cons update updates ih =>
    have hnow := (ShardView.nextPageId_le_updates (view.update update) updates).trans hfits
    obtain ⟨result, mid, hexec, rfl, hmid⟩ := h.ensures_update hmatches update hnow
    have hlogged := hlog.update hmatches update hexec
    refine .step hexec ((ih hmid hlogged (hmatches.afterUpdate update) hfits).bind ?_)
    rintro result t ⟨rfl, ht, htlog⟩
    refine .pure ⟨rfl, ht, ?_⟩
    rwa [List.append_assoc, List.singleton_append] at htlog

/-- What a sequence of calls on a new shard leaves in the array of pages and in the log, whatever the
pool. -/
theorem exec_runFreshShard_logged {host : Host} (hfree : host.FaultFree) (hempty : host.dataFile = [])
    {wal : WALManager} (hopen : 0 ≤ wal.walFd) {updates : List ShardUpdate}
    (hfits : (ShardView.fresh.updates updates).nextPageId ≤ invalidPageId) :
    ∃ s, ShardAt s (ShardView.fresh.updates updates) ∧
      LogHolds host.walFile s (ShardView.fresh.loggedCalls updates) ∧
      ∀ diskFd poolSize nextPageId, UsablePool diskFd poolSize nextPageId →
        ∃ m, poolHandler.exec (runFreshShard (F := F) updates)
            (newMachine diskFd wal host poolSize nextPageId) =
              some (some (updates.map fun _ => true,
                Shard.initial.afterUpdates ShardView.fresh updates), m) ∧ Represents m s := by
  obtain ⟨start, hstart, hinit⟩ := @exec_shardInit_fresh F _ host hfree hempty wal
  have hlog : LogHolds host.walFile start [] := by
    obtain ⟨opened, hinit, hopened⟩ := hinit 0 2 0 (le_refl 0) (le_refl 2) (by decide) (by decide)
    have hkept := keepsLog_exec logs_shardInit_new hinit
    refine ⟨wal, [], hopened.wal.symm.trans hkept.wal, hopen, ?_, nofun, rfl⟩
    rw [frames, List.flatMap_nil, List.append_nil, ← hopened.walFile]
    exact hkept.walFile
  obtain ⟨result, s, hexec, rfl, hs, hslog⟩ :=
    hstart.ensures_runUpdates_logged hlog (Shard.matches_initial (F := F)) hfits
  refine ⟨s, hs, hslog, fun diskFd poolSize nextPageId hpool => ?_⟩
  obtain ⟨opened, hopen, hopened⟩ := hinit diskFd poolSize nextPageId hpool.opened hpool.frames
    hpool.small hpool.counter
  obtain ⟨m, hrun, hm⟩ := poolHandler_simulates.exec hopened hexec
  refine ⟨m, ?_, hm⟩
  rw [runFreshShard, newMachine, Handler.exec_bind_of_eq _ hopen, Handler.exec_bind_of_eq _ hrun]
  rfl

end FtsUring
