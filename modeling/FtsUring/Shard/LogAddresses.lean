import FtsUring.Shard.Logging
import FtsUring.Shard.Postings

/-!
# The addresses in the log

The record of an insertion names the page that is active before the page for the document is chosen, and
always slot 0. So it leads to the document only when the document is the first one of the shard.
-/

namespace FtsUring

open Foundation

/-- The page and the slot of a record hold its payload. -/
def WALRecord.PointsAt (record : WALRecord) (m : Machine) : Prop :=
  ∃ ref, slottedPageGetTuple (m.pageImage record.header.pageId.toNat) record.header.slotId.toNat = some ref ∧
    (m.pageImage record.header.pageId.toNat).tuple ref = record.payload

/-- After a sequence of insertions into a new shard that all succeed, the log has grown by one record for
each document, besides those of the B-tree, and these records lead to the documents. -/
def LogAddressesDocuments (F : Type) [Double F] (m : Machine) (docs : List Document) : Prop :=
  ∃ shard : Shard F, ∃ n records, poolHandler.exec (runFreshShard (docs.map .insert)) m =
      some (some (docs.map fun _ => true, shard), n) ∧
    n.storage.host.walFile = m.storage.host.walFile ++ frames WALRecord.encode records ∧
    (∀ record ∈ records, record.WellFormed) ∧
    List.Forall₂ (fun record entry => record.payload = (entry.1.record (UInt32.ofNat entry.2)).encode ∧
      record.PointsAt n) (records.filter fun record => record.IsDocument) docs.zipIdx

/-! ## Where the first document is -/

namespace ShardView

/-- The locations of the documents do not change. -/
theorem prefix_locations_updates (view : ShardView) (updates : List ShardUpdate) :
    view.data.locations <+: (view.updates updates).data.locations := by
  induction updates generalizing view with
  | nil => exact List.prefix_refl _
  | cons update updates ih =>
    refine List.IsPrefix.trans ?_ (ih (view.update update))
    cases update with
    | insert doc =>
      rw [ShardView.update, data_insertDocument, PageChain.locations_push]
      exact List.prefix_append _ _
    | delete docId => exact List.prefix_refl _

/-- The first document is the first one on the first data page. -/
theorem data_fresh_insertDocument (doc : Document) :
    (fresh.insertDocument doc).data = [(firstDataPageId, [doc.record 0])] := by
  rw [data_insertDocument]
  rfl

end ShardView

/-- Documents leave no record of a deletion. -/
theorem filter_isDocument {view : ShardView} {docs : List Document} {records : List WALRecord}
    (h : callsOf records = view.loggedCalls (docs.map .insert)) :
    (records.filter fun record => record.IsDocument).map WALRecord.call =
      view.loggedCalls (docs.map .insert) := by
  have hinserts : ∀ call ∈ view.loggedCalls (docs.map .insert),
      call.recordType = WALRecordType.recInsert.code := by
    clear h
    induction docs generalizing view with
    | nil => exact fun call hcall => absurd hcall List.not_mem_nil
    | cons doc docs ih =>
      intro call hcall
      obtain rfl | hrest := List.mem_cons.mp hcall
      · rfl
      · exact ih call hrest
  rw [← h, callsOf]
  congr 1
  apply List.filter_congr
  intro record hrecord
  by_cases htombstone : record.IsTombstone
  · have hmem : record.call ∈ callsOf records :=
      List.mem_map_of_mem (List.mem_filter.mpr ⟨hrecord, by simp [htombstone]⟩)
    have htype := hinserts record.call (h ▸ hmem)
    have hother : record.header.recordType = WALRecordType.ftsTombstone.code := htombstone
    exact absurd (htype.symm.trans hother) (by decide)
  · simp [htombstone]

section Pools

variable {F : Type} [Double F] {host : Host} {wal : WALManager} {diskFd : ℤ} {poolSize nextPageId : ℕ}
  {docs : List Document}

/-- What a sequence of insertions leaves on a machine. -/
theorem exec_runFreshShard_documents (hfree : host.FaultFree) (hempty : host.dataFile = [])
    (hopen : 0 ≤ wal.walFd) (hpool : UsablePool diskFd poolSize nextPageId)
    (hfits : (ShardView.fresh.updates (docs.map .insert)).nextPageId ≤ invalidPageId) :
    ∃ shard : Shard F, ∃ s n records, poolHandler.exec (runFreshShard (docs.map .insert))
        (newMachine diskFd wal host poolSize nextPageId) =
          some (some (docs.map fun _ => true, shard), n) ∧
      Represents n s ∧ ShardAt s (ShardView.fresh.updates (docs.map .insert)) ∧
      Indexed (ShardView.fresh.updates (docs.map .insert)) docs ∧
      n.storage.host.walFile = host.walFile ++ frames WALRecord.encode records ∧
      (∀ record ∈ records, record.WellFormed) ∧
      (records.filter fun record => record.IsDocument).map WALRecord.call =
        ShardView.fresh.loggedCalls (docs.map .insert) := by
  obtain ⟨s, hs, ⟨_, records, -, -, hfile, hformed, hcalls⟩, hrun⟩ :=
    exec_runFreshShard_logged (F := F) hfree hempty hopen hfits
  obtain ⟨n, hexec, hn⟩ := hrun diskFd poolSize nextPageId hpool
  have hinserted : insertedDocuments (docs.map .insert) = docs := by
    rw [insertedDocuments, List.filterMap_map]
    exact List.filterMap_some
  have hindexed := Indexed.fresh.updates ShardView.valid_fresh hfits
  rw [hinserted, List.nil_append] at hindexed
  rw [List.map_map] at hexec
  exact ⟨_, s, n, records, hexec, hn, hs, hindexed, hn.walFile.trans hfile, hformed,
    filter_isDocument hcalls⟩

/-- The second record does not lead to the second document. -/
theorem LogAddressesDocuments.length_le (hfree : host.FaultFree) (hempty : host.dataFile = [])
    (hopen : 0 ≤ wal.walFd) (hpool : UsablePool diskFd poolSize nextPageId)
    (hfits : (ShardView.fresh.updates (docs.map .insert)).nextPageId ≤ invalidPageId)
    (h : LogAddressesDocuments F (newMachine diskFd wal host poolSize nextPageId) docs) :
    docs.length ≤ 1 := by
  obtain ⟨shard, s, n, records, hexec, hn, hs, hindexed, hfile, hformed, hcalls⟩ :=
    exec_runFreshShard_documents (F := F) hfree hempty hopen hpool hfits
  obtain ⟨shard', n', records', hexec', hfile', hformed', hall⟩ := h
  rw [hexec, Option.some.injEq, Prod.mk.injEq] at hexec'
  obtain ⟨-, rfl⟩ := hexec'
  obtain rfl := frames_injective_records hformed hformed'
    (List.append_cancel_left (hfile.symm.trans hfile'))
  match docs with
  | [] => exact Nat.zero_le _
  | [doc] => exact le_refl _
  | first :: second :: rest =>
    exfalso
    -- the second record names slot 0 of the first data page
    rw [List.zipIdx_cons, List.zipIdx_cons] at hall
    obtain ⟨firstRecord, others, -, hall, hfound⟩ := List.forall₂_cons_right_iff.mp hall
    obtain ⟨secondRecord, others', ⟨hpayload, ref, hget, htuple⟩, -, rfl⟩ :=
      List.forall₂_cons_right_iff.mp hall
    rw [hfound] at hcalls
    have hcall : secondRecord.call = (ShardView.fresh.insertDocument first).logged (.insert second) :=
      (List.cons.inj (List.cons.inj hcalls).2).1
    have hactive : (ShardView.fresh.insertDocument first).activePage = firstDataPageId := by
      rw [ShardView.activePage, ShardView.data_fresh_insertDocument]
      rfl
    rw [ShardView.logged, hactive] at hcall
    have hpage : secondRecord.header.pageId.toNat = firstDataPageId :=
      congrArg (fun call => call.pageId.toNat) hcall
    have hslot : secondRecord.header.slotId.toNat = 0 := congrArg (fun call => call.slotId.toNat) hcall
    -- the first document is there
    have hlocations : [(firstDataPageId, 0)] <+:
        (ShardView.fresh.updates ((first :: second :: rest).map .insert)).data.locations := by
      refine List.IsPrefix.trans ?_ (ShardView.prefix_locations_updates
        (ShardView.fresh.insertDocument first) ((second :: rest).map .insert))
      rw [ShardView.data_fresh_insertDocument]
      exact List.prefix_refl _
    obtain ⟨more, hmore⟩ := hlocations
    have hplace : ((first, 0), (firstDataPageId, 0)) ∈ (first :: second :: rest).zipIdx.zip
        (ShardView.fresh.updates ((first :: second :: rest).map .insert)).data.locations := by
      rw [← hmore, List.zipIdx_cons]
      exact List.mem_cons_self
    obtain ⟨ref', hget', -, hdecode⟩ := hs.exists_tuple hn hindexed hplace
    rw [hpage, hslot, hget', Option.some.injEq] at hget
    rw [hpage, ← hget, hpayload] at htuple
    rw [htuple, UnifiedDocRecord.decode_encode] at hdecode
    exact absurd (congrArg UnifiedDocRecord.docId hdecode) (by decide : ¬(1 : UInt32) = 0)

/-- The log leads to the documents exactly when there is at most one. -/
theorem logAddressesDocuments_iff (hfree : host.FaultFree) (hempty : host.dataFile = [])
    (hopen : 0 ≤ wal.walFd) (hpool : UsablePool diskFd poolSize nextPageId)
    (hfits : (ShardView.fresh.updates (docs.map .insert)).nextPageId ≤ invalidPageId) :
    LogAddressesDocuments F (newMachine diskFd wal host poolSize nextPageId) docs ↔ docs.length ≤ 1 := by
  refine ⟨LogAddressesDocuments.length_le hfree hempty hopen hpool hfits, fun hfew => ?_⟩
  obtain ⟨shard, s, n, records, hexec, hn, hs, hindexed, hfile, hformed, hcalls⟩ :=
    exec_runFreshShard_documents (F := F) hfree hempty hopen hpool hfits
  refine ⟨shard, n, records, hexec, hfile, hformed, ?_⟩
  match docs with
  | [] =>
    rw [List.map_eq_nil_iff.mp hcalls]
    exact .nil
  | [doc] =>
    obtain ⟨record, rest, hrecords, hcall, hrest⟩ := List.map_eq_cons_iff.mp hcalls
    rw [hrecords, List.map_eq_nil_iff.mp hrest]
    have hpage : record.header.pageId.toNat = firstDataPageId :=
      congrArg (fun call => call.pageId.toNat) hcall
    have hslot : record.header.slotId.toNat = 0 := congrArg (fun call => call.slotId.toNat) hcall
    have hpayload : record.payload = (doc.record 0).encode := congrArg LoggedCall.payload hcall
    have hdata : (firstDataPageId, [doc.record 0]) ∈
        (ShardView.fresh.updates ([doc].map .insert)).data := by
      change _ ∈ (ShardView.fresh.insertDocument doc).data
      rw [ShardView.data_fresh_insertDocument]
      exact List.mem_cons_self
    have hheld := hs.isDataPage_pageImage hn hdata
    refine .cons ⟨hpayload, recordRef 0, ?_, ?_⟩ .nil
    · rw [hpage, hslot]
      exact hheld.getTuple 0 Nat.zero_lt_one
    · rw [hpage, hpayload]
      exact hheld.tuple 0 Nat.zero_lt_one
  | first :: second :: rest =>
    rw [List.length_cons, List.length_cons] at hfew
    omega

/-- One document, in a pool of two frames. -/
theorem logAddressesDocuments_iff_two_frames :
    LogAddressesDocuments ℚ (newMachine 0 ⟨3, 0⟩ Host.empty 2 0) [.ofTerms 1 1 [7] (by decide)] ↔
      [Document.ofTerms 1 1 [7] (by decide)].length ≤ 1 :=
  logAddressesDocuments_iff ⟨rfl, rfl, rfl, rfl⟩ rfl (by decide)
    ⟨le_refl 0, le_refl 2, by decide, by decide⟩ (by decide)

/-- The record of the second document leads to the first one. -/
theorem not_logAddressesDocuments :
    ¬LogAddressesDocuments ℚ (newMachine 0 ⟨3, 0⟩ Host.empty 2 0)
      [.ofTerms 1 1 [7] (by decide), .ofTerms 2 1 [7] (by decide)] := by
  intro h
  have hfew := h.length_le ⟨rfl, rfl, rfl, rfl⟩ rfl (by decide)
    ⟨le_refl 0, le_refl 2, by decide, by decide⟩ (by decide)
  exact absurd hfew (by decide)

end Pools

end FtsUring
