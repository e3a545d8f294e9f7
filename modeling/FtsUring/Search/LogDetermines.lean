import FtsUring.Search.TermSearch
import FtsUring.Shard.Logging
import FtsUring.Shard.Recorded

/-!
# What the log determines

The log has the records of the documents and the ids of the deletions, but not the terms of the documents:
only the keys that an insertion adds to the B-tree are logged. So two sequences of calls with the same log
leave the same database exactly when the documents record the same positions under every term.
-/

namespace FtsUring

open Foundation

variable {F : Type}

/-- Two machines answer a program in the same way. -/
def AnswersAlike {α : Type} (p : PageProgram α) (m m' : Machine) : Prop :=
  ∃ result n n', poolHandler.exec p m = some (result, n) ∧ poolHandler.exec p m' = some (result, n')

/-- Two machines hold the same database, which contains the given documents: the same entries in the
B-tree, the same posting lists, the same data pages and the same tombstones. -/
structure SameDatabase (m m' : Machine) (docs : List Document) : Prop where
  tree : ∀ key, AnswersAlike (btreeSearch btreeRootPageId key) m m'
  postings : ∀ termId maxPostings, maxPostings < 2 ^ 32 →
    AnswersAlike (invertedIndexGetPostings termId maxPostings) m m'
  data : ∃ data : DataPages,
    data.chronological = (docs.zipIdx.map fun entry => entry.1.record (UInt32.ofNat entry.2)) ∧
      ∀ page ∈ data, IsDataPage (m.pageImage page.1) page.2 ∧ IsDataPage (m'.pageImage page.1) page.2
  tombstones : m.pageImage tombstonePageId = m'.pageImage tombstonePageId

/-! ## The calls that a log determines -/

/-- The bytes of a document id determine it. -/
theorem leBytes_four_injective {docId other : UInt32}
    (h : leBytes 4 docId.toNat = leBytes 4 other.toNat) : docId = other := by
  have hvalue := congrArg leValue h
  have hbound : ∀ value : UInt32, value.toNat < 256 ^ 4 := fun value => value.toNat_lt
  rw [leValue_leBytes, leValue_leBytes, Nat.mod_eq_of_lt (hbound docId),
    Nat.mod_eq_of_lt (hbound other)] at hvalue
  exact UInt32.toNat_inj.mp hvalue

/-- The records of insertions and deletions have different types. -/
theorem insert_code_ne : WALRecordType.recInsert.code ≠ WALRecordType.ftsTombstone.code := by decide

/-- The bytes of a record determine it. -/
theorem UnifiedDocRecord.encode_injective {rec other : UnifiedDocRecord}
    (h : rec.encode = other.encode) : rec = other := by
  rw [← rec.decode_encode, h, other.decode_encode]

namespace ShardView

/-- An insertion keeps the newest postings short. -/
theorem NewestShort.update {view : ShardView} (h : view.NewestShort) (update : ShardUpdate) :
    (view.update update).NewestShort := by
  cases update with
  | insert doc => exact (insertDocument_eq h doc).2
  | delete docId => exact h

/-- Calls with the same records in the log, on documents that record the same positions, leave the same
content. -/
theorem updates_congr {view : ShardView} (hshort : view.NewestShort) {updates others : List ShardUpdate}
    (hlog : view.loggedCalls updates = view.loggedCalls others)
    (halike : List.Forall₂ Document.RecordsAlike (insertedDocuments updates) (insertedDocuments others)) :
    view.updates updates = view.updates others := by
  induction updates generalizing view others with
  | nil =>
    cases others with
    | nil => rfl
    | cons other others => exact absurd hlog nofun
  | cons update updates ih =>
    cases others with
    | nil => exact absurd hlog nofun
    | cons other others =>
      obtain ⟨hhead, hrest⟩ := List.cons.inj hlog
      have hsame : view.update update = view.update other ∧
          List.Forall₂ Document.RecordsAlike (insertedDocuments updates) (insertedDocuments others) := by
        cases update with
        | insert doc =>
          cases other with
          | insert doc' =>
            obtain ⟨hdoc, hdocs⟩ := List.forall₂_cons.mp halike
            have hrecord := UnifiedDocRecord.encode_injective (congrArg LoggedCall.payload hhead)
            exact ⟨insertDocument_congr hshort hrecord hdoc, hdocs⟩
          | delete docId => exact absurd (congrArg LoggedCall.recordType hhead) insert_code_ne
        | delete docId =>
          cases other with
          | insert doc => exact absurd (congrArg LoggedCall.recordType hhead) insert_code_ne.symm
          | delete docId' =>
            have hid := leBytes_four_injective (congrArg LoggedCall.payload hhead)
            exact ⟨by rw [hid], halike⟩
      rw [updates_cons, updates_cons, ← hsame.1]
      rw [← hsame.1] at hrest
      exact ih (hshort.update update) hrest hsame.2

/-- The same log records as many documents. -/
theorem length_insertedDocuments_eq {view view' : ShardView} {updates others : List ShardUpdate}
    (hlog : view.loggedCalls updates = view'.loggedCalls others) :
    (insertedDocuments updates).length = (insertedDocuments others).length := by
  induction updates generalizing view view' others with
  | nil =>
    cases others with
    | nil => rfl
    | cons other others => exact absurd hlog nofun
  | cons update updates ih =>
    cases others with
    | nil => exact absurd hlog nofun
    | cons other others =>
      obtain ⟨hhead, hrest⟩ := List.cons.inj hlog
      have hlater := ih hrest
      cases update with
      | insert doc =>
        cases other with
        | insert doc' => exact congrArg Nat.succ hlater
        | delete docId => exact absurd (congrArg LoggedCall.recordType hhead) insert_code_ne
      | delete docId =>
        cases other with
        | insert doc => exact absurd (congrArg LoggedCall.recordType hhead) insert_code_ne.symm
        | delete docId' => exact hlater

end ShardView

/-! ## The positions that posting lists determine -/

/-- A stored document is the one with its number. -/
theorem exists_index_of_mem_storedDocuments {docs : List Document} {locations : List (ℕ × ℕ)}
    (hlength : docs.length = locations.length) {entry : StoredDocument}
    (hentry : entry ∈ storedDocuments docs locations) :
    ∃ i, docs[i]? = some entry.doc ∧ entry.docId = UInt32.ofNat i := by
  have hmem : (entry.doc, entry.docId) ∈ numberedDocuments docs := by
    rw [← map_storedDocuments hlength]
    exact List.mem_map_of_mem hentry
  obtain ⟨⟨doc, i⟩, hdoc, hsame⟩ := List.mem_map.mp hmem
  rw [Prod.mk.injEq] at hsame
  exact ⟨i, hsame.1 ▸ List.mem_zipIdx_iff_getElem?.mp hdoc, hsame.2.symm⟩

/-- Every document is stored. -/
theorem exists_mem_storedDocuments {docs : List Document} {locations : List (ℕ × ℕ)}
    (hlength : docs.length = locations.length) {i : ℕ} {doc : Document} (hdoc : docs[i]? = some doc) :
    ∃ entry ∈ storedDocuments docs locations, entry.doc = doc ∧ entry.docId = UInt32.ofNat i := by
  have hmem : (doc, UInt32.ofNat i) ∈
      (storedDocuments docs locations).map fun entry => (entry.doc, entry.docId) := by
    have hzip : (doc, i) ∈ docs.zipIdx := List.mem_zipIdx_iff_getElem?.mpr hdoc
    rw [map_storedDocuments hlength]
    exact List.mem_map.mpr ⟨(doc, i), hzip, rfl⟩
  obtain ⟨entry, hentry, hsame⟩ := List.mem_map.mp hmem
  exact ⟨entry, hentry, (Prod.mk.inj hsame).1, (Prod.mk.inj hsame).2⟩

/-- Fewer than `2 ^ 32` documents have different ids. -/
theorem idsApart_of_lt {docs : List Document} {locations : List (ℕ × ℕ)}
    (hlength : docs.length = locations.length) (hsmall : docs.length < 2 ^ 32) (termId : UInt32) :
    IdsApart termId (storedDocuments docs locations) := by
  have hnodup : ((numberedDocuments docs).map Prod.snd).Nodup := by
    have hids : (numberedDocuments docs).map Prod.snd = (List.range docs.length).map UInt32.ofNat := by
      rw [numberedDocuments, List.map_map, List.range_eq_range', ← List.zipIdx_map_snd 0 docs, List.map_map]
      rfl
    rw [hids, List.nodup_map_iff_inj_on List.nodup_range]
    intro i hi j hj hsame
    rw [List.mem_range] at hi hj
    have hvalue := congrArg UInt32.toNat hsame
    rwa [UInt32.toNat_ofNat', UInt32.toNat_ofNat', Nat.mod_eq_of_lt (by omega),
      Nat.mod_eq_of_lt (by omega)] at hvalue
  have hstored : (storedDocuments docs locations).map StoredDocument.docId =
      (numberedDocuments docs).map Prod.snd := by
    rw [← map_storedDocuments hlength, List.map_map]
    rfl
  have hholders : (holderIds termId (storedDocuments docs locations)).Nodup :=
    (hstored ▸ hnodup).sublist (List.filter_sublist.map _)
  rw [IdsApart, List.isChain_iff_getElem]
  intro i hi hsame
  exact absurd ((hholders.getElem_inj_iff).mp hsame) (by omega)

/-- The positions under a document id. -/
def positionsUnder (postings : List InvertedPosting) (docId : UInt32) : List UInt32 :=
  ((postings.find? fun posting => posting.docId = docId).map InvertedPosting.positions).getD []

/-- Fewer than `2 ^ 32` documents are posted with their positions. -/
theorem positionsUnder_contents {view : ShardView} {docs : List Document} (h : Indexed view docs)
    (hsmall : docs.length < 2 ^ 32) {i : ℕ} {doc : Document} (hdoc : docs[i]? = some doc)
    (termId : UInt32) :
    positionsUnder (view.postings termId).contents (UInt32.ofNat i) =
      (doc.postedPositions termId).take maxPositionsPerPosting := by
  obtain ⟨-, -, -, hrecorded⟩ :=
    indexPostings_spec termId (storedDocuments docs view.data.locations)
  have hrecorded := hrecorded (idsApart_of_lt h.length_locations hsmall termId)
  have hmem : ∀ posting, posting ∈ (view.postings termId).contents ↔
      posting ∈ recordedPostings termId (storedDocuments docs view.data.locations) := by
    intro posting
    rw [(PageChain.perm_contents (view.postings termId)).mem_iff, h.postings, hrecorded]
  have hi : i < docs.length := (List.getElem?_eq_some_iff.mp hdoc).1
  -- a posting with the id is that of the document
  have hsame : ∀ posting ∈ (view.postings termId).contents, posting.docId = UInt32.ofNat i →
      posting.positions = (doc.postedPositions termId).take maxPositionsPerPosting := by
    intro posting hposting hid
    obtain ⟨entry, hentry, hat⟩ := List.mem_flatMap.mp ((hmem posting).mp hposting)
    obtain ⟨j, hj, hjd⟩ := exists_index_of_mem_storedDocuments h.length_locations hentry
    rw [postingAt] at hat
    split_ifs at hat with hnone
    · exact absurd hat List.not_mem_nil
    obtain rfl := List.mem_singleton.mp hat
    have hjlt : j < docs.length := (List.getElem?_eq_some_iff.mp hj).1
    have hvalue := congrArg UInt32.toNat (hjd.symm.trans hid)
    rw [UInt32.toNat_ofNat', UInt32.toNat_ofNat', Nat.mod_eq_of_lt (by omega),
      Nat.mod_eq_of_lt (by omega)] at hvalue
    rw [hvalue, hdoc, Option.some.injEq] at hj
    rw [hj]
  rw [positionsUnder]
  cases hfind : (view.postings termId).contents.find? fun posting => posting.docId = UInt32.ofNat i with
  | some posting =>
    exact hsame posting (List.mem_of_find?_eq_some hfind) (by simpa using List.find?_some hfind)
  | none =>
    obtain ⟨entry, hentry, rfl, hid⟩ := exists_mem_storedDocuments h.length_locations hdoc
    rw [List.find?_eq_none] at hfind
    by_cases hnone : entry.doc.postedPositions termId = []
    · rw [hnone]
      rfl
    · refine absurd ?_ (hfind ⟨entry.docId, entry.location.1, entry.location.2,
        (entry.doc.postedPositions termId).take maxPositionsPerPosting⟩ ?_)
      · simpa using hid
      · refine (hmem _).mpr (List.mem_flatMap.mpr ⟨entry, hentry, ?_⟩)
        rw [postingAt, if_neg hnone]
        exact List.mem_singleton_self _

/-- Fewer than `2 ^ 32` documents that are posted alike record the same positions. -/
theorem recordsAlike_of_contents {view view' : ShardView} {docs docs' : List Document}
    (h : Indexed view docs) (h' : Indexed view' docs') (hlength : docs.length = docs'.length)
    (hsmall : docs.length < 2 ^ 32)
    (hcontents : ∀ termId, (view.postings termId).contents = (view'.postings termId).contents) :
    List.Forall₂ Document.RecordsAlike docs docs' := by
  rw [List.forall₂_iff_get]
  refine ⟨hlength, fun i hi hi' termId => ?_⟩
  have hdoc := positionsUnder_contents h hsmall (List.getElem?_eq_getElem hi) termId
  have hdoc' := positionsUnder_contents h' (hlength ▸ hsmall) (List.getElem?_eq_getElem hi') termId
  rw [hcontents] at hdoc
  exact hdoc.symm.trans hdoc'

/-! ## The databases of two runs -/

section Pools

variable [Double F] {host : Host} {wal : WALManager} {diskFd diskFd' : ℤ}
  {poolSize poolSize' nextPageId nextPageId' : ℕ} {updates updates' : List ShardUpdate}

/-- The same content is the same database. -/
theorem sameDatabase_of_shardAt {s s' : PageArray} {view : ShardView} {docs : List Document} {m m' : Machine}
    (hm : Represents m s) (hs : ShardAt s view) (hm' : Represents m' s') (hs' : ShardAt s' view)
    (hindexed : Indexed view docs) : SameDatabase m m' docs := by
  refine ⟨fun key => ?_, fun termId maxPostings hmax => ?_, ⟨view.data, hindexed.records, ?_⟩, ?_⟩
  · obtain ⟨n, hn, -⟩ := poolHandler_simulates.exec hm (hs.tree.exec_btreeSearch hs.idle key)
    obtain ⟨n', hn', -⟩ := poolHandler_simulates.exec hm' (hs'.tree.exec_btreeSearch hs'.idle key)
    exact ⟨_, n, n', hn, hn'⟩
  · obtain ⟨n, hn, -⟩ := poolHandler_simulates.exec hm (hs.exec_getPostings termId hmax)
    obtain ⟨n', hn', -⟩ := poolHandler_simulates.exec hm' (hs'.exec_getPostings termId hmax)
    exact ⟨_, n, n', hn, hn'⟩
  · rintro ⟨id, records⟩ hpage
    exact ⟨hs.isDataPage_pageImage hm hpage, hs'.isDataPage_pageImage hm' hpage⟩
  · rw [hm.pageImage_eq hs.idle.touched (by decide) hs.tombstones,
      hm'.pageImage_eq hs'.idle.touched (by decide) hs'.tombstones]

/-- The same database has the same posting lists. -/
theorem SameDatabase.contents_eq {s s' : PageArray} {view view' : ShardView} {docs : List Document}
    {m m' : Machine} (h : SameDatabase m m' docs) (hm : Represents m s) (hs : ShardAt s view)
    (hm' : Represents m' s') (hs' : ShardAt s' view') {termId : UInt32}
    (hlength : (view.postings termId).contents.length < 2 ^ 32)
    (hlength' : (view'.postings termId).contents.length < 2 ^ 32) :
    (view.postings termId).contents = (view'.postings termId).contents := by
  set maxPostings := max (view.postings termId).contents.length (view'.postings termId).contents.length
    with hmaxEq
  have hmax : maxPostings < 2 ^ 32 := max_lt hlength hlength'
  obtain ⟨found, n, n', hfound, hfound'⟩ := h.postings termId maxPostings hmax
  obtain ⟨k, hk, -⟩ := poolHandler_simulates.exec hm (hs.exec_getPostings termId hmax)
  obtain ⟨k', hk', -⟩ := poolHandler_simulates.exec hm' (hs'.exec_getPostings termId hmax)
  rw [hfound, Option.some.injEq, Prod.mk.injEq, List.take_of_length_le (le_max_left _ _)] at hk
  rw [hfound', Option.some.injEq, Prod.mk.injEq, List.take_of_length_le (le_max_right _ _)] at hk'
  exact hk.1.symm.trans hk'.1

/-- A term has at most as many postings as there are documents. -/
theorem length_contents_le {view : ShardView} {docs : List Document} (h : Indexed view docs)
    (termId : UInt32) : (view.postings termId).contents.length ≤ docs.length := by
  obtain ⟨-, hle, -, -⟩ := indexPostings_spec termId (storedDocuments docs view.data.locations)
  rw [(PageChain.perm_contents (view.postings termId)).length_eq, h.postings]
  refine hle.trans ?_
  rw [holderIds_storedDocuments termId h.length_locations, List.length_map, holders]
  exact (List.length_filter_le _ _).trans_eq List.length_zipIdx

/-! ## Two insertions -/

omit [Double F] in
/-- The terms of a document, with the term 0. -/
theorem ShardView.knows_of_forall {view : ShardView} {doc : Document}
    (h : ((0 :: doc.termIds).all fun termId => !(view.postings termId).isEmpty) = true) : view.Knows doc := by
  intro termId htermId hempty
  have hposted := List.all_eq_true.mp h termId (List.mem_cons.mpr htermId)
  rw [hempty] at hposted
  exact absurd hposted nofun

/-- Two insertions, one after the other. -/
theorem exec_runUpdates_two {shard mid last : Shard F} {first second : Document} {start t s : PageArray}
    (hfirst : arrayHandler.exec (shardInsertDocument shard first) start = some ((true, mid), t))
    (hsecond : arrayHandler.exec (shardInsertDocument mid second) t = some ((true, last), s)) :
    arrayHandler.exec (runUpdates shard [.insert first, .insert second]) start =
      some (([true, true], last), s) := by
  have hrest : arrayHandler.exec (runUpdates mid [.insert second]) t = some (([true], last), s) := by
    rw [runUpdates, ShardUpdate.run, Handler.exec_bind_of_eq _ hsecond]
    rfl
  rw [runUpdates, ShardUpdate.run, Handler.exec_bind_of_eq _ hfirst]
  dsimp only
  rw [Handler.exec_bind_of_eq _ hrest]
  rfl

/-- A new shard and the calls on it. -/
theorem exec_runFreshShard_of_eq {m opened n : Machine} {shard : Shard F} {result : List Bool × Shard F}
    (hopen : poolHandler.exec (shardInit 0 none) m = some (some shard, opened))
    (hrun : poolHandler.exec (runUpdates shard updates) opened = some (result, n)) :
    poolHandler.exec (runFreshShard updates) m = some (some result, n) := by
  rw [runFreshShard, Handler.exec_bind_of_eq _ hopen, Handler.exec_bind_of_eq _ hrun]
  rfl

/-- Two documents, one after the other, when all terms of the second one have postings: only the records
of the documents are logged. -/
theorem exec_insert_two (hfree : host.FaultFree) (hempty : host.dataFile = []) {first second third : Document}
    (hfits : (ShardView.fresh.updates [.insert first, .insert second]).nextPageId ≤ invalidPageId)
    (hfits' : (ShardView.fresh.updates [.insert first, .insert third]).nextPageId ≤ invalidPageId)
    (hrecord : ∀ docId, second.record docId = third.record docId)
    (hknows : (ShardView.fresh.insertDocument first).Knows second)
    (hknows' : (ShardView.fresh.insertDocument first).Knows third)
    (hpool : UsablePool diskFd poolSize nextPageId) :
    ∃ s s' n n', ∃ shard shard' : Shard F,
      ShardAt s (ShardView.fresh.updates [.insert first, .insert second]) ∧ Represents n s ∧
      ShardAt s' (ShardView.fresh.updates [.insert first, .insert third]) ∧ Represents n' s' ∧
      poolHandler.exec (runFreshShard [.insert first, .insert second])
        (newMachine diskFd wal host poolSize nextPageId) = some (some ([true, true], shard), n) ∧
      poolHandler.exec (runFreshShard [.insert first, .insert third])
        (newMachine diskFd wal host poolSize nextPageId) = some (some ([true, true], shard'), n') ∧
      n.storage.host.walFile = n'.storage.host.walFile := by
  obtain ⟨start, hstart, hinit⟩ := @exec_shardInit_fresh F _ host hfree hempty wal
  obtain ⟨opened, hopen, hopened⟩ := hinit diskFd poolSize nextPageId hpool.opened hpool.frames
    hpool.small hpool.counter
  have hfirst : (ShardView.fresh.insertDocument first).nextPageId ≤ invalidPageId :=
    (ShardView.nextPageId_le_updates _ [.insert second]).trans hfits
  obtain ⟨result, t, hexec, rfl, ht⟩ :=
    hstart.ensures_insertDocument (Shard.matches_initial (F := F)) first hfirst
  have hmatches := (Shard.matches_initial (F := F)).afterInsert first
  obtain ⟨result, s, hsecond, rfl, hs, hlogged⟩ :=
    ht.ensures_insertDocument_logged hmatches second hfits
  obtain ⟨result, s', hthird, rfl, hs', hlogged'⟩ :=
    ht.ensures_insertDocument_logged hmatches third hfits'
  -- both insertions append the same record to the same log
  obtain ⟨lsn, logged, happend, hsame⟩ := hlogged hknows
  obtain ⟨lsn', logged', happend', hsame'⟩ := hlogged' hknows'
  rw [hrecord, happend', Option.some.injEq, Prod.mk.injEq] at happend
  obtain ⟨-, rfl⟩ := happend
  obtain ⟨n, hn, hrepresents⟩ := poolHandler_simulates.exec hopened (exec_runUpdates_two hexec hsecond)
  obtain ⟨n', hn', hrepresents'⟩ := poolHandler_simulates.exec hopened (exec_runUpdates_two hexec hthird)
  refine ⟨s, s', n, n', _, _, hs, hrepresents, hs', hrepresents', exec_runFreshShard_of_eq hopen hn,
    exec_runFreshShard_of_eq hopen hn', ?_⟩
  rw [hrepresents.walFile, hrepresents'.walFile, hsame.2, hsame'.2]

/-! ## Runs with the same log -/

/-- What two sequences of calls with the same log leave. -/
theorem exec_sameLog (hfree : host.FaultFree) (hempty : host.dataFile = []) (hopen : 0 ≤ wal.walFd)
    (hpool : UsablePool diskFd poolSize nextPageId) (hpool' : UsablePool diskFd' poolSize' nextPageId')
    (hfits : (ShardView.fresh.updates updates).nextPageId ≤ invalidPageId)
    (hfits' : (ShardView.fresh.updates updates').nextPageId ≤ invalidPageId)
    {oks oks' : List Bool} {shard shard' : Shard F} {n n' : Machine}
    (hexec : poolHandler.exec (runFreshShard updates) (newMachine diskFd wal host poolSize nextPageId) =
      some (some (oks, shard), n))
    (hexec' : poolHandler.exec (runFreshShard updates')
      (newMachine diskFd' wal host poolSize' nextPageId') = some (some (oks', shard'), n'))
    (hsame : n.storage.host.walFile = n'.storage.host.walFile) :
    ∃ s s', Represents n s ∧ ShardAt s (ShardView.fresh.updates updates) ∧ Represents n' s' ∧
      ShardAt s' (ShardView.fresh.updates updates') ∧
      ShardView.fresh.loggedCalls updates = ShardView.fresh.loggedCalls updates' := by
  obtain ⟨s, hs, ⟨_, records, -, -, hfile, hformed, hcalls⟩, hrun⟩ :=
    exec_runFreshShard_logged (F := F) hfree hempty hopen hfits
  obtain ⟨s', hs', ⟨_, records', -, -, hfile', hformed', hcalls'⟩, hrun'⟩ :=
    exec_runFreshShard_logged (F := F) hfree hempty hopen hfits'
  obtain ⟨m, hm, hrepresents⟩ := hrun diskFd poolSize nextPageId hpool
  obtain ⟨m', hm', hrepresents'⟩ := hrun' diskFd' poolSize' nextPageId' hpool'
  rw [hexec, Option.some.injEq, Prod.mk.injEq] at hm
  rw [hexec', Option.some.injEq, Prod.mk.injEq] at hm'
  obtain ⟨-, rfl⟩ := hm
  obtain ⟨-, rfl⟩ := hm'
  refine ⟨s, s', hrepresents, hs, hrepresents', hs', ?_⟩
  rw [hrepresents.walFile, hrepresents'.walFile, hfile, hfile'] at hsame
  rw [← hcalls, ← hcalls', frames_injective_records hformed hformed' (List.append_cancel_left hsame)]

/-- Two sequences of calls that leave the same log leave the same database when their documents record the
same positions under every term, and only then as long as no document id is given out twice. -/
theorem sameDatabase_iff (hfree : host.FaultFree) (hempty : host.dataFile = []) (hopen : 0 ≤ wal.walFd)
    (hpool : UsablePool diskFd poolSize nextPageId) (hpool' : UsablePool diskFd' poolSize' nextPageId')
    (hfits : (ShardView.fresh.updates updates).nextPageId ≤ invalidPageId)
    (hfits' : (ShardView.fresh.updates updates').nextPageId ≤ invalidPageId)
    {oks oks' : List Bool} {shard shard' : Shard F} {n n' : Machine}
    (hexec : poolHandler.exec (runFreshShard updates) (newMachine diskFd wal host poolSize nextPageId) =
      some (some (oks, shard), n))
    (hexec' : poolHandler.exec (runFreshShard updates')
      (newMachine diskFd' wal host poolSize' nextPageId') = some (some (oks', shard'), n'))
    (hsame : n.storage.host.walFile = n'.storage.host.walFile) :
    (List.Forall₂ Document.RecordsAlike (insertedDocuments updates) (insertedDocuments updates') →
        SameDatabase n n' (insertedDocuments updates)) ∧
      ((insertedDocuments updates).length < 2 ^ 32 →
        (SameDatabase n n' (insertedDocuments updates) ↔
          List.Forall₂ Document.RecordsAlike (insertedDocuments updates) (insertedDocuments updates'))) := by
  obtain ⟨s, s', hn, hs, hn', hs', hlog⟩ :=
    exec_sameLog hfree hempty hopen hpool hpool' hfits hfits' hexec hexec' hsame
  have hindexed := Indexed.fresh.updates ShardView.valid_fresh hfits
  have hindexed' := Indexed.fresh.updates ShardView.valid_fresh hfits'
  rw [List.nil_append] at hindexed hindexed'
  have hlength := ShardView.length_insertedDocuments_eq hlog
  have henough : List.Forall₂ Document.RecordsAlike (insertedDocuments updates)
      (insertedDocuments updates') → SameDatabase n n' (insertedDocuments updates) := by
    intro halike
    have hnone : ShardView.fresh.NewestShort := nofun
    have hview := ShardView.updates_congr hnone hlog halike
    exact sameDatabase_of_shardAt hn hs hn' (hview ▸ hs') hindexed
  refine ⟨henough, fun hsmall => ⟨fun hdatabase => ?_, henough⟩⟩
  refine recordsAlike_of_contents hindexed hindexed' hlength hsmall fun termId => ?_
  exact hdatabase.contents_eq hn hs hn' hs' ((length_contents_le hindexed termId).trans_lt hsmall)
    ((length_contents_le hindexed' termId).trans_lt (hlength ▸ hsmall))

/-- A document that has a term nine times and one that has it ten times, each after a document with the term. The
positions behind the eighth are not recorded. -/
theorem sameDatabase_nine_and_ten_times : ∃ n n', ∃ shard shard' : Shard ℚ,
    poolHandler.exec (runFreshShard [.insert (.ofTerms 1 1 [7] (by decide)),
      .insert (.ofTerms 2 1 (List.replicate 9 7) (by decide))]) (newMachine 0 ⟨3, 0⟩ Host.empty 2 0) =
        some (some ([true, true], shard), n) ∧
    poolHandler.exec (runFreshShard [.insert (.ofTerms 1 1 [7] (by decide)),
      .insert (.ofTerms 2 1 (List.replicate 10 7) (by decide))]) (newMachine 0 ⟨3, 0⟩ Host.empty 2 0) =
        some (some ([true, true], shard'), n') ∧
    n.storage.host.walFile = n'.storage.host.walFile ∧
    SameDatabase n n' (insertedDocuments [.insert (.ofTerms 1 1 [7] (by decide)),
      .insert (.ofTerms 2 1 (List.replicate 9 7) (by decide))]) := by
  have hpool : UsablePool 0 2 0 := ⟨le_refl 0, le_refl 2, by decide, by decide⟩
  obtain ⟨_, _, n, n', shard, shard', -, -, -, -, hexec, hexec', hsame⟩ :=
    @exec_insert_two ℚ _ Host.empty ⟨3, 0⟩ 0 2 0 ⟨rfl, rfl, rfl, rfl⟩ rfl
      (.ofTerms 1 1 [7] (by decide)) (.ofTerms 2 1 (List.replicate 9 7) (by decide))
      (.ofTerms 2 1 (List.replicate 10 7) (by decide)) (by decide +kernel) (by decide +kernel) (fun _ => rfl)
      (ShardView.knows_of_forall (by decide +kernel)) (ShardView.knows_of_forall (by decide +kernel)) hpool
  have halike : Document.RecordsAlike (.ofTerms 2 1 (List.replicate 9 7) (by decide))
      (.ofTerms 2 1 (List.replicate 10 7) (by decide)) := by
    intro termId
    by_cases hterm : termId = 7
    · rw [hterm]
      decide
    · have hnone : ∀ count, termPositions termId 0 (List.replicate count 7) = [] := fun count =>
        (Document.termPositions_eq_nil termId 0 _).mpr fun hmem => hterm (List.eq_of_mem_replicate hmem)
      rw [Document.postedPositions, Document.postedPositions, Document.ofTerms, Document.ofTerms, hnone, hnone]
  refine ⟨n, n', shard, shard', hexec, hexec', hsame, ?_⟩
  exact (sameDatabase_iff ⟨rfl, rfl, rfl, rfl⟩ rfl (by decide) hpool hpool (by decide +kernel) (by decide +kernel)
    hexec hexec' hsame).1 (.cons (fun _ => rfl) (.cons halike .nil))

/-- Two documents with one record, of which only the first one has the term 7, after a document with the
term 7. The log is the same, but the second posting list of the term is longer. -/
theorem not_sameDatabase : ∃ n n', ∃ shard shard' : Shard ℚ,
    poolHandler.exec (runFreshShard [.insert (.ofTerms 1 1 [7] (by decide)),
      .insert (.ofTerms 2 1 [7] (by decide))]) (newMachine 0 ⟨3, 0⟩ Host.empty 2 0) =
        some (some ([true, true], shard), n) ∧
    poolHandler.exec (runFreshShard [.insert (.ofTerms 1 1 [7] (by decide)),
      .insert (.ofTerms 2 1 [] (by decide))]) (newMachine 0 ⟨3, 0⟩ Host.empty 2 0) =
        some (some ([true, true], shard'), n') ∧
    n.storage.host.walFile = n'.storage.host.walFile ∧
    ∀ docs, ¬SameDatabase n n' docs := by
  obtain ⟨s, s', n, n', shard, shard', hs, hn, hs', hn', hexec, hexec', hsame⟩ :=
    @exec_insert_two ℚ _ Host.empty ⟨3, 0⟩ 0 2 0 ⟨rfl, rfl, rfl, rfl⟩ rfl
      (.ofTerms 1 1 [7] (by decide)) (.ofTerms 2 1 [7] (by decide)) (.ofTerms 2 1 [] (by decide))
      (by decide +kernel) (by decide +kernel) (fun _ => rfl)
      (ShardView.knows_of_forall (by decide +kernel)) (ShardView.knows_of_forall (by decide +kernel))
      ⟨le_refl 0, le_refl 2, by decide, by decide⟩
  refine ⟨n, n', shard, shard', hexec, hexec', hsame, fun docs hdatabase => ?_⟩
  have hcontents := @SameDatabase.contents_eq _ _ _ _ _ _ _ hdatabase hn hs hn' hs' 7 (by decide +kernel)
    (by decide +kernel)
  exact absurd (congrArg List.length hcontents) (by decide +kernel)

end Pools

end FtsUring
