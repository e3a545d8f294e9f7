import FtsUring.Storage.PageArray
import FtsUring.Storage.WriteBack

/-!
# The buffer pool implements the plain array

Without I/O errors a pool with enough frames is transparent: it answers every call that the
plain array accepts, and it answers the same. The relation `Represents` says where the content
of each page is: in the frame that holds it, and on disk unless that frame is dirty or being
changed.

Enough frames means at least as many as the array has room for pins, and fewer than `2 ^ 31`: the
bound of the clock scan, twice the pool size, is a 32-bit number, and the victim is an `int`.
-/

namespace FtsUring

open Foundation

/-- The content of a page on disk, as a read without errors finds it. -/
def Host.diskPage (host : Host) (pageId : ℕ) : Page :=
  if h : (slice host.dataFile (pageId * pageSize) pageSize).length = pageSize then ⟨_, h⟩
  else slottedPageInit pageId .row

/-- What a page holds: the bytes of its frame, or those that are stored. -/
def Storage.currentPage (st : Storage) (pageId : ℕ) : Page :=
  match st.bpm.frameIndex pageId with
  | some i => (st.bpm.frame i).pageData
  | none => st.host.diskPage pageId

/-- The page lies in the data file. -/
def Host.Stores (host : Host) (pageId : ℕ) : Prop :=
  (pageId + 1) * pageSize ≤ host.dataFile.length

/-- Some frame holds the page and is dirty. -/
def BufferPoolManager.Dirty (bpm : BufferPoolManager) (pageId : ℕ) : Prop :=
  ∃ i, (bpm.frame i).isDirty ∧ (bpm.frame i).pageId = pageId

/-- The machine is in a state that the array describes. -/
structure Represents (m : Machine) (s : PageArray) : Prop where
  faultFree : m.storage.host.FaultFree
  opened : 0 ≤ m.storage.bpm.diskFd
  wellFormed : m.storage.bpm.WellFormed
  small : m.storage.bpm.poolSize < 2 ^ 31
  room : s.room ≤ m.storage.bpm.poolSize
  pinCount : ∀ i, (m.storage.bpm.frame i).pageId ≠ invalidPageId →
    (m.storage.bpm.frame i).pinCount = s.pins.count (m.storage.bpm.frame i).pageId
  pinned : ∀ pageId ∈ s.pins, pageId < invalidPageId ∧
    ∃ i, (m.storage.bpm.frame i).pageId = pageId
  cached : ∀ i, (m.storage.bpm.frame i).pageId ≠ invalidPageId →
    (m.storage.bpm.frame i).pageData ∈ s.content (m.storage.bpm.frame i).pageId
  onDisk : ∀ pageId, ¬m.storage.bpm.Dirty pageId → pageId ∉ s.touched →
    m.storage.host.diskPage pageId ∈ s.content pageId
  written : ∀ pageId < s.extent, s.content pageId = Set.univ ∨ m.storage.bpm.Dirty pageId ∨
    pageId ∈ s.touched ∨ m.storage.host.Stores pageId
  dirtyBelow : ∀ pageId, m.storage.bpm.Dirty pageId → pageId < s.extent
  touchedBelow : ∀ pageId ∈ s.touched, pageId < s.extent ∧ pageId ∈ s.pins
  fileBelow : m.storage.host.dataFile.length < (s.extent + 1) * pageSize
  wal : m.storage.wal = s.wal
  walFile : m.storage.host.walFile = s.walFile
  nextPageId : m.nextPageId = s.nextPageId
  counter : s.nextPageId < 2 ^ 32

/-! ## Pages on disk -/

/-- A page that lies in the file is found there. -/
theorem Host.holdsPage_diskPage {host : Host} {pageId : ℕ} (h : host.Stores pageId) :
    host.HoldsPage pageId (host.diskPage pageId) := by
  have hlength : (slice host.dataFile (pageId * pageSize) pageSize).length = pageSize := by
    rw [Foundation.length_slice]
    rw [Stores, Nat.succ_mul] at h
    omega
  rw [HoldsPage, diskPage, dif_pos hlength]

/-- What the file holds is what a read finds. -/
theorem Host.HoldsPage.diskPage_eq {host : Host} {pageId : ℕ} {page : Page}
    (h : host.HoldsPage pageId page) : host.Stores pageId ∧ host.diskPage pageId = page := by
  refine ⟨?_, ?_⟩
  · rw [Host.Stores, Nat.succ_mul]
    exact h.le_length
  · have hlength : (slice host.dataFile (pageId * pageSize) pageSize).length = pageSize := by
      rw [h, page.size]
    rw [diskPage, dif_pos hlength]
    exact Page.ext h

/-- A page that does not lie in the file reads as an empty row page. -/
theorem Host.diskPage_of_not_stores {host : Host} {pageId : ℕ} (h : ¬host.Stores pageId) :
    host.diskPage pageId = slottedPageInit pageId .row := by
  rw [diskPage, dif_neg]
  rw [Foundation.length_slice]
  rw [Stores, Nat.succ_mul] at h
  have hsize : 0 < pageSize := by decide
  omega

/-- A read without errors. -/
theorem readPageOrFormat_eq {host : Host} (h : host.FaultFree) (pageId : ℕ) :
    readPageOrFormat host pageId = (host.diskPage pageId, host) := by
  obtain ⟨dataFile, walFile, pageReads, pageWrites, walReads, walWrites, walSyncs⟩ := host
  have hreads : pageReads = [] := h.pageReads
  subst hreads
  simp only [readPageOrFormat, ftsVfsReadSync, List.headD_nil, List.tail_nil,
    IoOutcome.transferred, Host.diskPage]
  split_ifs <;> rfl

/-- A page write without errors. -/
theorem ftsVfsWriteSync_eq {host : Host} (h : host.FaultFree) (page : Page) (pageId : ℕ) :
    ftsVfsWriteSync host page.bytes (pageId * pageSize) =
      ((pageSize : ℤ), { host with
        dataFile := pwriteFile host.dataFile (pageId * pageSize) page.bytes }) := by
  obtain ⟨dataFile, walFile, pageReads, pageWrites, walReads, walWrites, walSyncs⟩ := host
  have hwrites : pageWrites = [] := h.pageWrites
  subst hwrites
  simp only [ftsVfsWriteSync, List.headD_nil, List.tail_nil, IoOutcome.transferred, page.size,
    List.take_of_length_le (le_of_eq page.size)]

/-- Appending to the log file without errors. -/
theorem Host.appendWal_eq {host : Host} (h : host.walWrites = []) (walFd : ℤ) (data : List UInt8) :
    host.appendWal walFd data =
      if walFd < 0 then (-1, host)
      else ((data.length : ℤ), { host with walFile := host.walFile ++ data }) := by
  obtain ⟨dataFile, walFile, pageReads, pageWrites, walReads, walWrites, walSyncs⟩ := host
  have hwrites : walWrites = [] := h
  subst hwrites
  simp only [appendWal, List.headD_nil, IoOutcome.transferred, List.take_length, List.tail_nil]

/-- Appending a record without errors depends on the log file alone, and changes nothing else. -/
theorem walAppendRecord_log {host : Host} (h : host.walWrites = []) (wal : WALManager)
    (txnId : UInt32) (recType : WALRecordType) (pageId : UInt32) (slotId : UInt16)
    (payload : Option (List UInt8)) (payloadLen : UInt32) :
    walAppendRecord wal host txnId recType pageId slotId payload payloadLen =
      let log := walAppendRecord wal { Host.empty with walFile := host.walFile } txnId recType pageId
        slotId payload payloadLen
      (log.1, log.2.1, { host with walFile := log.2.2.walFile }) := by
  by_cases hfd : wal.walFd < 0
  · simp [walAppendRecord, Host.appendWal, hfd, walHeaderSize]
  · obtain ⟨dataFile, walFile, pageReads, pageWrites, walReads, walWrites, walSyncs⟩ := host
    have hwrites : walWrites = [] := h
    subst hwrites
    cases payload with
    | none => simp [walAppendRecord, Host.appendWal, IoOutcome.transferred, Host.empty, hfd]
    | some bytes =>
      by_cases hlen : 0 < payloadLen
      · by_cases hshort : bytes.length < payloadLen.toNat <;>
          simp [walAppendRecord, Host.appendWal, IoOutcome.transferred, Host.empty, hfd, hlen, hshort]
      · simp [walAppendRecord, Host.appendWal, IoOutcome.transferred, Host.empty, hfd, hlen]

/-! ## Writing back and loading -/

/-- Writing back keeps the pages that lie in the file there. -/
theorem WritesBack.stores {before after : Storage} (h : WritesBack before after) {pageId : ℕ}
    (hpage : before.host.Stores pageId) : after.host.Stores pageId := by
  obtain hholds | ⟨_, _, _, hholds⟩ := h.onDisk pageId _ (Host.holdsPage_diskPage hpage)
  · exact hholds.diskPage_eq.1
  · exact hholds.diskPage_eq.1

/-- Writing back does not change the content of a page on disk that is not dirty. -/
theorem WritesBack.diskPage_eq {before after : Storage} (h : WritesBack before after) {pageId : ℕ}
    (hpage : before.host.Stores pageId) (hclean : ¬before.bpm.Dirty pageId) :
    after.host.diskPage pageId = before.host.diskPage pageId := by
  obtain hholds | ⟨i, hdirty, hi, -⟩ := h.onDisk pageId _ (Host.holdsPage_diskPage hpage)
  · exact hholds.diskPage_eq.2
  · exact absurd ⟨i, hdirty, hi⟩ hclean

namespace Represents

variable {m : Machine} {s : PageArray}

/-- Writing back changes nothing that the array knows of. -/
theorem writesBack (h : Represents m s) {st : Storage} (hback : WritesBack m.storage st) :
    Represents { m with storage := st } s := by
  have hdirty : ∀ {pageId}, st.bpm.Dirty pageId → m.storage.bpm.Dirty pageId := by
    rintro pageId ⟨i, hi, hpage⟩
    exact ⟨i, hback.dirtied i hi, hback.pageId i ▸ hpage⟩
  have hlength : st.host.dataFile.length < (s.extent + 1) * pageSize := by
    have hbound := hback.fileLength s.extent fun i hi => h.dirtyBelow _ ⟨i, hi, rfl⟩
    have hfile := h.fileBelow
    have hmul : s.extent * pageSize < (s.extent + 1) * pageSize :=
      Nat.mul_lt_mul_of_pos_right (Nat.lt_succ_self _) (by decide)
    omega
  refine
    { faultFree := hback.log.faultFree h.faultFree
      opened := hback.diskFd ▸ h.opened
      wellFormed := hback.wellFormed h.wellFormed
      small := hback.poolSize ▸ h.small
      room := hback.poolSize ▸ h.room
      pinCount := ?_
      pinned := ?_
      cached := ?_
      onDisk := ?_
      written := ?_
      dirtyBelow := fun pageId hpage => h.dirtyBelow pageId (hdirty hpage)
      touchedBelow := h.touchedBelow
      fileBelow := hlength
      wal := hback.wal.trans h.wal
      walFile := hback.log.walFile.trans h.walFile
      nextPageId := h.nextPageId
      counter := h.counter }
  · intro i hi
    rw [hback.pageId] at hi ⊢
    rw [hback.pinCount]
    exact h.pinCount i hi
  · intro pageId hpage
    obtain ⟨hvalid, i, hi⟩ := h.pinned pageId hpage
    exact ⟨hvalid, i, (hback.pageId i).trans hi⟩
  · intro i hi
    rw [hback.pageId] at hi ⊢
    rw [hback.pageData]
    exact h.cached i hi
  · intro pageId hclean htouched
    by_cases hwas : m.storage.bpm.Dirty pageId
    · obtain ⟨i, hi, hpage⟩ := hwas
      have hholds := hback.cleaned i hi fun hstill => hclean ⟨i, hstill, (hback.pageId i).trans hpage⟩
      change st.host.diskPage pageId ∈ _
      rw [hpage] at hholds
      rw [hholds.diskPage_eq.2, ← hpage]
      exact h.cached i (h.wellFormed.dirtyNamed i hi)
    · by_cases hstored : m.storage.host.Stores pageId
      · change st.host.diskPage pageId ∈ _
        rw [hback.diskPage_eq hstored hwas]
        exact h.onDisk pageId hwas htouched
      · by_cases hextent : pageId < s.extent
        · obtain huniv | hdirty' | htouched' | hstored' := h.written pageId hextent
          · rw [huniv]
            exact Set.mem_univ _
          · exact absurd hdirty' hwas
          · exact absurd htouched' htouched
          · exact absurd hstored' hstored
        · have hnot : ¬st.host.Stores pageId := by
            intro hstores
            have hmul := Nat.mul_le_mul_right pageSize (Nat.add_le_add_right (not_lt.mp hextent) 1)
            rw [Host.Stores] at hstores
            omega
          have hold := h.onDisk pageId hwas htouched
          change st.host.diskPage pageId ∈ _
          rw [Host.diskPage_of_not_stores hstored] at hold
          rwa [Host.diskPage_of_not_stores hnot]
  · intro pageId hextent
    obtain huniv | ⟨i, hi, hpage⟩ | htouched | hstored := h.written pageId hextent
    · exact Or.inl huniv
    · by_cases hstill : (st.bpm.frame i).isDirty
      · exact Or.inr (Or.inl ⟨i, hstill, (hback.pageId i).trans hpage⟩)
      · have hholds := hback.cleaned i hi hstill
        rw [hpage] at hholds
        exact Or.inr (Or.inr (Or.inr hholds.diskPage_eq.1))
    · exact Or.inr (Or.inr (Or.inl htouched))
    · exact Or.inr (Or.inr (Or.inr (hback.stores hstored)))

/-- A page whose content is certain has that content. -/
theorem currentPage (h : Represents m s) {pageId : ℕ} (hvalid : pageId ≠ invalidPageId) {page : Page}
    (hholds : s.Holds pageId page) (hsettled : pageId ∉ s.touched) : m.storage.currentPage pageId = page := by
  have hcontent : ∀ {other}, other ∈ s.content pageId → other = page := by
    intro other hother
    rw [hholds] at hother
    exact hother
  rw [Storage.currentPage]
  cases hfound : m.storage.bpm.frameIndex pageId with
  | some i =>
    obtain ⟨-, hpage⟩ := BufferPoolManager.frameIndex_some hfound
    have hcached := h.cached i (hpage.trans_ne hvalid)
    rw [hpage] at hcached
    exact hcontent hcached
  | none =>
    refine hcontent (h.onDisk pageId ?_ hsettled)
    rintro ⟨i, -, hpage⟩
    have hi := m.storage.bpm.lt_poolSize_of_frame (hpage.trans_ne hvalid)
    exact BufferPoolManager.frameIndex_none hfound hi hpage

/-- Moving the clock hand changes nothing that the array knows of. -/
theorem moveHand (h : Represents m s) {hand : ℕ}
    (hhand : hand < m.storage.bpm.poolSize ∨ m.storage.bpm.poolSize = 0) :
    Represents { m with
      storage := { m.storage with bpm := { m.storage.bpm with clockHand := hand } } } s :=
  { h with wellFormed := h.wellFormed.moveHand hhand }

/-! ## Fetching -/

/-- A page that no frame holds is not pinned. -/
theorem not_mem_pins (h : Represents m s) {pageId : ℕ}
    (hmiss : m.storage.bpm.frameIndex pageId = none) : pageId ∉ s.pins := by
  intro hpin
  obtain ⟨hvalid, i, hi⟩ := h.pinned pageId hpin
  have hlt := m.storage.bpm.lt_poolSize_of_frame (i := i) (by rw [hi]; exact hvalid.ne)
  exact BufferPoolManager.frameIndex_none hmiss hlt hi

/-- Only the frame of a page decides whether the page is dirty. -/
theorem dirty_setFrame_of_ne {pageId i other : ℕ} (hindex : m.storage.bpm.frameIndex pageId = some i)
    {frame : Frame} (hpage : frame.pageId = pageId) (hne : other ≠ pageId) :
    (m.setFrame i frame).storage.bpm.Dirty other ↔ m.storage.bpm.Dirty other := by
  obtain ⟨hi, hpageId⟩ := BufferPoolManager.frameIndex_some hindex
  refine exists_congr fun j => ?_
  rw [show (m.setFrame i frame).storage.bpm.frame j = if i = j then frame else m.storage.bpm.frame j from
    m.storage.bpm.frame_setFrame hi frame j]
  split_ifs with hij
  · subst hij
    rw [hpage, hpageId]
    exact ⟨fun hd => absurd hd.2.symm hne, fun hd => absurd hd.2.symm hne⟩
  · rfl

/-- The page of a frame that is replaced. -/
theorem dirty_setFrame_self (h : Represents m s) {pageId i : ℕ}
    (hindex : m.storage.bpm.frameIndex pageId = some i) {frame : Frame} (hpage : frame.pageId = pageId) :
    (m.setFrame i frame).storage.bpm.Dirty pageId ↔ frame.isDirty := by
  obtain ⟨hi, hpageId⟩ := BufferPoolManager.frameIndex_some hindex
  have hframes (j : ℕ) : (m.setFrame i frame).storage.bpm.frame j =
      if i = j then frame else m.storage.bpm.frame j := m.storage.bpm.frame_setFrame hi frame j
  constructor
  · rintro ⟨j, hj, hjpage⟩
    rw [hframes] at hj hjpage
    split_ifs at hj hjpage with hij
    · exact hj
    · exact absurd (h.wellFormed.distinct j i (h.wellFormed.dirtyNamed j hj)
        (hjpage.trans hpageId.symm)).symm hij
  · intro hd
    refine ⟨i, ?_⟩
    rw [hframes, if_pos rfl]
    exact ⟨hd, hpage⟩

/-- A page whose frame is clean is not dirty. -/
theorem not_dirty (h : Represents m s) {pageId i : ℕ} (hindex : m.storage.bpm.frameIndex pageId = some i)
    (hclean : ¬(m.storage.bpm.frame i).isDirty) : ¬m.storage.bpm.Dirty pageId := by
  obtain ⟨-, hpageId⟩ := BufferPoolManager.frameIndex_some hindex
  rintro ⟨j, hj, hjpage⟩
  have hij : j = i := h.wellFormed.distinct j i (h.wellFormed.dirtyNamed j hj) (hjpage.trans hpageId.symm)
  exact hclean (hij ▸ hj)

/-- Changing the frame of a page and the entry of the page in the array together. The frame may
become dirty but not clean, and unless it is dirty or being changed the page keeps its
content. -/
theorem setFrame (h : Represents m s) {pageId i : ℕ} (hvalid : pageId < invalidPageId)
    (hindex : m.storage.bpm.frameIndex pageId = some i) {frame : Frame} {s' : PageArray}
    (hpage : frame.pageId = pageId) (hstill : (m.storage.bpm.frame i).isDirty → frame.isDirty)
    (hcount : frame.pinCount = s'.pins.count pageId)
    (hpins : ∀ other, other ≠ pageId → s'.pins.count other = s.pins.count other)
    (hdata : frame.pageData ∈ s'.content pageId)
    (hcontent : ∀ other, other ≠ pageId → s.content other ⊆ s'.content other)
    (hself : frame.isDirty ∨ pageId ∈ s'.touched ∨
      (pageId ∉ s.touched ∧ s'.content pageId = s.content pageId ∧ s'.extent = s.extent))
    (hbelow : frame.isDirty ∨ pageId ∈ s'.touched → pageId < s'.extent)
    (hextent : s.extent ≤ s'.extent)
    (hgap : ∀ other, s.extent ≤ other → other < s'.extent → other ≠ pageId →
      s'.content other = Set.univ)
    (htouched : ∀ other, other ≠ pageId → (other ∈ s'.touched ↔ other ∈ s.touched))
    (htouchedPin : pageId ∈ s'.touched → pageId ∈ s'.pins)
    (hrest : s'.room = s.room ∧ s'.wal = s.wal ∧ s'.walFile = s.walFile ∧
      s'.nextPageId = s.nextPageId) :
    Represents (m.setFrame i frame) s' := by
  obtain ⟨hi, hpageId⟩ := BufferPoolManager.frameIndex_some hindex
  have hframes (j : ℕ) : (m.setFrame i frame).storage.bpm.frame j =
      if i = j then frame else m.storage.bpm.frame j := m.storage.bpm.frame_setFrame hi frame j
  have hother {j : ℕ} (hj : (m.storage.bpm.frame j).pageId ≠ invalidPageId) (hij : i ≠ j) :
      (m.storage.bpm.frame j).pageId ≠ pageId := fun heq =>
    hij (h.wellFormed.distinct j i hj (heq.trans hpageId.symm)).symm
  have hdirty {other : ℕ} (hne : other ≠ pageId) :
      (m.setFrame i frame).storage.bpm.Dirty other ↔ m.storage.bpm.Dirty other :=
    dirty_setFrame_of_ne hindex hpage hne
  have hdirtySelf := h.dirty_setFrame_self hindex hpage
  have hclean (hd : ¬frame.isDirty) : ¬m.storage.bpm.Dirty pageId :=
    h.not_dirty hindex fun hwas => hd (hstill hwas)
  refine
    { faultFree := h.faultFree
      opened := h.opened
      wellFormed := h.wellFormed.setFrame_same hi frame (hpage.trans hpageId.symm) fun _ =>
        hpage ▸ hvalid.ne
      small := by simpa [Machine.setFrame] using h.small
      room := by simpa [Machine.setFrame, hrest.1] using h.room
      pinCount := ?_
      pinned := ?_
      cached := ?_
      onDisk := ?_
      written := ?_
      dirtyBelow := ?_
      touchedBelow := ?_
      fileBelow := lt_of_lt_of_le h.fileBelow
        (Nat.mul_le_mul_right _ (Nat.add_le_add_right hextent 1))
      wal := h.wal.trans hrest.2.1.symm
      walFile := h.walFile.trans hrest.2.2.1.symm
      nextPageId := h.nextPageId.trans hrest.2.2.2.symm
      counter := hrest.2.2.2 ▸ h.counter }
  · intro j hj
    rw [hframes] at hj ⊢
    split_ifs at hj ⊢ with hij
    · rw [hpage, hcount]
    · rw [hpins _ (hother hj hij), h.pinCount j hj]
  · intro other hmem
    by_cases heq : other = pageId
    · subst heq
      refine ⟨hvalid, i, ?_⟩
      rw [hframes, if_pos rfl, hpage]
    · have hwas : other ∈ s.pins := by
        rw [← List.count_pos_iff, ← hpins other heq]
        exact List.count_pos_iff.mpr hmem
      obtain ⟨hlt, j, hj⟩ := h.pinned other hwas
      have hij : i ≠ j := fun hij => heq (hj ▸ hij ▸ hpageId)
      refine ⟨hlt, j, ?_⟩
      rw [hframes, if_neg hij, hj]
  · intro j hj
    rw [hframes] at hj ⊢
    split_ifs at hj ⊢ with hij
    · rw [hpage]
      exact hdata
    · exact hcontent _ (hother hj hij) (h.cached j hj)
  · intro other hnot hfree
    by_cases heq : other = pageId
    · subst heq
      rw [hdirtySelf] at hnot
      obtain hd | ht | ⟨hwas, hsame, -⟩ := hself
      · exact absurd hd hnot
      · exact absurd ht hfree
      · rw [hsame]
        exact h.onDisk other (hclean hnot) hwas
    · rw [hdirty heq] at hnot
      rw [htouched other heq] at hfree
      exact hcontent other heq (h.onDisk other hnot hfree)
  · intro other hlt
    by_cases heq : other = pageId
    · subst heq
      obtain hd | ht | ⟨hwas, hsame, hsameExtent⟩ := hself
      · exact Or.inr (Or.inl (hdirtySelf.mpr hd))
      · exact Or.inr (Or.inr (Or.inl ht))
      · rw [hsameExtent] at hlt
        by_cases hd : frame.isDirty
        · exact Or.inr (Or.inl (hdirtySelf.mpr hd))
        · obtain huniv | hdirty' | ht | hstored := h.written other hlt
          · exact Or.inl (hsame.trans huniv)
          · exact absurd hdirty' (hclean hd)
          · exact absurd ht hwas
          · exact Or.inr (Or.inr (Or.inr hstored))
    · by_cases hold : other < s.extent
      · obtain huniv | hd | ht | hstored := h.written other hold
        · exact Or.inl (Set.univ_subset_iff.mp (huniv ▸ hcontent other heq))
        · exact Or.inr (Or.inl ((hdirty heq).mpr hd))
        · exact Or.inr (Or.inr (Or.inl ((htouched other heq).mpr ht)))
        · exact Or.inr (Or.inr (Or.inr hstored))
      · exact Or.inl (hgap other (not_lt.mp hold) hlt heq)
  · intro other hd
    by_cases heq : other = pageId
    · subst heq
      exact hbelow (Or.inl (hdirtySelf.mp hd))
    · exact lt_of_lt_of_le (h.dirtyBelow other ((hdirty heq).mp hd)) hextent
  · intro other ht
    by_cases heq : other = pageId
    · subst heq
      exact ⟨hbelow (Or.inr ht), htouchedPin ht⟩
    · obtain ⟨hlt, hmem⟩ := h.touchedBelow other ((htouched other heq).mp ht)
      refine ⟨lt_of_lt_of_le hlt hextent, ?_⟩
      rw [← List.count_pos_iff, hpins other heq]
      exact List.count_pos_iff.mpr hmem

/-- Pinning a page that some frame holds. -/
theorem pinFrame (h : Represents m s) {pageId i : ℕ} (hvalid : pageId < invalidPageId)
    (hindex : m.storage.bpm.frameIndex pageId = some i) (hcount : s.pins.length + 1 < 2 ^ 32) :
    Represents (m.setFrame i { m.storage.bpm.frame i with
      pinCount := ((m.storage.bpm.frame i).pinCount + 1) % 2 ^ 32 }) (s.pin pageId) := by
  obtain ⟨-, hpage⟩ := BufferPoolManager.frameIndex_some hindex
  have hi : (m.storage.bpm.frame i).pageId ≠ invalidPageId := hpage ▸ hvalid.ne
  have hle := List.count_le_length (a := pageId) (l := s.pins)
  refine h.setFrame hvalid hindex hpage id ?_ ?_ (hpage ▸ h.cached i hi) (fun _ _ => subset_rfl) ?_
    ?_ le_rfl (fun other hlow hhigh => absurd hhigh (not_lt.mpr hlow)) (fun _ _ => Iff.rfl)
    (fun ht => List.mem_cons_of_mem _ (h.touchedBelow pageId ht).2) ⟨rfl, rfl, rfl, rfl⟩
  · rw [PageArray.pin, List.count_cons_self]
    simp only
    rw [h.pinCount i hi, hpage, Nat.mod_eq_of_lt (by omega)]
  · intro other hother
    exact List.count_cons_of_ne hother.symm
  · by_cases ht : pageId ∈ s.touched
    · exact Or.inr (Or.inl ht)
    · exact Or.inr (Or.inr ⟨ht, rfl, rfl⟩)
  · rintro (hd | ht)
    · exact h.dirtyBelow pageId ⟨i, hd, hpage⟩
    · exact (h.touchedBelow pageId ht).1

/-- Loading a page that no frame holds into a clean frame that is empty or not pinned. -/
theorem loadFrame (h : Represents m s) {pageId i : ℕ} (hvalid : pageId < invalidPageId)
    (hi : i < m.storage.bpm.poolSize) (hclean : ¬(m.storage.bpm.frame i).isDirty)
    (hfree : (m.storage.bpm.frame i).pageId = invalidPageId ∨ (m.storage.bpm.frame i).pinCount = 0)
    (hmiss : m.storage.bpm.frameIndex pageId = none) :
    Represents (m.setFrame i ⟨pageId, 1, false, m.storage.host.diskPage pageId⟩)
      (s.pin pageId) := by
  set frame : Frame := ⟨pageId, 1, false, m.storage.host.diskPage pageId⟩ with hframe
  have hframes (j : ℕ) : (m.setFrame i frame).storage.bpm.frame j =
      if i = j then frame else m.storage.bpm.frame j := m.storage.bpm.frame_setFrame hi frame j
  have hother {j : ℕ} (hj : (m.storage.bpm.frame j).pageId ≠ invalidPageId) :
      pageId ≠ (m.storage.bpm.frame j).pageId := fun heq =>
    BufferPoolManager.frameIndex_none hmiss (m.storage.bpm.lt_poolSize_of_frame hj) heq.symm
  have hnotDirty : ¬m.storage.bpm.Dirty pageId := by
    rintro ⟨j, hj, hpage⟩
    exact hother (h.wellFormed.dirtyNamed j hj) hpage.symm
  have hdirty (page : ℕ) : (m.setFrame i frame).storage.bpm.Dirty page ↔
      m.storage.bpm.Dirty page := by
    refine exists_congr fun j => ?_
    rw [hframes]
    split_ifs with hij
    · subst hij
      simp [hclean, hframe]
    · rfl
  have hnotPinned := h.not_mem_pins hmiss
  refine
    { h with
      wellFormed := h.wellFormed.setFrame_new hi frame hmiss (by simp [hframe])
      small := by simpa [Machine.setFrame] using h.small
      room := by simpa [Machine.setFrame, PageArray.pin] using h.room
      pinCount := ?_
      pinned := ?_
      cached := ?_
      onDisk := ?_
      written := ?_
      dirtyBelow := ?_
      touchedBelow := ?_ }
  · intro j hj
    rw [hframes] at hj ⊢
    split_ifs at hj ⊢ with hij
    · rw [PageArray.pin, List.count_cons_self, List.count_eq_zero_of_not_mem hnotPinned]
    · rw [PageArray.pin, List.count_cons_of_ne (hother hj), h.pinCount j hj]
  · intro other hmem
    rw [PageArray.pin, List.mem_cons] at hmem
    obtain rfl | hmem := hmem
    · refine ⟨hvalid, i, ?_⟩
      rw [hframes, if_pos rfl]
    · obtain ⟨hlt, j, hj⟩ := h.pinned other hmem
      have hne : i ≠ j := by
        rintro rfl
        have hcount := h.pinCount i (hj ▸ hlt.ne)
        have hpos := List.count_pos_iff.mpr hmem
        rw [hj] at hcount
        obtain hinvalid | hzero := hfree
        · exact hlt.ne (hj ▸ hinvalid)
        · omega
      refine ⟨hlt, j, ?_⟩
      rw [hframes, if_neg hne, hj]
  · intro j hj
    rw [hframes] at hj ⊢
    split_ifs at hj ⊢ with hij
    · refine h.onDisk pageId hnotDirty fun htouched => ?_
      exact hnotPinned (h.touchedBelow pageId htouched).2
    · exact h.cached j hj
  · intro other hclean' htouched
    exact h.onDisk other (fun hd => hclean' ((hdirty other).mpr hd)) htouched
  · intro other hextent
    obtain huniv | hd | hrest := h.written other hextent
    · exact Or.inl huniv
    · exact Or.inr (Or.inl ((hdirty other).mpr hd))
    · exact Or.inr (Or.inr hrest)
  · intro other hd
    exact h.dirtyBelow other ((hdirty other).mp hd)
  · intro other htouched
    obtain ⟨hextent, hpin⟩ := h.touchedBelow other htouched
    exact ⟨hextent, List.mem_cons_of_mem _ hpin⟩

/-- With fewer pinned pages than frames, some frame is empty or not pinned. -/
theorem exists_free (h : Represents m s) (hroom : s.pins.dedup.length < s.room) :
    ∃ i < m.storage.bpm.poolSize, (m.storage.bpm.frame i).pageId = invalidPageId ∨
      (m.storage.bpm.frame i).pinCount = 0 := by
  by_contra hnone
  push Not at hnone
  have hpins : ∀ i ∈ List.range m.storage.bpm.poolSize,
      (m.storage.bpm.frame i).pageId ∈ s.pins.dedup := by
    intro i hi
    obtain ⟨hvalid, hcount⟩ := hnone i (List.mem_range.mp hi)
    rw [h.pinCount i hvalid] at hcount
    exact List.mem_dedup.mpr (List.count_pos_iff.mp (Nat.pos_of_ne_zero hcount))
  have hnodup : ((List.range m.storage.bpm.poolSize).map
      fun i => (m.storage.bpm.frame i).pageId).Nodup := by
    refine List.Nodup.map_on ?_ List.nodup_range
    intro i hi j hj hij
    exact h.wellFormed.distinct i j (hnone i (List.mem_range.mp hi)).1 hij
  have hle := (hnodup.subperm fun pageId hmem => by
    obtain ⟨i, hi, rfl⟩ := List.mem_map.mp hmem
    exact hpins i hi).length_le
  rw [List.length_map, List.length_range] at hle
  have hsize := h.room
  omega

/-- A fetch that the array accepts succeeds. -/
theorem fetchPage (h : Represents m s) {pageId : ℕ} (hfetch : s.Fetchable pageId) :
    (bufferPoolFetchPage m.storage pageId).1.isSome ∧
      Represents { m with storage := (bufferPoolFetchPage m.storage pageId).2 } (s.pin pageId) := by
  obtain ⟨hvalid, hroom, hcount⟩ := hfetch
  unfold bufferPoolFetchPage
  cases hindex : m.storage.bpm.frameIndex pageId with
  | some i => exact ⟨rfl, h.pinFrame hvalid hindex hcount⟩
  | none =>
    have hfew := hroom.resolve_left (h.not_mem_pins hindex)
    obtain ⟨j, hj, hfree⟩ := h.exists_free hfew
    obtain ⟨i, hvictim⟩ := Option.isSome_iff_exists.mp
      (h.wellFormed.victim_isSome h.small hj hfree)
    obtain ⟨hi, hfreei⟩ := h.wellFormed.scan.2 i hvictim
    obtain ⟨hback, hclean⟩ := writesBack_findVictimFrame h.wellFormed h.opened fun _ _ _ => by
      rw [h.faultFree.pageWrites, List.headD_nil]
    have hmoved : Represents { m with storage := { m.storage with bpm := m.storage.bpm.scanned } } s :=
      h.moveHand h.wellFormed.scan.1.hand
    have hflushed := hmoved.writesBack hback
    have hvalue : (findVictimFrame m.storage).1 = (i : ℤ) := by
      rw [findVictimFrame_eq, hvictim]
      exact if_pos (hi.trans h.small)
    rw [hvalue, Int.toNat_natCast] at hclean
    obtain ⟨-, hcleani⟩ := hclean (Int.natCast_nonneg i)
    have hmiss : (findVictimFrame m.storage).2.bpm.frameIndex pageId = none := by
      apply BufferPoolManager.frameIndex_eq_none
      intro k hk
      rw [hback.pageId]
      rw [hback.poolSize] at hk
      exact BufferPoolManager.frameIndex_none hindex hk
    have hload := hflushed.loadFrame (i := i) hvalid (hback.poolSize.symm ▸ hi) hcleani
      (by rw [hback.pageId, hback.pinCount]; exact hfreei) hmiss
    have hopen : 0 ≤ (findVictimFrame m.storage).2.bpm.diskFd := hflushed.opened
    simp only [hvalue, not_lt.mpr (Int.natCast_nonneg i), if_false,
      Int.toNat_natCast, hopen, if_true, readPageOrFormat_eq hflushed.faultFree]
    exact ⟨rfl, hload⟩

/-! ## The other calls -/

/-- A page that the array counts as pinned is in the frame that a lookup finds. -/
theorem exists_frame (h : Represents m s) {pageId : ℕ} (hpin : pageId ∈ s.pins) :
    pageId < invalidPageId ∧ ∃ i, m.storage.bpm.frameIndex pageId = some i := by
  obtain ⟨hvalid, i, hi⟩ := h.pinned pageId hpin
  exact ⟨hvalid, i, hi ▸ h.wellFormed.distinct.frameIndex_frame (hi ▸ hvalid.ne)⟩

/-- Reading a page whose content is certain. -/
theorem pageData (h : Represents m s) {pageId : ℕ} {page : Page} (hpin : pageId ∈ s.pins)
    (hholds : s.Holds pageId page) :
    ∃ i, m.storage.bpm.frameIndex pageId = some i ∧ (m.storage.bpm.frame i).pageData = page := by
  obtain ⟨hvalid, i, hindex⟩ := h.exists_frame hpin
  obtain ⟨-, hpage⟩ := BufferPoolManager.frameIndex_some hindex
  have hcached := h.cached i (hpage ▸ hvalid.ne)
  rw [hpage, hholds] at hcached
  exact ⟨i, hindex, hcached⟩

/-- Changing a pinned page. -/
theorem modifyPage (h : Represents m s) {pageId i : ℕ} (hpin : pageId ∈ s.pins)
    (hindex : m.storage.bpm.frameIndex pageId = some i) {change : Page → Page} {page : Page}
    (hchange : change '' s.content pageId = {page}) :
    Represents (m.setFrame i { m.storage.bpm.frame i with
      pageData := change (m.storage.bpm.frame i).pageData }) (s.change pageId page) := by
  obtain ⟨hvalid, -⟩ := h.exists_frame hpin
  obtain ⟨-, hpage⟩ := BufferPoolManager.frameIndex_some hindex
  have hi : (m.storage.bpm.frame i).pageId ≠ invalidPageId := hpage ▸ hvalid.ne
  refine h.setFrame hvalid hindex hpage id ?_ (fun _ _ => rfl) ?_ ?_
    (Or.inr (Or.inl (Set.mem_insert _ _))) (fun _ => lt_of_lt_of_le (Nat.lt_succ_self _)
      (le_max_right _ _)) (le_max_left _ _) ?_ ?_ (fun _ => hpin) ⟨rfl, rfl, rfl, rfl⟩
  · rw [← hpage]
    exact h.pinCount i hi
  · rw [PageArray.content_change_self, ← hchange]
    exact Set.mem_image_of_mem _ (hpage ▸ h.cached i hi)
  · intro other hother
    rw [PageArray.content_change_of_ne s hother]
    exact s.subset_content_extend pageId other
  · intro other hlow hhigh hother
    have hlt : other < pageId := by
      have hbound : other < max s.extent (pageId + 1) := hhigh
      omega
    rw [PageArray.content_change_of_ne s hother, s.content_extend_of_gap hlow hlt]
  · intro other hother
    exact Set.mem_insert_iff.trans (or_iff_right hother)

/-- Releasing a pin. -/
theorem unpinPage (h : Represents m s) {pageId : ℕ} {isDirty : Bool} (hpin : pageId ∈ s.pins)
    (htouched : pageId ∈ s.touched → isDirty) (hextent : isDirty → pageId < s.extent)
    (hint : BufferPoolHint) :
    Represents { m with storage := bufferPoolUnpinPage m.storage pageId isDirty hint }
      (s.unpin pageId isDirty) := by
  obtain ⟨hvalid, i, hindex⟩ := h.exists_frame hpin
  obtain ⟨hi, hpage⟩ := BufferPoolManager.frameIndex_some hindex
  have hvalidi : (m.storage.bpm.frame i).pageId ≠ invalidPageId := hpage ▸ hvalid.ne
  have hframe : Represents (m.setFrame i { m.storage.bpm.frame i with
      pinCount := (m.storage.bpm.frame i).pinCount - 1
      isDirty := (m.storage.bpm.frame i).isDirty || isDirty }) (s.unpin pageId isDirty) := by
    refine h.setFrame hvalid hindex hpage (fun hd => by simp [hd]) ?_ ?_
      (hpage ▸ h.cached i hvalidi) (fun _ _ => subset_rfl) ?_ ?_ le_rfl
      (fun other hlow hhigh => absurd hhigh (not_lt.mpr hlow)) ?_ ?_ ⟨rfl, rfl, rfl, rfl⟩
    · rw [PageArray.unpin, List.count_erase_self]
      simp only
      rw [h.pinCount i hvalidi, hpage]
    · intro other hother
      exact List.count_erase_of_ne hother
    · cases isDirty with
      | true => exact Or.inl (by simp)
      | false =>
        exact Or.inr (Or.inr ⟨fun ht => absurd (htouched ht) (by simp), rfl, rfl⟩)
    · rintro (hd | ht)
      · obtain hwas | hnow := Bool.or_eq_true_iff.mp hd
        · exact h.dirtyBelow pageId ⟨i, hwas, hpage⟩
        · exact hextent hnow
      · cases isDirty with
        | true => exact absurd rfl ht.2
        | false => exact absurd (htouched ht) (by simp)
    · intro other hother
      cases isDirty with
      | true => exact and_iff_left hother
      | false => exact Iff.rfl
    · intro ht
      cases isDirty with
      | true => exact absurd rfl ht.2
      | false => exact absurd (htouched ht) (by simp)
  simp only [bufferPoolUnpinPage, hindex]
  split_ifs
  · exact hframe.moveHand (Or.inl (by simpa [Machine.setFrame] using hi))
  · exact hframe

/-- Zeroing a page in the file. -/
theorem writeZeroPage (h : Represents m s) (pageId : ℕ) :
    Represents { m with storage := { m.storage with host := { m.storage.host with
      dataFile := pwriteFile m.storage.host.dataFile (pageId * pageSize) Page.zero.bytes } } }
      (s.zeroOnDisk pageId) := by
  set host := { m.storage.host with
    dataFile := pwriteFile m.storage.host.dataFile (pageId * pageSize) Page.zero.bytes } with hhost
  obtain ⟨hself, hothers⟩ := @holdsPage_pwriteFile m.storage.host host Page.zero pageId rfl
  have hstores {other : ℕ} (hother : m.storage.host.Stores other) (hne : other ≠ pageId) :
      host.Stores other ∧ host.diskPage other = m.storage.host.diskPage other :=
    (hothers other _ hne (Host.holdsPage_diskPage hother)).diskPage_eq
  have hlength : host.dataFile.length < (max s.extent (pageId + 1) + 1) * pageSize := by
    have hdata : Page.zero.bytes ≠ [] := List.ne_nil_of_length_pos (by
      rw [Page.length_bytes]
      omega)
    have hfile := h.fileBelow
    have hleft := Nat.mul_le_mul_right pageSize
      (Nat.add_le_add_right (le_max_left s.extent (pageId + 1)) 1)
    have hright := Nat.mul_le_mul_right pageSize
      (Nat.add_le_add_right (le_max_right s.extent (pageId + 1)) 1)
    have hsize : pageId * pageSize + pageSize < (pageId + 1 + 1) * pageSize := by
      rw [← Nat.succ_mul]
      exact Nat.mul_lt_mul_of_pos_right (Nat.lt_succ_self _) (by decide)
    have hnew := length_pwriteFile m.storage.host.dataFile (pageId * pageSize) hdata
    rw [Page.zero.size] at hnew
    rw [hhost, hnew]
    omega
  have hcontent (other : ℕ) : s.content other ⊆ (s.zeroOnDisk pageId).content other := by
    by_cases hother : other = pageId
    · rw [hother, PageArray.content_zeroOnDisk_self]
      exact Set.subset_insert _ _
    · rw [PageArray.content_zeroOnDisk_of_ne s hother]
      exact s.subset_content_extend pageId other
  refine
    { h with
      faultFree := ⟨h.faultFree.pageReads, h.faultFree.pageWrites, h.faultFree.walWrites,
        h.faultFree.walSyncs⟩
      cached := fun i hi => hcontent _ (h.cached i hi)
      onDisk := ?_
      written := ?_
      dirtyBelow := fun other hd => lt_of_lt_of_le (h.dirtyBelow other hd) (le_max_left _ _)
      touchedBelow := fun other ht =>
        ⟨lt_of_lt_of_le (h.touchedBelow other ht).1 (le_max_left _ _), (h.touchedBelow other ht).2⟩
      fileBelow := hlength }
  · intro other hclean htouched
    change host.diskPage other ∈ _
    by_cases hother : other = pageId
    · subst hother
      rw [hself.diskPage_eq.2, PageArray.content_zeroOnDisk_self]
      exact Set.mem_insert _ _
    · by_cases hstored : m.storage.host.Stores other
      · rw [(hstores hstored hother).2]
        exact hcontent other (h.onDisk other hclean htouched)
      · by_cases hgap : other < max s.extent (pageId + 1)
        · suffices huniv : (s.zeroOnDisk pageId).content other = Set.univ by
            rw [huniv]
            exact Set.mem_univ _
          by_cases hold : other < s.extent
          · obtain huniv | hd | ht | hs := h.written other hold
            · exact Set.univ_subset_iff.mp (huniv ▸ hcontent other)
            · exact absurd hd hclean
            · exact absurd ht htouched
            · exact absurd hs hstored
          · rw [PageArray.content_zeroOnDisk_of_ne s hother,
              s.content_extend_of_gap (not_lt.mp hold) (by omega)]
        · have hnot : ¬host.Stores other := by
            intro hs
            have hmul := Nat.mul_le_mul_right pageSize (Nat.add_le_add_right (not_lt.mp hgap) 1)
            rw [Host.Stores] at hs
            omega
          have hold := hcontent other (h.onDisk other hclean htouched)
          rwa [Host.diskPage_of_not_stores hstored, ← Host.diskPage_of_not_stores hnot] at hold
  · intro other hlt
    by_cases hother : other = pageId
    · subst hother
      exact Or.inr (Or.inr (Or.inr hself.diskPage_eq.1))
    · by_cases hold : other < s.extent
      · obtain huniv | hd | ht | hs := h.written other hold
        · exact Or.inl (Set.univ_subset_iff.mp (huniv ▸ hcontent other))
        · exact Or.inr (Or.inl hd)
        · exact Or.inr (Or.inr (Or.inl ht))
        · exact Or.inr (Or.inr (Or.inr (hstores hs hother).1))
      · have hbound : other < max s.extent (pageId + 1) := hlt
        left
        rw [PageArray.content_zeroOnDisk_of_ne s hother,
          s.content_extend_of_gap (not_lt.mp hold) (by omega)]

/-- Appending to the log. -/
theorem append (h : Represents m s) (wal : WALManager) (txnId : UInt32)
    (recType : WALRecordType) (pageId : UInt32) (slotId : UInt16) (payload : List UInt8) :
    let real := walAppendRecord wal m.storage.host txnId recType pageId slotId (some payload)
      (UInt32.ofNat payload.length)
    real.1 = (s.append wal txnId recType pageId slotId payload).1 ∧
      Represents { m with
        storage := { m.storage with wal := some real.2.1, host := real.2.2 } }
        (s.append wal txnId recType pageId slotId payload).2 := by
  intro real
  have hreal : real = _ := walAppendRecord_log h.faultFree.walWrites wal txnId recType pageId slotId
    (some payload) (UInt32.ofNat payload.length)
  rw [h.walFile] at hreal
  rw [hreal]
  exact ⟨rfl,
    { h with
      faultFree := ⟨h.faultFree.pageReads, h.faultFree.pageWrites, h.faultFree.walWrites,
        h.faultFree.walSyncs⟩
      onDisk := h.onDisk
      written := h.written
      wal := rfl
      walFile := rfl }⟩

end Represents

/-- The buffer pool answers every call that the plain array accepts, and in the same way. -/
theorem poolHandler_simulates : poolHandler.Simulates arrayHandler Represents := by
  intro command m s h answer s' hrun
  cases command with
  | fetchPage pageId =>
    simp only [arrayHandler, Option.ite_none_right_eq_some, Option.some.injEq] at hrun
    obtain ⟨hfetch, rfl, rfl⟩ := hrun
    obtain ⟨hsome, hrep⟩ := h.fetchPage hfetch
    refine ⟨_, ?_, hrep⟩
    simp only [poolHandler, hsome]
  | pageData pageId =>
    simp only [arrayHandler, Option.dite_none_right_eq_some, Option.some.injEq] at hrun
    obtain ⟨hpage, rfl, rfl⟩ := hrun
    obtain ⟨hpin, hholds⟩ := hpage.choose_spec
    obtain ⟨i, hindex, hdata⟩ := h.pageData hpin hholds
    refine ⟨m, ?_, h⟩
    simp only [poolHandler, hindex, Option.map_some, hdata]
  | modifyPage pageId change =>
    simp only [arrayHandler, Option.dite_none_right_eq_some, Option.some.injEq] at hrun
    obtain ⟨hpage, -, rfl⟩ := hrun
    obtain ⟨hpin, hchange⟩ := hpage.choose_spec
    obtain ⟨-, i, hindex⟩ := h.exists_frame hpin
    refine ⟨_, ?_, h.modifyPage hpin hindex hchange⟩
    simp only [poolHandler, hindex, Option.map_some]
  | unpinPage pageId isDirty hint =>
    simp only [arrayHandler, Option.ite_none_right_eq_some, Option.some.injEq] at hrun
    obtain ⟨⟨hpin, htouched, hextent⟩, -, rfl⟩ := hrun
    exact ⟨_, rfl, h.unpinPage hpin htouched hextent hint⟩
  | writeZeroPage pageId =>
    simp only [arrayHandler, Option.some.injEq] at hrun
    obtain ⟨rfl, rfl⟩ := hrun
    refine ⟨_, ?_, h.writeZeroPage pageId⟩
    simp only [poolHandler, if_neg (not_lt.mpr h.opened), ftsVfsWriteSync_eq h.faultFree]
    simp
  | walAttached =>
    simp only [arrayHandler, Option.some.injEq] at hrun
    obtain ⟨rfl, rfl⟩ := hrun
    refine ⟨m, ?_, h⟩
    simp only [poolHandler, h.wal]
  | walAppend txnId recType pageId slotId payload =>
    have happend : s.wal.map (fun wal => s.append wal txnId recType pageId slotId payload) =
        (some (answer, s') : Option (UInt64 × PageArray)) := hrun
    rw [Option.map_eq_some_iff] at happend
    obtain ⟨wal, hwal, happend⟩ := happend
    obtain ⟨hlsn, hrep⟩ := h.append wal txnId recType pageId slotId payload
    rw [happend] at hlsn hrep
    refine ⟨_, ?_, hrep⟩
    simp only [poolHandler, h.wal, hwal, Option.map_some, hlsn]
  | takePageId =>
    simp only [arrayHandler, Option.ite_none_right_eq_some, Option.some.injEq] at hrun
    obtain ⟨hlt, rfl, rfl⟩ := hrun
    have hbound : s.nextPageId + 1 < 2 ^ 32 := Nat.add_lt_of_lt_sub hlt
    refine ⟨{ m with nextPageId := s.nextPageId + 1 }, ?_,
      { h with nextPageId := rfl, counter := hbound }⟩
    simp only [poolHandler, h.nextPageId, Nat.mod_eq_of_lt hbound]
  | nextPageId =>
    simp only [arrayHandler, Option.some.injEq] at hrun
    obtain ⟨rfl, rfl⟩ := hrun
    refine ⟨m, ?_, h⟩
    simp only [poolHandler, h.nextPageId]
  | setNextPageId value =>
    simp only [arrayHandler, Option.ite_none_right_eq_some, Option.some.injEq] at hrun
    obtain ⟨hbound, -, rfl⟩ := hrun
    refine ⟨{ m with nextPageId := value }, ?_, { h with nextPageId := rfl, counter := hbound }⟩
    simp only [poolHandler, Nat.mod_eq_of_lt hbound]

end FtsUring
