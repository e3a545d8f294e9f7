import FtsUring.Shard.Updates
import FtsUring.Storage.WalSessions

/-!
# Closing and reopening a shard

Closing saves the statistics and the page counter in the metadata file and flushes the pool. Opening the
files again restores them, and looks for the active data page from the last page on: it is the first one
whose type field says that it is a data page. Posting pages have no type field, they have the data page
of their first posting in its place.
-/

namespace FtsUring

open Foundation

variable {F : Type}

/-- `shard_meta_save`: what the metadata file then holds. -/
def shardMetaSave (shard : Shard F) (nextPageId : ℕ) : ShardMetadata F where
  totalDocs := shard.totalDocs
  nextDocId := shard.nextDocId
  nextPageId := UInt32.ofNat nextPageId
  sumDl := shard.sumDl
  avgdl := shard.avgdl

/-- `shard_close_with_path` with a path: the metadata file and the other files that it leaves. -/
def shardCloseWithPath (shard : Shard F) (m : Machine) : ShardMetadata F × Host :=
  let storage := bufferPoolFlushAll m.storage
  (shardMetaSave shard m.nextPageId,
    match storage.wal with
    | some wal => (walClose wal storage.host).2
    | none => storage.host)

/-! ## The files -/

/-- Closing the log leaves the files alone. -/
theorem walClose_host (wal : WALManager) (host : Host) :
    (walClose wal host).2 = host ∨ (walClose wal host).2 = { host with walSyncs := host.walSyncs.tail } := by
  rw [walClose]
  split_ifs with hopen
  · rw [walFlush, if_pos hopen, Host.syncWal]
    dsimp only
    split
    · exact Or.inr rfl
    · exact Or.inr rfl
  · exact Or.inl rfl

/-- The page of a file depends on the bytes of the file alone. -/
theorem Host.diskPage_congr {host host' : Host} (h : host'.dataFile = host.dataFile) (pageId : ℕ) :
    host'.diskPage pageId = host.diskPage pageId := by
  rw [diskPage, diskPage, h]

/-- What closing leaves in the files. -/
theorem shardCloseWithPath_host (shard : Shard F) {m : Machine} (hfree : m.storage.host.FaultFree)
    (hbpm : m.storage.bpm.WellFormed) :
    (shardCloseWithPath shard m).2.dataFile = (bufferPoolFlushAll m.storage).host.dataFile ∧
      (shardCloseWithPath shard m).2.FaultFree := by
  have hback := writesBack_bufferPoolFlushAll hbpm (by simp [hfree.pageWrites])
  have hflushed := hback.log.faultFree hfree
  rw [shardCloseWithPath]
  dsimp only
  cases (bufferPoolFlushAll m.storage).wal with
  | none => exact ⟨rfl, hflushed⟩
  | some wal =>
    dsimp only
    obtain hsame | hsame := walClose_host wal (bufferPoolFlushAll m.storage).host
    · rw [hsame]
      exact ⟨rfl, hflushed⟩
    · rw [hsame]
      exact ⟨rfl, hflushed.pageReads, hflushed.pageWrites, hflushed.walWrites,
        by rw [hflushed.walSyncs, List.tail_nil]⟩

/-! ## The reopened pages -/

/-- The array with room for another number of pins. -/
def PageArray.setRoom (s : PageArray) (room : ℕ) : PageArray := { s with room }

/-- The leaves do not depend on the room for pins. -/
theorem LeavesAt.setRoom {s : PageArray} {next : ℕ} {chain : LeafPages} (h : LeavesAt s next chain)
    (room : ℕ) : LeavesAt (s.setRoom room) next chain := by
  induction chain with
  | nil => trivial
  | cons first rest ih => exact ⟨h.1, ih h.2⟩

/-- The postings do not depend on the room for pins. -/
theorem PostingsAt.setRoom {s : PageArray} {termId : UInt32} {chain : PostingPages}
    (h : PostingsAt s termId chain) (room : ℕ) : PostingsAt (s.setRoom room) termId chain := by
  induction chain with
  | nil => trivial
  | cons first rest ih => exact ⟨h.1, ih h.2⟩

namespace ShardAt

variable {s : PageArray} {view : ShardView}

/-- The array of the pages that closing leaves in the data file. -/
def reopened (host : Host) (wal : WALManager) (view : ShardView) : PageArray :=
  PageArray.ofHost host (some wal) 2 view.nextPageId

/-- The pages that closing leaves in the data file are those of the shard. -/
theorem shardAt_reopened (h : ShardAt s view) {m : Machine} (hm : Represents m s) {host : Host}
    (hfile : host.dataFile = (bufferPoolFlushAll m.storage).host.dataFile) (wal : WALManager) :
    ShardAt (reopened host wal view) view ∧
      (∀ pageId page, pageId < view.nextPageId → s.Holds pageId page →
        (reopened host wal view).Holds pageId page) ∧
      host.dataFile.length / pageSize = view.nextPageId := by
  have hsize : 0 < pageSize := by decide
  have hheld : ∀ pageId page, pageId < view.nextPageId → s.Holds pageId page →
      (bufferPoolFlushAll m.storage).host.HoldsPage pageId page := fun pageId page hpage hholds =>
    hm.holdsPage_flushAll h.idle.touched (h.extent ▸ hpage) hholds
  have hdisk : ∀ pageId page, pageId < view.nextPageId → s.Holds pageId page →
      (reopened host wal view).Holds pageId page := by
    intro pageId page hpage hholds
    have hsame := (Host.diskPage_congr hfile pageId).trans (hheld pageId page hpage hholds).diskPage_eq.2
    exact congrArg (fun page => ({page} : Set Page)) hsame
  -- the last page is in the file, and nothing follows it
  have hpages : host.dataFile.length / pageSize = view.nextPageId := by
    have hpositive := h.valid.positive
    obtain ⟨page, hholds⟩ := h.exists_holds (show view.nextPageId - 1 < view.nextPageId by omega)
    have hlast := (hheld _ page (by omega) hholds).diskPage_eq.1
    have hfits : (bufferPoolFlushAll m.storage).host.dataFile.length < (s.extent + 1) * pageSize :=
      hm.flushAll.fileBelow
    rw [Host.Stores, Nat.sub_add_cancel (by omega)] at hlast
    rw [h.extent] at hfits
    rw [hfile]
    exact Nat.div_eq_of_lt_le hlast hfits
  have hextent : (reopened host wal view).extent = view.nextPageId := hpages
  set t := (reopened host wal view).setRoom s.room with ht
  have htExtent : t.extent = view.nextPageId := hpages
  have hbeyond : ∀ pageId, view.nextPageId ≤ pageId →
      t.Holds pageId (slottedPageInit pageId .row) := by
    intro pageId hpage
    have hnot : ¬host.Stores pageId := by
      rw [Host.Stores, ← Nat.le_div_iff_mul_le hsize, hpages]
      omega
    exact congrArg (fun page => ({page} : Set Page)) (Host.diskPage_of_not_stores hnot)
  have hevolves : s.Evolves t ∅ := by
    refine ⟨rfl, h.wal.symm, (h.extent.trans htExtent.symm).le, ?_, ?_, h.counter.le, fun _ => htExtent⟩
    · intro pageId hpage _
      rw [h.extent] at hpage
      obtain ⟨page, hholds⟩ := h.exists_holds hpage
      exact (hdisk pageId page hpage hholds).trans hholds.symm
    · intro pageId hpage
      rw [htExtent] at hpage
      exact (hbeyond pageId hpage).trans (h.beyond pageId (h.extent.trans_le hpage)).symm
  obtain ⟨htree, hpostings, htombstones, hdata⟩ := h.unchanged hevolves
  have hout : ∀ owner id, view.Owns owner id → id ∉ (∅ : Set ℕ) := fun _ _ _ => Set.notMem_empty _
  have htree := htree (hout .tree)
  have hidle : (reopened host wal view).Idle := ⟨rfl, le_refl 2, (by decide : 0 + 2 < 2 ^ 32)⟩
  have hreopened : ShardAt (reopened host wal view) view :=
    { idle := hidle
      valid := h.valid
      extent := hpages
      counter := rfl
      beyond := fun pageId hpage => hbeyond pageId (hpages.symm.trans_le hpage)
      wal := rfl
      tree := ⟨htree.leaves.setRoom 2, htree.root, htree.nodup, htree.distinct⟩
      postings := fun termId => (hpostings termId (hout _)).setRoom 2
      tombstones := htombstones (Set.notMem_empty _)
      data := hdata (hout .data) }
  exact ⟨hreopened, hdisk, hpages⟩

end ShardAt

/-! ## Looking for the active page -/

/-- The type field of a posting page is the lower half of the data page of its first posting. -/
theorem IsPostingPage.pageType {page : Page} {termId : UInt32} {items : List InvertedPosting} {next : ℕ}
    (h : IsPostingPage page termId items next) {first : InvertedPosting} (hfirst : first ∈ items.head?) :
    page.pageType = first.dataPageId % 2 ^ 16 := by
  have hnonempty := h.nonempty
  have hposting := h.posting hnonempty
  rw [List.head?_eq_getElem?, List.getElem?_eq_getElem hnonempty, Option.mem_some_iff] at hfirst
  rw [hfirst] at hposting
  have hpage : page.field 16 4 = first.dataPageId := congrArg InvertedPosting.dataPageId hposting
  have hsplit : page.field 16 4 = page.field 16 2 + 256 ^ 2 * page.field 18 2 :=
    field_add page.bytes 16 2 2 (by rw [page.length_bytes]; decide)
  have hlow := page.field_lt 16 2
  have hwidth : 256 ^ 2 = 2 ^ 16 := rfl
  rw [← hpage, hsplit, Page.pageType, hwidth, Nat.add_mul_mod_self_left]
  exact (Nat.mod_eq_of_lt hlow).symm

/-- A posting page that looks like a data page: its first posting is in a data page with a suitable
id. -/
def ShardView.PosesAsData (view : ShardView) (pageId : ℕ) : Prop :=
  ∃ termId items, (pageId, items) ∈ view.postings termId ∧
    ∃ first ∈ items.head?, first.dataPageId % 2 ^ 16 = PageType.vectorData.code

namespace ShardAt

variable {s : PageArray} {view : ShardView}

/-- The page looks like a data page. -/
def LooksLikeData (s : PageArray) (pageId : ℕ) : Prop :=
  ∃ page, s.Holds pageId page ∧ page.pageType = PageType.vectorData.code

/-- The search for the active page finds the last page that looks like a data page. -/
theorem exec_lastDataPage (h : ShardAt s view) {pageId found : ℕ} (hlow : firstDataPageId ≤ found)
    (hhigh : found ≤ pageId) (hpage : pageId < view.nextPageId) (hfound : LooksLikeData s found)
    (hlast : ∀ other, found < other → other ≤ pageId → ¬LooksLikeData s other) :
    arrayHandler.exec (lastDataPage pageId) s = some (some found, s) := by
  have hfirst : firstDataPageId = 2 := rfl
  induction pageId with
  | zero => omega
  | succ pageId ih =>
    obtain ⟨page, hholds⟩ := h.exists_holds hpage
    have hvalid : pageId + 1 < invalidPageId := hpage.trans_le h.valid.fits
    rw [lastDataPage, if_neg (by omega),
      Handler.exec_bind_of_eq _ (PageArray.exec_fetchPage (h.idle.fetchable hvalid)), if_pos rfl,
      Handler.exec_bind_of_eq _ (PageArray.exec_pageData (s.mem_pins_pin _) hholds),
      Handler.exec_bind_of_eq _ (PageArray.exec_unpinPage_clean h.idle _ .normal)]
    by_cases htype : page.pageType = PageType.vectorData.code
    · have hsame : found = pageId + 1 := by
        by_contra hne
        exact hlast (pageId + 1) (by omega) (le_refl _) ⟨page, hholds, htype⟩
      rw [if_pos htype, hsame]
      rfl
    · have hne : found ≠ pageId + 1 := by
        rintro rfl
        obtain ⟨other, hother, hotherType⟩ := hfound
        rw [Set.singleton_injective (hother.symm.trans hholds)] at hotherType
        exact htype hotherType
      rw [if_neg htype]
      exact ih (by omega) (by omega) fun other hlow hhigh => hlast other hlow (by omega)

/-- The pages that look like data pages. -/
theorem looksLikeData_iff (h : ShardAt s view) {pageId : ℕ} (hlow : firstDataPageId ≤ pageId)
    (hhigh : pageId < view.nextPageId) :
    LooksLikeData s pageId ↔ pageId ∈ view.data.ids ∨ view.PosesAsData pageId := by
  have hfirst : firstDataPageId = 2 := rfl
  have hcertain : ∀ {page}, s.Holds pageId page →
      (LooksLikeData s pageId ↔ page.pageType = PageType.vectorData.code) := by
    intro page hholds
    refine ⟨?_, fun htype => ⟨page, hholds, htype⟩⟩
    rintro ⟨other, hother, htype⟩
    rwa [Set.singleton_injective (hother.symm.trans hholds)] at htype
  have hposes : view.PosesAsData pageId → ∃ termId, view.Owns (.term termId) pageId := by
    rintro ⟨termId, items, hmem, -⟩
    exact ⟨termId, List.mem_map_of_mem hmem⟩
  have hother : ∀ owner, view.Owns owner pageId → owner ≠ .data →
      (∀ termId, owner ≠ .term termId) → ¬(pageId ∈ view.data.ids ∨ view.PosesAsData pageId) := by
    intro owner howner hdata hterm hor
    obtain hmem | hmem := hor
    · exact hdata (h.valid.owned.unique _ _ .data howner hmem)
    · obtain ⟨termId, hmem⟩ := hposes hmem
      exact hterm termId (h.valid.owned.unique _ _ _ howner hmem)
  obtain ⟨owner, howner⟩ := h.valid.owned.cover pageId hhigh
  cases owner with
  | tree =>
    refine iff_of_false ?_ (hother .tree howner nofun nofun)
    obtain ⟨⟨id, leaf⟩, hleaf, rfl⟩ := List.mem_map.mp howner
    obtain ⟨-, -, page, next, hholds, hpage⟩ := h.tree.leaves.page hleaf
    rw [hcertain hholds, hpage.pageType]
    decide
  | tombstones =>
    have hone : pageId = 1 := howner
    omega
  | data =>
    refine iff_of_true ?_ (Or.inl howner)
    obtain ⟨⟨id, records⟩, hmem, rfl⟩ := List.mem_map.mp howner
    obtain ⟨-, page, hholds, hpage⟩ : _ ∧ ∃ page, s.Holds id page ∧ IsDataPage page records :=
      h.data _ hmem
    rw [hcertain hholds]
    exact hpage.pageType
  | term termId =>
    have hnot : pageId ∉ view.data.ids := fun hmem =>
      absurd (h.valid.owned.unique _ _ .data howner hmem) nofun
    rw [or_iff_right hnot]
    obtain ⟨⟨id, items⟩, hmem, rfl⟩ := List.mem_map.mp howner
    obtain ⟨-, -, page, next, hholds, hpage⟩ := (h.postings termId).page hmem
    have hnonempty := hpage.nonempty
    rw [hcertain hholds]
    constructor
    · intro htype
      have hhead : items[0] ∈ items.head? := by
        rw [List.head?_eq_getElem?, List.getElem?_eq_getElem hnonempty]
        rfl
      exact ⟨termId, items, hmem, items[0], hhead, (hpage.pageType hhead).symm.trans htype⟩
    · rintro ⟨other, items', hmem', first, hhead, htype⟩
      have hsame := h.valid.owned.unique id (.term termId) (.term other) howner (List.mem_map_of_mem hmem')
      obtain rfl := PageOwner.term.inj hsame
      have hnodup : (view.postings termId).ids.Nodup :=
        (h.valid.descending termId).imp fun hgt => ne_of_gt hgt
      have hitems := (PageChain.itemsAt_of_mem hnodup hmem).symm.trans
        (PageChain.itemsAt_of_mem hnodup hmem')
      rw [hpage.pageType (hitems ▸ hhead), htype]

/-- The tree of a shard needs no formatting. -/
theorem exec_btreeInit (h : ShardAt s view) :
    arrayHandler.exec (btreeInit btreeRootPageId) s = some ((), s) := by
  obtain ⟨leaf, rest, hchain⟩ := h.tree.linked.exists_first
  have hroot : (btreeRootPageId, leaf) ∈ view.tree := hchain ▸ List.mem_cons_self
  obtain ⟨-, hvalid, page, next, hholds, hpage⟩ := h.tree.leaves.page hroot
  have htype : ¬(page.pageType ≠ PageType.btreeLeaf.code ∧ page.pageType ≠ PageType.btreeInternal.code) :=
    fun hother => hother.1 hpage.pageType
  rw [btreeInit, Handler.exec_bind_of_eq _ (PageArray.exec_fetchPage (h.idle.fetchable hvalid)), if_pos rfl,
    Handler.exec_bind_of_eq _ (PageArray.exec_pageData (s.mem_pins_pin _) hholds), if_neg htype]
  exact PageArray.exec_unpinPage_clean h.idle _ .normal

/-- The active page is a data page. -/
theorem activePage_mem (h : ShardAt s view) : view.activePage ∈ view.data.ids := by
  rw [ShardView.activePage]
  cases hdata : view.data with
  | nil => exact absurd hdata h.valid.dataNonempty
  | cons first rest => exact List.mem_cons_self

/-- The active page is the last data page. -/
theorem le_activePage (h : ShardAt s view) {pageId : ℕ} (hmem : pageId ∈ view.data.ids) :
    pageId ≤ view.activePage := by
  have hdescending := h.valid.dataDescending
  rw [ShardView.activePage]
  cases hdata : view.data with
  | nil => exact absurd hdata h.valid.dataNonempty
  | cons first rest =>
    rw [hdata, PageChain.ids, List.map_cons] at hmem hdescending
    obtain rfl | hrest := List.mem_cons.mp hmem
    · exact le_refl _
    · exact ((List.pairwise_cons.mp hdescending).1 pageId hrest).le

end ShardAt

/-! ## Opening the files again -/

open Classical in
/-- The page that is taken for the active data page. -/
noncomputable def ShardView.rediscoveredPage (view : ShardView) : ℕ :=
  Nat.findGreatest (fun pageId => firstDataPageId ≤ pageId ∧
    (pageId ∈ view.data.ids ∨ view.PosesAsData pageId)) (view.nextPageId - 1)

/-- No page behind the active data page looks like a data page. -/
def ShardView.KeepsActivePage (view : ShardView) : Prop :=
  ∀ pageId, view.activePage < pageId → ¬view.PosesAsData pageId

namespace ShardAt

variable {s : PageArray} {view : ShardView}

/-- The pages that look like data pages are in use. -/
theorem lt_nextPageId_of_posesAsData (h : ShardAt s view) {pageId : ℕ} (hposes : view.PosesAsData pageId) :
    pageId < view.nextPageId := by
  obtain ⟨termId, items, hmem, -⟩ := hposes
  exact h.valid.owned.bound (.term termId) pageId (List.mem_map_of_mem hmem)

/-- The page that is taken for the active one is the active one, or a page behind it that looks like a
data page. -/
theorem rediscoveredPage_spec (h : ShardAt s view) :
    firstDataPageId ≤ view.rediscoveredPage ∧ view.rediscoveredPage < view.nextPageId ∧
      (view.rediscoveredPage ∈ view.data.ids ∨ view.PosesAsData view.rediscoveredPage) ∧
      view.activePage ≤ view.rediscoveredPage ∧
      ∀ other, view.rediscoveredPage < other → other < view.nextPageId →
        ¬(other ∈ view.data.ids ∨ view.PosesAsData other) := by
  classical
  have hactive : view.Owns .data view.activePage := h.activePage_mem
  have hbound := h.valid.owned.bound .data _ hactive
  have hlow := h.firstDataPageId_le hactive
  have hspec := @Nat.findGreatest_spec view.activePage (fun pageId => firstDataPageId ≤ pageId ∧
    (pageId ∈ view.data.ids ∨ view.PosesAsData pageId)) _ (view.nextPageId - 1) (by omega)
      ⟨hlow, Or.inl hactive⟩
  have hle := Nat.le_findGreatest (by omega : view.activePage ≤ view.nextPageId - 1)
    (P := fun pageId => firstDataPageId ≤ pageId ∧ (pageId ∈ view.data.ids ∨ view.PosesAsData pageId))
    ⟨hlow, Or.inl hactive⟩
  have hupper := Nat.findGreatest_le (P := fun pageId => firstDataPageId ≤ pageId ∧
    (pageId ∈ view.data.ids ∨ view.PosesAsData pageId)) (view.nextPageId - 1)
  refine ⟨hspec.1, ?_, hspec.2, hle, fun other hother hlt hlooks => ?_⟩
  · rw [ShardView.rediscoveredPage]
    have hpositive := h.valid.positive
    omega
  · exact Nat.findGreatest_is_greatest hother (by omega) ⟨hspec.1.trans hother.le, hlooks⟩

/-- The page that is taken for the active one is the active one exactly when no page behind it looks like
a data page. -/
theorem rediscoveredPage_eq_iff (h : ShardAt s view) :
    view.rediscoveredPage = view.activePage ↔ view.KeepsActivePage := by
  obtain ⟨-, hbound, hlooks, hle, hgreatest⟩ := h.rediscoveredPage_spec
  constructor
  · intro hsame pageId hpage hposes
    exact hgreatest pageId (hsame.trans_lt hpage) (h.lt_nextPageId_of_posesAsData hposes) (Or.inr hposes)
  · intro hkeeps
    by_contra hne
    have hlt : view.activePage < view.rediscoveredPage := lt_of_le_of_ne hle (Ne.symm hne)
    obtain hmem | hposes := hlooks
    · exact absurd (h.le_activePage hmem) (not_le.mpr hlt)
    · exact hkeeps _ hlt hposes

variable {F : Type} [Double F]

/-- Opening the files of a shard again. -/
theorem exec_shardInit_reopened {host : Host} {wal : WALManager} (h : ShardAt (reopened host wal view) view)
    (hpages : host.dataFile.length / pageSize = view.nextPageId) {saved : ShardMetadata F}
    (hsaved : saved.nextPageId = UInt32.ofNat view.nextPageId) (counter : ℕ) :
    arrayHandler.exec (shardInit host.dataFile.length (some saved))
        (PageArray.ofHost host (some wal) 2 counter) =
      some (some { (Shard.initial.restore saved : Shard F) with activeDataPageId := view.rediscoveredPage },
        reopened host wal view) := by
  have hpositive := h.valid.positive
  have hfits := h.valid.fits
  have hinvalid : invalidPageId = 2 ^ 32 - 1 := rfl
  have hsize : host.dataFile.length ≠ 0 := by
    intro hzero
    rw [hzero, Nat.zero_div] at hpages
    omega
  have hcounted : max 3 (host.dataFile.length / pageSize % 2 ^ 32) = view.nextPageId := by
    rw [hpages, Nat.mod_eq_of_lt (by omega)]
    omega
  have hrestored : saved.nextPageId.toNat = view.nextPageId := by
    rw [hsaved, UInt32.toNat_ofNat']
    exact Nat.mod_eq_of_lt (by omega)
  have hset : ∀ counter, arrayHandler.exec (setNextPageId view.nextPageId)
      (PageArray.ofHost host (some wal) 2 counter) = some ((), reopened host wal view) :=
    fun counter => PageArray.exec_setNextPageId (by omega)
  have hlast : (view.nextPageId + 2 ^ 32 - 1) % 2 ^ 32 = view.nextPageId - 1 := by omega
  obtain ⟨hlow, hbound, hlooks, -, hgreatest⟩ := h.rediscoveredPage_spec
  have hfound := h.exec_lastDataPage hlow (by omega : view.rediscoveredPage ≤ view.nextPageId - 1)
    (by omega) ((h.looksLikeData_iff hlow hbound).mpr hlooks) fun other hother hle hlooks' =>
      hgreatest other hother (by omega)
        ((h.looksLikeData_iff (hlow.trans hother.le) (by omega)).mp hlooks')
  rw [shardInit, if_neg hsize, hcounted, Handler.exec_bind_of_eq _ (hset counter),
    Handler.exec_bind_of_eq _ h.exec_btreeInit]
  simp only [hrestored, pure_bind, hsize, if_false]
  have hagain : arrayHandler.exec (setNextPageId view.nextPageId) (reopened host wal view) =
      some ((), reopened host wal view) := hset view.nextPageId
  rw [Handler.exec_bind_of_eq _ hagain,
    Handler.exec_bind_of_eq _ (PageArray.exec_nextPageId _), h.counter, hlast,
    Handler.exec_bind_of_eq _ hfound]
  rfl

end ShardAt

end FtsUring
