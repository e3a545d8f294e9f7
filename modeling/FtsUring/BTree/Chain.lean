import FtsUring.BTree.BTree
import FtsUring.Foundation.LeafChain
import FtsUring.Storage.ArraySteps

/-!
# The B-tree as a chain of leaves

`TreeAt` reads the pages of the array that are linked from the root page on as a `LeafChain`.
Searches and updates of the tree are the lookup and the update of that chain.
-/

namespace FtsUring

open Foundation

/-- The leaves of the tree with their page ids. -/
abbrev LeafPages : Type := LeafChain ℕ BTreeLeafEntry

namespace LeafPages

/-- The page of the first leaf, or what follows the chain when there is none. -/
def firstId (next : ℕ) : LeafPages → ℕ
  | [] => next
  | (id, _) :: _ => id

/-- The lookup by the key of the entries. -/
abbrev lookup (chain : LeafPages) (key : UInt64) : Option BTreeLeafEntry :=
  LeafChain.lookup BTreeLeafEntry.key chain key

/-- The insertion by the key of the entries, with leaves of the size of a page. -/
abbrev insert (newId : ℕ) (entry : BTreeLeafEntry) (chain : LeafPages) : LeafPages :=
  LeafChain.insert BTreeLeafEntry.key btreeMaxLeafEntries newId entry chain

/-- Whether the insertion of a key takes a new page. -/
abbrev splits (key : UInt64) (chain : LeafPages) : Bool :=
  LeafChain.splits BTreeLeafEntry.key btreeMaxLeafEntries key chain

/-- The leaf that a key belongs to. -/
abbrev target (key : UInt64) (chain : LeafPages) : Option ℕ := LeafChain.target BTreeLeafEntry.key key chain

/-- The update by the key of the entries. -/
abbrev update (entry : BTreeLeafEntry) (chain : LeafPages) : LeafPages :=
  LeafChain.update BTreeLeafEntry.key entry chain

end LeafPages

/-- The pages of the array hold the leaves, each linked to the following one and the last to
`next`. -/
def LeavesAt (s : PageArray) (next : ℕ) : LeafPages → Prop
  | [] => True
  | (id, leaf) :: rest =>
    (id < s.extent ∧ id < invalidPageId ∧
      ∃ page, s.Holds id page ∧ IsLeaf page leaf (LeafPages.firstId next rest)) ∧
      LeavesAt s next rest

/-- The pages of the array hold a chain of leaves from the root page on, in which keys may occur twice. -/
structure TreeLinked (s : PageArray) (root : ℕ) (chain : LeafPages) : Prop where
  leaves : LeavesAt s invalidPageId chain
  root : chain.ids.head? = some root
  nodup : chain.ids.Nodup

/-- The pages of the array hold a tree with the given root page. -/
structure TreeAt (s : PageArray) (root : ℕ) (chain : LeafPages) : Prop where
  leaves : LeavesAt s invalidPageId chain
  root : chain.ids.head? = some root
  nodup : chain.ids.Nodup
  distinct : LeafChain.Distinct BTreeLeafEntry.key chain

namespace LeavesAt

variable {s t : PageArray} {next : ℕ} {chain : LeafPages}

/-- Leaves in pages that were not changed. -/
theorem evolves {changed : Set ℕ} (h : LeavesAt s next chain) (hevolves : s.Evolves t changed)
    (hout : ∀ id ∈ chain.ids, id ∉ changed) : LeavesAt t next chain := by
  induction chain with
  | nil => trivial
  | cons first rest ih =>
    obtain ⟨id, leaf⟩ := first
    obtain ⟨⟨hextent, hvalid, page, hholds, hleaf⟩, hrest⟩ := h
    refine ⟨⟨lt_of_lt_of_le hextent hevolves.extent, hvalid, page, ?_, hleaf⟩, ih hrest ?_⟩
    · exact hevolves.holds hextent (hout id List.mem_cons_self) hholds
    · exact fun other hother => hout other (List.mem_cons_of_mem id hother)

/-- The pages of a tree are valid and written, and hold its leaves. -/
theorem page (h : LeavesAt s next chain) {id : ℕ} {leaf : List BTreeLeafEntry}
    (hmem : (id, leaf) ∈ chain) : id < s.extent ∧ id < invalidPageId ∧
      ∃ page following, s.Holds id page ∧ IsLeaf page leaf following := by
  induction chain with
  | nil => exact absurd hmem List.not_mem_nil
  | cons first rest ih =>
    obtain ⟨⟨hextent, hvalid, page, hholds, hpage⟩, hrest⟩ := h
    rw [List.mem_cons] at hmem
    obtain rfl | hmem := hmem
    · exact ⟨hextent, hvalid, page, _, hholds, hpage⟩
    · exact ih hrest hmem

/-- Two chains, one behind the other. -/
theorem append {left right : LeafPages} :
    LeavesAt s next (left ++ right) ↔
      LeavesAt s (LeafPages.firstId next right) left ∧ LeavesAt s next right := by
  induction left with
  | nil => exact (and_iff_right trivial).symm
  | cons first rest ih =>
    obtain ⟨id, leaf⟩ := first
    have hnext : LeafPages.firstId next (rest ++ right) =
        LeafPages.firstId (LeafPages.firstId next right) rest := by
      cases rest <;> rfl
    rw [List.cons_append, LeavesAt, LeavesAt, ih, hnext]
    simp only [and_assoc]

/-- The leaves are in valid and written pages. -/
theorem valid (h : LeavesAt s next chain) {id : ℕ} (hid : id ∈ chain.ids) :
    id < s.extent ∧ id < invalidPageId := by
  induction chain with
  | nil => exact absurd hid List.not_mem_nil
  | cons first rest ih =>
    obtain ⟨first, leaf⟩ := first
    obtain ⟨⟨hextent, hvalid, -⟩, hrest⟩ := h
    rw [LeafChain.ids_cons, List.mem_cons] at hid
    obtain rfl | hid := hid
    · exact ⟨hextent, hvalid⟩
    · exact ih hrest hid

/-- There are fewer leaves than page ids. -/
theorem length_lt (h : LeavesAt s next chain) (hnodup : chain.ids.Nodup) :
    chain.length < walkLimit := by
  have hsubset : chain.ids ⊆ List.range invalidPageId :=
    fun id hid => List.mem_range.mpr (h.valid hid).2
  have hcount := (hnodup.subperm hsubset).length_le
  rw [List.length_range, LeafChain.ids, List.length_map] at hcount
  exact lt_of_le_of_lt hcount (by decide)

end LeavesAt

/-- The code of a leaf page is not that of an internal page. -/
theorem btreeLeaf_code_ne : PageType.btreeLeaf.code ≠ PageType.btreeInternal.code := by decide

/-- The page that an insertion walks on from. -/
theorem IsLeaf.belongsRight_iff {page : Page} {leaf : List BTreeLeafEntry} {next : ℕ}
    (h : IsLeaf page leaf next) (key : UInt64) :
    page.BelongsRight key ↔ next ≠ invalidPageId ∧ LeafChain.Below BTreeLeafEntry.key leaf key := by
  rw [Page.BelongsRight, h.nextLeafId, h.slotCount, LeafChain.Below, List.getLast?_eq_getElem?]
  apply and_congr_right
  intro _
  constructor
  · rintro ⟨hpos, hlt⟩
    have hlast : leaf.length - 1 < leaf.length := by omega
    rw [h.entry hlast] at hlt
    exact ⟨_, List.getElem?_eq_getElem hlast, hlt⟩
  · rintro ⟨last, hlast, hlt⟩
    obtain ⟨hlength, hget⟩ := List.getElem?_eq_some_iff.mp hlast
    refine ⟨by omega, ?_⟩
    rw [h.entry hlength, hget]
    exact hlt

namespace TreeLinked

variable {s : PageArray} {root : ℕ} {chain : LeafPages}

/-- The chain has a first leaf, in the root page. -/
theorem exists_first (h : TreeLinked s root chain) : ∃ leaf rest, chain = (root, leaf) :: rest := by
  have hroot := h.root
  cases chain with
  | nil => exact absurd hroot (by simp [LeafChain.ids])
  | cons first rest =>
    obtain ⟨id, leaf⟩ := first
    rw [LeafChain.ids_cons, List.head?_cons, Option.some.injEq] at hroot
    exact ⟨leaf, rest, by rw [hroot]⟩

/-- The chain is not empty. -/
theorem ne_nil (h : TreeLinked s root chain) : chain ≠ [] := by
  obtain ⟨leaf, rest, rfl⟩ := h.exists_first
  exact List.cons_ne_nil _ _

/-- The chain starts at the root page. -/
theorem firstId_eq (h : TreeLinked s root chain) : chain.firstId invalidPageId = root := by
  obtain ⟨leaf, rest, rfl⟩ := h.exists_first
  rfl

end TreeLinked

namespace TreeAt

variable {s : PageArray} {root : ℕ} {chain : LeafPages}

/-- The leaves of a tree are linked. -/
theorem linked (h : TreeAt s root chain) : TreeLinked s root chain := ⟨h.leaves, h.root, h.nodup⟩

/-- The chain is not empty. -/
theorem ne_nil (h : TreeAt s root chain) : chain ≠ [] := h.linked.ne_nil

/-- The chain starts at the root page. -/
theorem firstId_eq (h : TreeAt s root chain) : chain.firstId invalidPageId = root := h.linked.firstId_eq

/-- A tree in pages that were not changed. -/
theorem evolves {t : PageArray} {changed : Set ℕ} (h : TreeAt s root chain)
    (hevolves : s.Evolves t changed) (hout : ∀ id ∈ chain.ids, id ∉ changed) :
    TreeAt t root chain :=
  { h with leaves := h.leaves.evolves hevolves hout }

end TreeAt

/-! ## Searching -/

/-- The walk of a search from a leaf on. -/
theorem exec_btreeSearchFrom {s : PageArray} (hidle : s.Idle) {chain : LeafPages}
    (hleaves : LeavesAt s invalidPageId chain) (key : UInt64) {fuel : ℕ} (hfuel : chain.length < fuel) :
    arrayHandler.exec (btreeSearchFrom key fuel (chain.firstId invalidPageId)) s =
      some ((chain.lookup key).map fun entry => (entry.pageId.toNat, entry.slotId.toNat), s) := by
  induction chain generalizing fuel with
  | nil =>
    cases fuel with
    | zero => exact absurd hfuel (Nat.not_lt_zero _)
    | succ fuel =>
      rw [LeafPages.firstId, btreeSearchFrom, if_pos rfl]
      rfl
  | cons first rest ih =>
    obtain ⟨id, leaf⟩ := first
    obtain ⟨⟨hextent, hvalid, page, hholds, hleaf⟩, hrest⟩ := hleaves
    cases fuel with
    | zero => exact absurd hfuel (Nat.not_lt_zero _)
    | succ fuel =>
      have hunpin : arrayHandler.exec (unpinPage id false .normal) (s.pin id) = some ((), s) := by
        rw [PageArray.exec_unpinPage (s.mem_pins_pin id) (by simp [PageArray.pin, hidle.touched])
          (by simp), s.unpin_pin]
      have htype : page.pageType ≠ PageType.btreeInternal.code :=
        hleaf.pageType.trans_ne btreeLeaf_code_ne
      rw [LeafPages.firstId, btreeSearchFrom, if_neg hvalid.ne,
        Handler.exec_bind_of_eq _ (PageArray.exec_fetchPage (hidle.fetchable hvalid))]
      simp only [Bool.not_true, Bool.false_eq_true, if_false]
      rw [Handler.exec_bind_of_eq _ (PageArray.exec_pageData (s.mem_pins_pin id) hholds),
        if_neg htype, if_pos hleaf.pageType, Handler.exec_bind_of_eq _ hunpin, hleaf.leafEntries,
        hleaf.nextLeafId, LeafPages.lookup, LeafChain.lookup_cons]
      cases leaf.find? fun entry => entry.key = key with
      | some entry =>
        rw [Option.some_or]
        rfl
      | none =>
        rw [Option.none_or]
        exact ih hrest (Nat.lt_of_succ_lt_succ hfuel)

/-- A search is the lookup. -/
theorem TreeAt.exec_btreeSearch {s : PageArray} {root : ℕ} {chain : LeafPages}
    (h : TreeAt s root chain) (hidle : s.Idle) (key : UInt64) :
    arrayHandler.exec (btreeSearch root key) s =
      some ((chain.lookup key).map fun entry => (entry.pageId.toNat, entry.slotId.toNat), s) := by
  rw [btreeSearch, ← h.firstId_eq]
  exact exec_btreeSearchFrom hidle h.leaves key (h.leaves.length_lt h.nodup)

/-! ## Storing LSNs and checksums -/

/-- The bookkeeping at the end of a change: some pinned pages have a new LSN or checksum, and
perhaps the log has a new record. -/
structure Restamps (s t : PageArray) (pages : List ℕ) : Prop where
  evolves : s.Evolves t {pageId | pageId ∈ pages}
  pins : t.pins = s.pins
  touched : t.touched = s.touched
  extent : t.extent = s.extent
  nextPageId : t.nextPageId = s.nextPageId
  body : ∀ pageId ∈ pages, ∀ page, s.Holds pageId page →
    ∃ page', t.Holds pageId page' ∧ page.SameBody page'

namespace Restamps

variable {s t u : PageArray} {pages : List ℕ}

/-- Nothing happened. -/
theorem refl (s : PageArray) (pages : List ℕ) : Restamps s s pages :=
  ⟨.refl s _, rfl, rfl, rfl, rfl, fun _ _ page hholds => ⟨page, hholds, fun _ _ _ => rfl⟩⟩

/-- Two steps. -/
theorem trans (h : Restamps s t pages) (h' : Restamps t u pages) : Restamps s u pages := by
  refine ⟨h.evolves.trans_same h'.evolves, h'.pins.trans h.pins, h'.touched.trans h.touched,
    h'.extent.trans h.extent, h'.nextPageId.trans h.nextPageId, fun pageId hpage page hholds => ?_⟩
  obtain ⟨page', hholds', hbody⟩ := h.body pageId hpage page hholds
  obtain ⟨page'', hholds'', hbody'⟩ := h'.body pageId hpage page' hholds'
  exact ⟨page'', hholds'', hbody.trans hbody'⟩

/-- One page has a new header. -/
theorem change {pageId : ℕ} (hmem : pageId ∈ pages) (hextent : pageId < s.extent)
    (htouched : pageId ∈ s.touched) {page page' : Page} (hholds : s.Holds pageId page)
    (hbody : page.SameBody page') : Restamps s (s.change pageId page') pages := by
  refine ⟨(PageArray.Evolves.refl s _).change hextent hmem page', rfl, ?_,
    s.extent_change hextent page', rfl, ?_⟩
  · exact Set.insert_eq_of_mem htouched
  · intro other hother otherPage hholdsOther
    by_cases hsame : other = pageId
    · subst hsame
      rw [PageArray.Holds, hholds, Set.singleton_eq_singleton_iff] at hholdsOther
      subst hholdsOther
      exact ⟨page', s.content_change_self other page', hbody⟩
    · refine ⟨otherPage, ?_, fun _ _ _ => rfl⟩
      exact (s.content_change_of_lt hextent hsame page').trans hholdsOther

/-- Exchanging the log. -/
theorem setLog {wal : Option WALManager} (hwal : wal.isSome = s.wal.isSome) (walFile : List UInt8) :
    Restamps s (s.setLog wal walFile) pages :=
  ⟨(PageArray.Evolves.refl s _).setLog hwal walFile, rfl, rfl, rfl, rfl,
    fun _ _ page hholds => ⟨page, hholds, fun _ _ _ => rfl⟩⟩

end Restamps

/-- The pages are being changed: pinned, written and certain. -/
def PageArray.Changing (s : PageArray) (pages : List ℕ) : Prop :=
  ∀ pageId ∈ pages, pageId ∈ s.pins ∧ pageId ∈ s.touched ∧ pageId < s.extent ∧
    ∃ page, s.Holds pageId page

/-- Bookkeeping keeps the pages changing. -/
theorem Restamps.changing {s t : PageArray} {pages : List ℕ} (h : Restamps s t pages)
    (hchanging : s.Changing pages) : t.Changing pages := by
  intro pageId hpage
  obtain ⟨hpins, htouched, hextent, page, hholds⟩ := hchanging pageId hpage
  obtain ⟨page', hholds', -⟩ := h.body pageId hpage page hholds
  exact ⟨h.pins ▸ hpins, h.touched ▸ htouched, h.extent ▸ hextent, page', hholds'⟩

/-- A change of the header of a page that is being changed. -/
theorem ensures_modifyHeader {s : PageArray} {pages : List ℕ} (hchanging : s.Changing pages)
    {pageId : ℕ} (hpage : pageId ∈ pages) {change : Page → Page}
    (hbody : ∀ page : Page, page.SameBody (change page)) :
    arrayHandler.Ensures (modifyPage pageId change) s fun _ t => Restamps s t pages := by
  obtain ⟨hpins, htouched, hextent, page, hholds⟩ := hchanging pageId hpage
  exact .of_exec (PageArray.exec_modifyPage_of_holds hpins hholds change)
    (.change hpage hextent htouched hholds (hbody page))

/-- Storing an LSN in pages that are being changed. -/
theorem ensures_stampPages {s : PageArray} {pages stamped : List ℕ} (hchanging : s.Changing pages)
    (hstamped : ∀ pageId ∈ stamped, pageId ∈ pages) (lsn : UInt64) :
    arrayHandler.Ensures (stamped.forM fun pageId => stampPage pageId lsn) s
      fun _ t => Restamps s t pages := by
  induction stamped generalizing s with
  | nil => exact .pure (.refl s pages)
  | cons pageId stamped ih =>
    have hcons : ((pageId :: stamped).forM fun pageId => stampPage pageId lsn) =
        stampPage pageId lsn >>= fun _ => stamped.forM fun pageId => stampPage pageId lsn := rfl
    rw [hcons]
    have hfirst : arrayHandler.Ensures (stampPage pageId lsn) s fun _ t => Restamps s t pages :=
      ensures_modifyHeader hchanging (hstamped pageId List.mem_cons_self)
        fun page => page.sameBody_setLsn lsn
    refine hfirst.bind fun _ t hstep => ?_
    refine (ih (hstep.changing hchanging) fun other hother => ?_).mono fun _ u => hstep.trans
    exact hstamped other (List.mem_cons_of_mem pageId hother)

/-- Logging a change. -/
theorem ensures_logRecord {s : PageArray} {pages : List ℕ} (hchanging : s.Changing pages)
    (txnId : UInt32) (recType : WALRecordType) (pageId slotId : ℕ) (payload : List UInt8) :
    arrayHandler.Ensures (logRecord txnId recType pageId slotId payload pages) s
      fun _ t => Restamps s t pages := by
  rw [logRecord]
  refine .step (PageArray.exec_walAttached s) ?_
  cases hwal : s.wal.isSome with
  | false => exact .pure (.refl s pages)
  | true =>
    rw [if_pos rfl]
    obtain ⟨lsn, wal', walFile, happend⟩ := PageArray.exists_exec_walAppend hwal txnId recType
      (UInt32.ofNat pageId) (UInt16.ofNat slotId) payload
    refine .step happend ?_
    have hlog : (some wal').isSome = s.wal.isSome := by rw [hwal, Option.isSome_some]
    have hstep : Restamps s (s.setLog (some wal') walFile) pages := .setLog hlog walFile
    exact (ensures_stampPages (hstep.changing hchanging) (fun _ => id) lsn).mono
      fun _ t => hstep.trans

/-- Storing the checksum of a page that is being changed. -/
theorem ensures_checksumPage {s : PageArray} {pages : List ℕ} (hchanging : s.Changing pages)
    {pageId : ℕ} (hpage : pageId ∈ pages) :
    arrayHandler.Ensures (checksumPage pageId) s fun _ t => Restamps s t pages :=
  ensures_modifyHeader hchanging hpage Page.sameBody_computeChecksum

end FtsUring
