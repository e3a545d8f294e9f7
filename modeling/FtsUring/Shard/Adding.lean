import FtsUring.Index.IndexLogging
import FtsUring.Shard.ShardAt

/-!
# Adding postings to a shard

`invertedIndexAddPosting` does to the pages of a shard what `ShardView.addPosting` does to its
content: it changes the first page of the term, or puts a new page in front and re-points the
B-tree, or starts a new term.
-/

namespace FtsUring

open Foundation

namespace ShardAt

variable {s t : PageArray} {view view' : ShardView}

/-- The B-tree leads to the first page of a term. -/
theorem exec_searchTerm (h : ShardAt s view) (termId : UInt32) :
    arrayHandler.exec (btreeSearch btreeRootPageId termId.toUInt64) s =
      some ((view.postings termId).ids.head?.map fun id => (id, 0), s) := by
  rw [h.tree.exec_btreeSearch h.idle, h.valid.heads]
  cases hchain : view.postings termId with
  | nil => rfl
  | cons first rest =>
    obtain ⟨id, items⟩ := first
    have hid : view.Owns (.term termId) id := by
      rw [ShardView.Owns, hchain]
      exact List.mem_cons_self
    have hsmall : (UInt32.ofNat id).toNat = id :=
      UInt32.toNat_ofNat_of_lt ((h.lt_invalid hid).trans (by decide))
    rw [PageChain.ids_cons, List.head?_cons, Option.map_some, Option.map_some, Option.map_some,
      headEntry, hsmall]
    rfl

/-- The first page of a term. -/
theorem first_page (h : ShardAt s view) {termId : UInt32} {id : ℕ} {items : List InvertedPosting}
    {rest : PostingPages} (hchain : view.postings termId = (id, items) :: rest) :
    view.Owns (.term termId) id ∧ ∃ page, s.Holds id page ∧
      IsPostingPage page termId items (PostingPages.firstId rest) := by
  have hpostings := h.postings termId
  rw [hchain] at hpostings
  refine ⟨?_, hpostings.1.2.2⟩
  rw [ShardView.Owns, hchain]
  exact List.mem_cons_self

/-- The first page of a term is changed and released. -/
theorem ensures_changeFirst (h : ShardAt s view) {termId : UInt32} {id : ℕ}
    {items items' : List InvertedPosting} {rest : PostingPages}
    (hchain : view.postings termId = (id, items) :: rest) {page : Page} {change : Page → Page}
    (hholds : s.Holds id page)
    (hpage : IsPostingPage (change page) termId items' (PostingPages.firstId rest))
    (hvalid : (view.setPostings termId ((id, items') :: rest)).Valid) :
    arrayHandler.Ensures (do
      modifyPage id change
      unpinPage id true .normal
      return true) (s.pin id)
      fun _ t => ShardAt t (view.setPostings termId ((id, items') :: rest)) := by
  obtain ⟨hid, -⟩ := h.first_page hchain
  obtain ⟨hunpin, hsettles, hchanged⟩ :=
    PageArray.settles_unpin_change h.idle (h.lt_extent hid) (change page)
  refine .step (PageArray.exec_modifyPage_of_holds (s.mem_pins_pin id) hholds change) ?_
  refine .step hunpin (.pure ?_)
  exact h.setFirst hchain hsettles rfl hchanged hpage hvalid

/-- The buffer of a page that was never used becomes the same posting page as a zero page. -/
theorem newPostingPage_of_beyond (h : ShardAt s view) {old : Page}
    (hold : old ∈ insert Page.zero (s.content s.nextPageId)) (termId : UInt32) (next : ℕ)
    (docId : UInt32) (dataPageId dataSlotId : ℕ) (position : UInt32) :
    old.newPostingPage termId next docId dataPageId dataSlotId position =
      Page.zero.newPostingPage termId next docId dataPageId dataSlotId position := by
  have hbeyond : s.Holds s.nextPageId (slottedPageInit s.nextPageId .row) :=
    h.beyond _ (h.extent.trans h.counter.symm).le
  rw [hbeyond, Set.mem_insert_iff, Set.mem_singleton_iff] at hold
  obtain rfl | rfl := hold
  · rfl
  · exact newPostingPage_congr (slottedPageInit_agreeOutside _ _) termId next docId dataPageId
      dataSlotId position

/-- The next page is not in use. -/
theorem not_owns_nextPageId (h : ShardAt s view) (owner : PageOwner) :
    ¬view.Owns owner s.nextPageId :=
  h.counter ▸ h.valid.owned.not_owns_next owner

/-- The structures of the shard after the next page was written. -/
theorem structures_of_new (h : ShardAt s view) (hevolves : s.Evolves t {s.nextPageId}) :
    TreeAt t btreeRootPageId view.tree ∧ (∀ termId, PostingsAt t termId (view.postings termId)) ∧
      t.Holds tombstonePageId view.tombstones ∧ DataAt t view.data := by
  obtain ⟨htree, hpostings, htombstones, hdata⟩ := h.unchanged hevolves
  have hother : ∀ owner id, view.Owns owner id → id ∉ ({s.nextPageId} : Set ℕ) := by
    intro owner id hid hmem
    rw [Set.mem_singleton_iff.mp hmem] at hid
    exact h.not_owns_nextPageId owner hid
  exact ⟨htree (hother .tree), fun termId => hpostings termId (hother (.term termId)),
    htombstones (hother .tombstones _ rfl), hdata (hother .data)⟩

/-- A term takes the next page, and the B-tree is changed to point to it. -/
theorem setTree (h : ShardAt s view) {mid : PageArray} {termId : UInt32} {chain : PostingPages}
    {posting : InvertedPosting} {tree : LeafPages} {nextPageId : ℕ} {page : Page}
    (hchain : chain = (s.nextPageId, [posting]) :: view.postings termId)
    (hsettles : s.Settles mid {s.nextPageId}) (hcounter : mid.nextPageId = s.nextPageId + 1)
    (hholds : mid.Holds s.nextPageId page)
    (hpage : IsPostingPage page termId [posting] (PostingPages.firstId (view.postings termId)))
    (hlater : mid.Settles t {id | view.Owns .tree id ∨ id = s.nextPageId + 1})
    (htree : TreeAt t btreeRootPageId tree) (hnext : t.nextPageId = nextPageId)
    (hvalid : ({ view.setPostings termId chain with tree, nextPageId } : ShardView).Valid) :
    ShardAt t { view.setPostings termId chain with tree, nextPageId } := by
  obtain ⟨htreeMid, hpostings, htombstones, hdata⟩ := h.structures_of_new hsettles.evolves
  have hextent : mid.extent = s.nextPageId + 1 :=
    (hsettles.evolves.compact (h.extent.trans h.counter.symm)).trans hcounter
  have hother : ∀ owner, owner ≠ .tree → ∀ id, view.Owns owner id →
      id ∉ ({id | view.Owns .tree id ∨ id = s.nextPageId + 1} : Set ℕ) := by
    intro owner hne id hid hmem
    obtain htreeId | rfl := hmem
    · exact h.valid.owned.not_owns htreeId hne hid
    · have hlt := h.valid.owned.bound owner _ hid
      rw [← h.counter] at hlt
      omega
  have hnew : s.nextPageId ∉ ({id | view.Owns .tree id ∨ id = s.nextPageId + 1} : Set ℕ) := by
    rintro (hid | hid)
    · exact h.not_owns_nextPageId .tree hid
    · exact absurd hid (Nat.lt_succ_self _).ne
  have hlastOwned : s.nextPageId < mid.extent := by
    rw [hextent]
    exact Nat.lt_succ_self _
  have hinvalid : s.nextPageId < invalidPageId := by
    have hbound := hvalid.owned.bound (.term termId) s.nextPageId (by
      rw [ShardView.Owns]
      change s.nextPageId ∈ ((view.setPostings termId chain).postings termId).ids
      rw [ShardView.postings_setPostings, if_pos rfl, hchain]
      exact List.mem_cons_self)
    exact hbound.trans_le hvalid.fits
  refine h.settle (hsettles.trans hlater) hvalid hnext htree ?_ ?_ ?_
  · intro other
    have hold := (hpostings other).evolves hlater.evolves (hother (.term other) (by simp))
    change PostingsAt t other ((view.setPostings termId chain).postings other)
    rw [ShardView.postings_setPostings]
    split_ifs with hsame
    · subst hsame
      rw [hchain]
      exact ⟨⟨hlastOwned.trans_le hlater.evolves.extent, hinvalid, page,
        hlater.evolves.holds hlastOwned hnew hholds, hpage⟩, hold⟩
    · exact hold
  · refine hlater.evolves.holds ?_ (hother .tombstones (by simp) _ rfl) htombstones
    exact h.tombstone_lt_extent.trans_le hsettles.evolves.extent
  · exact hdata.evolves hlater.evolves (hother .data (by simp))

/-- The full first page of a term is followed by a new one. -/
theorem ensures_extendTerm (h : ShardAt s view) {termId docId : UInt32} {id : ℕ}
    {items : List InvertedPosting} {rest : PostingPages}
    (hchain : view.postings termId = (id, items) :: rest) {dataPageId dataSlotId : ℕ}
    (hdataPage : dataPageId < 2 ^ 32) (hdataSlot : dataSlotId < 2 ^ 16) (position : UInt32)
    (hvalid : ({ view.setPostings termId ((view.nextPageId,
        [⟨docId, dataPageId, dataSlotId, [position]⟩]) :: (id, items) :: rest) with
      tree := view.tree.update (headEntry termId view.nextPageId)
      nextPageId := view.nextPageId + 1 } : ShardView).Valid) :
    arrayHandler.Ensures (do
      let newPageId ← takePageId
      if !(← writeZeroPage newPageId) then
        unpinPage id false .normal
        return false
      if !(← fetchPage newPageId) then
        unpinPage id false .normal
        return false
      modifyPage newPageId fun page =>
        page.newPostingPage termId id docId dataPageId dataSlotId position
      unpinPage id false .normal
      unpinPage newPageId true .normal
      let _ ← btreeUpdate btreeRootPageId termId.toUInt64 (UInt32.ofNat newPageId) 0
      return true) (s.pin id)
      fun _ t => ShardAt t { view.setPostings termId ((view.nextPageId,
          [⟨docId, dataPageId, dataSlotId, [position]⟩]) :: (id, items) :: rest) with
        tree := view.tree.update (headEntry termId view.nextPageId)
        nextPageId := view.nextPageId + 1 } := by
  obtain ⟨hid, -⟩ := h.first_page hchain
  have hcounter := h.counter
  have hnextValid : s.nextPageId < invalidPageId := by
    rw [hcounter]
    exact hvalid.fits
  have hne : id ≠ s.nextPageId := fun heq => h.not_owns_nextPageId _ (heq ▸ hid)
  set page := Page.zero.newPostingPage termId id docId dataPageId dataSlotId position with hpageEq
  have hpage : IsPostingPage page termId [⟨docId, dataPageId, dataSlotId, [position]⟩]
      (PostingPages.firstId (view.postings termId)) := by
    rw [hchain]
    exact .newPostingPage termId ((h.lt_invalid hid).trans (by decide)) docId hdataPage hdataSlot
      position
  obtain ⟨hunpin, hunpinNew, hsettles, hholds⟩ :=
    PageArray.settles_unpin_read_formatNew h.idle hne page
  set mid := (((s.pin id).formatNew page).unpin id false).unpin s.nextPageId true with hmid
  have htreeMid := (h.structures_of_new hsettles.evolves).1
  refine .step (PageArray.exec_takePageId hnextValid) ?_
  refine .step (PageArray.exec_writeZeroPage _ _) ?_
  simp only [Bool.not_true, Bool.false_eq_true, if_false]
  have hfetch : ((s.pin id).allocate).Fetchable s.nextPageId :=
    h.idle.fetchable_of_pins rfl rfl hnextValid
  refine .step (PageArray.exec_fetchPage hfetch) ?_
  simp only [Bool.not_true, Bool.false_eq_true, if_false]
  refine .step (PageArray.exec_formatNew fun old hold => ?_) (.step hunpin (.step hunpinNew ?_))
  · exact h.newPostingPage_of_beyond hold termId id docId dataPageId dataSlotId position
  refine (htreeMid.ensures_btreeUpdate (hsettles.idle h.idle)
    (headEntry termId s.nextPageId)).bind ?_
  rintro - t ⟨-, htree, -, hlater, hnext⟩
  refine .pure ?_
  rw [← hcounter] at hvalid ⊢
  refine h.setTree (by rw [hchain]) hsettles rfl hholds hpage (hlater.mono ?_) htree hnext hvalid
  exact fun other hother => Or.inl hother

/-- A new term gets its first page. -/
theorem ensures_startTerm (h : ShardAt s view) {termId docId : UInt32}
    (hchain : view.postings termId = []) {dataPageId dataSlotId : ℕ}
    (hdataPage : dataPageId < 2 ^ 32) (hdataSlot : dataSlotId < 2 ^ 16) (position : UInt32)
    (hvalid : ({ view.setPostings termId [(view.nextPageId,
        [⟨docId, dataPageId, dataSlotId, [position]⟩])] with
      tree := view.tree.insert (view.nextPageId + 1) (headEntry termId view.nextPageId)
      nextPageId := view.nextPageId + 1 + (view.tree.splits termId.toUInt64).toNat } :
        ShardView).Valid) :
    arrayHandler.Ensures (do
      let newPageId ← takePageId
      if !(← writeZeroPage newPageId) then return false
      if !(← fetchPage newPageId) then return false
      modifyPage newPageId fun page =>
        page.newPostingPage termId invalidPageId docId dataPageId dataSlotId position
      unpinPage newPageId true .normal
      let _ ← btreeInsert btreeRootPageId termId.toUInt64 (UInt32.ofNat newPageId) 0 0
      return true) s
      fun _ t => ShardAt t { view.setPostings termId [(view.nextPageId,
          [⟨docId, dataPageId, dataSlotId, [position]⟩])] with
        tree := view.tree.insert (view.nextPageId + 1) (headEntry termId view.nextPageId)
        nextPageId := view.nextPageId + 1 + (view.tree.splits termId.toUInt64).toNat } := by
  have hcounter := h.counter
  have hfits : view.nextPageId + 1 + (view.tree.splits termId.toUInt64).toNat ≤ invalidPageId :=
    hvalid.fits
  have hnextValid : s.nextPageId < invalidPageId := by omega
  set page := Page.zero.newPostingPage termId invalidPageId docId dataPageId dataSlotId position
  have hpage : IsPostingPage page termId [⟨docId, dataPageId, dataSlotId, [position]⟩]
      (PostingPages.firstId (view.postings termId)) := by
    rw [hchain]
    exact .newPostingPage termId (by decide) docId hdataPage hdataSlot position
  obtain ⟨hunpin, hsettles, hholds⟩ := PageArray.settles_unpin_formatNew h.idle page
  set mid := (s.formatNew page).unpin s.nextPageId true
  have htreeMid := (h.structures_of_new hsettles.evolves).1
  have habsent : view.tree.lookup (headEntry termId s.nextPageId).key = none := by
    change view.tree.lookup termId.toUInt64 = none
    rw [h.valid.heads, hchain]
    rfl
  refine .step (PageArray.exec_takePageId hnextValid) ?_
  refine .step (PageArray.exec_writeZeroPage _ _) ?_
  simp only [Bool.not_true, Bool.false_eq_true, if_false]
  have hallocated : s.allocate.Idle := h.idle.of_pins rfl rfl h.idle.touched
  refine .step (PageArray.exec_fetchPage (hallocated.fetchable hnextValid)) ?_
  simp only [Bool.not_true, Bool.false_eq_true, if_false]
  refine .step (PageArray.exec_formatNew fun old hold => ?_) (.step hunpin ?_)
  · exact h.newPostingPage_of_beyond hold termId invalidPageId docId dataPageId dataSlotId position
  have hmidCounter : mid.nextPageId = s.nextPageId + 1 := rfl
  have hleaf : view.tree.splits (headEntry termId s.nextPageId).key →
      mid.nextPageId < invalidPageId ∧ mid.nextPageId ∉ view.tree.ids := by
    intro hsplits
    change view.tree.splits termId.toUInt64 at hsplits
    rw [hsplits, Bool.toNat_true] at hfits
    refine ⟨by omega, fun hmem => ?_⟩
    have hbound := h.valid.owned.bound .tree _ hmem
    omega
  refine (htreeMid.ensures_btreeInsert (hsettles.idle h.idle) habsent hleaf 0).bind ?_
  rintro - t ⟨-, htree, hlater, hnext⟩
  refine .pure ?_
  rw [← hcounter] at hvalid ⊢
  refine h.setTree (by rw [hchain]) hsettles rfl hholds hpage (hlater.mono ?_) htree hnext hvalid
  rintro other (hother | ⟨-, rfl⟩)
  · exact Or.inl hother
  · exact Or.inr rfl

/-- Adding a posting. -/
theorem ensures_addPosting (h : ShardAt s view) (termId docId : UInt32) {dataPageId dataSlotId : ℕ}
    (hdataPage : dataPageId < 2 ^ 32) (hdataSlot : dataSlotId < 2 ^ 16) (position : UInt32)
    (hfits : (view.addPosting termId ⟨docId, dataPageId, dataSlotId, [position]⟩).nextPageId ≤
      invalidPageId) :
    arrayHandler.Ensures (invertedIndexAddPosting termId docId dataPageId dataSlotId position) s
      fun _ t => ShardAt t (view.addPosting termId ⟨docId, dataPageId, dataSlotId, [position]⟩) := by
  have hvalid := h.valid.addPosting termId ⟨docId, dataPageId, dataSlotId, [position]⟩ hfits
  rw [invertedIndexAddPosting]
  refine .step (h.exec_searchTerm termId) ?_
  cases hchain : view.postings termId with
  | nil =>
    rw [ShardView.addPosting_of_nil hchain] at hvalid ⊢
    exact h.ensures_startTerm hchain hdataPage hdataSlot position hvalid
  | cons first rest =>
    obtain ⟨id, items⟩ := first
    obtain ⟨front, last, rfl⟩ := h.valid.exists_newest hchain
    obtain ⟨hid, page, hholds, hpage⟩ := h.first_page hchain
    have hlength : (front ++ [last]).length = front.length + 1 := by
      rw [List.length_append, List.length_singleton]
    have hcount : page.postingCount = front.length + 1 := hpage.postingCount.trans hlength
    have hlast : page.posting (page.postingCount - 1) = last := by
      have hlt : front.length < (front ++ [last]).length := by omega
      rw [hcount, Nat.add_sub_cancel, hpage.posting hlt]
      simp
    rw [PageChain.ids_cons, List.head?_cons, Option.map_some]
    refine .step (PageArray.exec_fetchPage (h.idle.fetchable (h.lt_invalid hid))) ?_
    simp only [Bool.not_true, Bool.false_eq_true, if_false]
    refine .step (PageArray.exec_pageData (s.mem_pins_pin id) hholds) ?_
    rw [hlast]
    by_cases hdoc : last.docId = docId
    · -- the document of the newest posting
      rw [if_pos ⟨by omega, hdoc⟩]
      rw [ShardView.addPosting_of_same hchain hdoc] at hvalid ⊢
      exact h.ensures_changeFirst hchain hholds (hpage.addPosition position) hvalid
    rw [if_neg fun hsame => hdoc hsame.2, hcount, ← hlength]
    by_cases hroom : (front ++ [last]).length < maxPostingsPerPage
    · rw [if_pos hroom]
      rw [ShardView.addPosting_of_room hchain hdoc hroom] at hvalid ⊢
      exact h.ensures_changeFirst hchain hholds
        (hpage.addPosting hroom docId hdataPage hdataSlot position) hvalid
    · rw [if_neg hroom]
      rw [ShardView.addPosting_of_full hchain hdoc hroom] at hvalid ⊢
      exact h.ensures_extendTerm hchain hdataPage hdataSlot position hvalid

/-- Adding a posting of a term that has postings logs nothing. -/
theorem sameLog_addPosting (h : ShardAt s view) {termId docId : UInt32} {dataPageId dataSlotId : ℕ}
    {position : UInt32} (hknown : view.postings termId ≠ []) {ok : Bool}
    (hexec : arrayHandler.exec (invertedIndexAddPosting termId docId dataPageId dataSlotId position) s =
      some (ok, t)) : s.SameLog t := by
  obtain ⟨add, hadd, hsome, -⟩ :=
    logs_invertedIndexAddPosting termId docId dataPageId dataSlotId position
  obtain ⟨⟨id, items⟩, rest, hchain⟩ := List.exists_cons_of_ne_nil hknown
  have hsearch := h.exec_searchTerm termId
  rw [hchain] at hsearch
  rw [hadd, Handler.exec_bind_of_eq _ hsearch] at hexec
  exact sameLog_exec (hsome _) hexec

end ShardAt

end FtsUring
