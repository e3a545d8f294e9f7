import FtsUring.Search.Runs

/-!
# Who owns the pages

The pages of a shard, read as bytes: the leaves of the B-tree are linked from page 0 on, the entries of
the leaves lead to the posting pages of their terms, and these, the data pages and the tombstone page
share the page ids below the counter without overlap.
-/

namespace FtsUring

open Foundation

/-- The pages that are linked from one on as leaves of a B-tree. -/
def LeafWalk (image : ℕ → Page) (first : ℕ) : List ℕ → Prop
  | [] => first = invalidPageId
  | id :: rest => id = first ∧ id ≠ invalidPageId ∧ (image id).pageType = PageType.btreeLeaf.code ∧
    LeafWalk image (image id).nextLeafId rest

/-- The pages that are linked from one on as posting pages of a term. -/
def PostingWalk (image : ℕ → Page) (termId : UInt32) (first : ℕ) : List ℕ → Prop
  | [] => first = invalidPageId
  | id :: rest => id = first ∧ id ≠ invalidPageId ∧ (image id).termId = termId.toNat ∧
    1 ≤ (image id).postings.length ∧ (image id).postings.length ≤ maxPostingsPerPage ∧
    PostingWalk image termId (image id).nextPostingPage rest

/-- The entries of the leaves in some pages. -/
def entriesOf (image : ℕ → Page) (leaves : List ℕ) : List BTreeLeafEntry :=
  leaves.flatMap fun id => (image id).leafEntries

/-- Every page below the counter has exactly one owner. -/
structure PagesOwned (image : ℕ → Page) (nextPageId : ℕ) (leaves data : List ℕ)
    (chains : UInt32 → List ℕ) : Prop where
  leafWalk : LeafWalk image btreeRootPageId leaves
  leavesNodup : leaves.Nodup
  /-- The posting pages of a term in the tree are linked from the page of its entry on. -/
  present : ∀ entry ∈ entriesOf image leaves, ∃ termId : UInt32, entry.key = termId.toUInt64 ∧
    chains termId ≠ [] ∧ PostingWalk image termId entry.pageId.toNat (chains termId)
  /-- The other terms have no posting pages. -/
  absent : ∀ termId : UInt32, (∀ entry ∈ entriesOf image leaves, entry.key ≠ termId.toUInt64) →
    chains termId = []
  descending : ∀ termId, (chains termId).Pairwise (· > ·)
  full : ∀ termId, ∀ id ∈ (chains termId).tail, (image id).postings.length = maxPostingsPerPage
  dataType : ∀ id ∈ data, (image id).pageType = PageType.vectorData.code
  dataNodup : data.Nodup
  partition : Partition (fun owner id => match owner with
    | PageOwner.tree => id ∈ leaves
    | .tombstones => id = tombstonePageId
    | .data => id ∈ data
    | .term termId => id ∈ chains termId) nextPageId

section Walks

variable {m : Machine} {s : PageArray} {view : ShardView}

/-- The image of a page of a shard. -/
theorem ShardAt.pageImage_eq (h : ShardAt s view) (hm : Represents m s) {pageId : ℕ}
    (hvalid : pageId < invalidPageId) {page : Page} (hholds : s.Holds pageId page) :
    m.pageImage pageId = page :=
  hm.pageImage_eq h.idle.touched hvalid hholds

/-- The leaves of a shard are linked. -/
theorem leafWalk_of_leavesAt (h : ShardAt s view) (hm : Represents m s) {chain : LeafPages}
    (hleaves : LeavesAt s invalidPageId chain) :
    LeafWalk m.pageImage (LeafPages.firstId invalidPageId chain) chain.ids := by
  induction chain with
  | nil => rfl
  | cons first rest ih =>
    obtain ⟨id, leaf⟩ := first
    obtain ⟨⟨-, hvalid, page, hholds, hpage⟩, hrest⟩ := hleaves
    have himage := h.pageImage_eq hm hvalid hholds
    refine ⟨rfl, hvalid.ne, ?_, ?_⟩
    · rw [himage, hpage.pageType]
    · rw [himage, hpage.nextLeafId]
      exact ih hrest

/-- The posting pages of a term are linked. -/
theorem postingWalk_of_postingsAt (h : ShardAt s view) (hm : Represents m s) {termId : UInt32}
    {chain : PostingPages} (hpostings : PostingsAt s termId chain) :
    PostingWalk m.pageImage termId chain.firstId chain.ids := by
  induction chain with
  | nil => rfl
  | cons first rest ih =>
    obtain ⟨id, items⟩ := first
    obtain ⟨⟨-, hvalid, page, hholds, hpage⟩, hrest⟩ := hpostings
    have himage := h.pageImage_eq hm hvalid hholds
    refine ⟨rfl, hvalid.ne, ?_, ?_, ?_, ?_⟩
    · rw [himage, hpage.termId]
    · rw [himage, hpage.postings]
      exact hpage.nonempty
    · rw [himage, hpage.postings]
      exact hpage.fits
    · rw [himage, hpage.next]
      exact ih hrest

/-- The entries in the pages of the leaves. -/
theorem entriesOf_ids (h : ShardAt s view) (hm : Represents m s) {chain : LeafPages}
    (hleaves : LeavesAt s invalidPageId chain) : entriesOf m.pageImage chain.ids = chain.entries := by
  induction chain with
  | nil => rfl
  | cons first rest ih =>
    obtain ⟨id, leaf⟩ := first
    obtain ⟨⟨-, hvalid, page, hholds, hpage⟩, hrest⟩ := hleaves
    have hrest := ih hrest
    rw [entriesOf] at hrest ⊢
    rw [LeafChain.ids_cons, LeafChain.entries_cons, List.flatMap_cons, hrest,
      h.pageImage_eq hm hvalid hholds, hpage.leafEntries]

end Walks

/-! ## The keys of the tree -/

namespace ShardView

/-- The keys of the B-tree are term ids. -/
def TermKeys (view : ShardView) : Prop :=
  ∀ key ∈ view.tree.entries.map BTreeLeafEntry.key, ∃ termId : UInt32, key = termId.toUInt64

variable {view : ShardView}

/-- A new shard has no keys. -/
theorem termKeys_fresh : fresh.TermKeys := fun _ hkey => absurd hkey List.not_mem_nil

/-- Adding a posting adds the key of its term at most. -/
theorem TermKeys.addPosting (h : view.TermKeys) (hvalid : view.Valid) (termId : UInt32)
    (posting : InvertedPosting) : (view.addPosting termId posting).TermKeys := by
  rw [ShardView.addPosting]
  dsimp only
  split
  · split_ifs
    · exact h
    · intro key hkey
      change key ∈ (view.tree.update (headEntry termId view.nextPageId)).entries.map
        BTreeLeafEntry.key at hkey
      rw [LeafPages.update, LeafChain.map_key_update] at hkey
      exact h key hkey
    · exact h
  · intro key hkey
    have hperm := @LeafChain.perm_entries_insert ℕ BTreeLeafEntry UInt64 _ _ BTreeLeafEntry.key
      btreeMaxLeafEntries (view.nextPageId + 1) (headEntry termId view.nextPageId) view.tree
      hvalid.treeNonempty
    have hmem := (hperm.map BTreeLeafEntry.key).mem_iff.mp hkey
    rw [List.map_cons, List.mem_cons] at hmem
    obtain rfl | hmem := hmem
    · exact ⟨termId, rfl⟩
    · exact h key hmem

/-- Adding the postings of a document. -/
theorem TermKeys.addPostings (h : view.TermKeys) (hvalid : view.Valid) (docId : UInt32)
    (pageId slotId position : ℕ) (termIds : List UInt32)
    (hfits : (view.addPostings docId pageId slotId position termIds).nextPageId ≤ invalidPageId) :
    (view.addPostings docId pageId slotId position termIds).TermKeys := by
  induction termIds generalizing view position with
  | nil => exact h
  | cons termId termIds ih =>
    rw [ShardView.addPostings] at hfits ⊢
    have hnow := (nextPageId_le_addPostings _ docId pageId slotId (position + 1) termIds).trans hfits
    exact ih (h.addPosting hvalid _ _) (hvalid.addPosting _ _ hnow) _ hfits

/-- A call adds the keys of the terms of its document at most. -/
theorem TermKeys.update (h : view.TermKeys) (hvalid : view.Valid) (update : ShardUpdate)
    (hfits : (view.update update).nextPageId ≤ invalidPageId) : (view.update update).TermKeys := by
  cases update with
  | delete docId => exact h
  | insert doc =>
    rw [ShardView.update, ShardView.insertDocument] at hfits ⊢
    have hindexed := (nextPageId_le_addPosting _ _ _).trans hfits
    have hstored := (nextPageId_le_addPostings _ _ _ _ _ _).trans hindexed
    have hvalid' := hvalid.storeRecord _ hstored
    have hkeys : (view.storeRecord (doc.record view.nextDocId)).TermKeys := h
    exact (hkeys.addPostings hvalid' _ _ _ _ _ hindexed).addPosting (hvalid'.addPostings _ _ _ _ _ hindexed)
      _ _

/-- The keys after a sequence of calls. -/
theorem termKeys_updates {updates : List ShardUpdate}
    (hfits : (fresh.updates updates).nextPageId ≤ invalidPageId) : (fresh.updates updates).TermKeys :=
  (@updates_induction (fun view => view.Valid ∧ view.TermKeys) fresh ⟨valid_fresh, termKeys_fresh⟩ updates
    hfits fun _ update h hnow => ⟨h.1.update update hnow, h.2.update h.1 update hnow⟩).2

end ShardView

/-! ## Runs -/

/-- The pages of a machine that holds a shard have one owner each. -/
theorem ShardAt.pagesOwned {m : Machine} {s : PageArray} {view : ShardView} (h : ShardAt s view)
    (hm : Represents m s) (hkeys : view.TermKeys) :
    PagesOwned m.pageImage m.nextPageId view.tree.ids view.data.ids
      fun termId => (view.postings termId).ids := by
  have hentries := entriesOf_ids h hm h.tree.leaves
  have himage : ∀ {id page}, s.Holds id page → id < invalidPageId → m.pageImage id = page :=
    fun hholds hvalid => h.pageImage_eq hm hvalid hholds
  have hpage : ∀ {termId id items}, (id, items) ∈ view.postings termId →
      (m.pageImage id).postings = items := by
    intro termId id items hmem
    obtain ⟨-, hvalid, page, next, hholds, hpage⟩ := (h.postings termId).page hmem
    rw [himage hholds hvalid, hpage.postings]
  refine
    { leafWalk := ?_
      leavesNodup := h.tree.nodup
      present := ?_
      absent := ?_
      descending := h.valid.descending
      full := ?_
      dataType := ?_
      dataNodup := h.valid.dataDescending.imp fun hgt => ne_of_gt hgt
      partition := ?_ }
  · obtain ⟨leaf, rest, hchain⟩ := h.tree.linked.exists_first
    have hwalk := leafWalk_of_leavesAt h hm h.tree.leaves
    rw [hchain] at hwalk ⊢
    exact hwalk
  · intro entry hentry
    rw [hentries] at hentry
    obtain ⟨termId, hkey⟩ := hkeys entry.key (List.mem_map_of_mem hentry)
    have hlookup := (LeafChain.lookup_eq_some BTreeLeafEntry.key h.valid.distinct).mpr ⟨hentry, hkey⟩
    have hhead := (h.valid.heads termId).symm.trans hlookup
    obtain ⟨head, hfirst, hsame⟩ := Option.map_eq_some_iff.mp hhead
    have hwalk := postingWalk_of_postingsAt h hm (h.postings termId)
    have hlt := (h.postings termId).firstId_lt
    cases hchain : view.postings termId with
    | nil =>
      rw [hchain] at hfirst
      exact absurd hfirst nofun
    | cons first rest =>
      rw [hchain] at hfirst hwalk hlt
      refine ⟨termId, hkey, ?_⟩
      rw [hchain]
      refine ⟨List.cons_ne_nil _ _, ?_⟩
      have hid : entry.pageId.toNat = PostingPages.firstId (first :: rest) := by
        have hfirstId : head = PostingPages.firstId (first :: rest) := (Option.some.inj hfirst).symm
        rw [← hsame, headEntry, UInt32.toNat_ofNat', hfirstId]
        exact Nat.mod_eq_of_lt hlt
      rw [hid]
      exact hwalk
  · intro termId habsent
    rw [hentries] at habsent
    have hlookup : view.tree.lookup termId.toUInt64 = none := by
      rw [LeafPages.lookup, LeafChain.lookup_eq_none]
      intro hmem
      obtain ⟨entry, hentry, hkey⟩ := List.mem_map.mp hmem
      exact habsent entry hentry hkey
    have hhead := (h.valid.heads termId).symm.trans hlookup
    exact List.head?_eq_none_iff.mp (Option.map_eq_none_iff.mp hhead)
  · intro termId id hid
    rw [PageChain.ids, ← List.map_tail] at hid
    obtain ⟨⟨pageId, items⟩, hmem, rfl⟩ := List.mem_map.mp hid
    rw [hpage (List.mem_of_mem_tail hmem)]
    exact (h.valid.packed termId).full _ hmem
  · intro id hid
    obtain ⟨⟨pageId, records⟩, hmem, rfl⟩ := List.mem_map.mp hid
    obtain ⟨-, page, hholds, hpage⟩ : _ ∧ ∃ page, s.Holds pageId page ∧ IsDataPage page records :=
      h.data _ hmem
    rw [himage hholds (h.lt_invalid (show view.Owns .data _ from hid)), hpage.pageType]
  · rw [hm.nextPageId, h.counter]
    apply h.valid.owned.congr
    intro owner id
    cases owner <;> rfl

variable {F : Type} [Double F]

/-- After a sequence of calls on a new shard every page has exactly one owner. -/
def EveryPageOwned (m : Machine) (operations : List (ShardOperation F)) : Prop :=
  ∃ result n, poolHandler.exec (runFreshOperations operations) m = some (result, n) ∧
    ∃ leaves data chains, PagesOwned n.pageImage n.nextPageId leaves data chains

/-- Every page has exactly one owner, over every pool of fewer than `2 ^ 31` frames. -/
theorem everyPageOwned {host : Host} (hfree : host.FaultFree) (hempty : host.dataFile = [])
    (wal : WALManager) {diskFd : ℤ} {poolSize nextPageId : ℕ}
    (hpool : UsablePool diskFd poolSize nextPageId) {operations : List (ShardOperation F)}
    (husable : ShardOperation.Usable operations) :
    EveryPageOwned (newMachine diskFd wal host poolSize nextPageId) operations := by
  obtain ⟨s, hs, hrun⟩ := exec_runFreshOperations hfree hempty wal husable
  obtain ⟨n, hexec, hn⟩ := hrun _ _ _ hpool
  exact ⟨_, n, hexec, _, _, _, hs.shardAt.pagesOwned hn (ShardView.termKeys_updates husable.fits.le)⟩

/-- An insertion and a search in a pool of two frames. -/
theorem everyPageOwned_two_frames :
    EveryPageOwned (F := ℚ) (newMachine 0 ⟨3, 0⟩ Host.empty 2 0)
      [.update (.insert (.ofTerms 1 1 [7, 9] (by decide))), .searchPhraseIndexed [7, 9] exactParams 3] :=
  everyPageOwned ⟨rfl, rfl, rfl, rfl⟩ rfl ⟨3, 0⟩ ⟨le_refl 0, le_refl 2, by decide, by decide⟩
    ⟨by decide, by decide, by simp [ShardOperation.HasRoom]⟩

/-- In a pool of `2 ^ 31` frames a new shard has no root page. -/
theorem not_everyPageOwned_two_pow :
    ¬EveryPageOwned (F := ℚ) (newMachine 0 ⟨3, 0⟩ Host.empty (2 ^ 31) 0) [] := by
  have hfree : Host.empty.FaultFree := ⟨rfl, rfl, rfl, rfl⟩
  have hinit := exec_shardInit_of_no_attempts (F := ℚ) hfree (le_refl 0) ⟨3, 0⟩ clockAttempts_two_pow 0
  set n := newMachine 0 ⟨3, 0⟩ Host.empty.zeroShard (2 ^ 31) 3 with hn
  rintro ⟨result, n', hexec, leaves, data, chains, howned⟩
  rw [runFreshOperations, Handler.exec_bind_of_eq _ hinit] at hexec
  dsimp only at hexec
  rw [runOperations, pure_bind, Handler.exec_pure, Option.some.injEq, Prod.mk.injEq] at hexec
  obtain ⟨-, rfl⟩ := hexec
  -- the root page is zero, in no frame and on disk
  have hmiss : n.storage.bpm.frameIndex btreeRootPageId = none := by
    apply BufferPoolManager.frameIndex_eq_none
    intro i _
    rw [hn, newMachine, bufferPoolInit, BufferPoolManager.frame_replicate]
    decide
  have hzero : n.pageImage btreeRootPageId = Page.zero := by
    rw [Machine.pageImage, hmiss]
    exact (Host.zeroShard_pages rfl).1.diskPage_eq.2
  cases leaves with
  | nil => exact absurd (show btreeRootPageId = invalidPageId from howned.leafWalk) (by decide)
  | cons id rest =>
    obtain ⟨rfl, -, htype, -⟩ := howned.leafWalk
    rw [hzero, Page.pageType, Page.field_zero] at htype
    exact absurd htype (by decide)

end FtsUring
