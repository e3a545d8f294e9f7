import FtsUring.Shard.ViewSteps

/-!
# Shards in the page array

`ShardAt` reads the pages of the array as the content of a shard. It is what holds between the
operations of a shard: the pages below the counter belong to the structures of the view, and those
from the counter on were never written.
-/

namespace FtsUring

open Foundation

/-- The pages of the array hold the data pages. -/
def DataAt (s : PageArray) (data : DataPages) : Prop :=
  ∀ page ∈ data, page.1 < s.extent ∧ ∃ bytes, s.Holds page.1 bytes ∧ IsDataPage bytes page.2

/-- The pages of the array hold a shard. -/
structure ShardAt (s : PageArray) (view : ShardView) : Prop where
  idle : s.Idle
  valid : view.Valid
  extent : s.extent = view.nextPageId
  counter : s.nextPageId = view.nextPageId
  beyond : ∀ pageId, s.extent ≤ pageId → s.Holds pageId (slottedPageInit pageId .row)
  wal : s.wal.isSome
  tree : TreeAt s btreeRootPageId view.tree
  postings : ∀ termId, PostingsAt s termId (view.postings termId)
  tombstones : s.Holds tombstonePageId view.tombstones
  data : DataAt s view.data

/-- Data pages that were not changed. -/
theorem DataAt.evolves {s t : PageArray} {data : DataPages} {changed : Set ℕ} (h : DataAt s data)
    (hevolves : s.Evolves t changed) (hout : ∀ id ∈ data.ids, id ∉ changed) : DataAt t data := by
  intro page hpage
  obtain ⟨hextent, bytes, hholds, hbytes⟩ := h page hpage
  exact ⟨hextent.trans_le hevolves.extent, bytes,
    hevolves.holds hextent (hout page.1 (List.mem_map_of_mem hpage)) hholds, hbytes⟩

namespace ShardAt

variable {s t : PageArray} {view view' : ShardView}

/-- The pages of a shard are written. -/
theorem lt_extent (h : ShardAt s view) {owner : PageOwner} {id : ℕ} (hid : view.Owns owner id) :
    id < s.extent :=
  h.extent ▸ h.valid.owned.bound owner id hid

/-- The pages of a shard are valid. -/
theorem lt_invalid (h : ShardAt s view) {owner : PageOwner} {id : ℕ} (hid : view.Owns owner id) :
    id < invalidPageId :=
  (h.valid.owned.bound owner id hid).trans_le h.valid.fits

/-- The tombstone page is written. -/
theorem tombstone_lt_extent (h : ShardAt s view) : tombstonePageId < s.extent :=
  h.extent ▸ h.valid.owned.bound .tombstones _ rfl

/-- The pages of a shard have a certain content. -/
theorem exists_holds (h : ShardAt s view) {pageId : ℕ} (hpage : pageId < view.nextPageId) :
    ∃ page, s.Holds pageId page := by
  obtain ⟨owner, howner⟩ := h.valid.owned.cover pageId hpage
  cases owner with
  | tree =>
    obtain ⟨⟨id, leaf⟩, hleaf, rfl⟩ := List.mem_map.mp howner
    obtain ⟨-, -, page, -, hholds, -⟩ := h.tree.leaves.page hleaf
    exact ⟨page, hholds⟩
  | tombstones =>
    obtain rfl : pageId = tombstonePageId := howner
    exact ⟨view.tombstones, h.tombstones⟩
  | data =>
    obtain ⟨⟨id, records⟩, hmem, rfl⟩ := List.mem_map.mp howner
    obtain ⟨-, page, hholds, -⟩ := h.data _ hmem
    exact ⟨page, hholds⟩
  | term termId =>
    obtain ⟨⟨id, items⟩, hmem, rfl⟩ := List.mem_map.mp howner
    obtain ⟨-, -, page, -, hholds, -⟩ := (h.postings termId).page hmem
    exact ⟨page, hholds⟩

/-- The data pages lie behind the root of the tree and the tombstone page. -/
theorem firstDataPageId_le (h : ShardAt s view) {pageId : ℕ} (hid : view.Owns .data pageId) :
    firstDataPageId ≤ pageId := by
  obtain ⟨leaf, rest, hchain⟩ := h.tree.linked.exists_first
  have hroot : view.Owns .tree btreeRootPageId := by
    rw [ShardView.Owns, hchain]
    exact List.mem_cons_self
  have hnotRoot : pageId ≠ 0 := by
    rintro rfl
    cases h.valid.owned.unique _ _ _ hid hroot
  have hnotTombstones : pageId ≠ 1 := by
    rintro rfl
    cases h.valid.owned.unique _ .data .tombstones hid rfl
  have hfirst : firstDataPageId = 2 := rfl
  omega

/-- After a function has run on a shard, what it left is a shard if its structures are where they
should be. -/
theorem settle (h : ShardAt s view) {changed : Set ℕ} (hsettles : s.Settles t changed)
    (hvalid : view'.Valid) (hcounter : t.nextPageId = view'.nextPageId)
    (htree : TreeAt t btreeRootPageId view'.tree)
    (hpostings : ∀ termId, PostingsAt t termId (view'.postings termId))
    (htombstones : t.Holds tombstonePageId view'.tombstones) (hdata : DataAt t view'.data) :
    ShardAt t view' where
  idle := hsettles.idle h.idle
  valid := hvalid
  extent := (hsettles.evolves.compact (h.extent.trans h.counter.symm)).trans hcounter
  counter := hcounter
  beyond := fun pageId hpage =>
    (hsettles.evolves.beyond pageId hpage).trans (h.beyond pageId (hsettles.evolves.extent.trans hpage))
  wal := by rw [hsettles.evolves.wal]; exact h.wal
  tree := htree
  postings := hpostings
  tombstones := htombstones
  data := hdata

/-- The structures that own none of the changed pages are where they were. -/
theorem unchanged (h : ShardAt s view) {changed : Set ℕ} (hevolves : s.Evolves t changed) :
    ((∀ id, view.Owns .tree id → id ∉ changed) → TreeAt t btreeRootPageId view.tree) ∧
      (∀ termId, (∀ id, view.Owns (.term termId) id → id ∉ changed) →
        PostingsAt t termId (view.postings termId)) ∧
      (tombstonePageId ∉ changed → t.Holds tombstonePageId view.tombstones) ∧
      ((∀ id, view.Owns .data id → id ∉ changed) → DataAt t view.data) :=
  ⟨fun hout => h.tree.evolves hevolves hout,
    fun termId hout => (h.postings termId).evolves hevolves hout,
    fun hout => hevolves.holds h.tombstone_lt_extent hout h.tombstones,
    fun hout => h.data.evolves hevolves hout⟩

/-- Only pages of one owner were changed, and no other owner had one of them. -/
theorem not_mem_of_owner (h : ShardAt s view) {owner other : PageOwner} (hne : other ≠ owner)
    {changed : Set ℕ} (hchanged : ∀ id ∈ changed, view.Owns owner id ∨ view.nextPageId ≤ id) (id : ℕ)
    (hid : view.Owns other id) : id ∉ changed := by
  intro hmem
  obtain howner | hbeyond := hchanged id hmem
  · exact h.valid.owned.not_owns howner hne hid
  · exact absurd (h.valid.owned.bound other id hid) (not_lt.mpr hbeyond)

/-! ## The first page of a term -/

/-- The first page of a term has new postings. -/
theorem setFirst (h : ShardAt s view) {termId : UInt32} {id : ℕ} {items items' : List InvertedPosting}
    {rest : PostingPages} (hchain : view.postings termId = (id, items) :: rest) {page : Page}
    (hsettles : s.Settles t {id}) (hcounter : t.nextPageId = s.nextPageId) (hholds : t.Holds id page)
    (hpage : IsPostingPage page termId items' (PostingPages.firstId rest))
    (hvalid : (view.setPostings termId ((id, items') :: rest)).Valid) :
    ShardAt t (view.setPostings termId ((id, items') :: rest)) := by
  have hid : view.Owns (.term termId) id := by
    rw [ShardView.Owns, hchain]
    exact List.mem_cons_self
  have hchanged : ∀ other ∈ ({id} : Set ℕ), view.Owns (.term termId) other ∨
      view.nextPageId ≤ other := by
    intro other hother
    rw [Set.mem_singleton_iff.mp hother]
    exact Or.inl hid
  obtain ⟨htree, hpostings, htombstones, hdata⟩ := h.unchanged hsettles.evolves
  have hother : ∀ owner, owner ≠ .term termId → ∀ other, view.Owns owner other →
      other ∉ ({id} : Set ℕ) := fun owner hne => h.not_mem_of_owner hne hchanged
  have hdescending := h.valid.descending termId
  rw [hchain, PageChain.ids_cons, List.pairwise_cons] at hdescending
  have hrest : PostingsAt t termId rest := by
    have hold := h.postings termId
    rw [hchain] at hold
    refine PostingsAt.evolves hold.2 hsettles.evolves fun other hother hmem => ?_
    exact (hdescending.1 other hother).ne (Set.mem_singleton_iff.mp hmem)
  refine h.settle hsettles hvalid (hcounter.trans h.counter)
    (htree (hother .tree (by simp))) ?_ (htombstones (hother .tombstones (by simp) _ rfl))
    (hdata (hother .data (by simp)))
  intro other
  rw [ShardView.postings_setPostings]
  split_ifs with hsame
  · rw [hsame]
    exact ⟨⟨(h.lt_extent hid).trans_le hsettles.evolves.extent, h.lt_invalid hid, page, hholds, hpage⟩,
      hrest⟩
  · exact hpostings other (hother (.term other) fun heq => hsame (PageOwner.term.inj heq))

end ShardAt

end FtsUring
