import FtsUring.Foundation.Ownership
import FtsUring.Index.PostingChain
import FtsUring.Shard.Shard

/-!
# What a shard holds

A shard keeps four structures in its pages: the B-tree, a chain of posting pages for each term, the
data pages and the tombstone page. `ShardView` is their content, and its operations say what an
insertion and a deletion do to it. `ShardView.Valid` are the invariants: every page has exactly one
owner, the posting chains are packed and lead to older pages only, and the B-tree points to the
first page of each term.
-/

namespace FtsUring

open Foundation

/-- The data pages of a shard, the newest first. -/
abbrev DataPages : Type := PageChain UnifiedDocRecord

/-- The content of a shard. -/
structure ShardView where
  tree : LeafPages
  postings : UInt32 → PostingPages
  data : DataPages
  tombstones : Page
  nextPageId : ℕ
  nextDocId : UInt32

/-- The entry of the B-tree for a term whose first posting page is given. -/
def headEntry (termId : UInt32) (pageId : ℕ) : BTreeLeafEntry :=
  ⟨termId.toUInt64, UInt32.ofNat pageId, 0⟩

/-- Add the positions of another posting for the same document; the array has room for eight. -/
def InvertedPosting.merge (last posting : InvertedPosting) : InvertedPosting :=
  { last with positions := (last.positions ++ posting.positions).take maxPositionsPerPosting }

namespace ShardView

/-- The content of a new shard. -/
def fresh : ShardView where
  tree := [(btreeRootPageId, [])]
  postings := fun _ => []
  data := [(firstDataPageId, [])]
  tombstones := ftsTombstoneInit tombstonePageId
  nextPageId := 3
  nextDocId := 0

/-- Exchange the postings of a term. -/
def setPostings (view : ShardView) (termId : UInt32) (chain : PostingPages) : ShardView :=
  { view with postings := Function.update view.postings termId chain }

/-- Add a posting of a term. -/
def addPosting (view : ShardView) (termId : UInt32) (posting : InvertedPosting) : ShardView :=
  let chain := view.postings termId
  let pushed := chain.push maxPostingsPerPage view.nextPageId posting
  match chain.newest? with
  | some last =>
    if last.docId = posting.docId then
      view.setPostings termId (chain.replaceNewest (last.merge posting))
    else if chain.needsPage maxPostingsPerPage then
      { view.setPostings termId pushed with
        tree := view.tree.update (headEntry termId view.nextPageId)
        nextPageId := view.nextPageId + 1 }
    else view.setPostings termId pushed
  | none =>
    { view.setPostings termId pushed with
      tree := view.tree.insert (view.nextPageId + 1) (headEntry termId view.nextPageId)
      nextPageId := view.nextPageId + 1 + (view.tree.splits termId.toUInt64).toNat }

/-- Add the postings of the terms from a position on. -/
def addPostings (view : ShardView) (docId : UInt32) (pageId slotId : ℕ) : ℕ → List UInt32 → ShardView
  | _, [] => view
  | position, termId :: termIds =>
    (view.addPosting termId ⟨docId, pageId, slotId, [UInt32.ofNat position]⟩).addPostings docId pageId
      slotId (position + 1) termIds

/-- Store a record in the active data page, or in a new one. -/
def storeRecord (view : ShardView) (rec : UnifiedDocRecord) : ShardView :=
  { view with
    data := view.data.push dataPageCapacity view.nextPageId rec
    nextPageId := view.nextPageId + (view.data.needsPage dataPageCapacity).toNat
    nextDocId := view.nextDocId + 1 }

/-- The active data page. -/
def activePage (view : ShardView) : ℕ := (view.data.ids.head?).getD 0

/-- The slot of the newest record. -/
def newestSlot (view : ShardView) : ℕ := (view.data.head?.map fun page => page.2.length).getD 0 - 1

/-- Insert a document. -/
def insertDocument (view : ShardView) (doc : Document) : ShardView :=
  let docId := view.nextDocId
  let stored := view.storeRecord (doc.record docId)
  let indexed := stored.addPostings docId stored.activePage stored.newestSlot 0 doc.termIds
  indexed.addPosting 0 ⟨docId, stored.activePage, stored.newestSlot, [0]⟩

/-- Delete a document. -/
def deleteDocument (view : ShardView) (docId : UInt32) : ShardView :=
  { view with tombstones := ftsTombstoneMarkDeleted view.tombstones docId }

/-- Ask whether a document is deleted. -/
def isDeleted (view : ShardView) (docId : UInt32) : Bool :=
  ftsTombstoneIsDeleted view.tombstones docId

end ShardView

/-! ## Invariants -/

/-- The structures that own pages. -/
inductive PageOwner
  | tree
  | tombstones
  | data
  | term (termId : UInt32)
  deriving DecidableEq

namespace ShardView

/-- The pages of a structure. -/
def Owns (view : ShardView) : PageOwner → ℕ → Prop
  | .tree, id => id ∈ view.tree.ids
  | .tombstones, id => id = tombstonePageId
  | .data, id => id ∈ view.data.ids
  | .term termId, id => id ∈ (view.postings termId).ids

/-- The invariants of a shard. -/
structure Valid (view : ShardView) : Prop where
  owned : Partition view.Owns view.nextPageId
  fits : view.nextPageId ≤ invalidPageId
  treeNonempty : view.tree ≠ []
  distinct : LeafChain.Distinct BTreeLeafEntry.key view.tree
  heads : ∀ termId, view.tree.lookup termId.toUInt64 =
    (view.postings termId).ids.head?.map (headEntry termId)
  packed : ∀ termId, (view.postings termId).Packed maxPostingsPerPage
  descending : ∀ termId, (view.postings termId).ids.Pairwise (· > ·)
  low : ∀ termId, ∀ id ∈ (view.postings termId).ids, 3 ≤ id
  positive : 3 ≤ view.nextPageId
  dataNonempty : view.data ≠ []
  dataDescending : view.data.ids.Pairwise (· > ·)

/-- A new shard satisfies the invariants. -/
theorem valid_fresh : fresh.Valid where
  owned := by
    refine ⟨?_, ?_, ?_⟩
    · intro owner id hid
      cases owner <;> simp_all [Owns, fresh, LeafChain.ids, PageChain.ids, btreeRootPageId,
        firstDataPageId, tombstonePageId]
    · intro id hid
      have hcases : id = 0 ∨ id = 1 ∨ id = 2 := by
        have hnext : fresh.nextPageId = 3 := rfl
        omega
      obtain rfl | rfl | rfl := hcases
      · exact ⟨.tree, List.mem_singleton_self _⟩
      · exact ⟨.tombstones, rfl⟩
      · exact ⟨.data, List.mem_singleton_self _⟩
    · intro id owner owner' hid hid'
      cases owner <;> cases owner' <;>
        simp_all [Owns, fresh, LeafChain.ids, PageChain.ids, btreeRootPageId, firstDataPageId,
          tombstonePageId]
  fits := by decide
  treeNonempty := List.cons_ne_nil _ _
  distinct := List.nodup_nil
  heads := fun _ => rfl
  packed := fun _ => ⟨by simp [fresh], by simp [fresh], by simp [fresh]⟩
  descending := fun _ => List.Pairwise.nil
  low := fun _ id hid => absurd hid List.not_mem_nil
  positive := le_refl 3
  dataNonempty := List.cons_ne_nil _ _
  dataDescending := List.pairwise_singleton _ _

end ShardView

end FtsUring
