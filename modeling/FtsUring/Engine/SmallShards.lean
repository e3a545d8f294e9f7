import FtsUring.Engine.MergedLists
import FtsUring.Engine.Words

/-!
# Small shards

The tombstone page has 32576 bits. As long as a shard has no more documents, and no larger id was deleted, a
search takes exactly the live documents into account, the index keeps every document with a term, and the pages
do not run out.

The pages of a shard are the same after a search, so this holds however often the shards were searched since the
last call that changed them.
-/

namespace FtsUring

open Foundation

variable {F : Type} [Double F]

/-! ## Small shards -/

/-- The shard is as it was after the calls on a new one, whatever was searched since. -/
def EngineShard.HoldsAfter (s : EngineShard F) (updates : List ShardUpdate) : Prop :=
  s.Holds (ShardView.fresh.updates updates)

/-- There is a bit of the tombstone page for every document, and no document has more terms than the Python
bindings give it. -/
structure SmallShard (updates : List ShardUpdate) : Prop where
  few : (insertedDocuments updates).length ≤ tombstoneUsableBits
  deleted : ∀ docId ∈ deletedIds updates, docId.toNat < tombstoneUsableBits
  terms : ∀ doc ∈ insertedDocuments updates, doc.termIds.length ≤ 1024

/-- The live documents with a term. -/
def postedLive (termId : UInt32) (updates : List ShardUpdate) : List NumberedDocument :=
  (liveDocuments updates).filter fun entry => entry.1.PostedUnder termId

/-- The id of a document is its place. -/
theorem toNat_numberedDocuments {docs : List Document} (hfew : docs.length ≤ 2 ^ 32) {entry : NumberedDocument}
    (hentry : entry ∈ numberedDocuments docs) : entry.2.toNat < docs.length := by
  obtain ⟨⟨doc, i⟩, hmem, rfl⟩ := List.mem_map.mp hentry
  have hi : i < docs.length := by simpa using List.snd_lt_of_mem_zipIdx hmem
  change (UInt32.ofNat i).toNat < docs.length
  rwa [UInt32.toNat_ofNat', Nat.mod_eq_of_lt (hi.trans_le hfew)]

/-- The documents have different ids. -/
theorem nodup_numberedDocuments {docs : List Document} (hfew : docs.length ≤ 2 ^ 32) :
    ((numberedDocuments docs).map Prod.snd).Nodup := by
  have hids : (numberedDocuments docs).map Prod.snd = (List.range docs.length).map UInt32.ofNat := by
    rw [List.range_eq_range', ← List.zipIdx_map_snd 0 docs, numberedDocuments, List.map_map, List.map_map]
    rfl
  rw [hids]
  apply List.Nodup.map_on _ List.nodup_range
  intro i hi j hj hsame
  have heq := congrArg UInt32.toNat hsame
  rw [List.mem_range] at hi hj
  rwa [UInt32.toNat_ofNat', UInt32.toNat_ofNat', Nat.mod_eq_of_lt (hi.trans_le hfew),
    Nat.mod_eq_of_lt (hj.trans_le hfew)] at heq

namespace SmallShard

variable {updates : List ShardUpdate}

/-- The pages of a small shard have ids. -/
theorem fits (h : SmallShard updates) : (ShardView.fresh.updates updates).nextPageId < invalidPageId := by
  have hpages := ShardView.fresh.nextPageId_updates_le h.terms
  have hmost : (insertedDocuments updates).length * (2 * 1024 + 3) ≤ tombstoneUsableBits * (2 * 1024 + 3) :=
    Nat.mul_le_mul_right _ h.few
  have hfresh : ShardView.fresh.nextPageId = 3 := rfl
  have hbits : tombstoneUsableBits = 32576 := rfl
  have hinvalid : invalidPageId = 2 ^ 32 - 1 := rfl
  omega

/-- The documents of a small shard are short. -/
theorem short (h : SmallShard updates) : ∀ doc ∈ insertedDocuments updates, doc.NoRecordSlots :=
  fun doc hdoc => (h.terms doc hdoc).trans (by decide)

/-- The searches of a small shard. -/
theorem searched (h : SmallShard updates) {pages : PageArray}
    (hpages : ShardAt pages (ShardView.fresh.updates updates)) : Searched F pages updates :=
  hpages.searched h.fits h.short

/-- Document ids do not wrap around. -/
theorem few_ids (h : SmallShard updates) : (insertedDocuments updates).length ≤ 2 ^ 32 :=
  h.few.trans (by decide)

/-- The tombstone page marks the deleted documents. -/
theorem unmarked (h : SmallShard updates) {entries : List NumberedDocument}
    (hentries : ∀ entry ∈ entries, entry ∈ numberedDocuments (insertedDocuments updates)) :
    unmarkedDocuments updates entries = entries.filter fun entry => entry.2 ∉ deletedIds updates := by
  have hbit : ∀ docId : UInt32, docId.toNat < tombstoneUsableBits → tombstoneBit docId = docId.toNat := by
    intro docId hdocId
    exact Nat.mod_eq_of_lt (hdocId.trans (by decide))
  rw [unmarkedDocuments]
  apply List.filter_congr
  intro entry hentry
  have hsmall := (toNat_numberedDocuments h.few_ids (hentries entry hentry)).trans_le h.few
  refine decide_eq_decide.mpr (not_congr ⟨?_, fun hdeleted => ⟨_, hdeleted, rfl, ?_⟩⟩)
  · rintro ⟨deleted, hdeleted, hshares, -⟩
    rw [hbit _ (h.deleted deleted hdeleted), hbit _ hsmall] at hshares
    rwa [← UInt32.toNat_inj.mp hshares]
  · rwa [hbit _ hsmall]

/-- The documents that are not marked are the live ones. -/
theorem unmarked_all (h : SmallShard updates) :
    unmarkedDocuments updates (numberedDocuments (insertedDocuments updates)) = liveDocuments updates :=
  h.unmarked fun _ hentry => hentry

/-- The index keeps every document with a term. -/
theorem indexed (h : SmallShard updates) (termId : UInt32) : indexedDocuments termId updates =
    (numberedDocuments (insertedDocuments updates)).filter fun entry => entry.1.PostedUnder termId := by
  refine @keptApart_of_isChain NumberedDocument (fun entry => entry.1.PostedUnder termId) _ Prod.snd _ ?_
  exact ((nodup_numberedDocuments h.few_ids).sublist (List.filter_sublist.map _)).isChain

/-- The documents that an indexed search looks at. -/
theorem unmarked_indexed (h : SmallShard updates) (termId : UInt32) :
    unmarkedDocuments updates (indexedDocuments termId updates) = postedLive termId updates := by
  rw [h.indexed, h.unmarked fun entry hentry => List.mem_of_mem_filter hentry, postedLive, liveDocuments,
    List.filter_filter, List.filter_filter]
  exact List.filter_congr fun entry _ => Bool.and_comm _ _

/-- A search reads all postings of a term. -/
theorem indexed_room (h : SmallShard updates) (termId : UInt32) :
    (indexedDocuments termId updates).length ≤ maxPossiblePostings := by
  rw [h.indexed]
  refine (List.length_filter_le _ _).trans ?_
  rw [numberedDocuments, List.length_map, List.length_zipIdx]
  exact h.few.trans (by decide)

end SmallShard

/-! ## Searching all shards -/

omit [Double F] in
/-- Searching the shards one after the other. They stay as they are. -/
theorem exists_scatter_holds {α : Type} {search : PageProgram α} {good : List ShardUpdate → α → Prop}
    {shards : List (EngineShard F)} {distribution : List (List ShardUpdate)}
    (hholds : List.Forall₂ EngineShard.HoldsAfter shards distribution)
    (hexec : ∀ updates ∈ distribution, ∀ pages, ShardAt pages (ShardView.fresh.updates updates) → ∃ value,
      arrayHandler.exec search pages = some (value, pages) ∧ good updates value) :
    ∃ found shards', scatter search shards = some (found, shards') ∧ List.Forall₂ good distribution found ∧
      List.Forall₂ EngineShard.HoldsAfter shards' distribution := by
  induction hholds with
  | nil => exact ⟨[], [], rfl, .nil, .nil⟩
  | @cons s updates shards distribution hs _ ih =>
    obtain ⟨⟨pages, hpages, hshard⟩, hagrees⟩ := hs
    obtain ⟨value, hvalue, hgood⟩ := hexec updates List.mem_cons_self pages hshard
    obtain ⟨machine, hmachine, hafter⟩ := poolHandler_simulates.exec hpages hvalue
    obtain ⟨found, shards', hscatter, hall, hrest⟩ := ih fun others hothers =>
      hexec others (List.mem_cons_of_mem _ hothers)
    refine ⟨value :: found, { s with machine } :: shards', ?_, .cons hgood hall,
      .cons ⟨⟨pages, hafter, hshard⟩, hagrees⟩ hrest⟩
    rw [scatter, hmachine, Option.bind_some, hscatter]
    rfl

/-- Every element of the second list is related to one of the first. -/
theorem exists_mem_of_forall₂ {α β : Type} {related : α → β → Prop} {front : List α} {back : List β}
    (h : List.Forall₂ related front back) {b : β} (hb : b ∈ back) : ∃ a ∈ front, related a b := by
  induction h with
  | nil => exact absurd hb List.not_mem_nil
  | @cons a c front back hac _ ih =>
    obtain rfl | hb := List.mem_cons.mp hb
    · exact ⟨a, List.mem_cons_self, hac⟩
    · obtain ⟨other, hother, hrelated⟩ := ih hb
      exact ⟨other, List.mem_cons_of_mem _ hother, hrelated⟩

end FtsUring
