import FtsUring.Shard.View

/-!
# The operations keep the invariants

Every page that an insertion takes is handed to one owner: the term with a new posting page, the tree
with a new leaf, or the data pages. As long as the page counter names a valid page id, the
invariants of a shard are kept.
-/

namespace FtsUring

open Foundation

namespace ShardView

variable {view : ShardView}

/-! ## One term -/

/-- The postings of the terms after those of one were exchanged. -/
theorem postings_setPostings (view : ShardView) (termId : UInt32) (chain : PostingPages)
    (other : UInt32) : (view.setPostings termId chain).postings other =
      if other = termId then chain else view.postings other :=
  Function.update_apply _ _ _ _

/-- A statement about the postings of all terms after those of one were exchanged. -/
theorem forall_postings_setPostings {P : UInt32 → PostingPages → Prop} {termId : UInt32}
    {chain : PostingPages} (hchain : P termId chain) (hothers : ∀ other, P other (view.postings other))
    (other : UInt32) : P other ((view.setPostings termId chain).postings other) := by
  rw [postings_setPostings]
  split_ifs with hsame
  · rw [hsame]
    exact hchain
  · exact hothers other

/-- A term has no newest posting exactly when it has no pages. -/
theorem Valid.newest?_eq_none (h : view.Valid) {termId : UInt32} :
    (view.postings termId).newest? = none ↔ view.postings termId = [] := by
  have hpacked := h.packed termId
  cases hchain : view.postings termId with
  | nil => simp [PageChain.newest?]
  | cons first rest =>
    rw [hchain] at hpacked
    have hfirst := hpacked.nonempty first List.mem_cons_self
    simp only [PageChain.newest?, List.getLast?_eq_none_iff, reduceCtorEq, iff_false]
    exact List.ne_nil_of_length_pos hfirst

/-- The pages of a term are in use. -/
theorem Valid.lt_nextPageId (h : view.Valid) {termId : UInt32} {id : ℕ}
    (hid : id ∈ (view.postings termId).ids) : id < view.nextPageId :=
  h.owned.bound (.term termId) id hid

/-- Exchanging the postings of a term without a new page. -/
theorem Valid.setPostings (h : view.Valid) {termId : UInt32} {chain : PostingPages}
    (hids : chain.ids = (view.postings termId).ids) (hpacked : chain.Packed maxPostingsPerPage) :
    (view.setPostings termId chain).Valid := by
  have hall : ∀ other, ((view.setPostings termId chain).postings other).ids =
      (view.postings other).ids :=
    forall_postings_setPostings (P := fun other pages => pages.ids = (view.postings other).ids) hids
      fun _ => rfl
  have howned : Partition (view.setPostings termId chain).Owns view.nextPageId := by
    apply h.owned.congr
    intro owner id
    cases owner with
    | term other => rw [Owns, Owns, hall]
    | tree => rfl
    | tombstones => rfl
    | data => rfl
  exact
    { owned := howned
      fits := h.fits
      treeNonempty := h.treeNonempty
      distinct := h.distinct
      heads := fun other => by rw [hall]; exact h.heads other
      packed := forall_postings_setPostings hpacked h.packed
      descending := fun other => by rw [hall]; exact h.descending other
      low := fun other => by rw [hall]; exact h.low other
      positive := h.positive
      dataNonempty := h.dataNonempty
      dataDescending := h.dataDescending }

/-- Terms with the same 64-bit key are the same. -/
theorem toUInt64_injective {termId other : UInt32} (h : termId.toUInt64 = other.toUInt64) :
    termId = other := by
  have hnat := congrArg UInt64.toNat h
  rw [UInt32.toNat_toUInt64, UInt32.toNat_toUInt64] at hnat
  exact UInt32.toNat_inj.mp hnat

/-- The entries of the B-tree after the page of one term was assigned. -/
theorem Valid.heads_assign (h : view.Valid) {termId : UInt32} {tree : LeafPages}
    {chain : PostingPages} {pageId : ℕ} (hhead : chain.ids.head? = some pageId)
    (htree : LeafChain.lookup BTreeLeafEntry.key tree =
      Function.update (LeafChain.lookup BTreeLeafEntry.key view.tree) termId.toUInt64
        (some (headEntry termId pageId))) (other : UInt32) :
    tree.lookup other.toUInt64 =
      ((view.setPostings termId chain).postings other).ids.head?.map (headEntry other) := by
  rw [LeafPages.lookup, htree, Function.update_apply, postings_setPostings]
  by_cases hsame : other = termId
  · rw [hsame, if_pos rfl, if_pos rfl, hhead, Option.map_some]
  · rw [if_neg fun hkey => hsame (toUInt64_injective hkey), if_neg hsame]
    exact h.heads other

/-- A term takes the next page. -/
theorem Valid.owned_push (h : view.Valid) {termId : UInt32} {chain : PostingPages}
    (hids : chain.ids = view.nextPageId :: (view.postings termId).ids) :
    Partition (view.setPostings termId chain).Owns (view.nextPageId + 1) := by
  apply h.owned.allocate (.term termId)
  intro owner id
  cases owner with
  | term other =>
    rw [Owns, Owns, postings_setPostings]
    by_cases hsame : other = termId
    · rw [hsame, if_pos rfl, hids, List.mem_cons, or_comm]
      simp
    · rw [if_neg hsame]
      simp [hsame]
  | tree => simp [Owns, ShardView.setPostings]
  | tombstones => simp [Owns]
  | data => simp [Owns, ShardView.setPostings]

/-- The pages of the terms after one took the next page. -/
theorem Valid.ids_push (h : view.Valid) {termId : UInt32} {chain : PostingPages}
    (hids : chain.ids = view.nextPageId :: (view.postings termId).ids) (other : UInt32) :
    ((view.setPostings termId chain).postings other).ids.Pairwise (· > ·) ∧
      ∀ id ∈ ((view.setPostings termId chain).postings other).ids, 3 ≤ id := by
  refine forall_postings_setPostings
    (P := fun _ pages => pages.ids.Pairwise (· > ·) ∧ ∀ id ∈ pages.ids, 3 ≤ id) ?_
    (fun other => ⟨h.descending other, h.low other⟩) other
  rw [hids]
  refine ⟨List.pairwise_cons.mpr ⟨fun id hid => h.lt_nextPageId hid, h.descending termId⟩, ?_⟩
  intro id hid
  rw [List.mem_cons] at hid
  obtain rfl | hid := hid
  · exact h.positive
  · exact h.low termId id hid

/-! ## Adding a posting -/

/-- A posting for the document of the newest one is merged into it. -/
theorem addPosting_of_same {termId : UInt32} {id : ℕ} {front : List InvertedPosting}
    {last posting : InvertedPosting} {rest : PostingPages}
    (hchain : view.postings termId = (id, front ++ [last]) :: rest) (hdoc : last.docId = posting.docId) :
    view.addPosting termId posting =
      view.setPostings termId ((id, front ++ [last.merge posting]) :: rest) := by
  simp only [ShardView.addPosting, hchain, PageChain.newest?, List.getLast?_concat, if_pos hdoc,
    PageChain.replaceNewest, List.dropLast_concat]

/-- A posting for another document is added behind the newest one, if there is room. -/
theorem addPosting_of_room {termId : UInt32} {id : ℕ} {front : List InvertedPosting}
    {last posting : InvertedPosting} {rest : PostingPages}
    (hchain : view.postings termId = (id, front ++ [last]) :: rest) (hdoc : last.docId ≠ posting.docId)
    (hroom : (front ++ [last]).length < maxPostingsPerPage) :
    view.addPosting termId posting =
      view.setPostings termId ((id, (front ++ [last]) ++ [posting]) :: rest) := by
  have hneeds : PageChain.needsPage maxPostingsPerPage ((id, front ++ [last]) :: rest) ≠ true := by
    rw [PageChain.needsPage, ne_eq, decide_eq_true_eq]
    exact not_le.mpr hroom
  simp only [ShardView.addPosting, hchain, PageChain.newest?, List.getLast?_concat, if_neg hdoc,
    if_neg hneeds, PageChain.push, if_pos hroom]

/-- When the first page is full, a posting for another document starts a new page. -/
theorem addPosting_of_full {termId : UInt32} {id : ℕ} {front : List InvertedPosting}
    {last posting : InvertedPosting} {rest : PostingPages}
    (hchain : view.postings termId = (id, front ++ [last]) :: rest) (hdoc : last.docId ≠ posting.docId)
    (hfull : ¬(front ++ [last]).length < maxPostingsPerPage) :
    view.addPosting termId posting =
      { view.setPostings termId ((view.nextPageId, [posting]) :: (id, front ++ [last]) :: rest) with
        tree := view.tree.update (headEntry termId view.nextPageId)
        nextPageId := view.nextPageId + 1 } := by
  have hneeds : PageChain.needsPage maxPostingsPerPage ((id, front ++ [last]) :: rest) = true := by
    rw [PageChain.needsPage, decide_eq_true_eq]
    exact not_lt.mp hfull
  simp only [ShardView.addPosting, hchain, PageChain.newest?, List.getLast?_concat, if_neg hdoc,
    if_pos hneeds, PageChain.push, if_neg hfull]

/-- The first posting of a term. -/
theorem addPosting_of_nil {termId : UInt32} (hchain : view.postings termId = [])
    (posting : InvertedPosting) :
    view.addPosting termId posting =
      { view.setPostings termId [(view.nextPageId, [posting])] with
        tree := view.tree.insert (view.nextPageId + 1) (headEntry termId view.nextPageId)
        nextPageId := view.nextPageId + 1 + (view.tree.splits termId.toUInt64).toNat } := by
  simp only [ShardView.addPosting, hchain, PageChain.newest?, PageChain.push]

/-- The postings of a first page, with the newest one apart. -/
theorem Valid.exists_newest (h : view.Valid) {termId : UInt32} {id : ℕ} {items : List InvertedPosting}
    {rest : PostingPages} (hchain : view.postings termId = (id, items) :: rest) :
    ∃ front last, items = front ++ [last] := by
  have hpacked := h.packed termId
  rw [hchain] at hpacked
  have hne : items ≠ [] := List.ne_nil_of_length_pos (hpacked.nonempty (id, items) List.mem_cons_self)
  exact ⟨items.dropLast, items.getLast hne, (List.dropLast_append_getLast hne).symm⟩

/-- Adding a posting keeps the invariants. -/
theorem Valid.addPosting (h : view.Valid) (termId : UInt32) (posting : InvertedPosting)
    (hfits : (view.addPosting termId posting).nextPageId ≤ invalidPageId) :
    (view.addPosting termId posting).Valid := by
  have hcapacity : 0 < maxPostingsPerPage := by decide
  have hids := PageChain.ids_push maxPostingsPerPage view.nextPageId posting (view.postings termId)
  have hpacked := (h.packed termId).push hcapacity view.nextPageId posting
  set chain := view.postings termId with hchain
  set pushed := chain.push maxPostingsPerPage view.nextPageId posting with hpushed
  rw [ShardView.addPosting] at hfits ⊢
  simp only [← hchain, ← hpushed] at hfits ⊢
  cases hnewest : chain.newest? with
  | some last =>
    simp only [hnewest] at hfits ⊢
    split_ifs at hfits ⊢ with hdoc hfull
    · exact h.setPostings (PageChain.ids_replaceNewest _ _) ((h.packed termId).replaceNewest _)
    · -- the first page is full
      rw [if_pos hfull] at hids
      have hne : view.tree.lookup (headEntry termId view.nextPageId).key ≠ none := by
        change view.tree.lookup termId.toUInt64 ≠ none
        rw [h.heads, ← hchain]
        cases hcons : chain with
        | nil => simp [hcons, PageChain.newest?] at hnewest
        | cons first rest => simp [PageChain.ids]
      have hlookup := LeafChain.lookup_update BTreeLeafEntry.key hne
      have hsameIds := LeafChain.ids_update BTreeLeafEntry.key (headEntry termId view.nextPageId)
        view.tree
      exact
        { owned := (h.owned_push hids).congr fun owner id => by
            cases owner with
            | tree => rw [Owns, Owns]; exact hsameIds ▸ Iff.rfl
            | tombstones => rfl
            | data => rfl
            | term other => rfl
          fits := hfits
          treeNonempty := by
            intro hnil
            have hempty : LeafChain.ids (view.tree.update (headEntry termId view.nextPageId)) = [] :=
              congrArg LeafChain.ids hnil
            rw [hsameIds] at hempty
            exact h.treeNonempty (List.map_eq_nil_iff.mp hempty)
          distinct := h.distinct.update _
          heads := h.heads_assign (by rw [hids]; rfl) hlookup
          packed := forall_postings_setPostings hpacked h.packed
          descending := fun other => (h.ids_push hids other).1
          low := fun other => (h.ids_push hids other).2
          positive := h.positive.trans (Nat.le_succ _)
          dataNonempty := h.dataNonempty
          dataDescending := h.dataDescending }
    · rw [if_neg hfull] at hids
      exact h.setPostings hids hpacked
  | none =>
    -- the first posting of the term
    simp only [hnewest] at hfits ⊢
    have hnil : chain = [] := h.newest?_eq_none.mp hnewest
    have habsent : view.tree.lookup (headEntry termId view.nextPageId).key = none := by
      change view.tree.lookup termId.toUInt64 = none
      rw [h.heads, ← hchain, hnil]
      rfl
    have hneeds : chain.needsPage maxPostingsPerPage = true := by rw [hnil]; rfl
    have hids' : pushed.ids = view.nextPageId :: (view.postings termId).ids := by
      rw [hids, if_pos hneeds]
    have hlookup := LeafChain.lookup_insert BTreeLeafEntry.key btreeMaxLeafEntries
      (view.nextPageId + 1) h.distinct h.treeNonempty habsent
    have hperm := LeafChain.perm_ids_insert BTreeLeafEntry.key btreeMaxLeafEntries
      (view.nextPageId + 1) (headEntry termId view.nextPageId) view.tree
    have hpush := h.owned_push hids'
    refine
      { owned := ?_
        fits := hfits
        treeNonempty := ?_
        distinct := h.distinct.insert _ _ _ h.treeNonempty habsent
        heads := h.heads_assign (by rw [hids']; rfl) hlookup
        packed := forall_postings_setPostings hpacked h.packed
        descending := fun other => (h.ids_push hids' other).1
        low := fun other => (h.ids_push hids' other).2
        positive := by have := h.positive; dsimp only; omega
        dataNonempty := h.dataNonempty
        dataDescending := h.dataDescending }
    · have hkey : (headEntry termId view.nextPageId).key = termId.toUInt64 := rfl
      have hmem (id : ℕ) := hperm.mem_iff (a := id)
      rw [hkey] at hmem
      cases hsplits : view.tree.splits termId.toUInt64 with
      | false =>
        refine hpush.congr fun owner id => ?_
        cases owner with
        | tree =>
          have hmemId := hmem id
          rw [if_neg fun htrue => Bool.noConfusion (hsplits.symm.trans htrue)] at hmemId
          exact hmemId
        | tombstones => rfl
        | data => rfl
        | term other => rfl
      | true =>
        refine hpush.allocate .tree fun owner id => ?_
        cases owner with
        | tree =>
          have hmemId := hmem id
          rw [if_pos hsplits, List.mem_cons, or_comm] at hmemId
          exact hmemId.trans (or_congr_right (and_iff_right rfl).symm)
        | tombstones => simp [Owns]
        | data => simp [Owns, ShardView.setPostings]
        | term other => simp [Owns, ShardView.setPostings]
    · intro hempty
      have hhead := LeafChain.head?_ids_insert BTreeLeafEntry.key btreeMaxLeafEntries
        (view.nextPageId + 1) (headEntry termId view.nextPageId) view.tree
      have hnone : LeafChain.ids (view.tree.insert (view.nextPageId + 1)
          (headEntry termId view.nextPageId)) = [] := congrArg LeafChain.ids hempty
      rw [LeafPages.insert] at hnone
      rw [hnone, List.head?_nil, eq_comm, List.head?_eq_none_iff] at hhead
      exact h.treeNonempty (List.map_eq_nil_iff.mp hhead)

/-- Adding a posting takes pages, and gives none back. -/
theorem nextPageId_le_addPosting (view : ShardView) (termId : UInt32) (posting : InvertedPosting) :
    view.nextPageId ≤ (view.addPosting termId posting).nextPageId := by
  rw [ShardView.addPosting]
  dsimp only
  split
  · split_ifs
    · exact le_refl _
    · exact Nat.le_succ _
    · exact le_refl _
  · exact (Nat.le_succ _).trans (Nat.le_add_right _ _)

/-- Adding the postings of a document takes pages, and gives none back. -/
theorem nextPageId_le_addPostings (view : ShardView) (docId : UInt32) (pageId slotId position : ℕ)
    (termIds : List UInt32) :
    view.nextPageId ≤ (view.addPostings docId pageId slotId position termIds).nextPageId := by
  induction termIds generalizing view position with
  | nil => exact le_refl _
  | cons termId termIds ih => exact (view.nextPageId_le_addPosting termId _).trans (ih _ _)

/-- Adding the postings of a document keeps the invariants. -/
theorem Valid.addPostings (h : view.Valid) (docId : UInt32) (pageId slotId position : ℕ)
    (termIds : List UInt32)
    (hfits : (view.addPostings docId pageId slotId position termIds).nextPageId ≤ invalidPageId) :
    (view.addPostings docId pageId slotId position termIds).Valid := by
  induction termIds generalizing view position with
  | nil => exact h
  | cons termId termIds ih =>
    have hstep := nextPageId_le_addPostings
      (view.addPosting termId ⟨docId, pageId, slotId, [UInt32.ofNat position]⟩) docId pageId slotId
      (position + 1) termIds
    exact ih (h.addPosting termId _ (hstep.trans hfits)) _ hfits

/-- Adding a posting leaves the data pages alone. -/
@[simp] theorem data_addPosting (view : ShardView) (termId : UInt32) (posting : InvertedPosting) :
    (view.addPosting termId posting).data = view.data := by
  rw [ShardView.addPosting]
  dsimp only
  split
  · split_ifs <;> rfl
  · rfl

/-- Adding a posting leaves the tombstones alone. -/
@[simp] theorem tombstones_addPosting (view : ShardView) (termId : UInt32)
    (posting : InvertedPosting) : (view.addPosting termId posting).tombstones = view.tombstones := by
  rw [ShardView.addPosting]
  dsimp only
  split
  · split_ifs <;> rfl
  · rfl

/-- Adding a posting takes no document id. -/
@[simp] theorem nextDocId_addPosting (view : ShardView) (termId : UInt32)
    (posting : InvertedPosting) : (view.addPosting termId posting).nextDocId = view.nextDocId := by
  rw [ShardView.addPosting]
  dsimp only
  split
  · split_ifs <;> rfl
  · rfl

/-- Adding the postings of a document changes nothing but the index. -/
theorem others_addPostings (view : ShardView) (docId : UInt32) (pageId slotId position : ℕ)
    (termIds : List UInt32) :
    (view.addPostings docId pageId slotId position termIds).data = view.data ∧
      (view.addPostings docId pageId slotId position termIds).tombstones = view.tombstones ∧
      (view.addPostings docId pageId slotId position termIds).nextDocId = view.nextDocId := by
  induction termIds generalizing view position with
  | nil => exact ⟨rfl, rfl, rfl⟩
  | cons termId termIds ih =>
    obtain ⟨hdata, htombstones, hdoc⟩ :=
      ih (view.addPosting termId ⟨docId, pageId, slotId, [UInt32.ofNat position]⟩) (position + 1)
    rw [data_addPosting] at hdata
    rw [tombstones_addPosting] at htombstones
    rw [nextDocId_addPosting] at hdoc
    exact ⟨hdata, htombstones, hdoc⟩

/-- An insertion stores the record and leaves the other documents where they are. -/
theorem data_insertDocument (view : ShardView) (doc : Document) :
    (view.insertDocument doc).data =
      view.data.push dataPageCapacity view.nextPageId (doc.record view.nextDocId) := by
  rw [ShardView.insertDocument, data_addPosting, (others_addPostings _ _ _ _ _ _).1]
  rfl

/-- An insertion deletes nothing. -/
theorem tombstones_insertDocument (view : ShardView) (doc : Document) :
    (view.insertDocument doc).tombstones = view.tombstones := by
  rw [ShardView.insertDocument, tombstones_addPosting, (others_addPostings _ _ _ _ _ _).2.1]
  rfl

/-- An insertion takes one document id. -/
theorem nextDocId_insertDocument (view : ShardView) (doc : Document) :
    (view.insertDocument doc).nextDocId = view.nextDocId + 1 := by
  rw [ShardView.insertDocument, nextDocId_addPosting, (others_addPostings _ _ _ _ _ _).2.2]
  rfl

/-- A term with postings keeps having postings. -/
theorem postings_addPosting_ne_nil (view : ShardView) (termId : UInt32) (posting : InvertedPosting)
    {other : UInt32} (h : view.postings other ≠ []) : (view.addPosting termId posting).postings other ≠ [] := by
  have hset : ∀ chain : PostingPages, (other = termId → chain ≠ []) →
      (view.setPostings termId chain).postings other ≠ [] := by
    intro chain hchain
    rw [postings_setPostings]
    split_ifs with hterm
    · exact hchain hterm
    · exact h
  have hpush : view.postings other ≠ [] → ((view.postings termId).push maxPostingsPerPage view.nextPageId
      posting) ≠ [] := by
    intro _
    cases view.postings termId with
    | nil => exact List.cons_ne_nil _ _
    | cons first rest =>
      obtain ⟨id, page⟩ := first
      rw [PageChain.push]
      split_ifs <;> exact List.cons_ne_nil _ _
  rw [ShardView.addPosting]
  cases (view.postings termId).newest? with
  | none => exact hset _ fun _ => hpush h
  | some last =>
    dsimp only
    split_ifs with hdoc hpage
    · refine hset _ fun hterm hnil => ?_
      have hids := congrArg PageChain.ids hnil
      rw [PageChain.ids_replaceNewest, ← hterm] at hids
      exact h (List.map_eq_nil_iff.mp hids)
    · exact hset _ fun _ => hpush h
    · exact hset _ fun _ => hpush h

/-- Terms with postings keep having postings. -/
theorem postings_addPostings_ne_nil (view : ShardView) (docId : UInt32) (pageId slotId position : ℕ)
    (termIds : List UInt32) {other : UInt32} (h : view.postings other ≠ []) :
    (view.addPostings docId pageId slotId position termIds).postings other ≠ [] := by
  induction termIds generalizing view position with
  | nil => exact h
  | cons termId termIds ih => exact ih _ _ (view.postings_addPosting_ne_nil _ _ h)

/-- All terms of the document have postings. -/
def Knows (view : ShardView) (doc : Document) : Prop :=
  ∀ termId, termId = 0 ∨ termId ∈ doc.termIds → view.postings termId ≠ []

/-! ## Inserting a document -/

/-- Storing a record keeps the invariants. -/
theorem Valid.storeRecord (h : view.Valid) (rec : UnifiedDocRecord)
    (hfits : (view.storeRecord rec).nextPageId ≤ invalidPageId) : (view.storeRecord rec).Valid := by
  have hids : (view.storeRecord rec).data.ids =
      if view.data.needsPage dataPageCapacity then view.nextPageId :: view.data.ids
      else view.data.ids :=
    PageChain.ids_push dataPageCapacity view.nextPageId rec view.data
  have hnonempty : (view.storeRecord rec).data ≠ [] := by
    intro hnil
    have hempty := congrArg PageChain.ids hnil
    rw [hids] at hempty
    split_ifs at hempty
    · exact List.cons_ne_nil _ _ hempty
    · exact h.dataNonempty (List.map_eq_nil_iff.mp hempty)
  have howned : Partition (view.storeRecord rec).Owns (view.storeRecord rec).nextPageId := by
    cases hneeds : view.data.needsPage dataPageCapacity with
    | false =>
      have hnext : (view.storeRecord rec).nextPageId = view.nextPageId := by
        rw [ShardView.storeRecord, hneeds]
        rfl
      rw [hneeds, if_neg Bool.false_ne_true] at hids
      rw [hnext]
      refine h.owned.congr fun owner id => ?_
      cases owner with
      | data =>
        rw [Owns, hids]
        exact Iff.rfl
      | tree => rfl
      | tombstones => rfl
      | term other => rfl
    | true =>
      have hnext : (view.storeRecord rec).nextPageId = view.nextPageId + 1 := by
        rw [ShardView.storeRecord, hneeds]
        rfl
      rw [hneeds, if_pos rfl] at hids
      rw [hnext]
      refine h.owned.allocate .data fun owner id => ?_
      cases owner with
      | data =>
        rw [Owns, hids, List.mem_cons, or_comm]
        exact or_congr_right (and_iff_right rfl).symm
      | tree => simp [Owns, ShardView.storeRecord]
      | tombstones => simp [Owns]
      | term other => simp [Owns, ShardView.storeRecord]
  refine
    { h with
      owned := howned
      fits := hfits
      positive := h.positive.trans (Nat.le_add_right _ _)
      dataNonempty := hnonempty
      dataDescending := ?_ }
  rw [hids]
  split_ifs
  · exact List.pairwise_cons.mpr ⟨fun id hid => h.owned.bound .data id hid, h.dataDescending⟩
  · exact h.dataDescending

/-- Inserting a document takes pages, and gives none back. -/
theorem nextPageId_le_insertDocument (view : ShardView) (doc : Document) :
    view.nextPageId ≤ (view.insertDocument doc).nextPageId := by
  have hstored : view.nextPageId ≤ (view.storeRecord (doc.record view.nextDocId)).nextPageId :=
    Nat.le_add_right _ _
  rw [ShardView.insertDocument]
  exact hstored.trans
    ((nextPageId_le_addPostings _ _ _ _ _ _).trans (nextPageId_le_addPosting _ _ _))

/-- Inserting a document keeps the invariants. -/
theorem Valid.insertDocument (h : view.Valid) (doc : Document)
    (hfits : (view.insertDocument doc).nextPageId ≤ invalidPageId) :
    (view.insertDocument doc).Valid := by
  rw [ShardView.insertDocument] at hfits ⊢
  have hindexed := (nextPageId_le_addPosting _ _ _).trans hfits
  have hstored := (nextPageId_le_addPostings _ _ _ _ _ _).trans hindexed
  exact ((h.storeRecord _ hstored).addPostings _ _ _ _ _ hindexed).addPosting _ _ hfits

/-- Deleting a document keeps the invariants. -/
theorem Valid.deleteDocument (h : view.Valid) (docId : UInt32) : (view.deleteDocument docId).Valid :=
  { h with owned := h.owned.congr fun owner _ => by cases owner <;> rfl }

end ShardView

end FtsUring
