import FtsUring.Shard.Occurrences

/-!
# Occurrences that are recorded

A posting has room for eight positions, and the further occurrences of a term in a document leave the index
as it is. So what an insertion does depends on the record of the document and on the first eight positions
of each of its terms, in whatever way these are interleaved with the other occurrences.
-/

namespace FtsUring

open Foundation

/-- The occurrences in a list of terms that starts at a position which are among the first eight of their
term, given how many occurrences came before. -/
def recordedOccurrences (seen : UInt32 → ℕ) : ℕ → List UInt32 → List (UInt32 × ℕ)
  | _, [] => []
  | position, termId :: rest =>
    let later := recordedOccurrences (Function.update seen termId (seen termId + 1)) (position + 1) rest
    if seen termId < maxPositionsPerPosting then (termId, position) :: later else later

/-- Two documents record the same positions under every term. -/
def Document.RecordsAlike (doc other : Document) : Prop :=
  ∀ termId, (doc.postedPositions termId).take maxPositionsPerPosting =
    (other.postedPositions termId).take maxPositionsPerPosting

/-! ## The recorded occurrences of one term -/

/-- The recorded occurrences of a term are its first positions. -/
theorem positions_recordedOccurrences (seen : UInt32 → ℕ) (position : ℕ) (terms : List UInt32)
    (termId : UInt32) :
    ((recordedOccurrences seen position terms).filter fun entry => entry.1 = termId).map
        (fun entry => UInt32.ofNat entry.2) =
      (termPositions termId position terms).take (maxPositionsPerPosting - seen termId) := by
  induction terms generalizing seen position with
  | nil => simp [recordedOccurrences, termPositions]
  | cons other rest ih =>
    have hrest := ih (Function.update seen other (seen other + 1)) (position + 1)
    rw [recordedOccurrences, termPositions]
    by_cases hsame : other = termId
    · subst hsame
      rw [Function.update_self] at hrest
      rw [if_pos rfl]
      split_ifs with hroom
      · obtain ⟨more, hmore⟩ := Nat.exists_eq_add_of_lt hroom
        have hleft : maxPositionsPerPosting - seen other = more + 1 := by omega
        have hlater : maxPositionsPerPosting - (seen other + 1) = more := by omega
        rw [hleft, List.take_succ_cons, ← hlater, ← hrest]
        simp
      · have hleft : maxPositionsPerPosting - seen other = 0 := by omega
        have hlater : maxPositionsPerPosting - (seen other + 1) = 0 := by omega
        rw [hrest, hleft, hlater, List.take_zero, List.take_zero]
    · rw [Function.update_of_ne (Ne.symm hsame)] at hrest
      rw [if_neg hsame, ← hrest]
      split_ifs with hroom
      · simp [hsame]
      · rfl

/-- The recorded occurrences come in the order of their positions. -/
theorem pairwise_recordedOccurrences (seen : UInt32 → ℕ) (position : ℕ) (terms : List UInt32) :
    (recordedOccurrences seen position terms).Pairwise (fun entry later => entry.2 < later.2) ∧
      ∀ entry ∈ recordedOccurrences seen position terms,
        position ≤ entry.2 ∧ entry.2 < position + terms.length := by
  induction terms generalizing seen position with
  | nil => exact ⟨.nil, nofun⟩
  | cons other rest ih =>
    obtain ⟨hsorted, hrange⟩ := ih (Function.update seen other (seen other + 1)) (position + 1)
    have hlater : ∀ entry ∈ recordedOccurrences (Function.update seen other (seen other + 1))
        (position + 1) rest, position < entry.2 ∧ entry.2 < position + (other :: rest).length := by
      intro entry hentry
      have hbounds := hrange entry hentry
      rw [List.length_cons]
      omega
    rw [recordedOccurrences]
    split_ifs with hroom
    · refine ⟨List.pairwise_cons.mpr ⟨fun entry hentry => (hlater entry hentry).1, hsorted⟩, ?_⟩
      intro entry hentry
      obtain rfl | hentry := List.mem_cons.mp hentry
      · simp
      · exact ⟨(hlater entry hentry).1.le, (hlater entry hentry).2⟩
    · exact ⟨hsorted, fun entry hentry => ⟨(hlater entry hentry).1.le, (hlater entry hentry).2⟩⟩

/-- Two lists of terms with the same first positions of every term have the same recorded occurrences. -/
theorem recordedOccurrences_congr {terms other : List UInt32} (hterms : terms.length < 2 ^ 32)
    (hother : other.length < 2 ^ 32)
    (hsame : ∀ termId, (termPositions termId 0 terms).take maxPositionsPerPosting =
      (termPositions termId 0 other).take maxPositionsPerPosting) :
    recordedOccurrences (fun _ => 0) 0 terms = recordedOccurrences (fun _ => 0) 0 other := by
  obtain ⟨hsorted, hrange⟩ := pairwise_recordedOccurrences (fun _ => 0) 0 terms
  obtain ⟨hsorted', hrange'⟩ := pairwise_recordedOccurrences (fun _ => 0) 0 other
  -- every recorded occurrence of one list is recorded in the other
  have hsub : ∀ {left right : List UInt32}, left.length < 2 ^ 32 → right.length < 2 ^ 32 →
      (∀ termId, (termPositions termId 0 left).take maxPositionsPerPosting =
        (termPositions termId 0 right).take maxPositionsPerPosting) →
      ∀ entry ∈ recordedOccurrences (fun _ => 0) 0 left,
        entry ∈ recordedOccurrences (fun _ => 0) 0 right := by
    intro left right hleft hright hpositions entry hentry
    have hfound : UInt32.ofNat entry.2 ∈
        ((recordedOccurrences (fun _ => 0) 0 right).filter fun found => found.1 = entry.1).map
          (fun found => UInt32.ofNat found.2) := by
      rw [positions_recordedOccurrences, Nat.sub_zero, ← hpositions,
        ← Nat.sub_zero maxPositionsPerPosting, ← positions_recordedOccurrences (fun _ => 0)]
      exact List.mem_map_of_mem (List.mem_filter.mpr ⟨hentry, by simp⟩)
    obtain ⟨found, hmem, hvalue⟩ := List.mem_map.mp hfound
    obtain ⟨hmem, hterm⟩ := List.mem_filter.mp hmem
    have hbound := ((pairwise_recordedOccurrences (fun _ => 0) 0 left).2 entry hentry).2
    have hbound' := ((pairwise_recordedOccurrences (fun _ => 0) 0 right).2 found hmem).2
    have hposition := congrArg UInt32.toNat hvalue
    rw [UInt32.toNat_ofNat', UInt32.toNat_ofNat', Nat.mod_eq_of_lt (by omega),
      Nat.mod_eq_of_lt (by omega)] at hposition
    have hentryEq : found = entry := Prod.ext (by simpa using hterm) hposition
    exact hentryEq ▸ hmem
  have hnodup : ∀ {entries : List (UInt32 × ℕ)},
      entries.Pairwise (fun entry later => entry.2 < later.2) → entries.Nodup := by
    intro entries hpairwise
    exact hpairwise.imp fun hlt heq => absurd (heq ▸ hlt) (lt_irrefl _)
  have hperm := (List.perm_ext_iff_of_nodup (hnodup hsorted) (hnodup hsorted')).mpr fun entry =>
    ⟨hsub hterms hother hsame entry, hsub hother hterms (fun termId => (hsame termId).symm) entry⟩
  exact hperm.eq_of_pairwise (fun entry later _ _ hlt hgt => absurd hlt (lt_asymm hgt)) hsorted hsorted'

/-- The positions of a term come in ascending order, and those behind the first one are not 0. -/
theorem termPositions_ne_zero (termId : UInt32) {position : ℕ} (hpositive : 0 < position)
    (terms : List UInt32) (hbound : position + terms.length < 2 ^ 32) :
    (0 : UInt32) ∉ termPositions termId position terms := by
  induction terms generalizing position with
  | nil => exact List.not_mem_nil
  | cons other rest ih =>
    rw [List.length_cons] at hbound
    have hrest := ih (Nat.succ_pos position) (by omega)
    have hhead : UInt32.ofNat position ≠ 0 := by
      intro hzero
      have hvalue := congrArg UInt32.toNat hzero
      rw [UInt32.toNat_ofNat', Nat.mod_eq_of_lt (by omega)] at hvalue
      exact hpositive.ne' hvalue
    rw [termPositions]
    split_ifs with hsame
    · exact fun hmem => (List.mem_cons.mp hmem).elim (fun heq => hhead heq.symm) hrest
    · exact hrest

/-- Behind the first position of a term there is no 0. -/
theorem zero_notMem_tail_termPositions (termId : UInt32) (position : ℕ) (terms : List UInt32)
    (hbound : position + terms.length < 2 ^ 32) :
    (0 : UInt32) ∉ (termPositions termId position terms).tail := by
  induction terms generalizing position with
  | nil => exact List.not_mem_nil
  | cons other rest ih =>
    rw [List.length_cons] at hbound
    rw [termPositions]
    split_ifs with hsame
    · exact termPositions_ne_zero termId (Nat.succ_pos position) rest (by omega)
    · exact ih (position + 1) (by omega)

/-- Lists that agree in their first elements when a 0 is put behind them, with no other 0 behind the first
element, agree in their first elements. -/
theorem take_eq_of_take_concat {left right : List UInt32} {count : ℕ} (hcount : 1 < count)
    (hleft : (0 : UInt32) ∉ left.tail) (hright : (0 : UInt32) ∉ right.tail)
    (h : (left ++ [0]).take count = (right ++ [0]).take count) :
    left.take count = right.take count ∧ (left.length < count ↔ right.length < count) := by
  -- a list that is one short ends in 0 where the longer one does not
  have hshort : ∀ {left right : List UInt32}, (0 : UInt32) ∉ left.tail →
      (left ++ [0]).take count = (right ++ [0]).take count → count ≤ left.length →
      count ≤ right.length := by
    intro left right hleft h hlong
    by_contra hlt
    have hlength := congrArg List.length h
    simp only [List.length_take, List.length_append, List.length_singleton] at hlength
    have hget : (left ++ [0])[count - 1]? = (right ++ [0])[count - 1]? := by
      have hget := congrArg (fun found => found[count - 1]?) h
      simpa only [List.getElem?_take, if_pos (by omega : count - 1 < count)] using hget
    rw [List.getElem?_append_left (by omega), List.getElem?_append_right (by omega),
      (by omega : count - 1 - right.length = 0)] at hget
    cases left with
    | nil =>
      rw [List.length_nil] at hlong
      omega
    | cons first rest =>
      apply hleft
      rw [List.tail_cons]
      obtain ⟨more, hmore⟩ := Nat.exists_eq_add_of_lt hcount
      have hindex : count - 1 = more + 1 := by omega
      rw [hindex, List.getElem?_cons_succ] at hget
      exact List.mem_of_getElem? hget
  have hiff : count ≤ left.length ↔ count ≤ right.length :=
    ⟨hshort hleft h, hshort hright h.symm⟩
  refine ⟨?_, by omega⟩
  by_cases hlong : count ≤ left.length
  · rwa [List.take_append_of_le_length hlong, List.take_append_of_le_length (hiff.mp hlong)] at h
  · have hlong' : ¬count ≤ right.length := fun hle => hlong (hiff.mpr hle)
    rw [List.take_of_length_le (by simp; omega), List.take_of_length_le (by simp; omega)] at h
    rw [List.append_cancel_right h]

/-- Documents that record the same positions under every term have the same first positions in their terms,
and the position that is added under term 0 is recorded for both or for none. -/
theorem Document.RecordsAlike.termPositions {doc other : Document} (h : doc.RecordsAlike other) :
    (∀ termId, (FtsUring.termPositions termId 0 doc.termIds).take maxPositionsPerPosting =
        (FtsUring.termPositions termId 0 other.termIds).take maxPositionsPerPosting) ∧
      ((FtsUring.termPositions 0 0 doc.termIds).length < maxPositionsPerPosting ↔
        (FtsUring.termPositions 0 0 other.termIds).length < maxPositionsPerPosting) := by
  have hnum := doc.numTerms
  have hnum' := other.numTerms
  have hzero := h 0
  rw [postedPositions, postedPositions, if_pos rfl] at hzero
  obtain ⟨htake, hcount⟩ := take_eq_of_take_concat (by decide)
    (zero_notMem_tail_termPositions 0 0 doc.termIds (by omega))
    (zero_notMem_tail_termPositions 0 0 other.termIds (by omega)) hzero
  refine ⟨fun termId => ?_, hcount⟩
  by_cases hterm : termId = 0
  · rw [hterm]
    exact htake
  · have hother := h termId
    rwa [postedPositions, postedPositions, if_neg hterm, List.append_nil, List.append_nil] at hother

namespace ShardView

/-! ## Adding occurrences -/

/-- The newest posting of a term after a posting was added. -/
def newestWith (chain : PostingPages) (posting : InvertedPosting) : InvertedPosting :=
  match chain.newest? with
  | some last => if last.docId = posting.docId then last.merge posting else posting
  | none => posting

/-- The newest postings after one was added. -/
theorem newest?_addPosting (view : ShardView) (termId : UInt32) (posting : InvertedPosting)
    (other : UInt32) :
    ((view.addPosting termId posting).postings other).newest? =
      if other = termId then some (newestWith (view.postings termId) posting)
      else (view.postings other).newest? := by
  have hset : ∀ chain : PostingPages, ((view.setPostings termId chain).postings other).newest? =
      if other = termId then chain.newest? else (view.postings other).newest? := by
    intro chain
    rw [postings_setPostings]
    split_ifs <;> rfl
  have hpush := PageChain.newest?_push maxPostingsPerPage view.nextPageId posting (view.postings termId)
  rw [addPosting, newestWith]
  cases hnewest : (view.postings termId).newest? with
  | none =>
    dsimp only
    rw [← hpush]
    exact hset _
  | some last =>
    have hne : view.postings termId ≠ [] := by
      intro hnil
      rw [hnil] at hnewest
      cases hnewest
    dsimp only
    by_cases hdoc : last.docId = posting.docId
    · rw [if_pos hdoc, if_pos hdoc, hset, PageChain.newest?_replaceNewest _ hne]
    · rw [if_neg hdoc, if_neg hdoc, ← hpush]
      by_cases hpage : (view.postings termId).needsPage maxPostingsPerPage
      · rw [if_pos hpage]
        exact hset _
      · rw [if_neg hpage]
        exact hset _

/-- The newest posting of each term has room for eight positions, and those of the terms that were seen
belong to the document and have its positions. -/
structure Filled (view : ShardView) (docId : UInt32) (seen : UInt32 → ℕ) : Prop where
  short : ∀ termId last, (view.postings termId).newest? = some last →
    last.positions.length ≤ maxPositionsPerPosting
  filled : ∀ termId, 0 < seen termId → ∃ last, (view.postings termId).newest? = some last ∧
    last.docId = docId ∧ min (seen termId) maxPositionsPerPosting ≤ last.positions.length

/-- Adding an occurrence of a term. -/
theorem Filled.addPosting {view : ShardView} {docId : UInt32} {seen : UInt32 → ℕ}
    (h : view.Filled docId seen) (termId : UInt32) (pageId slotId : ℕ) (position : UInt32) :
    (view.addPosting termId ⟨docId, pageId, slotId, [position]⟩).Filled docId
      (Function.update seen termId (seen termId + 1)) := by
  have hone : 1 ≤ maxPositionsPerPosting := by decide
  have hmerged : (newestWith (view.postings termId) ⟨docId, pageId, slotId, [position]⟩).docId = docId ∧
      min (seen termId + 1) maxPositionsPerPosting ≤
        (newestWith (view.postings termId) ⟨docId, pageId, slotId, [position]⟩).positions.length ∧
      (newestWith (view.postings termId) ⟨docId, pageId, slotId, [position]⟩).positions.length ≤
        maxPositionsPerPosting := by
    have hfilled := h.filled termId
    rw [newestWith]
    cases hnewest : (view.postings termId).newest? with
    | none =>
      have hunseen : seen termId = 0 := by
        by_contra hpositive
        obtain ⟨last, hlast, -⟩ := hfilled (Nat.pos_of_ne_zero hpositive)
        exact absurd (hlast.symm.trans hnewest) nofun
      rw [hunseen]
      exact ⟨rfl, min_le_left _ _, hone⟩
    | some last =>
      dsimp only
      split_ifs with hdoc
      · have hlength : (last.merge ⟨docId, pageId, slotId, [position]⟩).positions.length =
            min maxPositionsPerPosting (last.positions.length + 1) := by
          rw [InvertedPosting.merge]
          simp
        refine ⟨hdoc, ?_, hlength.trans_le (min_le_left _ _)⟩
        rw [hlength]
        by_cases hpositive : 0 < seen termId
        · obtain ⟨newest, hlast, -, hcount⟩ := hfilled hpositive
          obtain rfl := Option.some.inj (hlast.symm.trans hnewest)
          omega
        · omega
      · have hunseen : seen termId = 0 := by
          by_contra hpositive
          obtain ⟨newest, hlast, hid, -⟩ := hfilled (Nat.pos_of_ne_zero hpositive)
          obtain rfl := Option.some.inj (hlast.symm.trans hnewest)
          exact hdoc hid
        rw [hunseen]
        exact ⟨rfl, min_le_left _ _, hone⟩
  refine ⟨fun other last hlast => ?_, fun other hseen => ?_⟩
  · rw [newest?_addPosting] at hlast
    split_ifs at hlast with hterm
    · exact Option.some.inj hlast ▸ hmerged.2.2
    · exact h.short other last hlast
  · rw [newest?_addPosting]
    by_cases hterm : other = termId
    · rw [if_pos hterm, hterm, Function.update_self]
      exact ⟨_, rfl, hmerged.1, hmerged.2.1⟩
    · rw [if_neg hterm, Function.update_of_ne hterm]
      rw [Function.update_of_ne hterm] at hseen
      exact h.filled other hseen

/-- An occurrence that is not recorded leaves the index as it is. -/
theorem Filled.addPosting_of_full {view : ShardView} {docId : UInt32} {seen : UInt32 → ℕ}
    (h : view.Filled docId seen) {termId : UInt32} (hfull : maxPositionsPerPosting ≤ seen termId)
    (pageId slotId : ℕ) (position : UInt32) :
    view.addPosting termId ⟨docId, pageId, slotId, [position]⟩ = view := by
  have hpositive : 0 < seen termId := lt_of_lt_of_le (by decide) hfull
  obtain ⟨last, hlast, hdoc, hcount⟩ := h.filled termId hpositive
  have hlength : last.positions.length = maxPositionsPerPosting :=
    le_antisymm (h.short termId last hlast) ((min_eq_right hfull).symm.trans_le hcount)
  have hmerge : last.merge ⟨docId, pageId, slotId, [position]⟩ = last := by
    rw [InvertedPosting.merge, List.take_left' hlength]
  rw [ShardView.addPosting, hlast]
  dsimp only
  rw [if_pos hdoc, hmerge, PageChain.replaceNewest_newest hlast, setPostings, Function.update_eq_self]

/-- Add the recorded occurrences of a document. -/
def addRecorded (view : ShardView) (docId : UInt32) (pageId slotId : ℕ)
    (entries : List (UInt32 × ℕ)) : ShardView :=
  entries.foldl (fun view entry =>
    view.addPosting entry.1 ⟨docId, pageId, slotId, [UInt32.ofNat entry.2]⟩) view

/-- Adding the postings of a document is adding the recorded ones. -/
theorem Filled.addPostings {view : ShardView} {docId : UInt32} {seen : UInt32 → ℕ}
    (h : view.Filled docId seen) (pageId slotId position : ℕ) (terms : List UInt32) :
    view.addPostings docId pageId slotId position terms =
        view.addRecorded docId pageId slotId (recordedOccurrences seen position terms) ∧
      (view.addPostings docId pageId slotId position terms).Filled docId
        (fun termId => seen termId + (termPositions termId position terms).length) := by
  induction terms generalizing view seen position with
  | nil => exact ⟨rfl, h⟩
  | cons other rest ih =>
    have hnext := h.addPosting other pageId slotId (UInt32.ofNat position)
    obtain ⟨hsame, hfilled⟩ := ih hnext (position + 1)
    refine ⟨?_, ?_⟩
    · rw [ShardView.addPostings, hsame, recordedOccurrences]
      split_ifs with hroom
      · rfl
      · rw [h.addPosting_of_full (not_lt.mp hroom)]
    · have hseen : (fun termId => Function.update seen other (seen other + 1) termId +
          (termPositions termId (position + 1) rest).length) =
            fun termId => seen termId + (termPositions termId position (other :: rest)).length := by
        funext termId
        rw [termPositions]
        by_cases hterm : termId = other
        · rw [hterm, Function.update_self, if_pos rfl, List.length_cons]
          omega
        · rw [Function.update_of_ne hterm, if_neg (Ne.symm hterm)]
      rw [ShardView.addPostings, ← hseen]
      exact hfilled

/-- The newest posting of each term has at most eight positions. -/
def NewestShort (view : ShardView) : Prop :=
  ∀ termId last, (view.postings termId).newest? = some last → last.positions.length ≤ maxPositionsPerPosting

/-- What an insertion does, in terms of the recorded occurrences. -/
theorem insertDocument_eq {view : ShardView} (hshort : view.NewestShort) (doc : Document) :
    view.insertDocument doc =
        (let stored := view.storeRecord (doc.record view.nextDocId)
        let indexed := stored.addRecorded view.nextDocId stored.activePage stored.newestSlot
          (recordedOccurrences (fun _ => 0) 0 doc.termIds)
        if (termPositions 0 0 doc.termIds).length < maxPositionsPerPosting then
          indexed.addPosting 0 ⟨view.nextDocId, stored.activePage, stored.newestSlot, [0]⟩
        else indexed) ∧
      (view.insertDocument doc).NewestShort := by
  have hstart : (view.storeRecord (doc.record view.nextDocId)).Filled view.nextDocId fun _ => 0 :=
    ⟨hshort, fun _ hseen => absurd hseen (lt_irrefl 0)⟩
  set stored := view.storeRecord (doc.record view.nextDocId) with hstored
  obtain ⟨hsame, hfilled⟩ := hstart.addPostings stored.activePage stored.newestSlot 0 doc.termIds
  have hlast := hfilled.addPosting 0 stored.activePage stored.newestSlot 0
  refine ⟨?_, hlast.short⟩
  rw [insertDocument]
  dsimp only
  rw [← hstored]
  split_ifs with hroom
  · rw [hsame]
  · rw [hfilled.addPosting_of_full (by simpa using hroom), hsame]

/-- Insertions of documents with the same record that record the same positions are the same. -/
theorem insertDocument_congr {view : ShardView} (hshort : view.NewestShort) {doc other : Document}
    (hrecord : doc.record view.nextDocId = other.record view.nextDocId) (halike : doc.RecordsAlike other) :
    view.insertDocument doc = view.insertDocument other := by
  obtain ⟨hterms, hcount⟩ := halike.termPositions
  rw [(view.insertDocument_eq hshort doc).1, (view.insertDocument_eq hshort other).1, hrecord,
    recordedOccurrences_congr doc.numTerms other.numTerms hterms]
  simp only [hcount]

end ShardView

end FtsUring
