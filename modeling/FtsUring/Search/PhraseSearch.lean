import FtsUring.Search.PhraseMerge
import FtsUring.Search.TermSearch

/-!
# The search of a phrase

After insertions and deletions on a new shard, the phrase search returns the documents that have the phrase and
whose postings are on the newest posting pages of all its terms. These are all documents with the phrase if no
term of it has more than one posting page.
-/

namespace FtsUring

open Foundation

/-! ## The positions of a phrase -/

/-- The positions of a term. -/
theorem mem_termPositions {termId : UInt32} {first : ℕ} {termIds : List UInt32} {position : UInt32} :
    position ∈ termPositions termId first termIds ↔
      ∃ i, termIds[i]? = some termId ∧ position = UInt32.ofNat (first + i) := by
  induction termIds generalizing first with
  | nil => simp [termPositions]
  | cons other rest ih =>
    have hsplit : (∃ i, (other :: rest)[i]? = some termId ∧ position = UInt32.ofNat (first + i)) ↔
        (other = termId ∧ position = UInt32.ofNat first) ∨
          ∃ i, rest[i]? = some termId ∧ position = UInt32.ofNat (first + 1 + i) := by
      constructor
      · intro h
        obtain ⟨i, hterm, hposition⟩ := h
        cases i with
        | zero => exact .inl ⟨Option.some.inj hterm, hposition⟩
        | succ i => exact .inr ⟨i, hterm, by rwa [Nat.add_right_comm]⟩
      · intro h
        obtain ⟨hterm, hposition⟩ | ⟨i, hterm, hposition⟩ := h
        · exact ⟨0, congrArg some hterm, hposition⟩
        · exact ⟨i + 1, hterm, by rwa [Nat.add_right_comm] at hposition⟩
    rw [hsplit, termPositions]
    split
    · next hsame => rw [List.mem_cons, ih, and_iff_right hsame]
    · next hother => rw [ih, or_iff_right fun h => hother h.1]

/-- The position of a term in a document that is short enough for positions of 32 bits. -/
theorem ofNat_mem_termPositions {termId : UInt32} {termIds : List UInt32} (hshort : termIds.length < 2 ^ 32)
    {position : ℕ} (hposition : position ≤ termIds.length) :
    UInt32.ofNat position ∈ termPositions termId 0 termIds ↔ termIds[position]? = some termId := by
  rw [mem_termPositions]
  constructor
  · intro h
    obtain ⟨i, hterm, hsame⟩ := h
    obtain ⟨hi, -⟩ := List.getElem?_eq_some_iff.mp hterm
    have hindex := congrArg UInt32.toNat hsame
    rw [UInt32.toNat_ofNat', UInt32.toNat_ofNat', Nat.zero_add, Nat.mod_eq_of_lt (by omega),
      Nat.mod_eq_of_lt (by omega)] at hindex
    rwa [hindex]
  · intro h
    exact ⟨position, h, by rw [Nat.zero_add]⟩

/-- A list continues with a term, and then with others. -/
theorem cons_prefix_drop_iff {terms termIds : List UInt32} {termId : UInt32} {i : ℕ} :
    termId :: terms <+: termIds.drop i ↔ termIds[i]? = some termId ∧ terms <+: termIds.drop (i + 1) := by
  by_cases hi : i < termIds.length
  · rw [List.drop_eq_getElem_cons hi, List.cons_prefix_cons, List.getElem?_eq_getElem hi, Option.some.injEq,
      eq_comm]
  · rw [List.drop_eq_nil_of_le (not_lt.mp hi), List.getElem?_eq_none (not_lt.mp hi)]
    simp

/-- The terms follow each other from a position on. -/
theorem forall_mem_termPositions_iff {termIds : List UInt32} (hshort : termIds.length < 2 ^ 32)
    (terms : List UInt32) {start offset : ℕ} (hstart : start + offset ≤ termIds.length) :
    (∀ entry ∈ terms.zipIdx offset,
        UInt32.ofNat start + UInt32.ofNat entry.2 ∈ termPositions entry.1 0 termIds) ↔
      terms <+: termIds.drop (start + offset) := by
  induction terms generalizing offset with
  | nil => simp
  | cons termId terms ih =>
    rw [List.zipIdx_cons, List.forall_mem_cons, cons_prefix_drop_iff, ← UInt32.ofNat_add,
      ofNat_mem_termPositions hshort hstart]
    refine and_congr_right fun hterm => ?_
    obtain ⟨hlt, -⟩ := List.getElem?_eq_some_iff.mp hterm
    exact @ih (offset + 1) (by omega)

/-- The terms follow each other somewhere in the document. -/
def Document.HasPhrase (doc : Document) (phrase : List UInt32) : Prop := phrase <:+: doc.termIds

instance (doc : Document) (phrase : List UInt32) : Decidable (doc.HasPhrase phrase) :=
  inferInstanceAs (Decidable (_ <:+: _))

/-- A document has a phrase if the terms of the phrase follow the first one at some position. -/
theorem Document.hasPhrase_iff {doc : Document} (hshort : doc.termIds.length < 2 ^ 32) (first : UInt32)
    (terms : List UInt32) :
    doc.HasPhrase (first :: terms) ↔ ∃ start ∈ termPositions first 0 doc.termIds, ∀ entry ∈ terms.zipIdx 1,
      start + UInt32.ofNat entry.2 ∈ termPositions entry.1 0 doc.termIds := by
  have hfollow : ∀ i, doc.termIds[i]? = some first →
      ((∀ entry ∈ terms.zipIdx 1, UInt32.ofNat i + UInt32.ofNat entry.2 ∈ termPositions entry.1 0 doc.termIds) ↔
        terms <+: doc.termIds.drop (i + 1)) := by
    intro i hterm
    obtain ⟨hi, -⟩ := List.getElem?_eq_some_iff.mp hterm
    exact forall_mem_termPositions_iff hshort terms hi
  rw [HasPhrase, List.infix_iff_prefix_suffix]
  constructor
  · intro h
    obtain ⟨rest, hprefix, hsuffix⟩ := h
    rw [List.suffix_iff_eq_drop.mp hsuffix, cons_prefix_drop_iff] at hprefix
    refine ⟨_, mem_termPositions.mpr ⟨_, hprefix.1, rfl⟩, ?_⟩
    rw [Nat.zero_add]
    exact (hfollow _ hprefix.1).mpr hprefix.2
  · intro h
    obtain ⟨start, hstart, hrest⟩ := h
    obtain ⟨i, hterm, rfl⟩ := mem_termPositions.mp hstart
    rw [Nat.zero_add] at hrest
    exact ⟨_, cons_prefix_drop_iff.mpr ⟨hterm, (hfollow i hterm).mp hrest⟩, List.drop_suffix i _⟩

/-! ## The postings of documents -/

/-- The posting of a document under a term. -/
def StoredDocument.posting (termId : UInt32) (entry : StoredDocument) : InvertedPosting :=
  ⟨entry.docId, entry.location.1, entry.location.2, termPositions termId 0 entry.doc.termIds⟩

/-- The documents that were posted under a term. -/
def postedDocuments (termId : UInt32) (stored : List StoredDocument) : List StoredDocument :=
  stored.filter fun entry => entry.doc.PostedUnder termId

/-- The documents whose postings are on the newest posting page of a term. -/
def newestDocuments (termId : UInt32) (stored : List StoredDocument) : List StoredDocument :=
  (postedDocuments termId stored).drop
    (PageChain.filledBefore maxPostingsPerPage (postedDocuments termId stored).length)

/-- A term has as many positions as occurrences. -/
theorem length_termPositions (termId : UInt32) (first : ℕ) (termIds : List UInt32) :
    (termPositions termId first termIds).length = termIds.count termId := by
  induction termIds generalizing first with
  | nil => rfl
  | cons other rest ih =>
    rw [termPositions, List.count_cons]
    split
    · next hsame => rw [List.length_cons, ih, if_pos (beq_iff_eq.mpr hsame)]
    · next hother => rw [ih, if_neg (by simpa using hother), Nat.add_zero]

/-- The documents have ascending ids. -/
def AscendingIds (stored : List StoredDocument) : Prop :=
  stored.Pairwise fun x y => x.docId.toNat < y.docId.toNat

section Postings

variable {stored : List StoredDocument} {termId : UInt32}

/-- The ids of the stored documents are given out in order. -/
theorem ascendingIds_storedDocuments {docs : List Document} {locations : List (ℕ × ℕ)}
    (hlength : docs.length = locations.length) (hcount : docs.length ≤ 2 ^ 32) :
    AscendingIds (storedDocuments docs locations) := by
  have hids : (storedDocuments docs locations).map (fun entry => entry.docId) =
      (List.range docs.length).map UInt32.ofNat := by
    have hnumbered := congrArg (List.map Prod.snd) (map_storedDocuments hlength)
    rw [List.map_map, numberedDocuments, List.map_map] at hnumbered
    refine hnumbered.trans ?_
    rw [List.range_eq_range', ← List.zipIdx_map_snd 0 docs, List.map_map]
    rfl
  have hascending : ((List.range docs.length).map UInt32.ofNat).Pairwise fun x y => x.toNat < y.toNat := by
    rw [List.pairwise_map]
    refine List.pairwise_lt_range.imp_of_mem fun {i j} hi hj hlt => ?_
    rw [List.mem_range] at hi hj
    rw [UInt32.toNat_ofNat', UInt32.toNat_ofNat', Nat.mod_eq_of_lt (by omega), Nat.mod_eq_of_lt (by omega)]
    exact hlt
  rw [← hids, List.pairwise_map] at hascending
  exact hascending

/-- Documents with the same id are the same. -/
theorem AscendingIds.eq_of_docId (h : AscendingIds stored) {x y : StoredDocument} (hx : x ∈ stored)
    (hy : y ∈ stored)
    (hsame : x.docId = y.docId) : x = y := by
  have hnodup : (stored.map StoredDocument.docId).Nodup := by
    rw [List.Nodup, List.pairwise_map]
    exact h.imp fun hlt heq => absurd (congrArg UInt32.toNat heq) hlt.ne
  exact List.inj_on_of_nodup_map hnodup hx hy hsame

/-- The postings of a term that occurs rarely enough in every document. -/
theorem recordedPostings_eq (hzero : termId ≠ 0)
    (hoften : ∀ entry ∈ stored, entry.doc.termIds.count termId ≤ maxPositionsPerPosting) :
    recordedPostings termId stored = (postedDocuments termId stored).map (StoredDocument.posting termId) := by
  induction stored with
  | nil => rfl
  | cons entry rest ih =>
    have hrest := ih fun other hother => hoften other (List.mem_cons_of_mem _ hother)
    rw [recordedPostings] at hrest
    rw [recordedPostings, List.flatMap_cons, hrest, postedDocuments, postedDocuments,
      List.filter_cons]
    have hpositions : entry.doc.postedPositions termId = termPositions termId 0 entry.doc.termIds := by
      rw [Document.postedPositions, if_neg hzero, List.append_nil]
    have hall : (termPositions termId 0 entry.doc.termIds).take maxPositionsPerPosting =
        termPositions termId 0 entry.doc.termIds := by
      apply List.take_of_length_le
      rw [length_termPositions]
      exact hoften entry List.mem_cons_self
    by_cases hposted : entry.doc.PostedUnder termId
    · have hsome := mt (entry.doc.postedPositions_eq_nil termId).mp (not_not.mpr hposted)
      rw [if_pos (decide_eq_true hposted), List.map_cons, postingAt, if_neg hsome, hpositions, hall]
      rfl
    · have hnone := (entry.doc.postedPositions_eq_nil termId).mpr hposted
      rw [if_neg (by simpa using hposted), postingAt, if_pos hnone]
      rfl

/-- Ascending ids are apart. -/
theorem AscendingIds.idsApart (h : AscendingIds stored) (termId : UInt32) : IdsApart termId stored := by
  rw [IdsApart, holderIds, List.isChain_map]
  exact ((h.filter _).imp fun hlt hsame => absurd (congrArg UInt32.toNat hsame) hlt.ne).isChain

end Postings

/-! ## The phrase in a shard -/

/-- Some of the documents. -/
theorem AscendingIds.sublist {stored others : List StoredDocument} (h : AscendingIds stored)
    (hsub : others.Sublist stored) : AscendingIds others :=
  List.Pairwise.sublist hsub h

/-- A document that is stored was inserted. -/
theorem doc_mem_of_mem_storedDocuments {docs : List Document} {locations : List (ℕ × ℕ)}
    (hlength : docs.length = locations.length) {entry : StoredDocument}
    (hentry : entry ∈ storedDocuments docs locations) : entry.doc ∈ docs := by
  have hmem := List.mem_map_of_mem (f := fun entry : StoredDocument => (entry.doc, entry.docId)) hentry
  rw [map_storedDocuments hlength, numberedDocuments] at hmem
  obtain ⟨numbered, hnumbered, hsame⟩ := List.mem_map.mp hmem
  have hdoc : numbered.1 = entry.doc := congrArg Prod.fst hsame
  rw [← hdoc]
  exact List.fst_mem_of_mem_zipIdx hnumbered

/-- A document on the newest posting page of a term was posted under the term. -/
theorem newestDocuments_sublist (termId : UInt32) (stored : List StoredDocument) :
    (newestDocuments termId stored).Sublist stored :=
  (List.drop_sublist _ _).trans List.filter_sublist

/-- A term with postings has some on the newest page. -/
theorem newestDocuments_ne_nil {termId : UInt32} {stored : List StoredDocument}
    (h : postedDocuments termId stored ≠ []) : newestDocuments termId stored ≠ [] := by
  have hpositive := List.length_pos_iff.mpr h
  have hbefore := Nat.div_mul_le_self ((postedDocuments termId stored).length - 1) maxPostingsPerPage
  rw [newestDocuments, ← List.length_pos_iff, List.length_drop, PageChain.filledBefore]
  omega

/-- A document is on the newest posting pages of all terms. -/
def IsNewest (termIds : List UInt32) (stored : List StoredDocument) (docId : UInt32) : Prop :=
  ∀ termId ∈ termIds, docId ∈ (newestDocuments termId stored).map StoredDocument.docId

instance (termIds : List UInt32) (stored : List StoredDocument) (docId : UInt32) :
    Decidable (IsNewest termIds stored docId) :=
  List.decidableBAll _ termIds

/-- The documents that a phrase search looks at: they are on the newest posting pages of all terms. -/
def foundDocuments (first : UInt32) (terms : List UInt32) (stored : List StoredDocument) : List StoredDocument :=
  (newestDocuments first stored).filter fun entry =>
    IsNewest terms stored entry.docId ∧ entry.doc.HasPhrase (first :: terms)

namespace Indexed

variable {view : ShardView} {docs : List Document} {termId : UInt32}

/-- The stored documents of a shard. -/
abbrev stored (_ : Indexed view docs) : List StoredDocument := storedDocuments docs view.data.locations

/-- There is one posting for every document with the term. -/
theorem chronological_eq (h : Indexed view docs) (hcount : docs.length ≤ 2 ^ 32) (hzero : termId ≠ 0)
    (hoften : ∀ doc ∈ docs, doc.termIds.count termId ≤ maxPositionsPerPosting) :
    (view.postings termId).chronological =
      (postedDocuments termId h.stored).map (StoredDocument.posting termId) := by
  have hascending := ascendingIds_storedDocuments h.length_locations hcount
  rw [h.postings, (indexPostings_spec termId _).2.2.2 (hascending.idsApart termId), recordedPostings_eq hzero]
  exact fun entry hentry => hoften entry.doc (doc_mem_of_mem_storedDocuments h.length_locations hentry)

/-- If there are postings, some are on the newest page. -/
theorem newest_ne_nil (h : Indexed view docs) (hcount : docs.length ≤ 2 ^ 32) (hzero : termId ≠ 0)
    (hoften : ∀ doc ∈ docs, doc.termIds.count termId ≤ maxPositionsPerPosting)
    (hsome : (view.postings termId).contents ≠ []) :
    (newestDocuments termId h.stored).map (StoredDocument.posting termId) ≠ [] := by
  have hposted : postedDocuments termId h.stored ≠ [] := by
    intro hnone
    have hperm := PageChain.perm_contents (view.postings termId)
    rw [h.chronological_eq hcount hzero hoften, hnone] at hperm
    exact hsome hperm.eq_nil
  rw [ne_eq, List.map_eq_nil_iff]
  exact newestDocuments_ne_nil hposted

/-- A search reads the postings on the newest page of a term first, and all postings behind it are below. -/
theorem exists_newestFirst (h : Indexed view docs) (hvalid : view.Valid) (hcount : docs.length ≤ 2 ^ 32)
    (hzero : termId ≠ 0) (hoften : ∀ doc ∈ docs, doc.termIds.count termId ≤ maxPositionsPerPosting) :
    ∃ older, (view.postings termId).contents =
        (newestDocuments termId h.stored).map (StoredDocument.posting termId) ++ older ∧
      NewestFirst InvertedPosting.order
        ((newestDocuments termId h.stored).map (StoredDocument.posting termId)) older := by
  have hascending := ascendingIds_storedDocuments h.length_locations hcount
  have hpostings := h.chronological_eq hcount hzero hoften
  obtain ⟨older, hcontents, hperm⟩ := (hvalid.packed termId).contents_eq
  rw [hpostings, List.length_map, ← List.map_drop] at hcontents
  rw [hpostings, List.length_map, ← List.map_take] at hperm
  refine ⟨older, hcontents, ?_, ?_⟩
  · rw [List.pairwise_map]
    exact hascending.sublist ((List.drop_sublist _ _).trans List.filter_sublist)
  · intro x hx y hy
    obtain ⟨entry, hentry, rfl⟩ := List.mem_map.mp (hperm.mem_iff.mp hx)
    obtain ⟨newer, hnewer, rfl⟩ := List.mem_map.mp hy
    have hposted : AscendingIds (postedDocuments termId h.stored) := hascending.sublist List.filter_sublist
    rw [AscendingIds, ← List.take_append_drop
      (PageChain.filledBefore maxPostingsPerPage (postedDocuments termId h.stored).length)
      (postedDocuments termId h.stored), List.pairwise_append] at hposted
    exact hposted.2.2 entry hentry newer hnewer

/-- The merge of a phrase search compares the positions in one document. -/
theorem phraseAt_iff (h : Indexed view docs) (hvalid : view.Valid) (hcount : docs.length ≤ 2 ^ 32)
    {first : UInt32} {terms : List UInt32} (hzero : ∀ termId ∈ terms, termId ≠ 0)
    (hoften : ∀ termId ∈ terms, ∀ doc ∈ docs, doc.termIds.count termId ≤ maxPositionsPerPosting)
    (hsome : ∀ termId ∈ terms, (view.postings termId).contents ≠ [])
    {entry : StoredDocument} (hentry : entry ∈ h.stored) (hshort : entry.doc.termIds.length < 2 ^ 32) :
    PhraseAt (terms.map fun termId => (view.postings termId).contents) (entry.posting first) ↔
      IsNewest terms h.stored entry.docId ∧ entry.doc.HasPhrase (first :: terms) := by
  have hascending := ascendingIds_storedDocuments h.length_locations hcount
  have hfinds : ∀ termId ∈ terms, (Finds entry.docId (view.postings termId).contents ↔
      entry.docId ∈ (newestDocuments termId h.stored).map StoredDocument.docId) ∧
        (Finds entry.docId (view.postings termId).contents →
          (seekDocument entry.docId (view.postings termId).contents).head? = some (entry.posting termId)) := by
    intro termId htermId
    obtain ⟨older, hcontents, hnewest⟩ :=
      h.exists_newestFirst hvalid hcount (hzero termId htermId) (hoften termId htermId)
    have hne := h.newest_ne_nil hcount (hzero termId htermId) (hoften termId htermId) (hsome termId htermId)
    rw [hcontents]
    constructor
    · rw [finds_iff hnewest hne, List.mem_map]
      simp only [List.mem_map, exists_exists_and_eq_and]
      rfl
    · intro hfinds
      obtain ⟨posting, hhead, hsame⟩ := Option.map_eq_some_iff.mp hfinds
      have hmem := (hnewest.mem_head?_seek_iff hne (congrArg UInt32.toNat hsame)).mp hhead
      obtain ⟨other, hother, rfl⟩ := List.mem_map.mp hmem
      have hstored := (newestDocuments_sublist termId h.stored).subset hother
      rw [hhead, hascending.eq_of_docId hstored hentry hsame]
  have hall : (∀ list ∈ terms.map fun termId => (view.postings termId).contents, Finds entry.docId list) ↔
      IsNewest terms h.stored entry.docId := by
    rw [List.forall_mem_map]
    exact forall₂_congr fun termId htermId => (hfinds termId htermId).1
  rw [PhraseAt]
  refine (and_congr_left' hall).trans (and_congr_right fun hmem => ?_)
  have hheads : ∀ termId ∈ terms, (seekDocument entry.docId (view.postings termId).contents).head? =
      some (entry.posting termId) :=
    fun termId htermId => (hfinds termId htermId).2 ((hfinds termId htermId).1.mpr (hmem termId htermId))
  rw [positionsMatch, List.any_eq_true, Document.hasPhrase_iff hshort]
  refine exists_congr fun start => and_congr_right fun _ => ?_
  rw [List.map_map, List.zipIdx_map, List.all_map, List.all_eq_true]
  refine forall₂_congr fun place hplace => ?_
  have hhead := hheads place.1 (List.fst_mem_of_mem_zipIdx hplace)
  change Option.any _ (seekDocument entry.docId (view.postings place.1).contents).head? = true ↔ _
  rw [hhead, Option.any_some, List.contains_iff_mem]
  rfl

/-- The records that a phrase search looks at. -/
theorem filterMap_phrasePostings (h : Indexed view docs) (hvalid : view.Valid) (hcount : docs.length ≤ 2 ^ 32)
    {first : UInt32} {terms : List UInt32} (hterms : terms ≠ []) (hzero : ∀ termId ∈ first :: terms, termId ≠ 0)
    (hoften : ∀ termId ∈ first :: terms, ∀ doc ∈ docs, doc.termIds.count termId ≤ maxPositionsPerPosting)
    (hshort : ∀ doc ∈ docs, doc.termIds.length < 2 ^ 32)
    (hroom : ∀ termId ∈ first :: terms, (view.postings termId).contents.length ≤ maxPossiblePostings) :
    (view.phrasePostings (first :: terms)).filterMap view.recordOf =
      (foundDocuments first terms h.stored).map StoredDocument.record := by
  have hnewest := fun termId htermId =>
    h.exists_newestFirst hvalid hcount (hzero termId htermId) (hoften termId htermId)
  have hnone : ∀ termId ∈ first :: terms, (view.postings termId).contents = [] →
      newestDocuments termId h.stored = [] := by
    intro termId htermId hempty
    obtain ⟨older, hcontents, -⟩ := hnewest termId htermId
    rw [hempty] at hcontents
    exact List.map_eq_nil_iff.mp (List.append_eq_nil_iff.mp hcontents.symm).1
  have hphrase : view.phrasePostings (first :: terms) =
      if ∃ other ∈ first :: terms, (view.postings other).contents = [] then []
      else phraseMatches (view.postings first).contents (terms.map fun other => (view.postings other).contents) := by
    cases terms with
    | nil => exact absurd rfl hterms
    | cons second rest =>
      have htake : (second :: rest).map (fun other => (view.postings other).contents.take maxPossiblePostings) =
          (second :: rest).map fun other => (view.postings other).contents :=
        List.map_congr_left fun other hother =>
          List.take_of_length_le (hroom other (List.mem_cons_of_mem _ hother))
      rw [ShardView.phrasePostings, htake, List.take_of_length_le (hroom first List.mem_cons_self)]
      simp
  rw [hphrase, foundDocuments]
  split_ifs with hempty
  · obtain ⟨other, hother, hcontents⟩ := hempty
    have hmissing := hnone other hother hcontents
    rw [List.filterMap_nil, eq_comm, List.map_eq_nil_iff, List.filter_eq_nil_iff]
    intro entry hentry hfound
    obtain rfl | hother := List.mem_cons.mp hother
    · rw [hmissing] at hentry
      exact absurd hentry List.not_mem_nil
    · have hmem := (of_decide_eq_true hfound).1 other hother
      rw [hmissing] at hmem
      exact absurd hmem List.not_mem_nil
  · have hsome : ∀ termId ∈ first :: terms, (view.postings termId).contents ≠ [] :=
      fun termId htermId hcontents => hempty ⟨termId, htermId, hcontents⟩
    obtain ⟨older, hcontents, hordered⟩ := hnewest first List.mem_cons_self
    have hne := h.newest_ne_nil hcount (hzero first List.mem_cons_self) (hoften first List.mem_cons_self)
      (hsome first List.mem_cons_self)
    have hlists : (terms.map fun other => (view.postings other).contents) ≠ [] := by
      rwa [ne_eq, List.map_eq_nil_iff]
    rw [hcontents, phraseMatches_newestFirst hordered hne hlists, List.filter_map, List.filterMap_map]
    have hstored : ∀ entry ∈ newestDocuments first h.stored, entry ∈ h.stored :=
      fun entry hentry => (newestDocuments_sublist first h.stored).subset hentry
    have hsame : (newestDocuments first h.stored).filter ((fun post0 => decide (PhraseAt
        (terms.map fun other => (view.postings other).contents) post0)) ∘ StoredDocument.posting first) =
          (newestDocuments first h.stored).filter fun entry =>
            IsNewest terms h.stored entry.docId ∧ entry.doc.HasPhrase (first :: terms) := by
      apply List.filter_congr
      intro entry hentry
      have hdoc := doc_mem_of_mem_storedDocuments h.length_locations (hstored entry hentry)
      exact decide_eq_decide.mpr (h.phraseAt_iff hvalid hcount
        (fun termId htermId => hzero termId (List.mem_cons_of_mem _ htermId))
        (fun termId htermId => hoften termId (List.mem_cons_of_mem _ htermId))
        (fun termId htermId => hsome termId (List.mem_cons_of_mem _ htermId)) (hstored entry hentry)
        (hshort entry.doc hdoc))
    rw [hsame]
    refine (List.filterMap_congr fun entry hentry => ?_).trans (congrFun List.filterMap_eq_map _)
    exact h.itemsAt_location hvalid (hstored entry (List.mem_of_mem_filter hentry))

end Indexed

end FtsUring
