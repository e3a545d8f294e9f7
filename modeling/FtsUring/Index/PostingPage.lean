import FtsUring.Storage.SlottedPage
import Mathlib.Tactic

/-!
# Pages of the inverted index

A posting page holds the postings of one term: the term id, the number of postings, the id of
the next page, and from offset 12 on an array of 44-byte postings. It has no page header: the
bytes where other pages have their type and their slot count belong to the first posting.

The model of a posting has the positions in use, the first `pos_count` of the array of eight.
-/

namespace FtsUring

open Foundation

/-- `MAX_POSTINGS_PER_PAGE`. -/
def maxPostingsPerPage : ℕ := 92

/-- `MAX_POSITIONS_PER_POSTING`. -/
def maxPositionsPerPosting : ℕ := 8

/-- An occurrence of a term in a document, with the place of its record. -/
@[ext] structure InvertedPosting where
  docId : UInt32
  dataPageId : ℕ
  dataSlotId : ℕ
  positions : List UInt32
  deriving DecidableEq, Repr

namespace Page

/-- `page->term_id`. -/
def termId (page : Page) : ℕ := page.field 0 4

/-- `page->posting_count`. -/
def postingCount (page : Page) : ℕ := page.field 4 4

/-- `page->next_posting_page`. -/
def nextPostingPage (page : Page) : ℕ := page.field 8 4

/-- `page->postings[i].pos_count`. -/
def posCount (page : Page) (i : ℕ) : ℕ := page.field (22 + 44 * i) 2

/-- `page->postings[i].positions[j]`. -/
def position (page : Page) (i j : ℕ) : UInt32 := UInt32.ofNat (page.field (24 + 44 * i + 4 * j) 4)

/-- `page->postings[i]`. -/
def posting (page : Page) (i : ℕ) : InvertedPosting where
  docId := UInt32.ofNat (page.field (12 + 44 * i) 4)
  dataPageId := page.field (16 + 44 * i) 4
  dataSlotId := page.field (20 + 44 * i) 2
  positions := (List.range (page.posCount i)).map (page.position i)

/-- The postings of a page. -/
def postings (page : Page) : List InvertedPosting := (List.range page.postingCount).map page.posting

/-- Assign the members of `page->postings[i]`, with one position. -/
def setPosting (page : Page) (i : ℕ) (docId : UInt32) (dataPageId dataSlotId : ℕ)
    (termPosition : UInt32) : Page :=
  ((((page.setField (12 + 44 * i) 4 docId.toNat).setField (16 + 44 * i) 4 dataPageId).setField
    (20 + 44 * i) 2 dataSlotId).setField (22 + 44 * i) 2 1).setField (24 + 44 * i) 4
      termPosition.toNat

/-- Add a posting behind the others. -/
def addPosting (page : Page) (docId : UInt32) (dataPageId dataSlotId : ℕ) (termPosition : UInt32) :
    Page :=
  let page := page.setPosting page.postingCount docId dataPageId dataSlotId termPosition
  page.setField 4 4 (page.postingCount + 1)

/-- Append a position to the last posting, unless its array is full. -/
def addPosition (page : Page) (termPosition : UInt32) : Page :=
  let last := page.postingCount - 1
  if page.posCount last < maxPositionsPerPosting then
    (page.setField (24 + 44 * last + 4 * page.posCount last) 4 termPosition.toNat).setField
      (22 + 44 * last) 2 (page.posCount last + 1)
  else page

/-- Assign the head of a page and its first posting. -/
def newPostingPage (page : Page) (termId : UInt32) (next : ℕ) (docId : UInt32)
    (dataPageId dataSlotId : ℕ) (termPosition : UInt32) : Page :=
  (((page.setField 0 4 termId.toNat).setField 4 4 1).setField 8 4 next).setPosting 0 docId
    dataPageId dataSlotId termPosition

/-- Store a posting behind the others, one position after the other. -/
def storePosting (page : Page) (posting : InvertedPosting) : Page :=
  posting.positions.tail.foldl addPosition
    (page.addPosting posting.docId posting.dataPageId posting.dataSlotId
      (posting.positions.headD 0))

/-! ## Stores into postings -/

/-- A store of a posting leaves the fields in front of it and behind its first position alone. -/
theorem field_setPosting (page : Page) {i : ℕ} (docId : UInt32) (dataPageId dataSlotId : ℕ)
    (termPosition : UInt32) {start width : ℕ} (h : start + width ≤ 12 + 44 * i ∨ 28 + 44 * i ≤ start) :
    (page.setPosting i docId dataPageId dataSlotId termPosition).field start width =
      page.field start width := by
  rw [setPosting]
  simp (disch := omega) only [field_setField_of_disjoint]

/-- The stored posting. -/
theorem posting_setPosting_self (page : Page) {i : ℕ} (hi : i < maxPostingsPerPage) (docId : UInt32)
    {dataPageId dataSlotId : ℕ} (hpage : dataPageId < 2 ^ 32) (hslot : dataSlotId < 2 ^ 16)
    (termPosition : UInt32) :
    (page.setPosting i docId dataPageId dataSlotId termPosition).posting i =
      ⟨docId, dataPageId, dataSlotId, [termPosition]⟩ := by
  have hmax : maxPostingsPerPage = 92 := rfl
  have hdoc : docId.toNat % 256 ^ 4 = docId.toNat := Nat.mod_eq_of_lt docId.toNat_lt
  have hposition : termPosition.toNat % 256 ^ 4 = termPosition.toNat :=
    Nat.mod_eq_of_lt termPosition.toNat_lt
  have hpageMod : dataPageId % 256 ^ 4 = dataPageId := Nat.mod_eq_of_lt hpage
  have hslotMod : dataSlotId % 256 ^ 2 = dataSlotId := Nat.mod_eq_of_lt hslot
  have hcount : (page.setPosting i docId dataPageId dataSlotId termPosition).posCount i = 1 := by
    rw [posCount, setPosting, field_setField_of_disjoint _ _ _ _ _ _ (by omega),
      field_setField_self _ _ _ _ (by omega)]
    rfl
  ext1
  · simp (disch := omega) only [posting, setPosting, field_setField_of_disjoint,
      field_setField_self, hdoc, UInt32.ofNat_toNat]
  · simp (disch := omega) only [posting, setPosting, field_setField_of_disjoint,
      field_setField_self, hpageMod]
  · simp (disch := omega) only [posting, setPosting, field_setField_of_disjoint,
      field_setField_self, hslotMod]
  · simp only [posting, hcount, List.range_one, List.map_cons, List.map_nil, position]
    rw [Nat.mul_zero, Nat.add_zero, setPosting, field_setField_self _ _ _ _ (by omega), hposition,
      UInt32.ofNat_toNat]

/-- Postings whose bytes in use agree are equal. -/
theorem posting_eq_of_fields {page other : Page} {i : ℕ}
    (h : ∀ start width, start + width ≤ 12 + 4 * page.posCount i →
      other.field (12 + 44 * i + start) width = page.field (12 + 44 * i + start) width) :
    other.posting i = page.posting i := by
  have hfield {offset width : ℕ} (hlow : 12 + 44 * i ≤ offset)
      (hhigh : offset + width ≤ 24 + 44 * i + 4 * page.posCount i) :
      other.field offset width = page.field offset width := by
    have hstart : 12 + 44 * i + (offset - (12 + 44 * i)) = offset := by omega
    rw [← hstart]
    exact h _ _ (by omega)
  have hcount : other.posCount i = page.posCount i := hfield (by omega) (by omega)
  ext1
  · rw [posting, posting, hfield (by omega) (by omega)]
  · exact hfield (by omega) (by omega)
  · exact hfield (by omega) (by omega)
  · simp only [posting, hcount]
    apply List.map_congr_left
    intro j hj
    rw [List.mem_range] at hj
    rw [position, position, hfield (by omega) (by omega)]

end Page

/-! ## Posting pages as lists of postings -/

/-- The posting page that a zero page becomes when the postings are stored in it. -/
def postingPageImage (termId : UInt32) (next : ℕ) : List InvertedPosting → Page
  | [] => Page.zero
  | first :: rest =>
    rest.foldl Page.storePosting (first.positions.tail.foldl Page.addPosition
      (Page.zero.newPostingPage termId next first.docId first.dataPageId first.dataSlotId
        (first.positions.headD 0)))

/-- The image of a page with one posting more. -/
theorem postingPageImage_append {items : List InvertedPosting} (hitems : items ≠ []) (termId : UInt32)
    (next : ℕ) (posting : InvertedPosting) :
    postingPageImage termId next (items ++ [posting]) =
      (postingPageImage termId next items).storePosting posting := by
  cases items with
  | nil => exact absurd rfl hitems
  | cons first rest =>
    rw [List.cons_append, postingPageImage, postingPageImage, List.foldl_append, List.foldl_cons,
      List.foldl_nil]

/-- A posting with one position more. -/
theorem Page.storePosting_append (page : Page) {posting : InvertedPosting}
    (hpositions : posting.positions ≠ []) (termPosition : UInt32) :
    page.storePosting { posting with positions := posting.positions ++ [termPosition] } =
      (page.storePosting posting).addPosition termPosition := by
  obtain ⟨docId, dataPageId, dataSlotId, positions⟩ := posting
  cases positions with
  | nil => exact absurd rfl hpositions
  | cons first rest =>
    simp only [Page.storePosting, List.cons_append, List.tail_cons, List.headD_cons,
      List.foldl_append, List.foldl_cons, List.foldl_nil]

/-- The image of a page whose last posting has one position more. -/
theorem postingPageImage_addPosition (front : List InvertedPosting) {last : InvertedPosting}
    (hpositions : last.positions ≠ []) (termId : UInt32) (next : ℕ) (termPosition : UInt32) :
    postingPageImage termId next
        (front ++ [{ last with positions := last.positions ++ [termPosition] }]) =
      (postingPageImage termId next (front ++ [last])).addPosition termPosition := by
  cases front with
  | nil =>
    obtain ⟨docId, dataPageId, dataSlotId, positions⟩ := last
    cases positions with
    | nil => exact absurd rfl hpositions
    | cons first rest =>
      simp only [List.nil_append, postingPageImage, List.cons_append, List.tail_cons,
        List.headD_cons, List.foldl_append, List.foldl_cons, List.foldl_nil]
  | cons first rest =>
    rw [postingPageImage_append (List.cons_ne_nil _ _),
      postingPageImage_append (List.cons_ne_nil _ _), Page.storePosting_append _ hpositions]

/-- The page is a posting page of a term. -/
structure IsPostingPage (page : Page) (termId : UInt32) (items : List InvertedPosting)
    (next : ℕ) : Prop where
  image : page = postingPageImage termId next items
  termId : page.termId = termId.toNat
  postings : page.postings = items
  next : page.nextPostingPage = next
  nonempty : 0 < items.length
  fits : items.length ≤ maxPostingsPerPage
  recorded : ∀ posting ∈ items, posting.positions ≠ []
  positions : ∀ posting ∈ items, posting.positions.length ≤ maxPositionsPerPosting

namespace IsPostingPage

variable {page : Page} {termId : UInt32} {items : List InvertedPosting} {next : ℕ}

/-- The posting count. -/
theorem postingCount (h : IsPostingPage page termId items next) :
    page.postingCount = items.length := by
  rw [← h.postings, Page.postings, List.length_map, List.length_range]

/-- The postings one by one. -/
theorem posting (h : IsPostingPage page termId items next) {i : ℕ} (hi : i < items.length) :
    page.posting i = items[i] := by
  have hlength : i < page.postings.length := by
    rw [h.postings]
    exact hi
  have hget : page.postings[i] = items[i] := by
    simp only [h.postings]
  rw [← hget]
  simp [Page.postings]

/-- The number of positions of a posting. -/
theorem posCount (h : IsPostingPage page termId items next) {i : ℕ} (hi : i < items.length) :
    page.posCount i = items[i].positions.length := by
  rw [← h.posting hi, Page.posting, List.length_map, List.length_range]

/-- A posting has at most eight positions. -/
theorem posCount_le (h : IsPostingPage page termId items next) {i : ℕ} (hi : i < items.length) :
    page.posCount i ≤ 8 := by
  rw [h.posCount hi]
  exact h.positions _ (List.getElem_mem hi)

/-- A page has the postings of a list when their number and each of them is right. -/
theorem postings_eq {other : Page} {all : List InvertedPosting}
    (hcount : other.postingCount = all.length)
    (hposting : ∀ i (hi : i < all.length), other.posting i = all[i]) : other.postings = all := by
  apply List.ext_getElem
  · rw [Page.postings, List.length_map, List.length_range, hcount]
  · intro i hleft hright
    simp only [Page.postings, List.getElem_map, List.getElem_range]
    exact hposting i hright

/-- A new posting page, stored into a zero page. -/
theorem newPostingPage (termId : UInt32) {next : ℕ} (hnext : next < 2 ^ 32)
    (docId : UInt32) {dataPageId dataSlotId : ℕ} (hpage : dataPageId < 2 ^ 32)
    (hslot : dataSlotId < 2 ^ 16) (termPosition : UInt32) :
    IsPostingPage (Page.zero.newPostingPage termId next docId dataPageId dataSlotId termPosition) termId
      [⟨docId, dataPageId, dataSlotId, [termPosition]⟩] next := by
  have himage : Page.zero.newPostingPage termId next docId dataPageId dataSlotId termPosition =
      postingPageImage termId next [⟨docId, dataPageId, dataSlotId, [termPosition]⟩] := rfl
  generalize Page.zero = old at himage
  set page := old.newPostingPage termId next docId dataPageId dataSlotId termPosition with hpageEq
  have hcount : page.postingCount = 1 := by
    rw [Page.postingCount, hpageEq, Page.newPostingPage, Page.field_setPosting _ _ _ _ _ (by omega),
      Page.field_setField_of_disjoint _ _ _ _ _ _ (by omega),
      Page.field_setField_self _ _ _ _ (by omega)]
    rfl
  refine ⟨himage, ?_, postings_eq hcount ?_, ?_, Nat.one_pos, (by decide : 1 ≤ maxPostingsPerPage),
    ?_, ?_⟩
  · rw [Page.termId, hpageEq, Page.newPostingPage, Page.field_setPosting _ _ _ _ _ (by omega),
      Page.field_setField_of_disjoint _ _ _ _ _ _ (by omega),
      Page.field_setField_of_disjoint _ _ _ _ _ _ (by omega),
      Page.field_setField_self _ _ _ _ (by omega)]
    exact Nat.mod_eq_of_lt termId.toNat_lt
  · intro i hi
    rw [List.length_singleton, Nat.lt_one_iff] at hi
    subst hi
    exact Page.posting_setPosting_self _ (by decide) docId hpage hslot termPosition
  · rw [Page.nextPostingPage, hpageEq, Page.newPostingPage,
      Page.field_setPosting _ _ _ _ _ (by omega), Page.field_setField_self _ _ _ _ (by omega)]
    exact Nat.mod_eq_of_lt hnext
  · intro posting hposting
    rw [List.mem_singleton] at hposting
    subst hposting
    exact List.cons_ne_nil _ _
  · intro posting hposting
    rw [List.mem_singleton] at hposting
    subst hposting
    exact (by decide : 1 ≤ maxPositionsPerPosting)

/-- Adding a posting to a page that is not full. -/
theorem addPosting (h : IsPostingPage page termId items next)
    (hroom : items.length < maxPostingsPerPage) (docId : UInt32) {dataPageId dataSlotId : ℕ}
    (hpage : dataPageId < 2 ^ 32) (hslot : dataSlotId < 2 ^ 16) (termPosition : UInt32) :
    IsPostingPage (page.addPosting docId dataPageId dataSlotId termPosition) termId
      (items ++ [⟨docId, dataPageId, dataSlotId, [termPosition]⟩]) next := by
  have hmax : maxPostingsPerPage = 92 := rfl
  have hcount := h.postingCount
  set stored := page.setPosting page.postingCount docId dataPageId dataSlotId termPosition with hstored
  have hstoredCount : stored.postingCount = items.length := by
    rw [← hcount, Page.postingCount, hstored, Page.field_setPosting _ _ _ _ _ (by omega)]
    rfl
  have hadd : page.addPosting docId dataPageId dataSlotId termPosition =
      stored.setField 4 4 (items.length + 1) := by
    simp only [Page.addPosting, ← hstored, hstoredCount]
  have hlength : (items ++ [(⟨docId, dataPageId, dataSlotId, [termPosition]⟩ : InvertedPosting)]).length =
      items.length + 1 := by
    rw [List.length_append, List.length_singleton]
  have hfield {start width : ℕ} (hstart : start + width ≤ 4 ∨ 8 ≤ start) :
      (stored.setField 4 4 (items.length + 1)).field start width = stored.field start width :=
    Page.field_setField_of_disjoint _ _ _ _ _ _ (by omega)
  have hposting (i : ℕ) : (stored.setField 4 4 (items.length + 1)).posting i = stored.posting i :=
    Page.posting_eq_of_fields fun start width _ => hfield (by omega)
  have hitems : items ≠ [] := List.ne_nil_of_length_pos h.nonempty
  have himage := h.image
  rw [hadd]
  refine ⟨?_, ?_, postings_eq ?_ ?_, ?_, by omega, by omega, ?_, ?_⟩
  · rw [postingPageImage_append hitems, ← himage, ← hadd]
    rfl
  · rw [← h.termId, Page.termId, hfield (by omega), hstored, Page.field_setPosting _ _ _ _ _ (by omega)]
    rfl
  · rw [Page.postingCount, Page.field_setField_self _ _ _ _ (by omega), hlength]
    exact Nat.mod_eq_of_lt (by omega)
  · intro i hi
    rw [hposting]
    rw [hlength] at hi
    by_cases hold : i < items.length
    · rw [List.getElem_append_left hold, ← h.posting hold]
      have hpos := h.posCount_le hold
      exact Page.posting_eq_of_fields fun start width hend =>
        Page.field_setPosting _ _ _ _ _ (by omega)
    · have hlast : i = items.length := le_antisymm (Nat.lt_succ_iff.mp hi) (not_lt.mp hold)
      subst hlast
      rw [hstored, hcount, Page.posting_setPosting_self _ hroom docId hpage hslot]
      simp
  · rw [← h.next, Page.nextPostingPage, hfield (by omega), hstored,
      Page.field_setPosting _ _ _ _ _ (by omega)]
    rfl
  · intro posting hmem
    rw [List.mem_append, List.mem_singleton] at hmem
    obtain hmem | rfl := hmem
    · exact h.recorded posting hmem
    · exact List.cons_ne_nil _ _
  · intro posting hmem
    rw [List.mem_append, List.mem_singleton] at hmem
    obtain hmem | rfl := hmem
    · exact h.positions posting hmem
    · exact (by decide : 1 ≤ maxPositionsPerPosting)

/-- Appending a position to the last posting, which keeps at most eight. -/
theorem addPosition {front : List InvertedPosting} {last : InvertedPosting}
    (h : IsPostingPage page termId (front ++ [last]) next) (termPosition : UInt32) :
    IsPostingPage (page.addPosition termPosition) termId
      (front ++ [{ last with
        positions := (last.positions ++ [termPosition]).take maxPositionsPerPosting }]) next := by
  have hmax : maxPositionsPerPosting = 8 := rfl
  have hlength : ∀ item : InvertedPosting, (front ++ [item]).length = front.length + 1 := by
    intro item
    rw [List.length_append, List.length_singleton]
  have hlastLt : front.length < (front ++ [last]).length := by
    rw [hlength]
    exact Nat.lt_succ_self _
  have hfits := h.fits
  have hpageMax : maxPostingsPerPage = 92 := rfl
  rw [hlength] at hfits
  have hindex : page.postingCount - 1 = front.length := by
    rw [h.postingCount, hlength, Nat.add_sub_cancel]
  have hlast : page.posting front.length = last := by
    rw [h.posting hlastLt]
    simp
  have hcount : page.posCount front.length = last.positions.length := by
    rw [h.posCount hlastLt]
    simp
  have hsmall : last.positions.length ≤ 8 := h.positions last (by simp)
  by_cases hfull : last.positions.length < maxPositionsPerPosting
  swap
  · -- the array of positions is full
    have hsame : page.addPosition termPosition = page := by
      simp only [Page.addPosition, hindex, hcount]
      exact if_neg hfull
    have htake : (last.positions ++ [termPosition]).take maxPositionsPerPosting = last.positions := by
      have heq : maxPositionsPerPosting = last.positions.length := by omega
      rw [heq, List.take_left]
    rw [hsame, htake]
    exact h
  have htake : (last.positions ++ [termPosition]).take maxPositionsPerPosting =
      last.positions ++ [termPosition] := by
    rw [List.take_of_length_le]
    rw [List.length_append, List.length_singleton]
    omega
  set stored := page.setField (24 + 44 * front.length + 4 * last.positions.length) 4
    termPosition.toNat with hstored
  have hadd : page.addPosition termPosition =
      stored.setField (22 + 44 * front.length) 2 (last.positions.length + 1) := by
    simp only [Page.addPosition, hindex, hcount]
    exact if_pos hfull
  set changed := stored.setField (22 + 44 * front.length) 2 (last.positions.length + 1) with hchanged
  have hfield {start width : ℕ} (hrange : start + width ≤ 22 + 44 * front.length ∨
      (24 + 44 * front.length ≤ start ∧
        start + width ≤ 24 + 44 * front.length + 4 * last.positions.length)) :
      changed.field start width = page.field start width := by
    rw [hchanged, Page.field_setField_of_disjoint _ _ _ _ _ _ (by omega), hstored,
      Page.field_setField_of_disjoint _ _ _ _ _ _ (by omega)]
  have hchangedCount : changed.posCount front.length = last.positions.length + 1 := by
    rw [Page.posCount, hchanged, Page.field_setField_self _ _ _ _ (by omega)]
    exact Nat.mod_eq_of_lt (by omega)
  have hlastMem : last ∈ front ++ [last] := List.mem_append_right _ (List.mem_singleton_self last)
  have himage := postingPageImage_addPosition front (h.recorded last hlastMem) termId next termPosition
  rw [← h.image, hadd] at himage
  rw [hadd, htake]
  refine ⟨himage.symm, (hfield (by omega)).trans h.termId, postings_eq ?_ ?_,
    (hfield (by omega)).trans h.next, ?_, ?_, ?_, ?_⟩
  · rw [hlength, ← hlength last, ← h.postingCount]
    exact hfield (by omega)
  · intro i hi
    rw [hlength] at hi
    by_cases hold : i < front.length
    · have hiAll : i < (front ++ [last]).length := by
        rw [hlength]
        exact hi
      rw [List.getElem_append_left hold]
      have hget := h.posting hiAll
      rw [List.getElem_append_left hold] at hget
      rw [← hget]
      have hpos := h.posCount_le hiAll
      exact Page.posting_eq_of_fields fun start width hend => hfield (by omega)
    · have hlastEq : i = front.length := le_antisymm (Nat.lt_succ_iff.mp hi) (not_lt.mp hold)
      subst hlastEq
      have hgetLast : (front ++ [{ last with positions := last.positions ++ [termPosition] }])[
          front.length] = { last with positions := last.positions ++ [termPosition] } := by simp
      rw [hgetLast]
      rw [Page.posting, InvertedPosting.ext_iff] at hlast
      obtain ⟨hdoc, hpage, hslot, hpositions⟩ := hlast
      ext1
      · rw [Page.posting, hfield (by omega)]
        exact hdoc
      · exact (hfield (by omega)).trans hpage
      · exact (hfield (by omega)).trans hslot
      · simp only [Page.posting, hchangedCount, List.range_succ, List.map_append, List.map_cons,
          List.map_nil]
        congr 1
        · have hbefore : (List.range last.positions.length).map (page.position front.length) =
              last.positions := by
            rw [← hcount]
            exact hpositions
          refine Eq.trans ?_ hbefore
          apply List.map_congr_left
          intro j hj
          rw [List.mem_range] at hj
          rw [Page.position, Page.position, hfield (by omega)]
        · rw [Page.position, hchanged, Page.field_setField_of_disjoint _ _ _ _ _ _ (by omega), hstored,
            Page.field_setField_self _ _ _ _ (by omega)]
          have hmod : termPosition.toNat % 256 ^ 4 = termPosition.toNat :=
            Nat.mod_eq_of_lt termPosition.toNat_lt
          rw [hmod, UInt32.ofNat_toNat]
  · rw [hlength]
    exact Nat.succ_pos _
  · rw [hlength]
    exact hfits
  · intro posting hmem
    rw [List.mem_append, List.mem_singleton] at hmem
    obtain hmem | rfl := hmem
    · exact h.recorded posting (List.mem_append_left _ hmem)
    · exact List.append_ne_nil_of_right_ne_nil _ (List.cons_ne_nil _ _)
  · intro posting hmem
    rw [List.mem_append, List.mem_singleton] at hmem
    obtain hmem | rfl := hmem
    · exact h.positions posting (List.mem_append_left _ hmem)
    · rw [List.length_append, List.length_singleton]
      exact hfull

end IsPostingPage

/-! ## The first content of a posting page -/

/-- Two pages that agree outside of a range. -/
def Page.AgreeOutside (page other : Page) (low high : ℕ) : Prop :=
  ∀ i, i < low ∨ high ≤ i → page.bytes[i]? = other.bytes[i]?

/-- A store at the low end of the range shrinks it. -/
theorem Page.AgreeOutside.setField {page other : Page} {low high : ℕ}
    (h : page.AgreeOutside other low high) (width value : ℕ) :
    (page.setField low width value).AgreeOutside (other.setField low width value) (low + width)
      high := by
  intro i hi
  by_cases hlt : i < 4096
  · have hpage : i < page.bytes.length := by
      rw [page.length_bytes]
      exact hlt
    have hother : i < other.bytes.length := by
      rw [other.length_bytes]
      exact hlt
    simp only [Page.setField, Page.overwrite]
    rw [getElem?_overwrite _ _ _ _ hpage, getElem?_overwrite _ _ _ _ hother, length_leBytes]
    split_ifs
    · rfl
    · exact h i (by omega)
  · rw [List.getElem?_eq_none (by rw [Page.length_bytes]; omega),
      List.getElem?_eq_none (by rw [Page.length_bytes]; omega)]

/-- Pages that agree everywhere are equal. -/
theorem Page.AgreeOutside.eq {page other : Page} {low : ℕ} (h : page.AgreeOutside other low low) :
    page = other := by
  apply Page.ext
  apply List.ext_getElem?
  intro i
  exact h i (lt_or_ge i low)

/-- The stores into a new posting page cover the first 28 bytes, so that a zero page and an empty
row page become the same. -/
theorem newPostingPage_congr {page other : Page} (h : page.AgreeOutside other 0 28) (termId : UInt32)
    (next : ℕ) (docId : UInt32) (dataPageId dataSlotId : ℕ) (termPosition : UInt32) :
    page.newPostingPage termId next docId dataPageId dataSlotId termPosition =
      other.newPostingPage termId next docId dataPageId dataSlotId termPosition :=
  ((((((((h.setField 4 termId.toNat).setField 4 1).setField 4 next).setField 4 docId.toNat).setField
    4 dataPageId).setField 2 dataSlotId).setField 2 1).setField 4 termPosition.toNat).eq

/-- An empty page differs from a zero page in its header only. -/
theorem slottedPageInit_agreeOutside (pageId : ℕ) (pageType : PageType) :
    (slottedPageInit pageId pageType).AgreeOutside Page.zero 0 28 := by
  intro i hi
  have hstore {page : Page} (offset width value : ℕ) (hend : offset + width ≤ 28)
      (h : page.bytes[i]? = Page.zero.bytes[i]?) :
      (page.setField offset width value).bytes[i]? = Page.zero.bytes[i]? := by
    by_cases hlt : i < page.bytes.length
    · simp only [Page.setField, Page.overwrite]
      rw [getElem?_overwrite _ _ _ _ hlt, length_leBytes, if_neg (by omega), h]
    · rw [← h, List.getElem?_eq_none (by rw [Page.length_bytes]; rw [Page.length_bytes] at hlt; omega),
        List.getElem?_eq_none (by omega)]
  rw [slottedPageInit]
  exact hstore _ _ _ (by omega) (hstore _ _ _ (by omega) (hstore _ _ _ (by omega)
    (hstore _ _ _ (by omega) (hstore _ _ _ (by omega) (hstore _ _ _ (by omega)
      (hstore _ _ _ (by omega) rfl))))))

end FtsUring
