import FtsUring.BTree.Insert
import FtsUring.Foundation.PageChain
import FtsUring.Index.InvertedIndex

/-!
# The posting pages of a term

`PostingsAt` reads the pages of the array that are linked from the first posting page of a term
as a `PageChain`. Reading the postings of a term is reading the contents of that chain.
-/

namespace FtsUring

open Foundation

/-- The posting pages of a term, the newest first. -/
abbrev PostingPages : Type := PageChain InvertedPosting

/-- The first page of a term, or `INVALID_PAGE_ID`. -/
def PostingPages.firstId : PostingPages → ℕ
  | [] => invalidPageId
  | (id, _) :: _ => id

/-- The pages of the array hold the postings of a term. -/
def PostingsAt (s : PageArray) (termId : UInt32) : PostingPages → Prop
  | [] => True
  | (id, postings) :: rest =>
    (id < s.extent ∧ id < invalidPageId ∧
      ∃ page, s.Holds id page ∧ IsPostingPage page termId postings (PostingPages.firstId rest)) ∧
      PostingsAt s termId rest

namespace PostingsAt

variable {s t : PageArray} {termId : UInt32} {chain : PostingPages}

/-- Postings in pages that were not changed. -/
theorem evolves {changed : Set ℕ} (h : PostingsAt s termId chain) (hevolves : s.Evolves t changed)
    (hout : ∀ id ∈ chain.ids, id ∉ changed) : PostingsAt t termId chain := by
  induction chain with
  | nil => trivial
  | cons first rest ih =>
    obtain ⟨id, postings⟩ := first
    obtain ⟨⟨hextent, hvalid, page, hholds, hpage⟩, hrest⟩ := h
    refine ⟨⟨lt_of_lt_of_le hextent hevolves.extent, hvalid, page, ?_, hpage⟩, ih hrest ?_⟩
    · exact hevolves.holds hextent (hout id List.mem_cons_self) hholds
    · exact fun other hother => hout other (List.mem_cons_of_mem id hother)

/-- The pages of a term are valid and written, and hold their postings. -/
theorem page (h : PostingsAt s termId chain) {id : ℕ} {postings : List InvertedPosting}
    (hmem : (id, postings) ∈ chain) : id < s.extent ∧ id < invalidPageId ∧
      ∃ page next, s.Holds id page ∧ IsPostingPage page termId postings next := by
  induction chain with
  | nil => exact absurd hmem List.not_mem_nil
  | cons first rest ih =>
    obtain ⟨⟨hextent, hvalid, page, hholds, hpage⟩, hrest⟩ := h
    rw [List.mem_cons] at hmem
    obtain rfl | hmem := hmem
    · exact ⟨hextent, hvalid, page, _, hholds, hpage⟩
    · exact ih hrest hmem

/-- The first page of a term fits into 32 bits. -/
theorem firstId_lt (h : PostingsAt s termId chain) : chain.firstId < 2 ^ 32 := by
  cases chain with
  | nil => exact (by decide : invalidPageId < 2 ^ 32)
  | cons first rest => exact h.1.2.1.trans (by decide)

/-- A chain has no more pages than postings. -/
theorem length_le (h : PostingsAt s termId chain) : chain.length ≤ chain.contents.length := by
  induction chain with
  | nil => exact le_refl _
  | cons first rest ih =>
    obtain ⟨⟨-, -, page, -, hpage⟩, hrest⟩ := h
    rw [PageChain.contents_cons, List.length_append, List.length_cons]
    have hnonempty := hpage.nonempty
    have hlength := ih hrest
    omega

end PostingsAt

/-- The walk over the pages of a term. The ids along the chain decrease, so that no page is its
own successor. -/
theorem exec_getPostingsFrom {s : PageArray} (hidle : s.Idle) {termId : UInt32} {chain : PostingPages}
    (hpostings : PostingsAt s termId chain) (hlow : ∀ id ∈ chain.ids, 3 ≤ id)
    (hnext : ∀ id ∈ chain.ids, id < s.nextPageId) (hdescending : chain.ids.Pairwise (· > ·))
    (maxPostings : ℕ) {fuel : ℕ} (found : List InvertedPosting)
    (hfuel : min chain.length (maxPostings - found.length) < fuel)
    (hfound : found.length ≤ maxPostings) :
    arrayHandler.exec (getPostingsFrom maxPostings fuel chain.firstId found) s =
      some ((found ++ chain.contents).take maxPostings, s) := by
  induction chain generalizing fuel found with
  | nil =>
    cases fuel with
    | zero => exact absurd hfuel (Nat.not_lt_zero _)
    | succ fuel =>
      rw [PostingPages.firstId, getPostingsFrom,
        Handler.exec_bind_of_eq _ (PageArray.exec_nextPageId s), if_neg (fun h => h.1 rfl)]
      rw [PageChain.contents, List.flatMap_nil, List.append_nil, List.take_of_length_le hfound]
      rfl
  | cons first rest ih =>
    obtain ⟨id, postings⟩ := first
    obtain ⟨⟨hextent, hvalid, page, hholds, hpage⟩, hrest⟩ := hpostings
    rw [PageChain.ids_cons] at hlow hnext hdescending
    rw [List.pairwise_cons] at hdescending
    cases fuel with
    | zero => exact absurd hfuel (Nat.not_lt_zero _)
    | succ fuel =>
      rw [PostingPages.firstId, getPostingsFrom,
        Handler.exec_bind_of_eq _ (PageArray.exec_nextPageId s)]
      by_cases hroom : found.length < maxPostings
      swap
      · have hfull : found.length = maxPostings := le_antisymm hfound (not_lt.mp hroom)
        rw [if_neg (fun h => hroom h.2.2.2), ← hfull, List.take_left]
        rfl
      rw [if_pos ⟨hvalid.ne, hlow id List.mem_cons_self, hnext id List.mem_cons_self, hroom⟩,
        Handler.exec_bind_of_eq _ (PageArray.exec_fetchPage (hidle.fetchable hvalid))]
      simp only [Bool.not_true, Bool.false_eq_true, if_false]
      rw [Handler.exec_bind_of_eq _ (PageArray.exec_pageData (s.mem_pins_pin id) hholds)]
      have hcount := hpage.postingCount
      have hnonempty := hpage.nonempty
      have hfits := hpage.fits
      have hself : PostingPages.firstId rest ≠ id := by
        cases rest with
        | nil => exact hvalid.ne'
        | cons second rest => exact (hdescending.1 second.1 List.mem_cons_self).ne
      rw [if_neg (by omega),
        Handler.exec_bind_of_eq _ (PageArray.exec_unpinPage_clean hidle id .normal), hpage.next,
        if_neg hself, hpage.postings]
      have htaken : (found ++ postings.take (maxPostings - found.length)).length ≤ maxPostings := by
        rw [List.length_append, List.length_take]
        omega
      rw [ih hrest (fun other hother => hlow other (List.mem_cons_of_mem id hother))
        (fun other hother => hnext other (List.mem_cons_of_mem id hother)) hdescending.2 _ ?_ htaken]
      · have hrestTake : maxPostings - found.length - (postings.take (maxPostings - found.length)).length
            = maxPostings - found.length - postings.length := by
          rw [List.length_take]
          omega
        rw [PageChain.contents_cons, List.append_assoc, List.take_append, List.take_append,
          List.take_append, List.take_append, hrestTake, List.take_take, min_self]
      · rw [List.length_append, List.length_take]
        rw [List.length_cons] at hfuel
        omega

end FtsUring
