import FtsUring.Foundation.Monitor
import FtsUring.Index.InvertedIndex
import FtsUring.Storage.Pins

/-!
# The walk along a posting chain

The pages of a chain are any bytes, and their links may lead in circles. The walk ends all the same: it leaves a
page without postings, and every other page adds one of the at most `max_postings` that are asked for. A monitor
watches it: which pages are fetched, how many, and that only the page that is pinned is read.
-/

namespace FtsUring

open Foundation

/-! ## The copy loop -/

/-- The postings of a page are copied one by one; nothing is a posting behind the array. -/
def copyPostings (page : Page) (maxPostings : ℕ) :
    ℕ → ℕ → List InvertedPosting → Option (List InvertedPosting)
  | 0, _, found => some found
  | count + 1, i, found =>
    if found.length < maxPostings then
      if i < maxPostingsPerPage then copyPostings page maxPostings count (i + 1) (found ++ [page.posting i])
      else none
    else some found

/-- The copy loop stays in the array and copies what there is room for. -/
theorem copyPostings_eq (page : Page) (maxPostings : ℕ) {count i : ℕ} (h : i + count ≤ maxPostingsPerPage)
    (found : List InvertedPosting) :
    copyPostings page maxPostings count i found =
      some (found ++ ((List.range' i count).map page.posting).take (maxPostings - found.length)) := by
  induction count generalizing i found with
  | zero => simp [copyPostings]
  | succ count ih =>
    rw [copyPostings, List.range'_succ, List.map_cons]
    by_cases hroom : found.length < maxPostings
    · have hleft : maxPostings - found.length = maxPostings - (found ++ [page.posting i]).length + 1 := by
        rw [List.length_append, List.length_singleton]
        omega
      rw [if_pos hroom, if_pos (by omega), ih (by omega), hleft, List.take_succ_cons, List.append_assoc]
      rfl
    · have hfull : maxPostings - found.length = 0 := by omega
      rw [if_neg hroom, hfull, List.take_zero, List.append_nil]

/-- The walk with its copy loop; reading a posting behind the array of a page is no step of it. -/
def postingChainLoop (maxPostings : ℕ) : ℕ → ℕ → List InvertedPosting → PageProgram (List InvertedPosting)
  | 0, _, _ => .diverge
  | fuel + 1, currentPageId, found => do
    let nextPageId ← nextPageId
    if currentPageId ≠ invalidPageId ∧ 3 ≤ currentPageId ∧ currentPageId < nextPageId ∧
        found.length < maxPostings then
      if !(← fetchPage currentPageId) then return found
      let page ← pageData currentPageId
      if page.postingCount = 0 ∨ maxPostingsPerPage < page.postingCount then
        unpinPage currentPageId false .normal
        return found
      match copyPostings page maxPostings page.postingCount 0 found with
      | none => .diverge
      | some found =>
        unpinPage currentPageId false .normal
        if page.nextPostingPage = currentPageId then return found
        postingChainLoop maxPostings fuel page.nextPostingPage found
    else return found

/-- What a page adds. -/
theorem copyPostings_page (page : Page) (maxPostings : ℕ)
    (h : ¬(page.postingCount = 0 ∨ maxPostingsPerPage < page.postingCount)) (found : List InvertedPosting) :
    copyPostings page maxPostings page.postingCount 0 found =
      some (found ++ page.postings.take (maxPostings - found.length)) := by
  rw [not_or, not_lt] at h
  rw [copyPostings_eq page maxPostings (by omega), Page.postings, List.range_eq_range']

/-- The walk of the index is this one. -/
theorem getPostingsFrom_eq (maxPostings fuel id : ℕ) (found : List InvertedPosting) :
    getPostingsFrom maxPostings fuel id found = postingChainLoop maxPostings fuel id found := by
  induction fuel generalizing id found with
  | zero => rfl
  | succ fuel ih =>
    rw [getPostingsFrom, postingChainLoop]
    congr 1
    funext nextPageId
    split
    · congr 1
      funext fetched
      split
      · rfl
      · congr 1
        funext page
        split
        · rfl
        · next hcount =>
          rw [copyPostings_page page maxPostings hcount]
          dsimp only
          simp only [ih]
    · rfl

/-! ## The monitor -/

/-- What is known of a walk: the pages visited, the page counter, and the pinned page. -/
structure ChainVisits where
  visits : ℕ
  nextPageId : ℕ
  pinned : Option ℕ

/-- The walk fetches pages from 3 up to the page counter, reads the page that is pinned, and ends. -/
def chainMonitor : Monitor pageLanguage ChainVisits where
  allows
    | _, .nextPageId => True
    | g, .fetchPage pageId => pageId ≠ invalidPageId ∧ 3 ≤ pageId ∧ pageId < g.nextPageId
    | g, .pageData pageId => g.pinned = some pageId
    | g, .unpinPage pageId isDirty _ => g.pinned = some pageId ∧ isDirty = false
    | _, _ => False
  next
    | g, .nextPageId, value => { g with nextPageId := value }
    | g, .fetchPage pageId, fetched =>
      { g with visits := g.visits + 1, pinned := if fetched then some pageId else none }
    | g, .unpinPage _ _ _, _ => { g with pinned := none }
    | g, _, _ => g
  mayDiverge := False

/-- Every page that is left for the next one has added a posting. -/
theorem obeys_postingChainLoop (maxPostings : ℕ) {fuel id : ℕ} {found : List InvertedPosting} {g : ChainVisits}
    (hfound : found.length ≤ maxPostings) (hvisits : g.visits ≤ found.length)
    (hfuel : maxPostings < found.length + fuel) :
    (postingChainLoop maxPostings fuel id found).Obeys chainMonitor
      (fun found g => g.visits ≤ maxPostings ∧ found.length ≤ maxPostings) g := by
  induction fuel generalizing id found g with
  | zero => omega
  | succ fuel ih =>
    rw [postingChainLoop]
    refine .step trivial fun nextPageId => ?_
    split
    · next hpage =>
      refine .step ⟨hpage.1, hpage.2.1, hpage.2.2.1⟩ fun fetched => ?_
      have hvisit : g.visits + 1 ≤ maxPostings := by omega
      cases fetched with
      | false => exact .pure ⟨hvisit, hfound⟩
      | true =>
        refine .step rfl fun page => ?_
        split
        · exact .step ⟨rfl, rfl⟩ fun _ => .pure ⟨hvisit, hfound⟩
        · next hcount =>
          rw [copyPostings_page page maxPostings hcount]
          rw [not_or, not_lt] at hcount
          -- there is room for a posting, and the page has one
          have hlength : (found ++ page.postings.take (maxPostings - found.length)).length =
              found.length + min (maxPostings - found.length) page.postingCount := by
            simp [Page.postings]
          refine .step ⟨rfl, rfl⟩ fun _ => ?_
          split
          · exact .pure ⟨hvisit, by omega⟩
          · exact ih (by omega) (by rw [hlength]; change g.visits + 1 ≤ _; omega) (by omega)
    · exact .pure ⟨hvisits.trans hfound, hfound⟩

/-! ## The walk on a buffer pool -/

/-- The pool can be used, and the pinned page is in a frame. -/
structure ChainVisits.Follows (g : ChainVisits) (m : Machine) : Prop where
  operable : m.storage.bpm.Operable
  resident : ∀ pageId, g.pinned = some pageId → (m.storage.bpm.frameIndex pageId).isSome

/-- The pool answers what the walk asks. -/
theorem ChainVisits.Follows.accepts (command : PageCommand) (m : Machine) (g : ChainVisits) (h : g.Follows m)
    (hallows : chainMonitor.allows g command) :
    ∃ answer m', poolHandler.run command m = some (answer, m') ∧
      (chainMonitor.next g command answer).Follows m' := by
  cases command with
  | nextPageId => exact ⟨m.nextPageId, m, rfl, h.operable, h.resident⟩
  | fetchPage pageId =>
    have hfetch := h.operable.fetch (fetches_bufferPoolFetchPage h.operable.hand h.operable.small pageId)
    refine ⟨_, _, run_fetchPage m pageId, hfetch.1, fun pinned hpinned => ?_⟩
    simp only [chainMonitor, Option.ite_none_right_eq_some, Option.some.injEq] at hpinned
    exact hpinned.2 ▸ hfetch.2.1 hpinned.1
  | pageData pageId =>
    obtain ⟨i, hi⟩ := Option.isSome_iff_exists.mp (h.resident pageId hallows)
    refine ⟨(m.storage.bpm.frame i).pageData, m, ?_, h.operable, h.resident⟩
    change (m.storage.bpm.frameIndex pageId).map _ = _
    rw [hi, Option.map_some]
  | unpinPage pageId isDirty hint =>
    exact ⟨(), _, rfl, (h.operable.unpin pageId isDirty hint).1, fun pinned hpinned =>
      absurd hpinned.symm (Option.some_ne_none pinned)⟩
  | modifyPage pageId change => exact hallows.elim
  | writeZeroPage pageId => exact hallows.elim
  | walAttached => exact hallows.elim
  | walAppend txnId recType pageId slotId payload => exact hallows.elim
  | takePageId => exact hallows.elim
  | setNextPageId value => exact hallows.elim

/-- From any head page, on any pool and for any number of postings the walk ends after at most as many visits. It
fetches pages from 3 up to the page counter only, and reads postings in the array of a page only. -/
theorem getPostings_chain (m : Machine) (hpool : m.storage.bpm.Operable) (maxPostings : UInt32) (headPageId : ℕ) :
    getPostingsFrom maxPostings.toNat walkLimit headPageId [] =
        postingChainLoop maxPostings.toNat walkLimit headPageId [] ∧
      (chainMonitor.watch poolHandler).Ensures (getPostingsFrom maxPostings.toNat walkLimit headPageId [])
        (m, ⟨0, 0, none⟩) fun found t =>
          t.2.visits ≤ maxPostings.toNat ∧ found.length ≤ maxPostings.toNat := by
  have heq := getPostingsFrom_eq maxPostings.toNat walkLimit headPageId []
  have hfuel : maxPostings.toNat < ([] : List InvertedPosting).length + walkLimit := by
    rw [List.length_nil, Nat.zero_add]
    exact maxPostings.toNat_lt
  have hstart : ChainVisits.Follows ⟨0, 0, none⟩ m :=
    ⟨hpool, fun pageId hpinned => absurd hpinned.symm (Option.some_ne_none pageId)⟩
  have hobeys := @obeys_postingChainLoop maxPostings.toNat walkLimit headPageId [] ⟨0, 0, none⟩ (Nat.zero_le _)
    (le_refl 0) hfuel
  refine ⟨heq, ?_⟩
  rw [heq]
  exact (hobeys.ensures not_false ChainVisits.Follows.accepts hstart).mono fun found t h => h.1

/-- A pool with the pages 3 and 4, of two postings and one. Each links to the other. -/
def circularChain : Machine where
  storage :=
    { bpm := ⟨[⟨3, 0, false, postingPageImage 7 4 [⟨0, 2, 0, [0]⟩, ⟨1, 2, 1, [3]⟩]⟩,
        ⟨4, 0, false, postingPageImage 7 3 [⟨2, 2, 2, [5]⟩]⟩], 0, 3⟩
      wal := none
      host := Host.empty }
  nextPageId := 5

/-- A walk for five postings visits the two pages in turn until it has them. -/
theorem getPostings_chain_circular :
    (poolHandler.exec (getPostingsFrom 5 walkLimit 3 []) circularChain).map
        (fun result => result.1.map InvertedPosting.docId) = some [0, 1, 2, 0, 1] ∧
      getPostingsFrom 5 walkLimit 3 [] = postingChainLoop 5 walkLimit 3 [] ∧
      (chainMonitor.watch poolHandler).Ensures (getPostingsFrom 5 walkLimit 3 []) (circularChain, ⟨0, 0, none⟩)
        fun found t => t.2.visits ≤ 5 ∧ found.length ≤ 5 := by
  have hpool : circularChain.storage.bpm.Operable := ⟨.of_nodup (by decide), by decide, by decide⟩
  obtain ⟨heq, hensures⟩ := getPostings_chain circularChain hpool 5 3
  exact ⟨by decide +kernel, heq, hensures⟩

end FtsUring
