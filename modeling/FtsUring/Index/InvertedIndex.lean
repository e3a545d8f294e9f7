import FtsUring.BTree.BTree
import FtsUring.Index.PostingPage

/-!
# The inverted index

The B-tree of a shard maps a term id to the first page of the term's postings. A posting is added
to the first page; when that is full a new page is put in front of it and the B-tree is
re-pointed.

A return code 0 is `true`, and -1 is `false`. The number of postings that is returned together
with an output array is the length of a list.
-/

namespace FtsUring

open Foundation

/-- The root page of the B-tree of a shard. -/
def btreeRootPageId : ℕ := 0

/-- Add an occurrence of a term in a document. The results of the calls that change the B-tree
are not looked at. -/
def invertedIndexAddPosting (termId docId : UInt32) (dataPageId dataSlotId : ℕ)
    (termPosition : UInt32) : PageProgram Bool := do
  match ← btreeSearch btreeRootPageId termId.toUInt64 with
  | some (postingPageId, _) =>
    if !(← fetchPage postingPageId) then return false
    let page ← pageData postingPageId
    if 0 < page.postingCount ∧ (page.posting (page.postingCount - 1)).docId = docId then
      modifyPage postingPageId fun page => page.addPosition termPosition
      unpinPage postingPageId true .normal
      return true
    if page.postingCount < maxPostingsPerPage then
      modifyPage postingPageId fun page =>
        page.addPosting docId dataPageId dataSlotId termPosition
      unpinPage postingPageId true .normal
      return true
    let newPageId ← takePageId
    if !(← writeZeroPage newPageId) then
      unpinPage postingPageId false .normal
      return false
    if !(← fetchPage newPageId) then
      unpinPage postingPageId false .normal
      return false
    modifyPage newPageId fun page =>
      page.newPostingPage termId postingPageId docId dataPageId dataSlotId termPosition
    -- both pages are released before the tree needs frames
    unpinPage postingPageId false .normal
    unpinPage newPageId true .normal
    let _ ← btreeUpdate btreeRootPageId termId.toUInt64 (UInt32.ofNat newPageId) 0
    return true
  | none =>
    let newPageId ← takePageId
    if !(← writeZeroPage newPageId) then return false
    if !(← fetchPage newPageId) then return false
    modifyPage newPageId fun page =>
      page.newPostingPage termId invalidPageId docId dataPageId dataSlotId termPosition
    unpinPage newPageId true .normal
    let _ ← btreeInsert btreeRootPageId termId.toUInt64 (UInt32.ofNat newPageId) 0 0
    return true

/-- The walk over the pages of a term. Every page that is visited adds a posting, so that a
32-bit `max_postings` ends the walk. -/
def getPostingsFrom (maxPostings : ℕ) :
    ℕ → ℕ → List InvertedPosting → PageProgram (List InvertedPosting)
  | 0, _, _ => .diverge
  | fuel + 1, currentPageId, found => do
    let nextPageId ← nextPageId
    if currentPageId ≠ invalidPageId ∧ 3 ≤ currentPageId ∧ currentPageId < nextPageId ∧
        found.length < maxPostings then
      if !(← fetchPage currentPageId) then return found
      let page ← pageData currentPageId
      if page.postingCount = 0 ∨ maxPostingsPerPage < page.postingCount then
        unpinPage currentPageId false .normal
        return found
      let found := found ++ page.postings.take (maxPostings - found.length)
      unpinPage currentPageId false .normal
      if page.nextPostingPage = currentPageId then return found
      getPostingsFrom maxPostings fuel page.nextPostingPage found
    else return found

/-- The postings of a term, at most `maxPostings` of them. -/
def invertedIndexGetPostings (termId : UInt32) (maxPostings : ℕ) :
    PageProgram (List InvertedPosting) := do
  match ← btreeSearch btreeRootPageId termId.toUInt64 with
  | some (postingPageId, _) => getPostingsFrom maxPostings walkLimit postingPageId []
  | none => return []

end FtsUring
