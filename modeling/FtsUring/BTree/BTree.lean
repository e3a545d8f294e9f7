import FtsUring.BTree.Leaf
import FtsUring.Storage.PageProgram

/-!
# The B-tree

The tree is a chain of leaves that starts at the root page: a full leaf is split by moving its
upper half to a new page behind it, and no internal nodes are built. The bytes of the tree are
in the pages of the pool; the functions are programs over the storage.

The `uint64_t` keys and the entries have their C widths, page ids are numbers. A `bool` with out
parameters is an option.
-/

namespace FtsUring

open Foundation

/-- Format the root page unless it is a B-tree page already. The dirty flag is passed through when
the page is left alone, which changes nothing. -/
def btreeInit (rootPageId : ℕ) : PageProgram Unit := do
  if ← fetchPage rootPageId then
    let page ← pageData rootPageId
    if page.pageType ≠ PageType.btreeLeaf.code ∧ page.pageType ≠ PageType.btreeInternal.code then
      modifyPage rootPageId fun _ => slottedPageComputeChecksum
        ((slottedPageInit rootPageId .btreeLeaf).setNextLeafId invalidPageId)
      unpinPage rootPageId true .normal
    else
      unpinPage rootPageId false .normal

/-- The walk of a search, from a page on. -/
def btreeSearchFrom (key : UInt64) : ℕ → ℕ → PageProgram (Option (ℕ × ℕ))
  | 0, _ => .diverge
  | fuel + 1, currPageId => do
    if currPageId = invalidPageId then return none
    if !(← fetchPage currPageId) then return none
    let page ← pageData currPageId
    if page.pageType = PageType.btreeInternal.code then
      unpinPage currPageId false .normal
      btreeSearchFrom key fuel (page.internalChild key)
    else if page.pageType = PageType.btreeLeaf.code then
      unpinPage currPageId false .normal
      match page.leafEntries.find? fun entry => entry.key = key with
      | some entry => return some (entry.pageId.toNat, entry.slotId.toNat)
      | none => btreeSearchFrom key fuel page.nextLeafId
    else
      unpinPage currPageId false .normal
      return none

/-- Look a key up: the page and the slot, or false. -/
def btreeSearch (rootPageId : ℕ) (key : UInt64) : PageProgram (Option (ℕ × ℕ)) :=
  btreeSearchFrom key walkLimit rootPageId

/-- Store the LSN of a log record in a page. -/
def stampPage (pageId : ℕ) (lsn : UInt64) : PageProgram Unit :=
  modifyPage pageId fun page => page.setLsn lsn

/-- Compute the checksum of a page. -/
def checksumPage (pageId : ℕ) : PageProgram Unit := modifyPage pageId slottedPageComputeChecksum

/-- Append a record to the log, if there is one, and store its LSN in pinned pages. -/
def logRecord (txnId : UInt32) (recType : WALRecordType) (pageId slotId : ℕ) (payload : List UInt8)
    (stamped : List ℕ) : PageProgram Unit := do
  if ← walAttached then
    let lsn ← walAppend txnId recType (UInt32.ofNat pageId) (UInt16.ofNat slotId) payload
    stamped.forM fun stampedId => stampPage stampedId lsn

/-- Move the upper half of a leaf to a new page behind it. The result of the zero write is not
looked at. -/
def splitLeafNode (leafPageId : ℕ) (txnId : UInt32) : PageProgram Unit := do
  if !(← fetchPage leafPageId) then return
  let newLeafId ← takePageId
  let _ ← writeZeroPage newLeafId
  if !(← fetchPage newLeafId) then
    unpinPage leafPageId false .normal
    return
  modifyPage newLeafId fun _ => slottedPageInit newLeafId .btreeLeaf
  let oldLeaf ← pageData leafPageId
  let mid := oldLeaf.slotCount / 2
  let moveCount := oldLeaf.slotCount - mid
  modifyPage newLeafId fun page =>
    (page.takeLeafEntries oldLeaf mid moveCount).setNextLeafId oldLeaf.nextLeafId
  modifyPage leafPageId fun page => (page.setSlotCount mid).setNextLeafId newLeafId
  let splitInfo := leBytes 8 leafPageId ++ leBytes 8 newLeafId
  logRecord txnId .btreeSplit leafPageId 0 splitInfo [leafPageId, newLeafId]
  checksumPage leafPageId
  checksumPage newLeafId
  unpinPage leafPageId true .normal
  unpinPage newLeafId true .normal

/-- The walk of an update, from a page on. -/
def btreeUpdateFrom (key : UInt64) (pageId : UInt32) (slotId : UInt16) :
    ℕ → ℕ → PageProgram Bool
  | 0, _ => .diverge
  | fuel + 1, currPageId => do
    if currPageId = invalidPageId then return false
    if !(← fetchPage currPageId) then return false
    let page ← pageData currPageId
    if page.pageType = PageType.btreeLeaf.code then
      match page.leafEntries.findIdx? fun entry => entry.key = key with
      | some i =>
        modifyPage currPageId fun page => page.setLeafEntry i ⟨key, pageId, slotId⟩
        checksumPage currPageId
        unpinPage currPageId true .normal
        return true
      | none =>
        unpinPage currPageId false .normal
        btreeUpdateFrom key pageId slotId fuel page.nextLeafId
    else
      unpinPage currPageId false .normal
      return false

/-- Assign the value of a key that is present. -/
def btreeUpdate (rootPageId : ℕ) (key : UInt64) (pageId : UInt32) (slotId : UInt16) :
    PageProgram Bool :=
  btreeUpdateFrom key pageId slotId walkLimit rootPageId

/-- The key belongs to a leaf further right: there is one, and the last key is below. -/
def Page.BelongsRight (page : Page) (key : UInt64) : Prop :=
  page.nextLeafId ≠ invalidPageId ∧ 0 < page.slotCount ∧
    (page.leafEntry (page.slotCount - 1)).key < key

instance (page : Page) (key : UInt64) : Decidable (page.BelongsRight key) :=
  inferInstanceAs (Decidable (_ ∧ _ ∧ _))

/-- Walk right from a pinned leaf to the leaf that a key belongs to; that leaf stays pinned. -/
def btreeMoveRight (key : UInt64) : ℕ → ℕ → PageProgram (Option ℕ)
  | 0, _ => .diverge
  | fuel + 1, currPageId => do
    let leaf ← pageData currPageId
    if leaf.BelongsRight key then
      unpinPage currPageId false .normal
      if !(← fetchPage leaf.nextLeafId) then return none
      btreeMoveRight key fuel leaf.nextLeafId
    else return some currPageId

/-- Split a pinned leaf if it is full; the result is the pinned leaf that the key belongs to
afterwards. -/
def btreeMakeRoom (key : UInt64) (currPageId : ℕ) (txnId : UInt32) : PageProgram (Option ℕ) := do
  let leaf ← pageData currPageId
  if btreeMaxLeafEntries ≤ leaf.slotCount then
    unpinPage currPageId false .normal
    splitLeafNode currPageId txnId
    if !(← fetchPage currPageId) then return none
    let leaf ← pageData currPageId
    if leaf.BelongsRight key then
      unpinPage currPageId false .normal
      if !(← fetchPage leaf.nextLeafId) then return none
      return some leaf.nextLeafId
    else return some currPageId
  else return some currPageId

/-- Insert an entry into a pinned leaf and release it. -/
def btreeInsertEntry (entry : BTreeLeafEntry) (currPageId : ℕ) (txnId : UInt32) :
    PageProgram Unit := do
  let leaf ← pageData currPageId
  let insertIdx := leaf.leafInsertIdx entry.key
  modifyPage currPageId fun page => page.insertLeafEntry insertIdx entry
  logRecord txnId .recInsert currPageId insertIdx (leBytes 8 entry.key.toNat) [currPageId]
  checksumPage currPageId
  unpinPage currPageId true .normal

/-- Insert a key, or fail when a page cannot be pinned or the root is not a leaf. -/
def btreeInsert (rootPageId : ℕ) (key : UInt64) (pageId : UInt32) (slotId : UInt16)
    (txnId : UInt32) : PageProgram Bool := do
  if !(← fetchPage rootPageId) then return false
  let page ← pageData rootPageId
  if page.pageType ≠ PageType.btreeLeaf.code then
    unpinPage rootPageId false .normal
    return false
  match ← btreeMoveRight key walkLimit rootPageId with
  | none => return false
  | some currPageId =>
    match ← btreeMakeRoom key currPageId txnId with
    | none => return false
    | some currPageId =>
      btreeInsertEntry ⟨key, pageId, slotId⟩ currPageId txnId
      return true

end FtsUring
