import FtsUring.Index.InvertedIndex
import FtsUring.Shard.DataPage
import FtsUring.Shard.Score
import FtsUring.Shard.Tombstone

/-!
# Shards

A shard owns a data file with a buffer pool, a log, a B-tree, and the counters for pages and
documents. Page 0 is the root of the B-tree, page 1 holds the tombstones, page 2 is the first
data page. The data pages, the leaves and the posting pages are taken from one counter, which
is part of the machine because the B-tree points to it; the other members of `UnifiedShard` are
passed explicitly.

A return code 0 is `true` and -1 is `false`; a shard whose initialisation fails is `none`.
-/

namespace FtsUring

open Foundation

/-- The members of a shard beside its pool, its log and its page counter. -/
structure Shard (F : Type) where
  activeDataPageId : ℕ
  nextDocId : UInt32
  totalDocs : UInt32
  sumDl : Vector F maxFtsFields
  avgdl : Vector F maxFtsFields

/-- `shard->tombstone_page_id`. -/
def tombstonePageId : ℕ := 1

/-- The page of the first data page. -/
def firstDataPageId : ℕ := 2

/-- What a metadata file restores. -/
structure ShardMetadata (F : Type) where
  totalDocs : UInt32
  nextDocId : UInt32
  nextPageId : UInt32
  sumDl : Vector F maxFtsFields
  avgdl : Vector F maxFtsFields

variable {F : Type} [Double F]

/-! ## Initialisation -/

/-- The pages of a shard whose data file is empty; false if a write fails. -/
def shardFormat : PageProgram Bool := do
  if !(← writeZeroPage btreeRootPageId) then return false
  if !(← writeZeroPage tombstonePageId) then return false
  if !(← writeZeroPage firstDataPageId) then return false
  if ← fetchPage tombstonePageId then
    modifyPage tombstonePageId fun _ => ftsTombstoneInit tombstonePageId
    unpinPage tombstonePageId true .normal
  if ← fetchPage firstDataPageId then
    modifyPage firstDataPageId fun _ => slottedPageInit firstDataPageId .vectorData
    unpinPage firstDataPageId true .normal
  setNextPageId 3
  return true

/-- The last data page up to a page id, if there is one from page 2 on. -/
def lastDataPage : ℕ → PageProgram (Option ℕ)
  | 0 => return none
  | pageId + 1 => do
    if pageId + 1 < firstDataPageId then return none
    if ← fetchPage (pageId + 1) then
      let page ← pageData (pageId + 1)
      unpinPage (pageId + 1) false .normal
      if page.pageType = PageType.vectorData.code then return some (pageId + 1)
    lastDataPage pageId

/-- The members of a shard before its statistics are restored. -/
def Shard.initial : Shard F where
  activeDataPageId := firstDataPageId
  nextDocId := 0
  totalDocs := 0
  sumDl := Vector.replicate maxFtsFields 0
  avgdl := Vector.replicate maxFtsFields (Double.ofUInt32 10)

/-- Restore the statistics of a shard. -/
def Shard.restore (shard : Shard F) (saved : ShardMetadata F) : Shard F :=
  { shard with
    nextDocId := saved.nextDocId
    totalDocs := saved.totalDocs
    sumDl := saved.sumDl
    avgdl := saved.avgdl }

/-- Open a shard over a data file of the given size, with the metadata file if there is one. -/
def shardInit (fileSize : ℕ) (saved : Option (ShardMetadata F)) : PageProgram (Option (Shard F)) := do
  if fileSize = 0 then
    if !(← shardFormat) then return none
  else setNextPageId (max 3 (fileSize / pageSize % 2 ^ 32))
  btreeInit btreeRootPageId
  let shard ← match saved with
    | none => pure Shard.initial
    | some saved => do
      setNextPageId saved.nextPageId.toNat
      pure (Shard.initial.restore saved)
  if fileSize = 0 then return some shard
  let next ← nextPageId
  match ← lastDataPage ((next + 2 ^ 32 - 1) % 2 ^ 32) with
  | none => return some shard
  | some pageId => return some { shard with activeDataPageId := pageId }

/-! ## Insertion -/

/-- Count a document in the statistics. -/
def Shard.countDocument (shard : Shard F) (dl : Vector UInt32 maxFtsFields) : Shard F :=
  let totalDocs := shard.totalDocs + 1
  let sumDl := Vector.ofFn fun i => shard.sumDl.get i + Double.ofUInt32 (dl.get i)
  { shard with totalDocs, sumDl, avgdl := sumDl.map fun sum => sum / Double.ofUInt32 totalDocs }

/-- Add the postings of the terms from a position on. -/
def addPostings (docId : UInt32) (pageId slotId : ℕ) : ℕ → List UInt32 → PageProgram Unit
  | _, [] => return ()
  | position, termId :: termIds => do
    let _ ← invertedIndexAddPosting termId docId pageId slotId (UInt32.ofNat position)
    addPostings docId pageId slotId (position + 1) termIds

/-- The end of an insertion: the record is the last one of the active page, which is pinned. -/
def shardIndexDocument (shard : Shard F) (doc : Document) (docId : UInt32) :
    PageProgram (Bool × Shard F) := do
  let page ← pageData shard.activeDataPageId
  let insertedSlotId := (page.slotCount + 2 ^ 16 - 1) % 2 ^ 16
  let insertedPageId := shard.activeDataPageId
  unpinPage shard.activeDataPageId true .normal
  addPostings docId insertedPageId insertedSlotId 0 doc.termIds
  let _ ← invertedIndexAddPosting 0 docId insertedPageId insertedSlotId 0
  return (true, shard.countDocument doc.dl)

/-- Insert a document. The results of adding the postings are not looked at. -/
def shardInsertDocument (shard : Shard F) (doc : Document) : PageProgram (Bool × Shard F) := do
  let docId := shard.nextDocId
  let tuple := (doc.record docId).encode
  let shard := { shard with nextDocId := docId + 1 }
  let _ ← walAppend 0 .recInsert (UInt32.ofNat shard.activeDataPageId) 0 tuple
  if !(← fetchPage shard.activeDataPageId) then return (false, shard)
  let page ← pageData shard.activeDataPageId
  if (slottedPageInsertTuple page tuple).1 then
    modifyPage shard.activeDataPageId fun page => (slottedPageInsertTuple page tuple).2
    shardIndexDocument shard doc docId
  else
    unpinPage shard.activeDataPageId false .normal
    let newPageId ← takePageId
    let shard := { shard with activeDataPageId := newPageId }
    if !(← writeZeroPage newPageId) then return (false, shard)
    if !(← fetchPage newPageId) then return (false, shard)
    modifyPage newPageId fun _ => slottedPageInit newPageId .vectorData
    modifyPage newPageId fun page => (slottedPageInsertTuple page tuple).2
    shardIndexDocument shard doc docId

/-! ## Deletion -/

/-- Delete a document. -/
def shardDeleteDocument (docId : UInt32) : PageProgram Bool := do
  if !(← fetchPage tombstonePageId) then return false
  modifyPage tombstonePageId fun page => ftsTombstoneMarkDeleted page docId
  let _ ← walAppend 0 .ftsTombstone (UInt32.ofNat tombstonePageId) 0 (leBytes 4 docId.toNat)
  unpinPage tombstonePageId true .normal
  return true

/-- Ask whether a document is deleted. -/
def shardIsDeleted (docId : UInt32) : PageProgram Bool := do
  if !(← fetchPage tombstonePageId) then return false
  let page ← pageData tombstonePageId
  unpinPage tombstonePageId false .normal
  return ftsTombstoneIsDeleted page docId

end FtsUring
