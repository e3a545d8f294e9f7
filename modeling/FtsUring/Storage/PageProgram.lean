import FtsUring.Foundation.Program
import FtsUring.Storage.BufferPool

/-!
# Programs over the buffer pool

The B-tree, the inverted index and the shard use the storage through a few calls: they pin
pages, read and change the pinned buffers, unpin them, write a zero page behind the pool's
back when they allocate one, append log records, and take page ids from the shard's counter.
Those calls are the commands of `pageLanguage`, and the upper layers are programs over it.

A `Frame *` that a program holds is named by the page id it was fetched for: the frame stays
with that page for as long as the page is pinned.
-/

namespace FtsUring

open Foundation

/-- The calls that the upper layers make. -/
inductive PageCommand
  /-- `buffer_pool_fetch_page`; the answer says whether the result is not NULL. -/
  | fetchPage (pageId : ℕ)
  /-- Read `f->page_data`. -/
  | pageData (pageId : ℕ)
  /-- Change `f->page_data`. -/
  | modifyPage (pageId : ℕ) (change : Page → Page)
  /-- `buffer_pool_unpin_page`. -/
  | unpinPage (pageId : ℕ) (isDirty : Bool) (hint : BufferPoolHint)
  /-- `fts_vfs_write_sync` of a zero page; the answer says whether the result is not negative. -/
  | writeZeroPage (pageId : ℕ)
  /-- `bpm->wal != NULL`. -/
  | walAttached
  /-- `wal_append_record`. -/
  | walAppend (txnId : UInt32) (recType : WALRecordType) (pageId : UInt32) (slotId : UInt16)
      (payload : List UInt8)
  /-- `next_page_id++`. -/
  | takePageId
  /-- `next_page_id`. -/
  | nextPageId
  /-- Assign `next_page_id`. -/
  | setNextPageId (value : ℕ)

/-- The answers to the calls. -/
abbrev PageCommand.Answer : PageCommand → Type
  | .fetchPage _ => Bool
  | .pageData _ => Page
  | .modifyPage _ _ => Unit
  | .unpinPage _ _ _ => Unit
  | .writeZeroPage _ => Bool
  | .walAttached => Bool
  | .walAppend _ _ _ _ _ => UInt64
  | .takePageId => ℕ
  | .nextPageId => ℕ
  | .setNextPageId _ => Unit

/-- The language of the upper layers. -/
abbrev pageLanguage : CommandLanguage := ⟨PageCommand, PageCommand.Answer⟩

/-- A program of the upper layers. -/
abbrev PageProgram (α : Type) : Type := Program pageLanguage α

/-- `buffer_pool_fetch_page`. -/
def fetchPage (pageId : ℕ) : PageProgram Bool := Program.perform (L := pageLanguage) (.fetchPage pageId)

/-- Read a pinned page. -/
def pageData (pageId : ℕ) : PageProgram Page := Program.perform (L := pageLanguage) (.pageData pageId)

/-- Change a pinned page. -/
def modifyPage (pageId : ℕ) (change : Page → Page) : PageProgram Unit :=
  Program.perform (L := pageLanguage) (.modifyPage pageId change)

/-- `buffer_pool_unpin_page`. -/
def unpinPage (pageId : ℕ) (isDirty : Bool) (hint : BufferPoolHint) : PageProgram Unit :=
  Program.perform (L := pageLanguage) (.unpinPage pageId isDirty hint)

/-- Write a zero page to the data file. -/
def writeZeroPage (pageId : ℕ) : PageProgram Bool :=
  Program.perform (L := pageLanguage) (.writeZeroPage pageId)

/-- Ask whether the pool has a log. -/
def walAttached : PageProgram Bool := Program.perform (L := pageLanguage) .walAttached

/-- Append a record to the log. -/
def walAppend (txnId : UInt32) (recType : WALRecordType) (pageId : UInt32) (slotId : UInt16)
    (payload : List UInt8) : PageProgram UInt64 :=
  Program.perform (L := pageLanguage) (.walAppend txnId recType pageId slotId payload)

/-- `next_page_id++`. -/
def takePageId : PageProgram ℕ := Program.perform (L := pageLanguage) .takePageId

/-- `next_page_id`. -/
def nextPageId : PageProgram ℕ := Program.perform (L := pageLanguage) .nextPageId

/-- Assign `next_page_id`. -/
def setNextPageId (value : ℕ) : PageProgram Unit :=
  Program.perform (L := pageLanguage) (.setNextPageId value)

/-- The bound on the page walks. A walk that visits more pages than there are page ids has come
back to one; as it changes no page, it goes on for ever. -/
def walkLimit : ℕ := 2 ^ 32

/-! ## The machine -/

/-- The storage together with the shard's page counter, which the B-tree points to. -/
structure Machine where
  storage : Storage
  nextPageId : ℕ

/-- Replace one frame. -/
def Machine.setFrame (m : Machine) (i : ℕ) (frame : Frame) : Machine :=
  { m with storage := { m.storage with bpm := m.storage.bpm.setFrame i frame } }

/-- The calls over a buffer pool. A buffer that is not in the pool cannot be used. -/
def poolHandler : Handler pageLanguage Machine where
  run
    | .fetchPage pageId, m =>
      let (frame, storage) := bufferPoolFetchPage m.storage pageId
      some (frame.isSome, { m with storage })
    | .pageData pageId, m =>
      (m.storage.bpm.frameIndex pageId).map fun i => ((m.storage.bpm.frame i).pageData, m)
    | .modifyPage pageId change, m =>
      (m.storage.bpm.frameIndex pageId).map fun i =>
        let frame := m.storage.bpm.frame i
        ((), m.setFrame i { frame with pageData := change frame.pageData })
    | .unpinPage pageId isDirty hint, m =>
      some ((), { m with storage := bufferPoolUnpinPage m.storage pageId isDirty hint })
    | .writeZeroPage pageId, m =>
      if m.storage.bpm.diskFd < 0 then some (false, m)
      else
        let (res, host) := ftsVfsWriteSync m.storage.host Page.zero.bytes (pageId * pageSize)
        some (decide (0 ≤ res), { m with storage := { m.storage with host } })
    | .walAttached, m => some (m.storage.wal.isSome, m)
    | .walAppend txnId recType pageId slotId payload, m =>
      m.storage.wal.map fun wal =>
        let (lsn, wal, host) := walAppendRecord wal m.storage.host txnId recType pageId slotId
          (some payload) (UInt32.ofNat payload.length)
        (lsn, { m with storage := { m.storage with wal := some wal, host } })
    | .takePageId, m => some (m.nextPageId, { m with nextPageId := (m.nextPageId + 1) % 2 ^ 32 })
    | .nextPageId, m => some (m.nextPageId, m)
    | .setNextPageId value, m => some ((), { m with nextPageId := value % 2 ^ 32 })

end FtsUring
