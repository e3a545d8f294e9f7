import FtsUring.Storage.PageProgram
import Mathlib.Data.Set.Image

/-!
# A plain array of pages

What the upper layers rely on, without frames, disk and eviction: an array of pages that are
read and changed while they are pinned. `arrayHandler` gives the calls of `pageLanguage` this
meaning. It accepts only programs that use the pool properly: at most `room` pages are pinned
at once, a changed page is unpinned dirty, and a page is read only when its content is
certain.

The content of a page is the set of the buffers that a fetch may find. Two things make it
uncertain. A page that is zeroed in the file may still be cached with its old content, so
both are possible until the page is overwritten. And pages beyond the end of the file read as
empty row pages until a write further out turns them into zeroes; such a gap may hold anything.
-/

namespace FtsUring

open Foundation

/-- The array, and what else the calls depend on. -/
structure PageArray where
  /-- The buffers that a fetch of the page may find. -/
  content : ℕ → Set Page
  /-- No page from here on was ever written. -/
  extent : ℕ
  /-- The pages that are pinned, once for each pin. -/
  pins : List ℕ
  /-- The pages that were changed and not yet unpinned dirty. -/
  touched : Set ℕ
  /-- The number of pages that can be pinned at once. -/
  room : ℕ
  wal : Option WALManager
  walFile : List UInt8
  nextPageId : ℕ

namespace PageArray

/-- The content of a page is certain. -/
def Holds (s : PageArray) (pageId : ℕ) (page : Page) : Prop := s.content pageId = {page}

/-- The page may be pinned once more. -/
def Fetchable (s : PageArray) (pageId : ℕ) : Prop :=
  pageId < invalidPageId ∧ (pageId ∈ s.pins ∨ s.pins.dedup.length < s.room) ∧
    s.pins.length + 1 < 2 ^ 32

/-- Pin a page. -/
def pin (s : PageArray) (pageId : ℕ) : PageArray := { s with pins := pageId :: s.pins }

/-- Release a pin. -/
def unpin (s : PageArray) (pageId : ℕ) (isDirty : Bool) : PageArray :=
  { s with
    pins := s.pins.erase pageId
    touched := if isDirty then s.touched \ {pageId} else s.touched }

/-- Count a page among the written ones; the pages that this skips may hold anything. -/
def extend (s : PageArray) (pageId : ℕ) : PageArray :=
  { s with
    content := fun other => if s.extent ≤ other ∧ other < pageId then Set.univ else s.content other
    extent := max s.extent (pageId + 1) }

/-- Give a pinned page a new content. -/
def change (s : PageArray) (pageId : ℕ) (page : Page) : PageArray :=
  { s.extend pageId with
    content := Function.update (s.extend pageId).content pageId {page}
    touched := insert pageId s.touched }

/-- Zero a page in the file. -/
def zeroOnDisk (s : PageArray) (pageId : ℕ) : PageArray :=
  { s.extend pageId with
    content := Function.update (s.extend pageId).content pageId (insert Page.zero (s.content pageId)) }

/-- Written pages keep their content when another page is written. -/
theorem content_extend_of_lt (s : PageArray) {pageId other : ℕ} (hother : other < s.extent) :
    (s.extend pageId).content other = s.content other :=
  if_neg fun hgap => absurd hother (not_lt.mpr hgap.1)

/-- Pages from the written one on keep their content. -/
theorem content_extend_of_le (s : PageArray) {pageId other : ℕ} (hother : pageId ≤ other) :
    (s.extend pageId).content other = s.content other :=
  if_neg fun hgap => absurd hgap.2 (not_lt.mpr hother)

/-- The pages in between may hold anything. -/
theorem content_extend_of_gap (s : PageArray) {pageId other : ℕ} (hlow : s.extent ≤ other)
    (hhigh : other < pageId) : (s.extend pageId).content other = Set.univ :=
  if_pos ⟨hlow, hhigh⟩

/-- Writing another page rules no content out. -/
theorem subset_content_extend (s : PageArray) (pageId other : ℕ) :
    s.content other ⊆ (s.extend pageId).content other := by
  by_cases hgap : s.extent ≤ other ∧ other < pageId
  · rw [content_extend_of_gap s hgap.1 hgap.2]
    exact Set.subset_univ _
  · exact (if_neg hgap : (s.extend pageId).content other = s.content other).symm.subset

/-- The changed page. -/
theorem content_change_self (s : PageArray) (pageId : ℕ) (page : Page) :
    (s.change pageId page).content pageId = {page} :=
  Function.update_self _ _ _

/-- The pages that were not changed. -/
theorem content_change_of_ne (s : PageArray) {pageId other : ℕ} (hother : other ≠ pageId)
    (page : Page) : (s.change pageId page).content other = (s.extend pageId).content other :=
  Function.update_of_ne hother _ _

/-- The zeroed page. -/
theorem content_zeroOnDisk_self (s : PageArray) (pageId : ℕ) :
    (s.zeroOnDisk pageId).content pageId = insert Page.zero (s.content pageId) :=
  Function.update_self _ _ _

/-- The pages that were not zeroed. -/
theorem content_zeroOnDisk_of_ne (s : PageArray) {pageId other : ℕ} (hother : other ≠ pageId) :
    (s.zeroOnDisk pageId).content other = (s.extend pageId).content other :=
  Function.update_of_ne hother _ _

/-- Append to the log, which does not fail. -/
def append (s : PageArray) (wal : WALManager) (txnId : UInt32) (recType : WALRecordType)
    (pageId : UInt32) (slotId : UInt16) (payload : List UInt8) : UInt64 × PageArray :=
  let (lsn, wal, host) := walAppendRecord wal { Host.empty with walFile := s.walFile } txnId recType
    pageId slotId (some payload) (UInt32.ofNat payload.length)
  (lsn, { s with wal := some wal, walFile := host.walFile })

end PageArray

open Classical in
/-- The calls over the plain array. -/
noncomputable def arrayHandler : Handler pageLanguage PageArray where
  run
    | .fetchPage pageId, s => if s.Fetchable pageId then some (true, s.pin pageId) else none
    | .pageData pageId, s =>
      if h : ∃ page, pageId ∈ s.pins ∧ s.Holds pageId page then some (h.choose, s) else none
    | .modifyPage pageId change, s =>
      if h : ∃ page, pageId ∈ s.pins ∧ change '' s.content pageId = {page} then
        some ((), s.change pageId h.choose)
      else none
    | .unpinPage pageId isDirty _, s =>
      if pageId ∈ s.pins ∧ (pageId ∈ s.touched → isDirty) ∧ (isDirty → pageId < s.extent) then
        some ((), s.unpin pageId isDirty)
      else none
    | .writeZeroPage pageId, s => some (true, s.zeroOnDisk pageId)
    | .walAttached, s => some (s.wal.isSome, s)
    | .walAppend txnId recType pageId slotId payload, s =>
      s.wal.map fun wal => s.append wal txnId recType pageId slotId payload
    | .takePageId, s =>
      if s.nextPageId < invalidPageId then
        some (s.nextPageId, { s with nextPageId := s.nextPageId + 1 })
      else none
    | .nextPageId, s => some (s.nextPageId, s)
    | .setNextPageId value, s =>
      if value < 2 ^ 32 then some ((), { s with nextPageId := value }) else none

/-! ## Running the calls -/

namespace PageArray

variable {s : PageArray} {pageId : ℕ}

/-- Fetching a page. -/
theorem exec_fetchPage (h : s.Fetchable pageId) :
    arrayHandler.exec (fetchPage pageId) s = some (true, s.pin pageId) := by
  rw [fetchPage, Handler.exec_perform]
  exact if_pos h

/-- Reading a pinned page. -/
theorem exec_pageData {page : Page} (hpin : pageId ∈ s.pins) (hholds : s.Holds pageId page) :
    arrayHandler.exec (pageData pageId) s = some (page, s) := by
  have hexists : ∃ page, pageId ∈ s.pins ∧ s.Holds pageId page := ⟨page, hpin, hholds⟩
  have hsame : hexists.choose = page :=
    Set.singleton_injective (hexists.choose_spec.2.symm.trans hholds)
  rw [pageData, Handler.exec_perform]
  simp only [arrayHandler, dif_pos hexists, hsame]

/-- Changing a pinned page. -/
theorem exec_modifyPage {change : Page → Page} {page : Page} (hpin : pageId ∈ s.pins)
    (hchange : change '' s.content pageId = {page}) :
    arrayHandler.exec (modifyPage pageId change) s = some ((), s.change pageId page) := by
  have hexists : ∃ page, pageId ∈ s.pins ∧ change '' s.content pageId = {page} :=
    ⟨page, hpin, hchange⟩
  have hsame : hexists.choose = page :=
    Set.singleton_injective (hexists.choose_spec.2.symm.trans hchange)
  rw [modifyPage, Handler.exec_perform]
  simp only [arrayHandler, dif_pos hexists, hsame]

/-- Changing a pinned page whose content is certain. -/
theorem exec_modifyPage_of_holds {page : Page} (hpin : pageId ∈ s.pins)
    (hholds : s.Holds pageId page) (change : Page → Page) :
    arrayHandler.exec (modifyPage pageId change) s = some ((), s.change pageId (change page)) := by
  apply exec_modifyPage hpin
  rw [hholds, Set.image_singleton]

/-- Releasing a pin. -/
theorem exec_unpinPage {isDirty : Bool} (hpin : pageId ∈ s.pins)
    (htouched : pageId ∈ s.touched → isDirty) (hextent : isDirty → pageId < s.extent)
    (hint : BufferPoolHint) :
    arrayHandler.exec (unpinPage pageId isDirty hint) s = some ((), s.unpin pageId isDirty) := by
  rw [unpinPage, Handler.exec_perform]
  exact if_pos ⟨hpin, htouched, hextent⟩

/-- Zeroing a page in the file. -/
theorem exec_writeZeroPage (s : PageArray) (pageId : ℕ) :
    arrayHandler.exec (writeZeroPage pageId) s = some (true, s.zeroOnDisk pageId) := by
  rw [writeZeroPage, Handler.exec_perform]
  rfl

/-- Asking for the log. -/
theorem exec_walAttached (s : PageArray) :
    arrayHandler.exec walAttached s = some (s.wal.isSome, s) := by
  rw [walAttached, Handler.exec_perform]
  rfl

/-- Appending to the log. -/
theorem exec_walAppend {wal : WALManager} (hwal : s.wal = some wal) (txnId : UInt32)
    (recType : WALRecordType) (logPageId : UInt32) (slotId : UInt16) (payload : List UInt8) :
    arrayHandler.exec (walAppend txnId recType logPageId slotId payload) s =
      some (s.append wal txnId recType logPageId slotId payload) := by
  rw [walAppend, Handler.exec_perform]
  simp only [arrayHandler, hwal, Option.map_some]

/-- Taking a page id. -/
theorem exec_takePageId (h : s.nextPageId < invalidPageId) :
    arrayHandler.exec takePageId s =
      some (s.nextPageId, { s with nextPageId := s.nextPageId + 1 }) := by
  rw [takePageId, Handler.exec_perform]
  exact if_pos h

/-- Reading the page counter. -/
theorem exec_nextPageId (s : PageArray) :
    arrayHandler.exec FtsUring.nextPageId s = some (s.nextPageId, s) := by
  rw [FtsUring.nextPageId, Handler.exec_perform]
  rfl

/-- Assigning the page counter. -/
theorem exec_setNextPageId {value : ℕ} (h : value < 2 ^ 32) :
    arrayHandler.exec (FtsUring.setNextPageId value) s =
      some ((), { s with nextPageId := value }) := by
  rw [FtsUring.setNextPageId, Handler.exec_perform]
  exact if_pos h

end PageArray

end FtsUring
