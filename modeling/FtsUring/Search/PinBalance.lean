import FtsUring.Foundation.Monitor
import FtsUring.Search.Indexed
import FtsUring.Storage.Pins
import Mathlib.Data.Multiset.Count

/-!
# Every call releases its pins

A pin is released by page id, on every path through a function. A monitor counts the pins that a function holds:
it pins at most two pages at once, uses a page only while it holds it, and holds nothing when it returns. On a
pool the pins of a page are then the same before and after, if the counter of a page has room for two more.
-/

namespace FtsUring

open Foundation

variable {α β : Type}

/-! ## The monitor -/

/-- Pages are read, changed and released while they are held, and at most `limit` pins are held at once. -/
def pinMonitor (limit : ℕ) : Monitor pageLanguage (Multiset ℕ) where
  allows
    | held, .fetchPage _ => held.card < limit
    | held, .pageData pageId => pageId ∈ held
    | held, .modifyPage pageId _ => pageId ∈ held
    | held, .unpinPage pageId _ _ => pageId ∈ held
    | _, _ => True
  next
    | held, .fetchPage pageId, fetched => if fetched then pageId ::ₘ held else held
    | held, .unpinPage pageId _ _, _ => held.erase pageId
    | held, _, _ => held
  mayDiverge := True

/-- A program that never has more than so many pins of its own, and returns without any. -/
def Balanced (depth : ℕ) (p : PageProgram α) : Prop :=
  ∀ limit held, held.card + depth ≤ limit → p.Obeys (pinMonitor limit) (fun _ after => after = held) held

section Steps

variable {limit depth pageId : ℕ} {held : Multiset ℕ} {post : α → Multiset ℕ → Prop}

/-- A fetch pins the page, or fails. -/
theorem obeys_fetchPage {f : Bool → PageProgram α} (hroom : held.card < limit)
    (hnull : (f false).Obeys (pinMonitor limit) post held)
    (hpinned : (f true).Obeys (pinMonitor limit) post (pageId ::ₘ held)) :
    (fetchPage pageId >>= f).Obeys (pinMonitor limit) post held := by
  refine .step hroom fun fetched => ?_
  cases fetched with
  | false => exact hnull
  | true => exact hpinned

/-- Reading a page that is held. -/
theorem obeys_pageData {f : Page → PageProgram α}
    (hf : ∀ page, (f page).Obeys (pinMonitor limit) post (pageId ::ₘ held)) :
    (pageData pageId >>= f).Obeys (pinMonitor limit) post (pageId ::ₘ held) :=
  .step (Multiset.mem_cons_self pageId held) hf

/-- Changing a page that is held. -/
theorem obeys_modifyPage {f : Unit → PageProgram α} (hmem : pageId ∈ held) (change : Page → Page)
    (hf : (f ()).Obeys (pinMonitor limit) post held) :
    (modifyPage pageId change >>= f).Obeys (pinMonitor limit) post held :=
  .step hmem fun _ => hf

/-- Releasing a page that is held. -/
theorem obeys_unpinPage {f : Unit → PageProgram α} (isDirty : Bool) (hint : BufferPoolHint)
    (hf : (f ()).Obeys (pinMonitor limit) post held) :
    (unpinPage pageId isDirty hint >>= f).Obeys (pinMonitor limit) post (pageId ::ₘ held) := by
  refine .step (Multiset.mem_cons_self pageId held) fun _ => ?_
  change (f ()).Obeys _ _ ((pageId ::ₘ held).erase pageId)
  rw [Multiset.erase_cons_head]
  exact hf

/-- Releasing a page as the last step. -/
theorem obeys_unpinPage_last (isDirty : Bool) (hint : BufferPoolHint) :
    (unpinPage pageId isDirty hint).Obeys (pinMonitor limit) (fun _ after => after = held) (pageId ::ₘ held) :=
  .perform (Multiset.mem_cons_self pageId held) fun _ => Multiset.erase_cons_head pageId held

/-- A command that neither uses nor pins a page. -/
theorem obeys_other {command : PageCommand} {f : command.Answer → PageProgram α}
    (hallows : (pinMonitor limit).allows held command)
    (hnext : ∀ answer, (pinMonitor limit).next held command answer = held)
    (hf : ∀ answer, (f answer).Obeys (pinMonitor limit) post held) :
    (Program.perform (L := pageLanguage) command >>= f).Obeys (pinMonitor limit) post held :=
  .step hallows fun answer => (hnext answer).symm ▸ hf answer

/-- A balanced part of a program. -/
theorem Balanced.step {p : PageProgram β} (hp : Balanced depth p) (hroom : held.card + depth ≤ limit)
    {f : β → PageProgram α} (hf : ∀ value, (f value).Obeys (pinMonitor limit) post held) :
    (p >>= f).Obeys (pinMonitor limit) post held :=
  (hp limit held hroom).bind fun value _ hsame => hsame ▸ hf value

end Steps

section Rules

variable {depth more : ℕ}

/-- A finished program. -/
theorem Balanced.pure (value : α) : Balanced depth (Pure.pure value : PageProgram α) := fun _ _ _ => .pure rfl

/-- A program that does not end. -/
theorem Balanced.diverge : Balanced depth (.diverge : PageProgram α) := fun _ _ _ => trivial

/-- Sequencing. -/
theorem Balanced.bind {p : PageProgram β} {f : β → PageProgram α} (hp : Balanced depth p)
    (hf : ∀ value, Balanced depth (f value)) : Balanced depth (p >>= f) :=
  fun limit held hroom => hp.step hroom fun value => hf value limit held hroom

/-- Allowing more pins. -/
theorem Balanced.mono {p : PageProgram α} (hp : Balanced depth p) (h : depth ≤ more) : Balanced more p :=
  fun limit held hroom => hp limit held (by omega)

/-- A loop over a list. -/
theorem Balanced.foldlM {γ : Type} {f : β → γ → PageProgram β} (hf : ∀ acc x, Balanced depth (f acc x))
    (init : β)
    (xs : List γ) : Balanced depth (xs.foldlM f init) := by
  induction xs generalizing init with
  | nil => exact .pure init
  | cons x rest ih =>
    rw [List.foldlM_cons]
    exact (hf init x).bind fun acc => ih acc

end Rules

/-! ## The B-tree -/

/-- Formatting the root page. -/
theorem balanced_btreeInit (rootPageId : ℕ) : Balanced 1 (btreeInit rootPageId) := by
  intro limit held hroom
  refine obeys_fetchPage (by omega) (.pure rfl) (obeys_pageData fun page => ?_)
  split
  · exact obeys_modifyPage (Multiset.mem_cons_self _ _) _ (obeys_unpinPage_last true .normal)
  · exact obeys_unpinPage_last false .normal

/-- The walk of a search. -/
theorem balanced_btreeSearchFrom (key : UInt64) (fuel currPageId : ℕ) :
    Balanced 1 (btreeSearchFrom key fuel currPageId) := by
  induction fuel generalizing currPageId with
  | zero => exact .diverge
  | succ fuel ih =>
    intro limit held hroom
    rw [btreeSearchFrom]
    split
    · exact .pure rfl
    · refine obeys_fetchPage (by omega) (.pure rfl) (obeys_pageData fun page => ?_)
      split
      · exact obeys_unpinPage false .normal (ih _ limit held hroom)
      · split
        · refine obeys_unpinPage false .normal ?_
          cases page.leafEntries.find? fun entry => entry.key = key with
          | none => exact ih _ limit held hroom
          | some entry => exact .pure rfl
        · exact obeys_unpinPage false .normal (.pure rfl)

/-- Looking a key up. -/
theorem balanced_btreeSearch (rootPageId : ℕ) (key : UInt64) : Balanced 1 (btreeSearch rootPageId key) :=
  balanced_btreeSearchFrom key walkLimit rootPageId

/-- The walk of an update. -/
theorem balanced_btreeUpdateFrom (key : UInt64) (pageId : UInt32) (slotId : UInt16) (fuel currPageId : ℕ) :
    Balanced 1 (btreeUpdateFrom key pageId slotId fuel currPageId) := by
  induction fuel generalizing currPageId with
  | zero => exact .diverge
  | succ fuel ih =>
    intro limit held hroom
    rw [btreeUpdateFrom]
    split
    · exact .pure rfl
    · refine obeys_fetchPage (by omega) (.pure rfl) (obeys_pageData fun page => ?_)
      split
      · cases page.leafEntries.findIdx? fun entry => entry.key = key with
        | none => exact obeys_unpinPage false .normal (ih _ limit held hroom)
        | some i =>
          have hmem := Multiset.mem_cons_self currPageId held
          exact obeys_modifyPage hmem _ (obeys_modifyPage hmem _ (obeys_unpinPage true .normal (.pure rfl)))
      · exact obeys_unpinPage false .normal (.pure rfl)

/-- Assigning the value of a key. -/
theorem balanced_btreeUpdate (rootPageId : ℕ) (key : UInt64) (pageId : UInt32) (slotId : UInt16) :
    Balanced 1 (btreeUpdate rootPageId key pageId slotId) :=
  balanced_btreeUpdateFrom key pageId slotId walkLimit rootPageId

/-- A log record is stored in pages that are held. -/
theorem obeys_logRecord {limit : ℕ} {held : Multiset ℕ} (txnId : UInt32) (recType : WALRecordType)
    (pageId slotId : ℕ) (payload : List UInt8) {stamped : List ℕ}
    (hmem : ∀ stampedId ∈ stamped, stampedId ∈ held) :
    (logRecord txnId recType pageId slotId payload stamped).Obeys (pinMonitor limit)
      (fun _ after => after = held) held := by
  have hstamp : ∀ lsn, (stamped.forM fun stampedId => stampPage stampedId lsn : PageProgram Unit).Obeys
      (pinMonitor limit) (fun _ after => after = held) held := by
    intro lsn
    induction stamped with
    | nil => exact .pure rfl
    | cons stampedId rest ih =>
      exact obeys_modifyPage (hmem stampedId List.mem_cons_self) _
        (ih fun other hother => hmem other (List.mem_cons_of_mem _ hother))
  refine .step trivial fun attached => ?_
  cases attached with
  | false => exact .pure rfl
  | true => exact .step trivial hstamp

/-- Splitting a leaf: two pages are held. -/
theorem balanced_splitLeafNode (leafPageId : ℕ) (txnId : UInt32) : Balanced 2 (splitLeafNode leafPageId txnId) := by
  intro limit held hroom
  refine obeys_fetchPage (by omega) (.pure rfl) ?_
  refine obeys_other trivial (fun _ => rfl) fun newLeafId => obeys_other trivial (fun _ => rfl) fun _ => ?_
  refine obeys_fetchPage (by rw [Multiset.card_cons]; omega) (obeys_unpinPage false .normal (.pure rfl)) ?_
  have hnew := Multiset.mem_cons_self newLeafId (leafPageId ::ₘ held)
  have hleaf : leafPageId ∈ newLeafId ::ₘ leafPageId ::ₘ held :=
    Multiset.mem_cons_of_mem (Multiset.mem_cons_self leafPageId held)
  refine obeys_modifyPage hnew _ (.step hleaf fun oldLeaf => ?_)
  refine obeys_modifyPage hnew _ (obeys_modifyPage hleaf _ ?_)
  have hlog := @obeys_logRecord limit (newLeafId ::ₘ leafPageId ::ₘ held) txnId .btreeSplit leafPageId 0
    (leBytes 8 leafPageId ++ leBytes 8 newLeafId) [leafPageId, newLeafId] (by simp)
  refine hlog.bind fun _ after hsame => ?_
  rw [hsame]
  refine obeys_modifyPage hleaf _ (obeys_modifyPage hnew _ ?_)
  rw [Multiset.cons_swap]
  exact obeys_unpinPage true .normal (obeys_unpinPage_last true .normal)

/-- The answer of a walk to a leaf, if there is one, is pinned. -/
def LeafPinned (held : Multiset ℕ) (answer : Option ℕ) (after : Multiset ℕ) : Prop :=
  after = answer.elim held fun pageId => pageId ::ₘ held

/-- Walking right from a leaf that is pinned. -/
theorem obeys_btreeMoveRight {limit : ℕ} {held : Multiset ℕ} (hroom : held.card + 1 ≤ limit) (key : UInt64)
    (fuel currPageId : ℕ) :
    (btreeMoveRight key fuel currPageId).Obeys (pinMonitor limit) (LeafPinned held) (currPageId ::ₘ held) := by
  induction fuel generalizing currPageId with
  | zero => exact trivial
  | succ fuel ih =>
    refine obeys_pageData fun leaf => ?_
    split
    · exact obeys_unpinPage false .normal (obeys_fetchPage (by omega) (.pure rfl) (ih _))
    · exact .pure rfl

/-- Splitting a leaf that is pinned and full. -/
theorem obeys_btreeMakeRoom {limit : ℕ} {held : Multiset ℕ} (hroom : held.card + 2 ≤ limit) (key : UInt64)
    (currPageId : ℕ) (txnId : UInt32) :
    (btreeMakeRoom key currPageId txnId).Obeys (pinMonitor limit) (LeafPinned held) (currPageId ::ₘ held) := by
  refine obeys_pageData fun leaf => ?_
  split
  · refine obeys_unpinPage false .normal ((balanced_splitLeafNode currPageId txnId).step hroom fun _ => ?_)
    refine obeys_fetchPage (by omega) (.pure rfl) (obeys_pageData fun split => ?_)
    split
    · exact obeys_unpinPage false .normal (obeys_fetchPage (by omega) (.pure rfl) (.pure rfl))
    · exact .pure rfl
  · exact .pure rfl

/-- Inserting an entry into a leaf that is pinned. -/
theorem obeys_btreeInsertEntry {limit : ℕ} {held : Multiset ℕ} (entry : BTreeLeafEntry) (currPageId : ℕ)
    (txnId : UInt32) :
    (btreeInsertEntry entry currPageId txnId).Obeys (pinMonitor limit) (fun _ after => after = held)
      (currPageId ::ₘ held) := by
  have hmem := Multiset.mem_cons_self currPageId held
  refine obeys_pageData fun leaf => obeys_modifyPage hmem _ ?_
  have hlog := @obeys_logRecord limit (currPageId ::ₘ held) txnId .recInsert currPageId
    (leaf.leafInsertIdx entry.key) (leBytes 8 entry.key.toNat) [currPageId] (by simp)
  refine hlog.bind fun _ after hsame => ?_
  rw [hsame]
  exact obeys_modifyPage hmem _ (obeys_unpinPage_last true .normal)

/-- Inserting a key. -/
theorem balanced_btreeInsert (rootPageId : ℕ) (key : UInt64) (pageId : UInt32) (slotId : UInt16) (txnId : UInt32) :
    Balanced 2 (btreeInsert rootPageId key pageId slotId txnId) := by
  intro limit held hroom
  refine obeys_fetchPage (by omega) (.pure rfl) (obeys_pageData fun page => ?_)
  split
  · exact obeys_unpinPage false .normal (.pure rfl)
  · refine (obeys_btreeMoveRight (by omega) key walkLimit rootPageId).bind fun target after hafter => ?_
    rw [hafter]
    cases target with
    | none => exact .pure rfl
    | some target =>
      refine (obeys_btreeMakeRoom hroom key target txnId).bind fun target after hafter => ?_
      rw [hafter]
      cases target with
      | none => exact .pure rfl
      | some target => exact (obeys_btreeInsertEntry _ target txnId).bind fun _ _ hsame => .pure hsame

/-! ## The inverted index -/

/-- Adding a posting: the first page of the term and a new page are held. -/
theorem balanced_invertedIndexAddPosting (termId docId : UInt32) (dataPageId dataSlotId : ℕ) (position : UInt32) :
    Balanced 2 (invertedIndexAddPosting termId docId dataPageId dataSlotId position) := by
  intro limit held hroom
  refine (balanced_btreeSearch btreeRootPageId termId.toUInt64).step (by omega) fun found => ?_
  cases found with
  | none =>
    refine obeys_other trivial (fun _ => rfl) fun newPageId => obeys_other trivial (fun _ => rfl) fun written => ?_
    cases written with
    | false => exact .pure rfl
    | true =>
      refine obeys_fetchPage (by omega) (.pure rfl) ?_
      refine obeys_modifyPage (Multiset.mem_cons_self _ _) _ (obeys_unpinPage true .normal ?_)
      exact (balanced_btreeInsert _ _ _ _ _).step hroom fun _ => .pure rfl
  | some first =>
    refine obeys_fetchPage (by omega) (.pure rfl) (obeys_pageData fun page => ?_)
    have hmem := Multiset.mem_cons_self first.1 held
    split
    · exact obeys_modifyPage hmem _ (obeys_unpinPage true .normal (.pure rfl))
    · split
      · exact obeys_modifyPage hmem _ (obeys_unpinPage true .normal (.pure rfl))
      · refine obeys_other trivial (fun _ => rfl) fun newPageId => obeys_other trivial (fun _ => rfl) fun written => ?_
        cases written with
        | false => exact obeys_unpinPage false .normal (.pure rfl)
        | true =>
          refine obeys_fetchPage (by rw [Multiset.card_cons]; omega) (obeys_unpinPage false .normal (.pure rfl)) ?_
          refine obeys_modifyPage (Multiset.mem_cons_self _ _) _ ?_
          rw [Multiset.cons_swap]
          refine obeys_unpinPage false .normal (obeys_unpinPage true .normal ?_)
          exact (balanced_btreeUpdate _ _ _ _).step (by omega) fun _ => .pure rfl

/-- The walk along the posting pages of a term. -/
theorem balanced_getPostingsFrom (maxPostings fuel currentPageId : ℕ) (found : List InvertedPosting) :
    Balanced 1 (getPostingsFrom maxPostings fuel currentPageId found) := by
  induction fuel generalizing currentPageId found with
  | zero => exact .diverge
  | succ fuel ih =>
    intro limit held hroom
    refine obeys_other trivial (fun _ => rfl) fun nextPageId => ?_
    split
    · refine obeys_fetchPage (by omega) (.pure rfl) (obeys_pageData fun page => ?_)
      split
      · exact obeys_unpinPage false .normal (.pure rfl)
      · refine obeys_unpinPage false .normal ?_
        split
        · exact .pure rfl
        · exact ih _ _ limit held hroom
    · exact .pure rfl

/-- Reading the postings of a term. -/
theorem balanced_invertedIndexGetPostings (termId : UInt32) (maxPostings : ℕ) :
    Balanced 1 (invertedIndexGetPostings termId maxPostings) := by
  refine (balanced_btreeSearch btreeRootPageId termId.toUInt64).bind fun found => ?_
  cases found with
  | none => exact .pure []
  | some first => exact balanced_getPostingsFrom maxPostings walkLimit first.1 []

/-! ## The shard -/

section Shard

variable {F : Type} [Double F]

/-- Adding the postings of a document. -/
theorem balanced_addPostings (docId : UInt32) (pageId slotId position : ℕ) (termIds : List UInt32) :
    Balanced 2 (addPostings docId pageId slotId position termIds) := by
  induction termIds generalizing position with
  | nil => exact .pure ()
  | cons termId rest ih => exact (balanced_invertedIndexAddPosting _ _ _ _ _).bind fun _ => ih (position + 1)

/-- The end of an insertion releases the active page before it adds postings. -/
theorem obeys_shardIndexDocument {limit : ℕ} {held : Multiset ℕ} (hroom : held.card + 2 ≤ limit) (shard : Shard F)
    (doc : Document) (docId : UInt32) :
    (shardIndexDocument shard doc docId).Obeys (pinMonitor limit) (fun _ after => after = held)
      (shard.activeDataPageId ::ₘ held) := by
  refine obeys_pageData fun page => obeys_unpinPage true .normal ?_
  refine (balanced_addPostings _ _ _ _ _).step hroom fun _ => ?_
  exact (balanced_invertedIndexAddPosting _ _ _ _ _).step hroom fun _ => .pure rfl

/-- Inserting a document. -/
theorem balanced_shardInsertDocument (shard : Shard F) (doc : Document) :
    Balanced 2 (shardInsertDocument shard doc) := by
  intro limit held hroom
  refine obeys_other trivial (fun _ => rfl) fun lsn => ?_
  refine obeys_fetchPage (by omega) (.pure rfl) (obeys_pageData fun page => ?_)
  split
  · exact obeys_modifyPage (Multiset.mem_cons_self _ _) _ (obeys_shardIndexDocument hroom _ doc _)
  · refine obeys_unpinPage false .normal (obeys_other trivial (fun _ => rfl) fun newPageId => ?_)
    refine obeys_other trivial (fun _ => rfl) fun written => ?_
    cases written with
    | false => exact .pure rfl
    | true =>
      have hmem := Multiset.mem_cons_self newPageId held
      refine obeys_fetchPage (by omega) (.pure rfl) ?_
      exact obeys_modifyPage hmem _ (obeys_modifyPage hmem _ (obeys_shardIndexDocument hroom _ doc _))

/-- Deleting a document. -/
theorem balanced_shardDeleteDocument (docId : UInt32) : Balanced 1 (shardDeleteDocument docId) := by
  intro limit held hroom
  refine obeys_fetchPage (by omega) (.pure rfl) ?_
  refine obeys_modifyPage (Multiset.mem_cons_self _ _) _ (obeys_other trivial (fun _ => rfl) fun lsn => ?_)
  exact obeys_unpinPage true .normal (.pure rfl)

/-- Asking whether a document is deleted. -/
theorem balanced_shardIsDeleted (docId : UInt32) : Balanced 1 (shardIsDeleted docId) := by
  intro limit held hroom
  refine obeys_fetchPage (by omega) (.pure rfl) (obeys_pageData fun page => ?_)
  exact obeys_unpinPage false .normal (.pure rfl)

/-! ## The searches -/

/-- Reading a record from a page. -/
theorem balanced_readRecord (page : Page) (slotIdx : ℕ) : Balanced 1 (readRecord page slotIdx) := by
  unfold readRecord
  split
  · exact .pure none
  · split
    · exact .pure none
    · split
      · exact .pure _
      · exact .diverge

/-- Looking at a record. -/
theorem balanced_considerRecord (ranking : Ranking F) (maxResults : ℕ) (results : List (UnifiedSearchResult F))
    (rec : UnifiedDocRecord) : Balanced 1 (considerRecord ranking maxResults results rec) := by
  refine (balanced_shardIsDeleted rec.docId).bind fun deleted => ?_
  cases deleted with
  | true => exact .pure results
  | false =>
    rw [if_neg Bool.false_ne_true]
    dsimp only
    split
    · split
      · exact .diverge
      · exact .pure _
    · exact .pure results

/-- Looking at the records of a page, which is held together with the tombstones. -/
theorem balanced_scanPage (ranking : Ranking F) (maxResults pageId : ℕ) (results : List (UnifiedSearchResult F)) :
    Balanced 2 (scanPage ranking maxResults pageId results) := by
  intro limit held hroom
  have hinside : (pageId ::ₘ held).card + 1 ≤ limit := by
    rw [Multiset.card_cons]
    omega
  refine obeys_fetchPage (by omega) (.pure rfl) (obeys_pageData fun page => ?_)
  split
  · exact obeys_unpinPage false .normal (.pure rfl)
  · refine Balanced.step (Balanced.foldlM (fun acc slotIdx => ?_) results (List.range page.slotCount)) hinside
      fun found => obeys_unpinPage false .sequentialScan (.pure rfl)
    refine (balanced_readRecord page slotIdx).bind fun record => ?_
    cases record with
    | none => exact .pure acc
    | some rec => exact balanced_considerRecord ranking maxResults acc rec

/-- Looking at all pages. -/
theorem balanced_searchPages (ranking : Ranking F) (maxResults : ℕ) :
    Balanced 2 (searchPages ranking maxResults) := by
  have hpages : ∀ fuel pageId results, Balanced 2 (scanPagesFrom ranking maxResults fuel pageId results) := by
    intro fuel
    induction fuel with
    | zero => exact fun _ _ => .diverge
    | succ fuel ih =>
      intro pageId results limit held hroom
      refine obeys_other trivial (fun _ => rfl) fun next => ?_
      split
      · exact (balanced_scanPage ranking maxResults pageId results).step hroom fun found =>
          ih _ found limit held hroom
      · exact .pure rfl
  exact (hpages walkLimit firstDataPageId []).bind fun results => .pure _

/-- Looking at the record that a posting addresses. -/
theorem balanced_considerPosting (ranking : Ranking F) (maxResults : ℕ) (results : List (UnifiedSearchResult F))
    (posting : InvertedPosting) : Balanced 2 (considerPosting ranking maxResults results posting) := by
  intro limit held hroom
  have hinside : (posting.dataPageId ::ₘ held).card + 1 ≤ limit := by
    rw [Multiset.card_cons]
    omega
  refine obeys_fetchPage (by omega) (.pure rfl) (obeys_pageData fun page => ?_)
  refine (balanced_readRecord page posting.dataSlotId).step hinside fun record => ?_
  cases record with
  | none => exact obeys_unpinPage false .normal (.pure rfl)
  | some rec =>
    exact (balanced_considerRecord ranking maxResults results rec).step hinside fun found =>
      obeys_unpinPage false .normal (.pure rfl)

/-- Searching the documents of one term. -/
theorem balanced_shardSearchBm25fIndexed (termId : UInt32) (params : Bm25fParams F) (maxResults : ℕ) :
    Balanced 2 (shardSearchBm25fIndexed termId params maxResults) := by
  refine ((balanced_invertedIndexGetPostings termId _).mono (Nat.le_succ 1)).bind fun postings => ?_
  exact (Balanced.foldlM (balanced_considerPosting _ maxResults) [] postings).bind fun results => .pure _

/-- Reading the postings of the terms of a phrase. -/
theorem balanced_getPhrasePostings (termIds : List UInt32) : Balanced 1 (getPhrasePostings termIds) := by
  induction termIds with
  | nil => exact .pure _
  | cons termId rest ih =>
    refine (balanced_invertedIndexGetPostings termId _).bind fun postings => ?_
    split
    · exact .pure none
    · refine ih.bind fun others => ?_
      cases others with
      | none => exact .pure none
      | some others => exact .pure _

/-- Merging posting lists. -/
theorem balanced_mergePhrase (ranking : Ranking F) (maxResults : ℕ) (postings : List InvertedPosting)
    (cursors : List (List InvertedPosting)) (results : List (UnifiedSearchResult F)) :
    Balanced 2 (mergePhrase ranking maxResults postings cursors results) := by
  induction postings generalizing cursors results with
  | nil => exact .pure results
  | cons posting rest ih =>
    rw [mergePhrase]
    dsimp only
    split
    · exact (balanced_considerPosting ranking maxResults results posting).bind fun found => ih _ found
    · exact ih _ results

/-- Searching the documents with a phrase. -/
theorem balanced_shardSearchPhraseIndexed (termIds : List UInt32) (params : Bm25fParams F) (maxResults : ℕ) :
    Balanced 2 (shardSearchPhraseIndexed termIds params maxResults) := by
  unfold shardSearchPhraseIndexed
  split
  · exact .pure []
  · exact balanced_shardSearchBm25fIndexed _ params maxResults
  · refine ((balanced_getPhrasePostings _).mono (Nat.le_succ 1)).bind fun found => ?_
    split
    · exact (balanced_mergePhrase _ maxResults _ _ []).bind fun results => .pure _
    · exact .pure []

/-! ## The pins of a pool -/

/-- The calls that pin pages. -/
inductive PageOperation (F : Type) where
  | btreeInit (rootPageId : ℕ)
  | btreeSearch (rootPageId : ℕ) (key : UInt64)
  | btreeInsert (rootPageId : ℕ) (key : UInt64) (pageId : UInt32) (slotId : UInt16) (txnId : UInt32)
  | btreeUpdate (rootPageId : ℕ) (key : UInt64) (pageId : UInt32) (slotId : UInt16)
  | invertedIndexAddPosting (termId docId : UInt32) (dataPageId dataSlotId : ℕ) (termPosition : UInt32)
  | invertedIndexGetPostings (termId : UInt32) (maxPostings : ℕ)
  | shardInsertDocument (shard : Shard F) (doc : Document)
  | shardDeleteDocument (docId : UInt32)
  | shardIsDeleted (docId : UInt32)
  | shardSearchBm25f (termId : UInt32) (params : Bm25fParams F) (maxResults : ℕ)
  | shardSearchVector (queryVec : Vector UInt32 embeddingDim) (maxResults : ℕ)
  | shardSearchBm25fIndexed (termId : UInt32) (params : Bm25fParams F) (maxResults : ℕ)
  | shardSearchPhraseIndexed (termIds : List UInt32) (params : Bm25fParams F) (maxResults : ℕ)

namespace PageOperation

/-- What a call returns. -/
abbrev Answer : PageOperation F → Type
  | .btreeInit _ => Unit
  | .btreeSearch _ _ => Option (ℕ × ℕ)
  | .invertedIndexGetPostings _ _ => List InvertedPosting
  | .shardInsertDocument _ _ => Bool × Shard F
  | .shardSearchBm25f _ _ _ => List (UnifiedSearchResult F)
  | .shardSearchVector _ _ => List (UnifiedSearchResult F)
  | .shardSearchBm25fIndexed _ _ _ => List (UnifiedSearchResult F)
  | .shardSearchPhraseIndexed _ _ _ => List (UnifiedSearchResult F)
  | _ => Bool

/-- The program of a call. -/
def program : (operation : PageOperation F) → PageProgram operation.Answer
  | .btreeInit rootPageId => FtsUring.btreeInit rootPageId
  | .btreeSearch rootPageId key => FtsUring.btreeSearch rootPageId key
  | .btreeInsert rootPageId key pageId slotId txnId => FtsUring.btreeInsert rootPageId key pageId slotId txnId
  | .btreeUpdate rootPageId key pageId slotId => FtsUring.btreeUpdate rootPageId key pageId slotId
  | .invertedIndexAddPosting termId docId dataPageId dataSlotId termPosition =>
    FtsUring.invertedIndexAddPosting termId docId dataPageId dataSlotId termPosition
  | .invertedIndexGetPostings termId maxPostings => FtsUring.invertedIndexGetPostings termId maxPostings
  | .shardInsertDocument shard doc => FtsUring.shardInsertDocument shard doc
  | .shardDeleteDocument docId => FtsUring.shardDeleteDocument docId
  | .shardIsDeleted docId => FtsUring.shardIsDeleted docId
  | .shardSearchBm25f termId params maxResults => FtsUring.shardSearchBm25f termId params maxResults
  | .shardSearchVector queryVec maxResults => FtsUring.shardSearchVector queryVec maxResults
  | .shardSearchBm25fIndexed termId params maxResults => FtsUring.shardSearchBm25fIndexed termId params maxResults
  | .shardSearchPhraseIndexed termIds params maxResults =>
    FtsUring.shardSearchPhraseIndexed termIds params maxResults

/-- How many pins a call holds at once. -/
def depth : PageOperation F → ℕ
  | .btreeInit _ => 1
  | .btreeSearch _ _ => 1
  | .btreeUpdate _ _ _ _ => 1
  | .invertedIndexGetPostings _ _ => 1
  | .shardDeleteDocument _ => 1
  | .shardIsDeleted _ => 1
  | _ => 2

/-- Every call releases its pins. -/
theorem balanced (operation : PageOperation F) : Balanced operation.depth operation.program := by
  cases operation with
  | btreeInit rootPageId => exact balanced_btreeInit rootPageId
  | btreeSearch rootPageId key => exact balanced_btreeSearch rootPageId key
  | btreeInsert rootPageId key pageId slotId txnId => exact balanced_btreeInsert rootPageId key pageId slotId txnId
  | btreeUpdate rootPageId key pageId slotId => exact balanced_btreeUpdate rootPageId key pageId slotId
  | invertedIndexAddPosting termId docId dataPageId dataSlotId termPosition =>
    exact balanced_invertedIndexAddPosting termId docId dataPageId dataSlotId termPosition
  | invertedIndexGetPostings termId maxPostings => exact balanced_invertedIndexGetPostings termId maxPostings
  | shardInsertDocument shard doc => exact balanced_shardInsertDocument shard doc
  | shardDeleteDocument docId => exact balanced_shardDeleteDocument docId
  | shardIsDeleted docId => exact balanced_shardIsDeleted docId
  | shardSearchBm25f termId params maxResults => exact balanced_searchPages _ maxResults
  | shardSearchVector queryVec maxResults => exact balanced_searchPages _ maxResults
  | shardSearchBm25fIndexed termId params maxResults =>
    exact balanced_shardSearchBm25fIndexed termId params maxResults
  | shardSearchPhraseIndexed termIds params maxResults =>
    exact balanced_shardSearchPhraseIndexed termIds params maxResults

end PageOperation

/-- The pins of the pages are those from before and the ones that are held. -/
structure PinsHeld (before : BufferPoolManager) (m : Machine) (held : Multiset ℕ) : Prop where
  operable : m.storage.bpm.Operable
  pins : ∀ pageId ≠ invalidPageId, m.storage.bpm.pins pageId = before.pins pageId + held.count pageId

/-- A command changes the pins by what the monitor sees. -/
theorem PinsHeld.step {before : BufferPoolManager} {limit : ℕ}
    (hroom : ∀ pageId ≠ invalidPageId, before.pins pageId + limit < 2 ^ 32) (command : PageCommand) (m : Machine)
    (held : Multiset ℕ) (answer : command.Answer) (m' : Machine) (h : PinsHeld before m held)
    (hallows : (pinMonitor limit).allows held command) (hrun : poolHandler.run command m = some (answer, m')) :
    PinsHeld before m' ((pinMonitor limit).next held command answer) := by
  cases command with
  | fetchPage pageId =>
    rw [run_fetchPage, Option.some.injEq, Prod.mk.injEq] at hrun
    obtain ⟨rfl, rfl⟩ := hrun
    have hfetch := h.operable.fetch (fetches_bufferPoolFetchPage h.operable.hand h.operable.small pageId)
    refine ⟨hfetch.1, fun other hvalid => (hfetch.2.2 other hvalid).trans ?_⟩
    have hother := h.pins other hvalid
    have hcount := Multiset.count_le_card other held
    have hlimit := hroom other hvalid
    change held.card < limit at hallows
    change _ = before.pins other + Multiset.count other (if _ then _ else _)
    cases (bufferPoolFetchPage m.storage pageId).1.isSome with
    | false => simpa using hother
    | true =>
      by_cases hsame : pageId = other
      · subst hsame
        simp only [and_self, if_true, Multiset.count_cons_self]
        rw [Nat.mod_eq_of_lt (by omega)]
        omega
      · simpa [hsame, Multiset.count_cons_of_ne (Ne.symm hsame)] using hother
  | unpinPage pageId isDirty hint =>
    have hunpin := h.operable.unpin pageId isDirty hint
    cases hrun
    refine ⟨hunpin.1, fun other hvalid => (hunpin.2 other hvalid).trans ?_⟩
    have hother := h.pins other hvalid
    change pageId ∈ held at hallows
    change _ = before.pins other + Multiset.count other (held.erase pageId)
    split
    · next hsame =>
      subst hsame
      have hpos := Multiset.count_pos.mpr hallows
      rw [Multiset.count_erase_self]
      omega
    · next hsame =>
      rw [Multiset.count_erase_of_ne (Ne.symm hsame)]
      exact hother
  | modifyPage pageId change =>
    obtain ⟨i, hfound, hchanged⟩ := Option.map_eq_some_iff.mp hrun
    cases hchanged
    have hmodify :=
      h.operable.modify (BufferPoolManager.frameIndex_some hfound).1 (change (m.storage.bpm.frame i).pageData)
    exact ⟨hmodify.1, fun other hvalid => (hmodify.2 other).trans (h.pins other hvalid)⟩
  | pageData pageId =>
    obtain ⟨i, hfound, hread⟩ := Option.map_eq_some_iff.mp hrun
    cases hread
    exact h
  | writeZeroPage pageId =>
    change (if _ then _ else _) = _ at hrun
    split at hrun
    · cases hrun
      exact h
    · cases hrun
      exact ⟨h.operable, h.pins⟩
  | walAppend txnId recType pageId slotId payload =>
    obtain ⟨wal, hwal, happend⟩ := Option.map_eq_some_iff.mp hrun
    cases happend
    exact ⟨h.operable, h.pins⟩
  | walAttached =>
    cases hrun
    exact h
  | nextPageId =>
    cases hrun
    exact h
  | takePageId =>
    cases hrun
    exact ⟨h.operable, h.pins⟩
  | setNextPageId value =>
    cases hrun
    exact ⟨h.operable, h.pins⟩

end Shard

/-- A pool whose only frame holds the tombstones, with so many pins. -/
def tombstonePool (pinCount : ℕ) : Machine where
  storage := ⟨⟨[⟨tombstonePageId, pinCount, false, Page.zero⟩], 0, 0⟩, none, Host.empty⟩
  nextPageId := 3

/-- The pool can be used. -/
theorem operable_tombstonePool (pinCount : ℕ) : (tombstonePool pinCount).storage.bpm.Operable := by
  refine ⟨fun i j hi hij => ?_, Nat.one_pos, Nat.one_lt_two_pow (by decide)⟩
  cases i with
  | succ i => exact absurd rfl hi
  | zero =>
    cases j with
    | zero => rfl
    | succ j => exact absurd hij hi

/-- The pins of the tombstones. -/
theorem pins_tombstonePool (pinCount : ℕ) :
    (tombstonePool pinCount).storage.bpm.pins tombstonePageId = pinCount := rfl

/-- No page has more pins. -/
theorem pins_tombstonePool_le (pinCount pageId : ℕ) :
    (tombstonePool pinCount).storage.bpm.pins pageId ≤ pinCount := by
  by_cases hpage : pageId = tombstonePageId
  · exact hpage ▸ le_refl pinCount
  · have hnone : (tombstonePool pinCount).storage.bpm.frameIndex pageId = none :=
      BufferPoolManager.frameIndex_eq_none fun i hi => by
        have hzero : i = 0 := Nat.lt_one_iff.mp hi
        exact hzero ▸ Ne.symm hpage
    rw [BufferPoolManager.pins_eq_zero hnone]
    exact Nat.zero_le pinCount

/-- A pin is taken and released. -/
theorem exec_tombstonePool (pinCount : ℕ) (docId : UInt32) :
    poolHandler.exec (shardIsDeleted docId) (tombstonePool pinCount) =
      some (ftsTombstoneIsDeleted Page.zero docId, tombstonePool ((pinCount + 1) % 2 ^ 32 - 1)) := by
  have hunpin : ∀ pins, bufferPoolUnpinPage (tombstonePool pins).storage tombstonePageId false .normal =
      (tombstonePool (pins - 1)).storage := by
    intro pins
    change (if _ then _ else _) = _
    rw [if_neg fun h => absurd h.2 (by decide)]
    rfl
  have hfetch : poolHandler.exec (fetchPage tombstonePageId) (tombstonePool pinCount) =
      some (true, tombstonePool ((pinCount + 1) % 2 ^ 32)) := rfl
  have hread : poolHandler.exec (pageData tombstonePageId) (tombstonePool ((pinCount + 1) % 2 ^ 32)) =
      some (Page.zero, tombstonePool ((pinCount + 1) % 2 ^ 32)) := rfl
  have hlast : poolHandler.exec (unpinPage tombstonePageId false .normal) (tombstonePool ((pinCount + 1) % 2 ^ 32)) =
      some ((), tombstonePool ((pinCount + 1) % 2 ^ 32 - 1)) :=
    congrArg (fun storage => some ((), (⟨storage, 3⟩ : Machine))) (hunpin _)
  rw [shardIsDeleted, Handler.exec_bind_of_eq _ hfetch]
  simp only [Bool.not_true, Bool.false_eq_true, if_false]
  rw [Handler.exec_bind_of_eq _ hread, Handler.exec_bind_of_eq _ hlast]
  rfl

end FtsUring
