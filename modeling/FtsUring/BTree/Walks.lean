import FtsUring.BTree.Chain
import FtsUring.Foundation.Walks
import FtsUring.Storage.PoolLifecycle

/-!
# Walks over arbitrary pages

The loops of the B-tree follow the links that they find in the pages, and remember no page that they visited.
So a loop goes on for ever exactly if the links that it follows lead from some page back to the same page. The
pages here are any bytes; entries of a leaf that lie behind the end of its page are read as zeros.
-/

namespace FtsUring

open Foundation

/-! ## The links that a key follows -/

section Links

variable (pages : ℕ → Page) (key : UInt64)

/-- The page that a search visits after a page: the child, or the next leaf if the key is not in the leaf. -/
def searchNext (id : ℕ) : Option ℕ :=
  if id = invalidPageId then none
  else if (pages id).pageType = PageType.btreeInternal.code then some ((pages id).internalChild key)
  else if (pages id).pageType = PageType.btreeLeaf.code ∧ ∀ entry ∈ (pages id).leafEntries, entry.key ≠ key then
    some (pages id).nextLeafId
  else none

/-- The page that an update visits after a page: the next leaf if the key is not in the leaf. -/
def updateNext (id : ℕ) : Option ℕ :=
  if id = invalidPageId then none
  else if (pages id).pageType = PageType.btreeLeaf.code ∧ ∀ entry ∈ (pages id).leafEntries, entry.key ≠ key then
    some (pages id).nextLeafId
  else none

/-- The page that an insertion moves on to from a page: the next leaf if the key belongs further right. -/
def insertNext (id : ℕ) : Option ℕ :=
  if (pages id).BelongsRight key then some (pages id).nextLeafId else none

/-- A child has a 32-bit page id. -/
theorem Page.internalChild_lt (page : Page) (key : UInt64) : page.internalChild key < 2 ^ 32 := by
  unfold Page.internalChild
  dsimp only
  split
  · exact page.field_lt 24 4
  · exact page.field_lt _ 4

/-- The next leaf has a 32-bit page id. -/
theorem Page.nextLeafId_lt (page : Page) : page.nextLeafId < 2 ^ 32 := page.field_lt 24 4

variable {pages key} {id other : ℕ}

/-- A search visits pages with 32-bit ids. -/
theorem searchNext_lt (h : searchNext pages key id = some other) : other < 2 ^ 32 := by
  unfold searchNext at h
  split_ifs at h
  · exact Option.some.inj h ▸ Page.internalChild_lt _ _
  · exact Option.some.inj h ▸ Page.nextLeafId_lt _

/-- An update visits pages with 32-bit ids. -/
theorem updateNext_lt (h : updateNext pages key id = some other) : other < 2 ^ 32 := by
  unfold updateNext at h
  split_ifs at h
  exact Option.some.inj h ▸ Page.nextLeafId_lt _

/-- An insertion moves on to pages with 32-bit ids, and not to the id that no page has. -/
theorem insertNext_lt (h : insertNext pages key id = some other) : other < 2 ^ 32 ∧ other < invalidPageId := by
  unfold insertNext at h
  split_ifs at h with hright
  have hlt := Option.some.inj h ▸ Page.nextLeafId_lt (pages id)
  have hne : other ≠ invalidPageId := Option.some.inj h ▸ hright.1
  unfold invalidPageId at hne ⊢
  exact ⟨hlt, by omega⟩

end Links

/-- Links with 32-bit page ids end a walk within `walkLimit` visits, or lead from some page back to it. -/
theorem endsWithin_walkLimit_iff {next : ℕ → Option ℕ}
    (hnext : ∀ id other, next id = some other → other < 2 ^ 32)
    {id : ℕ} (hid : id < 2 ^ 32) : EndsWithin next walkLimit id ↔ Acyclic next id := by
  have hplaces : ∀ other, StateTransition.Reaches next id other → other ∈ Finset.range walkLimit := by
    intro other hreach
    rw [Finset.mem_range]
    cases Relation.ReflTransGen.cases_tail hreach with
    | inl hsame => exact hsame ▸ hid
    | inr hlast =>
      obtain ⟨before, -, hstep⟩ := hlast
      exact hnext before other hstep
  have hiff := endsWithin_iff_acyclic hplaces
  rwa [Finset.card_range] at hiff

/-! ## The loop of an insertion -/

/-- An insertion up to the end of its loop: the pinned leaf that the key belongs to. -/
def btreeInsertLeaf (rootPageId : ℕ) (key : UInt64) : PageProgram (Option ℕ) := do
  if !(← fetchPage rootPageId) then return none
  let page ← pageData rootPageId
  if page.pageType ≠ PageType.btreeLeaf.code then
    unpinPage rootPageId false .normal
    return none
  btreeMoveRight key walkLimit rootPageId

/-- What an insertion does behind its loop. -/
def btreeInsertAt (key : UInt64) (pageId : UInt32) (slotId : UInt16) (txnId : UInt32) :
    Option ℕ → PageProgram Bool
  | none => return false
  | some currPageId => do
    match ← btreeMakeRoom key currPageId txnId with
    | none => return false
    | some currPageId =>
      btreeInsertEntry ⟨key, pageId, slotId⟩ currPageId txnId
      return true

/-- An insertion is its loop, and what follows. -/
theorem btreeInsert_eq (rootPageId : ℕ) (key : UInt64) (pageId : UInt32) (slotId : UInt16) (txnId : UInt32) :
    btreeInsert rootPageId key pageId slotId txnId =
      btreeInsertLeaf rootPageId key >>= btreeInsertAt key pageId slotId txnId := by
  unfold btreeInsert btreeInsertLeaf
  rw [bind_assoc]
  congr 1
  funext fetched
  cases fetched with
  | false => rfl
  | true =>
    simp only [Bool.not_true, Bool.false_eq_true, if_false]
    rw [bind_assoc]
    congr 1
    funext page
    split
    · rw [bind_assoc]
      rfl
    · congr 1

/-! ## One visit -/

/-- An array in which every page is certain and none is pinned. -/
structure PageArray.Quiet (s : PageArray) (pages : ℕ → Page) : Prop where
  pins : s.pins = []
  touched : s.touched = ∅
  room : 0 < s.room
  holds : ∀ id, s.Holds id (pages id)

variable {s : PageArray} {pages : ℕ → Page} {key : UInt64} {id other : ℕ}

/-- A page is pinned. -/
theorem PageArray.Quiet.exec_fetchPage (h : s.Quiet pages) (hid : id < invalidPageId) :
    arrayHandler.exec (fetchPage id) s = some (true, s.pin id) := by
  refine PageArray.exec_fetchPage ⟨hid, .inr ?_, ?_⟩
  · rw [h.pins]
    exact h.room
  · rw [h.pins]
    decide

/-- The pinned page is read. -/
theorem PageArray.Quiet.exec_pageData (h : s.Quiet pages) (id : ℕ) :
    arrayHandler.exec (pageData id) (s.pin id) = some (pages id, s.pin id) :=
  PageArray.exec_pageData (s.mem_pins_pin id) (h.holds id)

/-- The pin is released. -/
theorem PageArray.Quiet.exec_unpinPage (h : s.Quiet pages) (id : ℕ) :
    arrayHandler.exec (unpinPage id false .normal) (s.pin id) = some ((), s) := by
  rw [PageArray.exec_unpinPage (s.mem_pins_pin id) (by simp [PageArray.pin, h.touched]) (by simp), s.unpin_pin]

/-- The pinned page is changed and released. -/
theorem PageArray.Quiet.isSome_modify (h : s.Quiet pages) (id : ℕ) (change : Page → Page) :
    (arrayHandler.exec (do
      modifyPage id change
      checksumPage id
      unpinPage id true .normal
      return true) (s.pin id)).isSome := by
  have hpin := s.mem_pins_pin id
  set changed := (s.pin id).change id (change (pages id))
  have hholds : changed.Holds id (change (pages id)) := PageArray.content_change_self _ _ _
  set summed := changed.change id (slottedPageComputeChecksum (change (pages id)))
  have hextent : id < summed.extent :=
    lt_of_lt_of_le (Nat.lt_succ_self id) (Nat.le_max_right changed.extent (id + 1))
  rw [Handler.exec_bind_of_eq _ (PageArray.exec_modifyPage_of_holds hpin (h.holds id) change), checksumPage,
    Handler.exec_bind_of_eq _ (PageArray.exec_modifyPage_of_holds (s := changed) hpin hholds
      slottedPageComputeChecksum),
    Handler.exec_bind_of_eq _ (PageArray.exec_unpinPage (s := summed) hpin (fun _ => rfl) (fun _ => hextent)
      .normal)]
  rfl

/-- A visit starts by pinning and reading the page. -/
theorem PageArray.Quiet.continues_visit {α : Type} (h : s.Quiet pages) (hid : id < invalidPageId)
    {absent : PageProgram α} {visit : Page → PageProgram α} :
    arrayHandler.Continues (do
      if !(← fetchPage id) then absent
      else
        let page ← pageData id
        visit page) s (visit (pages id)) (s.pin id) :=
  (Handler.Continues.bind (h.exec_fetchPage hid)).trans (Handler.Continues.bind (h.exec_pageData id))

/-- An id that no page has ends the walks; all others can be pinned. -/
theorem lt_invalidPageId (hid : id < 2 ^ 32) (hvalid : id ≠ invalidPageId) : id < invalidPageId := by
  unfold invalidPageId at hvalid ⊢
  omega

/-- No entry with the key is found. -/
theorem find_eq_none {entries : List BTreeLeafEntry} (h : ∀ entry ∈ entries, entry.key ≠ key) :
    (entries.find? fun entry => entry.key = key) = none := by
  rw [List.find?_eq_none]
  intro entry hentry
  simpa using h entry hentry

/-- A search visits a page and goes on to the next. -/
theorem continues_btreeSearchFrom (h : s.Quiet pages) (hid : id < 2 ^ 32) (visits : ℕ)
    (hnext : searchNext pages key id = some other) :
    arrayHandler.Continues (btreeSearchFrom key (visits + 1) id) s (btreeSearchFrom key visits other) s := by
  unfold searchNext at hnext
  split_ifs at hnext with hinvalid hinternal hleaf
  · rw [btreeSearchFrom, if_neg hinvalid]
    refine (h.continues_visit (lt_invalidPageId hid hinvalid)).trans ?_
    rw [if_pos hinternal, ← Option.some.inj hnext]
    exact .bind (h.exec_unpinPage id)
  · rw [btreeSearchFrom, if_neg hinvalid]
    refine (h.continues_visit (lt_invalidPageId hid hinvalid)).trans ?_
    rw [if_neg hinternal, if_pos hleaf.1, ← Option.some.inj hnext]
    refine (Handler.Continues.bind (h.exec_unpinPage id)).trans ?_
    rw [find_eq_none hleaf.2]
    exact .here _ _

/-- A search without a next page ends. -/
theorem isSome_btreeSearchFrom (h : s.Quiet pages) (hid : id < 2 ^ 32) (visits : ℕ)
    (hnext : searchNext pages key id = none) :
    (arrayHandler.exec (btreeSearchFrom key (visits + 1) id) s).isSome := by
  unfold searchNext at hnext
  rw [btreeSearchFrom]
  split_ifs at hnext with hinvalid hinternal hleaf
  · rw [if_pos hinvalid]
    rfl
  · rw [if_neg hinvalid, (h.continues_visit (lt_invalidPageId hid hinvalid)).exec_eq, if_neg hinternal]
    split
    · next htype =>
      rw [Handler.exec_bind_of_eq _ (h.exec_unpinPage id)]
      cases hfound : (pages id).leafEntries.find? fun entry => entry.key = key with
      | some entry => rfl
      | none =>
        rw [List.find?_eq_none] at hfound
        exact absurd ⟨htype, fun entry hentry => by simpa using hfound entry hentry⟩ hleaf
    · rw [Handler.exec_bind_of_eq _ (h.exec_unpinPage id)]
      rfl

/-- An update visits a page and goes on to the next. -/
theorem continues_btreeUpdateFrom (h : s.Quiet pages) (pageId : UInt32) (slotId : UInt16) (hid : id < 2 ^ 32)
    (visits : ℕ) (hnext : updateNext pages key id = some other) :
    arrayHandler.Continues (btreeUpdateFrom key pageId slotId (visits + 1) id) s
      (btreeUpdateFrom key pageId slotId visits other) s := by
  unfold updateNext at hnext
  split_ifs at hnext with hinvalid hleaf
  have hnone : ((pages id).leafEntries.findIdx? fun entry => entry.key = key) = none := by
    rw [List.findIdx?_eq_none_iff]
    intro entry hentry
    simpa using hleaf.2 entry hentry
  rw [btreeUpdateFrom, if_neg hinvalid]
  refine (h.continues_visit (lt_invalidPageId hid hinvalid)).trans ?_
  rw [if_pos hleaf.1, hnone, ← Option.some.inj hnext]
  exact .bind (h.exec_unpinPage id)

/-- An update without a next page ends. -/
theorem isSome_btreeUpdateFrom (h : s.Quiet pages) (pageId : UInt32) (slotId : UInt16) (hid : id < 2 ^ 32)
    (visits : ℕ) (hnext : updateNext pages key id = none) :
    (arrayHandler.exec (btreeUpdateFrom key pageId slotId (visits + 1) id) s).isSome := by
  unfold updateNext at hnext
  rw [btreeUpdateFrom]
  split_ifs at hnext with hinvalid hleaf
  · rw [if_pos hinvalid]
    rfl
  rw [if_neg hinvalid, (h.continues_visit (lt_invalidPageId hid hinvalid)).exec_eq]
  split
  · next htype =>
    cases hfound : (pages id).leafEntries.findIdx? fun entry => entry.key = key with
    | some i => exact h.isSome_modify id _
    | none =>
      rw [List.findIdx?_eq_none_iff] at hfound
      exact absurd ⟨htype, fun entry hentry => by simpa using hfound entry hentry⟩ hleaf
  · rw [Handler.exec_bind_of_eq _ (h.exec_unpinPage id)]
    rfl

/-- An insertion moves on to the next page. -/
theorem continues_btreeMoveRight (h : s.Quiet pages) (visits : ℕ) (hnext : insertNext pages key id = some other) :
    arrayHandler.Continues (btreeMoveRight key (visits + 1) id) (s.pin id) (btreeMoveRight key visits other)
      (s.pin other) := by
  have hvalid := (insertNext_lt hnext).2
  unfold insertNext at hnext
  split_ifs at hnext with hright
  rw [btreeMoveRight]
  refine (Handler.Continues.bind (h.exec_pageData id)).trans ?_
  rw [if_pos hright, Option.some.inj hnext]
  refine (Handler.Continues.bind (h.exec_unpinPage id)).trans ?_
  exact .bind (h.exec_fetchPage hvalid)

/-- An insertion without a next page has found its leaf. -/
theorem isSome_btreeMoveRight (h : s.Quiet pages) (visits : ℕ) (hnext : insertNext pages key id = none) :
    (arrayHandler.exec (btreeMoveRight key (visits + 1) id) (s.pin id)).isSome := by
  unfold insertNext at hnext
  split_ifs at hnext with hright
  rw [btreeMoveRight, Handler.exec_bind_of_eq _ (h.exec_pageData id), if_neg hright]
  rfl

/-! ## The loops on a buffer pool -/

/-- A new pool over a data file, without a log. -/
def Machine.ofFile (dataFile : List UInt8) (poolSize : ℕ) : Machine :=
  ⟨bufferPoolInit 0 none { Host.empty with dataFile } poolSize, 0⟩

/-- The pages of a data file. -/
def filePages (dataFile : List UInt8) : ℕ → Page := Host.diskPage { Host.empty with dataFile }

/-- The loops of the B-tree end for a key. -/
structure Machine.BTreeLoopsEnd (m : Machine) (rootPageId : ℕ) (key : UInt64) : Prop where
  search : (poolHandler.exec (btreeSearch rootPageId key) m).isSome
  update : ∀ pageId slotId, (poolHandler.exec (btreeUpdate rootPageId key pageId slotId) m).isSome
  insert : (poolHandler.exec (btreeInsertLeaf rootPageId key) m).isSome

/-- None of the links that the loops follow leads to a page that leads back to itself. -/
structure BTreeLinksEnd (pages : ℕ → Page) (rootPageId : ℕ) (key : UInt64) : Prop where
  search : Acyclic (searchNext pages key) rootPageId
  update : Acyclic (updateNext pages key) rootPageId
  insert : rootPageId ≠ invalidPageId → (pages rootPageId).pageType = PageType.btreeLeaf.code →
    Acyclic (insertNext pages key) rootPageId

/-- The array of the pages of a data file. -/
def PageArray.ofFile (dataFile : List UInt8) (poolSize : ℕ) : PageArray :=
  .ofHost { Host.empty with dataFile } none poolSize 0

variable {dataFile : List UInt8} {poolSize : ℕ}

/-- It is quiet. -/
theorem quiet_ofFile (hpool : 0 < poolSize) : (PageArray.ofFile dataFile poolSize).Quiet (filePages dataFile) :=
  ⟨rfl, rfl, hpool, fun _ => rfl⟩

/-- The new pool represents it. -/
theorem represents_ofFile (hsmall : poolSize < 2 ^ 31) :
    Represents (Machine.ofFile dataFile poolSize) (PageArray.ofFile dataFile poolSize) :=
  represents_bufferPoolInit ⟨rfl, rfl, rfl, rfl⟩ (le_refl 0) none hsmall (le_refl _) (Nat.two_pow_pos 32)

/-- A walk over the array that goes on or ends with its links does so on the pool. -/
theorem isSome_exec_pool_iff {α : Type} {walk : ℕ → ℕ → PageProgram α} {next : ℕ → Option ℕ}
    {state : ℕ → PageArray}
    (hfuel : ∀ id, walk 0 id = .diverge) (hlt : ∀ id other, next id = some other → other < 2 ^ 32)
    (hstop : ∀ visits id, id < 2 ^ 32 → next id = none →
      (arrayHandler.exec (walk (visits + 1) id) (state id)).isSome)
    (hgo : ∀ visits id other, id < 2 ^ 32 → next id = some other →
      arrayHandler.Continues (walk (visits + 1) id) (state id) (walk visits other) (state other))
    {id : ℕ} (hid : id < 2 ^ 32) {m : Machine} (hm : Represents m (state id)) :
    (poolHandler.exec (walk walkLimit id) m).isSome ↔ Acyclic next id := by
  rw [← endsWithin_walkLimit_iff hlt hid]
  let inv : ℕ → Machine → Prop := fun id m => id < 2 ^ 32 ∧ Represents m (state id)
  refine Handler.isSome_exec_iff_endsWithin hfuel ?_ ?_ walkLimit (show inv id m from ⟨hid, hm⟩)
  · intro visits id m hm hnext
    obtain ⟨r, hr⟩ := Option.isSome_iff_exists.mp (hstop visits id hm.1 hnext)
    obtain ⟨m', hm', -⟩ := poolHandler_simulates.exec hm.2 hr
    rw [hm']
    rfl
  · intro visits id other m hm hnext
    obtain ⟨m', hcontinues, hm'⟩ := poolHandler_simulates.continues (hgo visits id other hm.1 hnext) hm.2
    exact ⟨m', ⟨hlt id other hnext, hm'⟩, hcontinues⟩

/-- An insertion starts its loop at a root leaf. -/
theorem continues_btreeInsertLeaf (h : s.Quiet pages) (hid : id < invalidPageId)
    (htype : (pages id).pageType = PageType.btreeLeaf.code) :
    arrayHandler.Continues (btreeInsertLeaf id key) s (btreeMoveRight key walkLimit id) (s.pin id) := by
  refine (h.continues_visit hid).trans ?_
  rw [if_neg (not_not.mpr htype)]
  exact .here _ _

/-- An insertion ends at a root that is no leaf. -/
theorem isSome_btreeInsertLeaf (h : s.Quiet pages) (hid : id < invalidPageId)
    (htype : (pages id).pageType ≠ PageType.btreeLeaf.code) :
    (arrayHandler.exec (btreeInsertLeaf id key) s).isSome := by
  unfold btreeInsertLeaf
  rw [(h.continues_visit hid).exec_eq, if_pos htype, Handler.exec_bind_of_eq _ (h.exec_unpinPage id)]
  rfl

/-- The id that no page has names an empty frame of a new pool, which is no leaf. -/
theorem isSome_btreeInsertLeaf_invalid (hpool : 0 < poolSize) :
    (poolHandler.exec (btreeInsertLeaf invalidPageId key) (Machine.ofFile dataFile poolSize)).isSome := by
  obtain ⟨size, rfl⟩ := Nat.exists_eq_succ_of_ne_zero hpool.ne'
  set m := Machine.ofFile dataFile (size + 1)
  have hframe : m.storage.bpm.frame 0 = Frame.empty := rfl
  have hfetch : poolHandler.exec (fetchPage invalidPageId) m =
      some (true, m.setFrame 0 { Frame.empty with pinCount := 1 }) := by
    rw [fetchPage, Handler.exec_perform]
    rfl
  have hread : poolHandler.exec (pageData invalidPageId) (m.setFrame 0 { Frame.empty with pinCount := 1 }) =
      some (Page.zero, m.setFrame 0 { Frame.empty with pinCount := 1 }) := by
    rw [pageData, Handler.exec_perform]
    rfl
  have htype : Page.zero.pageType ≠ PageType.btreeLeaf.code := by
    rw [Page.pageType, Page.field_zero]
    decide
  unfold btreeInsertLeaf
  rw [Handler.exec_bind_of_eq _ hfetch]
  simp only [Bool.not_true, Bool.false_eq_true, if_false]
  rw [Handler.exec_bind_of_eq _ hread, if_pos htype, unpinPage, Handler.exec_bind, Handler.exec_perform]
  rfl

/-- The loop of an insertion ends exactly if the links that it follows from a root leaf do. -/
theorem isSome_btreeInsertLeaf_iff (hpool : 0 < poolSize) (hsmall : poolSize < 2 ^ 31) (hid : id < 2 ^ 32) :
    (poolHandler.exec (btreeInsertLeaf id key) (Machine.ofFile dataFile poolSize)).isSome ↔
      (id ≠ invalidPageId → (filePages dataFile id).pageType = PageType.btreeLeaf.code →
        Acyclic (insertNext (filePages dataFile) key) id) := by
  have hquiet := @quiet_ofFile dataFile poolSize hpool
  have hm := @represents_ofFile dataFile poolSize hsmall
  by_cases hinvalid : id = invalidPageId
  · rw [hinvalid]
    exact iff_of_true (isSome_btreeInsertLeaf_invalid hpool) fun hne => absurd rfl hne
  have hvalid := lt_invalidPageId hid hinvalid
  by_cases htype : (filePages dataFile id).pageType = PageType.btreeLeaf.code
  · obtain ⟨m, hcontinues, hpinned⟩ := poolHandler_simulates.continues
      (@continues_btreeInsertLeaf _ _ key _ hquiet hvalid htype) hm
    have hloop : (poolHandler.exec (btreeMoveRight key walkLimit id) m).isSome ↔
        Acyclic (insertNext (filePages dataFile) key) id :=
      isSome_exec_pool_iff (fun _ => rfl) (fun _ _ hnext => (insertNext_lt hnext).1)
        (fun visits _ _ hnext => isSome_btreeMoveRight hquiet visits hnext)
        (fun visits _ _ _ hnext => continues_btreeMoveRight hquiet visits hnext) hid hpinned
    rw [hcontinues.exec_eq, hloop]
    exact ⟨fun h _ _ => h, fun h => h hinvalid htype⟩
  · obtain ⟨r, hr⟩ := Option.isSome_iff_exists.mp (@isSome_btreeInsertLeaf _ _ key _ hquiet hvalid htype)
    obtain ⟨m, hexec, -⟩ := poolHandler_simulates.exec hm hr
    rw [hexec]
    exact iff_of_true rfl fun _ hleaf => absurd hleaf htype

/-- A search ends exactly if the links that it follows do. -/
theorem isSome_btreeSearch_iff (hpool : 0 < poolSize) (hsmall : poolSize < 2 ^ 31) (hid : id < 2 ^ 32) :
    (poolHandler.exec (btreeSearch id key) (Machine.ofFile dataFile poolSize)).isSome ↔
      Acyclic (searchNext (filePages dataFile) key) id :=
  isSome_exec_pool_iff (fun _ => rfl) (fun _ _ => searchNext_lt)
    (fun visits _ hid hnext => isSome_btreeSearchFrom (quiet_ofFile hpool) hid visits hnext)
    (fun visits _ _ hid hnext => continues_btreeSearchFrom (quiet_ofFile hpool) hid visits hnext) hid
    (represents_ofFile hsmall)

/-- An update ends exactly if the links that it follows do. -/
theorem isSome_btreeUpdate_iff (hpool : 0 < poolSize) (hsmall : poolSize < 2 ^ 31) (hid : id < 2 ^ 32)
    (pageId : UInt32) (slotId : UInt16) :
    (poolHandler.exec (btreeUpdate id key pageId slotId) (Machine.ofFile dataFile poolSize)).isSome ↔
      Acyclic (updateNext (filePages dataFile) key) id :=
  isSome_exec_pool_iff (fun _ => rfl) (fun _ _ => updateNext_lt)
    (fun visits _ hid hnext => isSome_btreeUpdateFrom (quiet_ofFile hpool) pageId slotId hid visits hnext)
    (fun visits _ _ hid hnext => continues_btreeUpdateFrom (quiet_ofFile hpool) pageId slotId hid visits hnext) hid
    (represents_ofFile hsmall)

section Leaves

variable {pages : ℕ → Page} {leaf : List BTreeLeafEntry} {next : ℕ}

/-- A search moves on from a leaf without the key. -/
theorem searchNext_leaf (h : IsLeaf (pages id) leaf next) (hid : id ≠ invalidPageId)
    (hnone : ∀ entry ∈ leaf, entry.key ≠ key) : searchNext pages key id = some next := by
  unfold searchNext
  rw [if_neg hid, if_neg (h.pageType.trans_ne btreeLeaf_code_ne), h.leafEntries, h.nextLeafId,
    if_pos ⟨h.pageType, hnone⟩]

/-- An update moves on from a leaf without the key. -/
theorem updateNext_leaf (h : IsLeaf (pages id) leaf next) (hid : id ≠ invalidPageId)
    (hnone : ∀ entry ∈ leaf, entry.key ≠ key) : updateNext pages key id = some next := by
  unfold updateNext
  rw [if_neg hid, h.leafEntries, h.nextLeafId, if_pos ⟨h.pageType, hnone⟩]

/-- Nothing is next to the id that no page has. -/
theorem searchNext_invalid : searchNext pages key invalidPageId = none := if_pos rfl

@[inherit_doc searchNext_invalid]
theorem updateNext_invalid : updateNext pages key invalidPageId = none := if_pos rfl

/-- The pages of a data file of two pages. -/
theorem filePages_two (first second : Page) : filePages (first.bytes ++ second.bytes) 0 = first ∧
    filePages (first.bytes ++ second.bytes) 1 = second := by
  have hfirst : first.bytes.length = pageSize := first.size
  have hsecond : second.bytes.length = pageSize := second.size
  constructor
  · refine (Host.HoldsPage.diskPage_eq ?_).2
    rw [Host.HoldsPage, Nat.zero_mul, slice, List.drop_zero, List.take_left' hfirst]
  · refine (Host.HoldsPage.diskPage_eq ?_).2
    rw [Host.HoldsPage, Nat.one_mul, slice, List.drop_left' hfirst, List.take_of_length_le hsecond.le]

end Leaves

/-- A leaf with the key 5, before the leaf 1. -/
def firstLeaf : Page := ((slottedPageInit 0 .btreeLeaf).setNextLeafId 1).insertLeafEntry 0 ⟨5, 0, 0⟩

/-- A leaf with the key 9, the last one. -/
def lastLeaf : Page := ((slottedPageInit 1 .btreeLeaf).setNextLeafId invalidPageId).insertLeafEntry 0 ⟨9, 1, 0⟩

/-- A leaf without entries whose link to the next leaf is zero, in the page zero. -/
def zeroLinkedLeaf : Page := (slottedPageInit 0 .btreeLeaf).setNextLeafId 0

end FtsUring
