import FtsUring.BTree.Chain

/-!
# Changing the B-tree

Updates and insertions change the chain of leaves as `LeafChain.update` and `LeafChain.insert` say.
An insertion that splits a leaf takes one page from the counter.
-/

namespace FtsUring

open Foundation

/-! ## Changing one page -/

/-- A pinned page that was changed is being changed. -/
theorem PageArray.changing_change {s : PageArray} {pageId : ℕ} (hpin : pageId ∈ s.pins)
    (hextent : pageId < s.extent) (page : Page) : (s.change pageId page).Changing [pageId] := by
  intro other hother
  rw [List.mem_singleton] at hother
  subst hother
  refine ⟨hpin, Set.mem_insert _ _, ?_, page, s.content_change_self _ page⟩
  rw [s.extent_change hextent]
  exact hextent

/-- Releasing the only page that a function changed. -/
theorem settles_unpin {s t : PageArray} (hsettled : s.touched = ∅) {pageId : ℕ} (hextent : pageId < s.extent)
    {page : Page} (h : Restamps ((s.pin pageId).change pageId page) t [pageId]) :
    arrayHandler.exec (unpinPage pageId true .normal) t = some ((), t.unpin pageId true) ∧
      s.Settles (t.unpin pageId true) {pageId} ∧ (t.unpin pageId true).nextPageId = s.nextPageId ∧
        ∃ page', (t.unpin pageId true).Holds pageId page' ∧ page.SameBody page' := by
  have hpins : t.pins = pageId :: s.pins := h.pins
  have htouched : t.touched = insert pageId ∅ :=
    h.touched.trans (congrArg (insert pageId) hsettled)
  have hmem : pageId ∈ t.pins := hpins ▸ List.mem_cons_self
  have hlt : pageId < t.extent := by
    rw [h.extent, PageArray.extent_change (s.pin pageId) hextent]
    exact hextent
  have hevolves : s.Evolves t {pageId} :=
    (((PageArray.Evolves.refl s _).pin pageId).change hextent (Set.mem_singleton _) page).trans_same
      (h.evolves.mono fun other hother => List.mem_singleton.mp hother)
  refine ⟨PageArray.exec_unpinPage hmem (fun _ => rfl) (fun _ => hlt) .normal,
    ⟨hevolves.unpin pageId true, ?_, ?_⟩, h.nextPageId, ?_⟩
  · simp only [PageArray.unpin, hpins, List.erase_cons_head]
  · simp only [PageArray.unpin, htouched, if_true, hsettled]
    exact Set.insert_sdiff_of_mem _ (Set.mem_singleton _) |>.trans (Set.empty_sdiff _)
  · exact h.body pageId (List.mem_singleton_self _) page (PageArray.content_change_self _ _ _)

/-! ## Updating -/

/-- Assigning an entry of a pinned leaf and releasing the leaf. -/
theorem ensures_assignEntry {s : PageArray} (hsettled : s.touched = ∅) {id next : ℕ} (hextent : id < s.extent)
    {page : Page} {leaf : List BTreeLeafEntry} (hholds : s.Holds id page) (hleaf : IsLeaf page leaf next)
    {i : ℕ} (hi : i < leaf.length) (entry : BTreeLeafEntry) :
    arrayHandler.Ensures (do
        modifyPage id fun page => page.setLeafEntry i entry
        checksumPage id
        unpinPage id true .normal
        return true) (s.pin id) fun present t =>
      present = true ∧ ∃ page', t.Holds id page' ∧ IsLeaf page' (leaf.set i entry) next ∧
        s.Settles t {id} ∧ t.nextPageId = s.nextPageId := by
  have hmodified := PageArray.exec_modifyPage_of_holds (s.mem_pins_pin id) hholds
    fun page => page.setLeafEntry i entry
  have hchanging := PageArray.changing_change (s.mem_pins_pin id) hextent (page.setLeafEntry i entry)
  refine .step hmodified
    ((ensures_checksumPage hchanging (List.mem_singleton_self id)).bind fun _ t hstamped => ?_)
  obtain ⟨hunpin, hsettles, hcounter, page', hholds', hbody⟩ := settles_unpin hsettled hextent hstamped
  exact .step hunpin (.pure ⟨rfl, page', hholds', (hleaf.setLeafEntry hi entry).sameBody hbody, hsettles,
    hcounter⟩)

/-- The walk of an update from a leaf on. -/
theorem ensures_btreeUpdateFrom {s : PageArray} (hidle : s.Idle) {chain : LeafPages}
    (hleaves : LeavesAt s invalidPageId chain) (hnodup : chain.ids.Nodup) (entry : BTreeLeafEntry)
    {fuel : ℕ} (hfuel : chain.length < fuel) :
    arrayHandler.Ensures
      (btreeUpdateFrom entry.key entry.pageId entry.slotId fuel (chain.firstId invalidPageId)) s
      fun present t => present = (chain.lookup entry.key).isSome ∧
        LeavesAt t invalidPageId (chain.update entry) ∧ (present = false → t = s) ∧
          s.Settles t {id | id ∈ chain.ids} ∧ t.nextPageId = s.nextPageId := by
  induction chain generalizing fuel with
  | nil =>
    cases fuel with
    | zero => exact absurd hfuel (Nat.not_lt_zero _)
    | succ fuel =>
      rw [LeafPages.firstId, btreeUpdateFrom, if_pos rfl]
      exact .pure ⟨rfl, trivial, fun _ => rfl, .refl s _, rfl⟩
  | cons first rest ih =>
    obtain ⟨id, leaf⟩ := first
    obtain ⟨⟨hextent, hvalid, page, hholds, hleaf⟩, hrest⟩ := hleaves
    rw [LeafChain.ids_cons, List.nodup_cons] at hnodup
    cases fuel with
    | zero => exact absurd hfuel (Nat.not_lt_zero _)
    | succ fuel =>
      rw [LeafPages.firstId, btreeUpdateFrom, if_neg hvalid.ne]
      refine .step (PageArray.exec_fetchPage (hidle.fetchable hvalid)) ?_
      simp only [Bool.not_true, Bool.false_eq_true, if_false]
      refine .step (PageArray.exec_pageData (s.mem_pins_pin id) hholds) ?_
      rw [if_pos hleaf.pageType, hleaf.leafEntries, hleaf.nextLeafId]
      simp only [LeafPages.lookup, LeafPages.update, LeafChain.lookup_cons, LeafChain.update]
      cases hfound : leaf.findIdx? fun other => other.key = entry.key with
      | none =>
        have hunpin : arrayHandler.exec (unpinPage id false .normal) (s.pin id) = some ((), s) := by
          rw [PageArray.exec_unpinPage (s.mem_pins_pin id) (by simp [PageArray.pin, hidle.touched])
            (by simp), s.unpin_pin]
        have hleafNone : leaf.find? (fun other => other.key = entry.key) = none := by
          rw [List.find?_eq_none]
          rw [List.findIdx?_eq_none_iff] at hfound
          simpa using hfound
        refine .step hunpin ((ih hrest hnodup.2 (Nat.lt_of_succ_lt_succ hfuel)).mono ?_)
        rintro present t ⟨hpresent, hchain, hsame, hsettles, hcounter⟩
        refine ⟨?_, ⟨⟨?_, hvalid, page, ?_, ?_⟩, hchain⟩, hsame, hsettles.mono ?_, hcounter⟩
        · rw [hpresent, hleafNone, Option.none_or]
        · exact lt_of_lt_of_le hextent hsettles.evolves.extent
        · exact hsettles.evolves.holds hextent hnodup.1 hholds
        · cases rest with
          | nil => exact hleaf
          | cons second rest =>
            have hfirst : LeafPages.firstId invalidPageId
                (LeafChain.update BTreeLeafEntry.key entry (second :: rest)) = second.1 := by
              rw [LeafChain.update]
              split <;> rfl
            rw [hfirst]
            exact hleaf
        · exact fun other hother => List.mem_cons_of_mem id hother
      | some i =>
        obtain ⟨hi, hkey, -⟩ := List.findIdx?_eq_some_iff_getElem.mp hfound
        have hleafSome : (leaf.find? fun other => other.key = entry.key).isSome := by
          rw [List.find?_isSome]
          exact ⟨leaf[i], List.getElem_mem hi, hkey⟩
        refine (ensures_assignEntry hidle.touched hextent hholds hleaf hi entry).mono ?_
        rintro present t ⟨rfl, page', hholds', hleaf', hsettles, hcounter⟩
        refine ⟨?_, ⟨⟨?_, hvalid, page', hholds', hleaf'⟩, ?_⟩, by simp, hsettles.mono ?_, hcounter⟩
        · rw [Option.isSome_or, hleafSome, Bool.true_or]
        · exact lt_of_lt_of_le hextent hsettles.evolves.extent
        · exact hrest.evolves hsettles.evolves fun other hother heq =>
            hnodup.1 (Set.mem_singleton_iff.mp heq ▸ hother)
        · rintro other rfl
          exact List.mem_cons_self

/-- An update changes the entry of a key that is present, and nothing if the key is absent. -/
theorem TreeLinked.ensures_btreeUpdate {s : PageArray} {root : ℕ} {chain : LeafPages}
    (h : TreeLinked s root chain) (hidle : s.Idle) (entry : BTreeLeafEntry) :
    arrayHandler.Ensures (btreeUpdate root entry.key entry.pageId entry.slotId) s
      fun present t => present = (chain.lookup entry.key).isSome ∧
        TreeLinked t root (chain.update entry) ∧ (present = false → t = s) ∧
          s.Settles t {id | id ∈ chain.ids} ∧ t.nextPageId = s.nextPageId := by
  rw [btreeUpdate, ← h.firstId_eq]
  refine (ensures_btreeUpdateFrom hidle h.leaves h.nodup entry
    (h.leaves.length_lt h.nodup)).mono ?_
  rintro present t ⟨hpresent, hleaves, hrest⟩
  have hids := LeafChain.ids_update BTreeLeafEntry.key entry chain
  refine ⟨hpresent, ⟨hleaves, ?_, ?_⟩, hrest⟩
  · rw [hids, h.firstId_eq, h.root]
  · rw [hids]
    exact h.nodup

/-- An update of a tree. -/
theorem TreeAt.ensures_btreeUpdate {s : PageArray} {root : ℕ} {chain : LeafPages}
    (h : TreeAt s root chain) (hidle : s.Idle) (entry : BTreeLeafEntry) :
    arrayHandler.Ensures (btreeUpdate root entry.key entry.pageId entry.slotId) s
      fun present t => present = (chain.lookup entry.key).isSome ∧
        TreeAt t root (chain.update entry) ∧ (present = false → t = s) ∧
          s.Settles t {id | id ∈ chain.ids} ∧ t.nextPageId = s.nextPageId := by
  refine (h.linked.ensures_btreeUpdate hidle entry).mono ?_
  rintro present t ⟨hpresent, hlinked, hrest⟩
  exact ⟨hpresent, ⟨hlinked.leaves, hlinked.root, hlinked.nodup, h.distinct.update entry⟩, hrest⟩

/-! ## Splitting -/

/-- The end of a split: one log record for both pages, and their checksums. -/
theorem ensures_stampSplit {s : PageArray} {first second : ℕ} (hchanging : s.Changing [first, second])
    (txnId : UInt32) (payload : List UInt8) {rest : PageProgram Unit} {post : Unit → PageArray → Prop}
    (hrest : ∀ t, Restamps s t [first, second] → arrayHandler.Ensures rest t post) :
    arrayHandler.Ensures (do
        logRecord txnId .btreeSplit first 0 payload [first, second]
        checksumPage first
        checksumPage second
        rest) s post := by
  refine (ensures_logRecord hchanging txnId .btreeSplit first 0 _).bind fun _ logged hlogged => ?_
  refine (ensures_checksumPage (hlogged.changing hchanging) List.mem_cons_self).bind fun _ summed hsummed => ?_
  have hboth := hlogged.trans hsummed
  refine (ensures_checksumPage (hboth.changing hchanging)
    (List.mem_cons_of_mem first (List.mem_singleton_self second))).bind fun _ t ht => ?_
  exact hrest t (hboth.trans ht)

/-- A split leaves the lower half in the page and moves the upper half to a new page behind it. -/
theorem ensures_splitLeafNode {s : PageArray} (hsettled : s.touched = ∅) {id next : ℕ}
    (hextent : id < s.extent) (hid : s.Fetchable id) {page : Page} {leaf : List BTreeLeafEntry}
    (hholds : s.Holds id page) (hleaf : IsLeaf page leaf next) (hnext : next < 2 ^ 32)
    (hnew : (s.pin id).Fetchable s.nextPageId) (hfresh : s.nextPageId ≠ id) (txnId : UInt32) :
    arrayHandler.Ensures (splitLeafNode id txnId) s fun _ t =>
      s.Settles t {id, s.nextPageId} ∧ t.nextPageId = s.nextPageId + 1 ∧ s.nextPageId < t.extent ∧
        (∃ low, t.Holds id low ∧ IsLeaf low (leaf.take (leaf.length / 2)) s.nextPageId) ∧
        ∃ high, t.Holds s.nextPageId high ∧ IsLeaf high (leaf.drop (leaf.length / 2)) next := by
  have hinvalid : invalidPageId = 4294967295 := rfl
  have hcounter : s.nextPageId < invalidPageId := hnew.1
  set newId := s.nextPageId
  set changed : Set ℕ := {id, newId}
  have hidMem : id ∈ changed := Set.mem_insert _ _
  have hnewMem : newId ∈ changed := Set.mem_insert_of_mem _ (Set.mem_singleton _)
  -- the new page is formatted, then it takes one half of the old leaf
  set formatted := (s.pin id).formatNew (slottedPageInit newId .btreeLeaf)
  have hextents : formatted.extent = max s.extent (newId + 1) := PageArray.extent_formatNew _ _
  have hnewFormatted : newId < formatted.extent := by omega
  have hidFormatted : formatted.Holds id page :=
    ((s.pin id).content_formatNew_of_lt hextent hfresh.symm _).trans hholds
  set mid := page.slotCount / 2 with hmid
  have hmidEq : mid = leaf.length / 2 := by rw [hmid, hleaf.slotCount]
  set high := ((slottedPageInit newId .btreeLeaf).takeLeafEntries page mid
    (page.slotCount - mid)).setNextLeafId page.nextLeafId with hhigh
  have hhighLeaf : IsLeaf high (leaf.drop (leaf.length / 2)) next := by
    rw [hhigh, hmidEq, hleaf.slotCount, hleaf.nextLeafId]
    exact (hleaf.takeLeafEntries (Nat.div_le_self _ _) newId).setNextLeafId hnext
  set moved := formatted.change newId high
  have hmovedExtent : moved.extent = max s.extent (newId + 1) :=
    (formatted.extent_change hnewFormatted high).trans hextents
  have hidMoved : moved.Holds id page :=
    (formatted.content_change_of_lt hnewFormatted hfresh.symm high).trans hidFormatted
  set low := (page.setSlotCount mid).setNextLeafId newId with hlow
  have hlowLeaf : IsLeaf low (leaf.take (leaf.length / 2)) newId := by
    rw [hlow, hmidEq]
    exact (hleaf.setSlotCount (Nat.div_le_self _ _)).setNextLeafId (by omega)
  set halved := moved.change id low
  have hidExtent : id < moved.extent := by omega
  have hhalvedExtent : halved.extent = max s.extent (newId + 1) :=
    (moved.extent_change hidExtent low).trans hmovedExtent
  have hevolves : s.Evolves halved changed :=
    ((((PageArray.Evolves.refl s _).pin id).formatNew hnewMem _).change hnewFormatted hnewMem
      high).change hidExtent hidMem low
  have hlowHolds : halved.Holds id low := moved.content_change_self id low
  have hhighHolds : halved.Holds newId high :=
    (moved.content_change_of_lt hidExtent hfresh low).trans (formatted.content_change_self newId high)
  have hpins : halved.pins = newId :: id :: s.pins := rfl
  have htouched : halved.touched = insert id (insert newId (insert newId s.touched)) := rfl
  have hchanging : halved.Changing [id, newId] := by
    intro pageId hpage
    rw [List.mem_pair] at hpage
    rw [hpins, htouched, hhalvedExtent]
    obtain rfl | rfl := hpage
    · exact ⟨by simp, by simp, by omega, low, hlowHolds⟩
    · exact ⟨by simp, by simp, by omega, high, hhighHolds⟩
  -- the run
  rw [splitLeafNode]
  refine .step (PageArray.exec_fetchPage hid) ?_
  simp only [Bool.not_true, Bool.false_eq_true, if_false]
  refine .step (PageArray.exec_takePageId hcounter) ?_
  refine .step (PageArray.exec_writeZeroPage _ _) ?_
  refine .step (PageArray.exec_fetchPage (hnew.of_pins rfl rfl)) ?_
  simp only [Bool.not_true, Bool.false_eq_true, if_false]
  refine .step (PageArray.exec_formatNew (s := s.pin id) fun _ _ => rfl) ?_
  refine .step (PageArray.exec_pageData (List.mem_cons_of_mem _ List.mem_cons_self) hidFormatted) ?_
  refine .step (PageArray.exec_modifyPage_of_holds List.mem_cons_self
    (PageArray.holds_formatNew (s.pin id) _) _) ?_
  refine .step (PageArray.exec_modifyPage_of_holds (List.mem_cons_of_mem _ List.mem_cons_self)
    hidMoved _) ?_
  refine ensures_stampSplit hchanging txnId _ fun t hstamped => ?_
  obtain ⟨hunpinOld, hunpinNew, hsettles⟩ := PageArray.settles_unpin_two (t := t) hsettled hfresh
    (hevolves.trans_same (hstamped.evolves.mono fun _ => List.mem_pair.mp))
    (hstamped.pins.trans hpins)
    (by rw [hstamped.touched, htouched, hsettled]; simp)
    (by rw [hstamped.extent]; omega) (by rw [hstamped.extent]; omega)
  refine .step hunpinOld (.of_exec hunpinNew ⟨hsettles, hstamped.nextPageId, ?_, ?_, ?_⟩)
  · exact hstamped.extent.symm ▸ (by omega)
  · obtain ⟨low', hholds', hbody⟩ := hstamped.body id (by simp) low hlowHolds
    exact ⟨low', hholds', hlowLeaf.sameBody hbody⟩
  · obtain ⟨high', hholds', hbody⟩ := hstamped.body newId (by simp) high hhighHolds
    exact ⟨high', hholds', hhighLeaf.sameBody hbody⟩

end FtsUring
