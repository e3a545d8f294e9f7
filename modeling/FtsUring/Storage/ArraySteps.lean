import FtsUring.Storage.PageArray

/-!
# Steps of the page array

How the array of pages evolves while a program of the upper layers runs. `Evolves before after
changed` is the frame condition of such a step: written pages outside of `changed` keep their
content, and an array in which exactly the allocated pages are written stays one. `Idle` are the
states in which the functions of the upper layers start and end: nothing is half changed, and
there is room for two more pins.
-/

namespace FtsUring

open Foundation

namespace PageArray

/-- Nothing is half changed, and two more pages can be pinned. -/
structure Idle (s : PageArray) : Prop where
  touched : s.touched = ∅
  room : s.pins.dedup.length + 2 ≤ s.room
  pinLimit : s.pins.length + 2 < 2 ^ 32

/-- Any page can be pinned. -/
theorem Idle.fetchable {s : PageArray} (h : s.Idle) {pageId : ℕ} (hpage : pageId < invalidPageId) :
    s.Fetchable pageId := by
  have hroom := h.room
  have hlimit := h.pinLimit
  exact ⟨hpage, Or.inr (by omega), by omega⟩

/-- A second page can be pinned, whatever happened since the first one was. -/
theorem Idle.fetchable_of_pins {s t : PageArray} (h : s.Idle) {first pageId : ℕ}
    (hpins : t.pins = first :: s.pins) (hroom : t.room = s.room) (hpage : pageId < invalidPageId) :
    t.Fetchable pageId := by
  have hdedup : (first :: s.pins).dedup.length ≤ s.pins.dedup.length + 1 := by
    by_cases hmem : first ∈ s.pins
    · rw [List.dedup_cons_of_mem hmem]
      exact Nat.le_succ _
    · rw [List.dedup_cons_of_notMem hmem]
      exact le_refl _
  have hfirst := h.room
  have hlimit := h.pinLimit
  refine ⟨hpage, Or.inr ?_, ?_⟩
  · rw [hpins, hroom]
    omega
  · rw [hpins, List.length_cons]
    omega

/-- What can be fetched depends on the pins. -/
theorem Fetchable.of_pins {s t : PageArray} {pageId : ℕ} (h : s.Fetchable pageId) (hpins : t.pins = s.pins)
    (hroom : t.room = s.room) : t.Fetchable pageId := by
  rw [Fetchable, hpins, hroom]
  exact h

/-- A page that can be fetched beside another one can be fetched without that one. -/
theorem Fetchable.of_pin {s : PageArray} {first pageId : ℕ} (h : (s.pin first).Fetchable pageId)
    (hne : pageId ≠ first) : s.Fetchable pageId := by
  obtain ⟨hvalid, hroom, hlimit⟩ := h
  have hpins : (s.pin first).pins = first :: s.pins := rfl
  rw [hpins, List.length_cons] at hlimit
  refine ⟨hvalid, hroom.imp (fun hmem => ?_) fun hlt => ?_, by omega⟩
  · rw [hpins, List.mem_cons] at hmem
    exact hmem.resolve_left hne
  · have hle : s.pins.dedup.length ≤ (first :: s.pins).dedup.length := by
      by_cases hmem : first ∈ s.pins
      · rw [List.dedup_cons_of_mem hmem]
      · rw [List.dedup_cons_of_notMem hmem]
        exact Nat.le_succ _
    exact lt_of_le_of_lt hle hlt

/-- A state with the same pins is idle when nothing is half changed in it. -/
theorem Idle.of_pins {s t : PageArray} (h : s.Idle) (hpins : t.pins = s.pins)
    (hroom : t.room = s.room) (htouched : t.touched = ∅) : t.Idle :=
  ⟨htouched, by rw [hpins, hroom]; exact h.room, by rw [hpins]; exact h.pinLimit⟩

/-- Releasing the pin that was taken last. -/
theorem unpin_pin (s : PageArray) (pageId : ℕ) : (s.pin pageId).unpin pageId false = s := by
  simp only [unpin, pin, List.erase_cons_head, Bool.false_eq_true, if_false]

/-- A pinned page is pinned. -/
theorem mem_pins_pin (s : PageArray) (pageId : ℕ) : pageId ∈ (s.pin pageId).pins :=
  List.mem_cons_self

/-- Exchange the log. -/
def setLog (s : PageArray) (wal : Option WALManager) (walFile : List UInt8) : PageArray :=
  { s with wal, walFile }

/-- Take the next page id and zero its page in the file. -/
def allocate (s : PageArray) : PageArray :=
  { s with nextPageId := s.nextPageId + 1 }.zeroOnDisk s.nextPageId

/-- Appending a record changes nothing but the log. -/
theorem exists_exec_walAppend {s : PageArray} (hwal : s.wal.isSome) (txnId : UInt32)
    (recType : WALRecordType) (pageId : UInt32) (slotId : UInt16) (payload : List UInt8) :
    ∃ lsn wal' walFile, arrayHandler.exec (walAppend txnId recType pageId slotId payload) s =
      some (lsn, s.setLog (some wal') walFile) := by
  obtain ⟨wal, hwal⟩ := Option.isSome_iff_exists.mp hwal
  exact ⟨_, _, _, exec_walAppend hwal txnId recType pageId slotId payload⟩

/-! ## Frame conditions -/

/-- Only the pages in `changed` and pages that were never written have a new content. -/
structure Evolves (s t : PageArray) (changed : Set ℕ) : Prop where
  room : t.room = s.room
  wal : t.wal.isSome = s.wal.isSome
  extent : s.extent ≤ t.extent
  content : ∀ pageId < s.extent, pageId ∉ changed → t.content pageId = s.content pageId
  beyond : ∀ pageId, t.extent ≤ pageId → t.content pageId = s.content pageId
  counter : s.nextPageId ≤ t.nextPageId
  compact : s.extent = s.nextPageId → t.extent = t.nextPageId

namespace Evolves

variable {s t u : PageArray} {changed changed' : Set ℕ} {pageId : ℕ}

/-- Nothing happened. -/
theorem refl (s : PageArray) (changed : Set ℕ) : Evolves s s changed :=
  ⟨rfl, rfl, le_refl _, fun _ _ _ => rfl, fun _ _ => rfl, le_refl _, id⟩

/-- Two steps. -/
theorem trans (h : Evolves s t changed) (h' : Evolves t u changed') :
    Evolves s u (changed ∪ changed') := by
  refine ⟨h'.room.trans h.room, h'.wal.trans h.wal, h.extent.trans h'.extent, ?_, ?_,
    h.counter.trans h'.counter, fun hcompact => h'.compact (h.compact hcompact)⟩
  · intro pageId hpage hout
    rw [Set.mem_union, not_or] at hout
    rw [h'.content pageId (lt_of_lt_of_le hpage h.extent) hout.2, h.content pageId hpage hout.1]
  · intro pageId hpage
    rw [h'.beyond pageId hpage, h.beyond pageId (h'.extent.trans hpage)]

/-- Allowing more pages to change. -/
theorem mono (h : Evolves s t changed) (hsub : changed ⊆ changed') : Evolves s t changed' :=
  { h with content := fun pageId hpage hout =>
      h.content pageId hpage fun hmem => hout (hsub hmem) }

/-- Two steps that change the same pages. -/
theorem trans_same (h : Evolves s t changed) (h' : Evolves t u changed) : Evolves s u changed :=
  (h.trans h').mono (Set.union_subset (Set.Subset.refl _) (Set.Subset.refl _))

/-- A page that was not changed keeps its certain content. -/
theorem holds (h : Evolves s t changed) (hpage : pageId < s.extent) (hout : pageId ∉ changed)
    {page : Page} (hholds : s.Holds pageId page) : t.Holds pageId page :=
  (h.content pageId hpage hout).trans hholds

/-- Pinning a page. -/
theorem pin (h : Evolves s t changed) (pageId : ℕ) : Evolves s (t.pin pageId) changed :=
  { h with }

/-- Releasing a page. -/
theorem unpin (h : Evolves s t changed) (pageId : ℕ) (isDirty : Bool) :
    Evolves s (t.unpin pageId isDirty) changed :=
  { h with }

/-- Writing to the log. -/
theorem setLog (h : Evolves s t changed) {wal : Option WALManager}
    (hwal : wal.isSome = t.wal.isSome) (walFile : List UInt8) :
    Evolves s (t.setLog wal walFile) changed :=
  { h with wal := hwal.trans h.wal }

end Evolves

/-- Changing a written page does not move the extent. -/
theorem extend_of_lt (s : PageArray) {pageId : ℕ} (hpage : pageId < s.extent) :
    s.extend pageId = s := by
  have hcontent : (s.extend pageId).content = s.content := by
    funext other
    apply if_neg
    omega
  have hextent : max s.extent (pageId + 1) = s.extent := max_eq_left hpage
  have hfields : s.extend pageId = { s with
    content := (s.extend pageId).content, extent := max s.extent (pageId + 1) } := rfl
  rw [hfields, hcontent, hextent]

/-- The extent after a written page was changed. -/
theorem extent_change (s : PageArray) {pageId : ℕ} (hpage : pageId < s.extent) (page : Page) :
    (s.change pageId page).extent = s.extent := by
  rw [change, s.extend_of_lt hpage]

/-- The other pages after a written page was changed. -/
theorem content_change_of_lt (s : PageArray) {pageId other : ℕ} (hpage : pageId < s.extent)
    (hother : other ≠ pageId) (page : Page) :
    (s.change pageId page).content other = s.content other := by
  rw [content_change_of_ne s hother, s.extend_of_lt hpage]

/-- Changing a written page. -/
theorem Evolves.change {s t : PageArray} {changed : Set ℕ} (h : Evolves s t changed) {pageId : ℕ}
    (hpage : pageId < t.extent) (hmem : pageId ∈ changed) (page : Page) :
    Evolves s (t.change pageId page) changed := by
  have hextent := t.extent_change hpage page
  have hsame : ∀ {other}, other ≠ pageId → (t.change pageId page).content other = t.content other :=
    fun hother => t.content_change_of_lt hpage hother page
  refine ⟨h.room, h.wal, hextent ▸ h.extent, ?_, ?_, h.counter, ?_⟩
  · intro other hother hout
    rw [hsame (ne_of_mem_of_not_mem hmem hout).symm, h.content other hother hout]
  · intro other hother
    rw [hextent] at hother
    rw [hsame (by omega), h.beyond other hother]
  · intro hcompact
    rw [hextent]
    exact h.compact hcompact

/-- The extent after a page was allocated. -/
theorem extent_allocate (s : PageArray) : s.allocate.extent = max s.extent (s.nextPageId + 1) := rfl

/-- Allocating a page. -/
theorem Evolves.allocate {s t : PageArray} {changed : Set ℕ} (h : Evolves s t changed)
    (hmem : t.nextPageId < t.extent → t.nextPageId ∈ changed) : Evolves s t.allocate changed := by
  have hcounter : t.allocate.nextPageId = t.nextPageId + 1 := rfl
  have hcontent : ∀ {other}, other ≠ t.nextPageId → (other < t.extent ∨ t.nextPageId ≤ other) →
      t.allocate.content other = t.content other := by
    intro other hother hrange
    refine (content_zeroOnDisk_of_ne _ hother).trans ?_
    obtain hlow | hhigh := hrange
    · exact content_extend_of_lt _ hlow
    · exact content_extend_of_le _ hhigh
  refine ⟨h.room, h.wal, h.extent.trans (le_max_left _ _), ?_, ?_, ?_, ?_⟩
  · intro other hother hout
    have hlt : other < t.extent := lt_of_lt_of_le hother h.extent
    have hne : other ≠ t.nextPageId := by
      intro heq
      exact hout (heq ▸ hmem (heq ▸ hlt))
    rw [hcontent hne (Or.inl hlt), h.content other hother hout]
  · intro other hother
    rw [extent_allocate, max_le_iff] at hother
    rw [hcontent (by omega) (Or.inr (by omega)), h.beyond other hother.1]
  · exact h.counter.trans (Nat.le_succ _)
  · intro hcompact
    rw [extent_allocate, hcounter, h.compact hcompact]
    omega

/-- A function of the upper layers has run: it released what it pinned, and left nothing half
changed. -/
structure Settles (s t : PageArray) (changed : Set ℕ) : Prop where
  evolves : s.Evolves t changed
  pins : t.pins = s.pins
  touched : t.touched = s.touched

namespace Settles

variable {s t u : PageArray} {changed changed' : Set ℕ}

/-- Nothing happened. -/
theorem refl (s : PageArray) (changed : Set ℕ) : Settles s s changed :=
  ⟨.refl s changed, rfl, rfl⟩

/-- Two functions. -/
theorem trans (h : Settles s t changed) (h' : Settles t u changed') :
    Settles s u (changed ∪ changed') :=
  ⟨h.evolves.trans h'.evolves, h'.pins.trans h.pins, h'.touched.trans h.touched⟩

/-- Allowing more pages to change. -/
theorem mono (h : Settles s t changed) (hsub : changed ⊆ changed') : Settles s t changed' :=
  { h with evolves := h.evolves.mono hsub }

/-- The next function can run. -/
theorem idle (h : Settles s t changed) (hidle : s.Idle) : t.Idle :=
  hidle.of_pins h.pins h.evolves.room (h.touched.trans hidle.touched)

end Settles

/-- The content of an allocated page. -/
theorem content_allocate (s : PageArray) :
    s.allocate.content s.nextPageId = insert Page.zero (s.content s.nextPageId) :=
  content_zeroOnDisk_self _ _

/-- A function that maps every possible content of a page to the same one makes it certain. -/
theorem image_eq_singleton {contents : Set Page} {change : Page → Page} {page : Page}
    (hnonempty : contents.Nonempty) (h : ∀ old ∈ contents, change old = page) :
    change '' contents = {page} := by
  apply Set.eq_singleton_iff_nonempty_unique_mem.mpr
  refine ⟨hnonempty.image change, ?_⟩
  rintro _ ⟨old, hold, rfl⟩
  exact h old hold

/-- Only the last of two changes of a page remains. -/
theorem change_change (s : PageArray) (pageId : ℕ) (page page' : Page) :
    (s.change pageId page).change pageId page' = s.change pageId page' := by
  have hextent : pageId < (s.change pageId page).extent :=
    lt_of_lt_of_le (Nat.lt_succ_self _) (le_max_right _ _)
  have hextend := (s.change pageId page).extend_of_lt hextent
  rw [change, hextend]
  simp only [change, Function.update_idem, Set.insert_idem]

/-! ## New pages -/

/-- Allocate a page, pin it and give it its first content. -/
def formatNew (s : PageArray) (page : Page) : PageArray :=
  (s.allocate.pin s.nextPageId).change s.nextPageId page

/-- The new page lies in the written part of the array. -/
theorem lt_extent_allocate (s : PageArray) : s.nextPageId < (s.allocate.pin s.nextPageId).extent :=
  lt_of_lt_of_le (Nat.lt_succ_self _) (le_max_right _ _)

/-- The extent with the new page. -/
theorem extent_formatNew (s : PageArray) (page : Page) :
    (s.formatNew page).extent = max s.extent (s.nextPageId + 1) :=
  extent_change _ s.lt_extent_allocate page

/-- The content of the new page. -/
theorem holds_formatNew (s : PageArray) (page : Page) : (s.formatNew page).Holds s.nextPageId page :=
  content_change_self _ _ _

/-- The written pages keep their content. -/
theorem content_formatNew_of_lt (s : PageArray) {pageId : ℕ} (hpage : pageId < s.extent)
    (hne : pageId ≠ s.nextPageId) (page : Page) :
    (s.formatNew page).content pageId = s.content pageId := by
  rw [formatNew, content_change_of_lt _ s.lt_extent_allocate hne]
  exact (content_zeroOnDisk_of_ne _ hne).trans (content_extend_of_lt _ hpage)

/-- A new page. -/
theorem Evolves.formatNew {s t : PageArray} {changed : Set ℕ} (h : Evolves s t changed)
    (hmem : t.nextPageId ∈ changed) (page : Page) : Evolves s (t.formatNew page) changed :=
  ((h.allocate fun _ => hmem).pin t.nextPageId).change t.lt_extent_allocate hmem page

/-- Giving a new page its first content. -/
theorem exec_formatNew {s : PageArray} {change : Page → Page} {page : Page}
    (h : ∀ old ∈ insert Page.zero (s.content s.nextPageId), change old = page) :
    arrayHandler.exec (modifyPage s.nextPageId change) (s.allocate.pin s.nextPageId) =
      some ((), s.formatNew page) := by
  apply exec_modifyPage (mem_pins_pin _ _)
  rw [← s.content_allocate] at h
  refine image_eq_singleton ⟨Page.zero, ?_⟩ h
  change Page.zero ∈ s.allocate.content s.nextPageId
  rw [s.content_allocate]
  exact Set.mem_insert _ _

/-- Releasing a page that was changed once. -/
theorem settles_unpin_change {s : PageArray} (hidle : s.Idle) {pageId : ℕ} (hextent : pageId < s.extent)
    (page : Page) :
    arrayHandler.exec (unpinPage pageId true .normal) ((s.pin pageId).change pageId page) =
        some ((), ((s.pin pageId).change pageId page).unpin pageId true) ∧
      s.Settles (((s.pin pageId).change pageId page).unpin pageId true) {pageId} ∧
        (((s.pin pageId).change pageId page).unpin pageId true).Holds pageId page := by
  have hmem : pageId ∈ ((s.pin pageId).change pageId page).pins := List.mem_cons_self
  have hlt : pageId < ((s.pin pageId).change pageId page).extent := by
    rw [extent_change (s.pin pageId) hextent]
    exact hextent
  have hevolves : s.Evolves ((s.pin pageId).change pageId page) {pageId} :=
    ((Evolves.refl s _).pin pageId).change hextent (Set.mem_singleton _) page
  refine ⟨exec_unpinPage hmem (fun _ => rfl) (fun _ => hlt) .normal,
    ⟨hevolves.unpin pageId true, List.erase_cons_head _ _, ?_⟩, content_change_self _ _ _⟩
  change insert pageId s.touched \ {pageId} = s.touched
  rw [hidle.touched, Set.insert_sdiff_of_mem _ (Set.mem_singleton pageId), Set.empty_sdiff]

/-- Releasing a new page that was changed once. -/
theorem settles_unpin_formatNew {s : PageArray} (hidle : s.Idle) (page : Page) :
    arrayHandler.exec (unpinPage s.nextPageId true .normal) (s.formatNew page) =
        some ((), (s.formatNew page).unpin s.nextPageId true) ∧
      s.Settles ((s.formatNew page).unpin s.nextPageId true) {s.nextPageId} ∧
        ((s.formatNew page).unpin s.nextPageId true).Holds s.nextPageId page := by
  have hmem : s.nextPageId ∈ (s.formatNew page).pins := List.mem_cons_self
  have hlt : s.nextPageId < (s.formatNew page).extent := by
    rw [extent_formatNew]
    omega
  have hevolves : s.Evolves (s.formatNew page) {s.nextPageId} :=
    (Evolves.refl s _).formatNew (Set.mem_singleton _) page
  refine ⟨exec_unpinPage hmem (fun _ => rfl) (fun _ => hlt) .normal,
    ⟨hevolves.unpin s.nextPageId true, List.erase_cons_head _ _, ?_⟩, s.holds_formatNew page⟩
  change insert s.nextPageId s.touched \ {s.nextPageId} = s.touched
  rw [hidle.touched, Set.insert_sdiff_of_mem _ (Set.mem_singleton _), Set.empty_sdiff]

/-- Releasing a page that was only read, and then a new page that was allocated in the meantime. -/
theorem settles_unpin_read_formatNew {s : PageArray} (hidle : s.Idle) {first : ℕ}
    (hne : first ≠ s.nextPageId) (page : Page) :
    arrayHandler.exec (unpinPage first false .normal) ((s.pin first).formatNew page) =
        some ((), ((s.pin first).formatNew page).unpin first false) ∧
      arrayHandler.exec (unpinPage s.nextPageId true .normal)
          (((s.pin first).formatNew page).unpin first false) =
        some ((), (((s.pin first).formatNew page).unpin first false).unpin s.nextPageId true) ∧
      s.Settles ((((s.pin first).formatNew page).unpin first false).unpin s.nextPageId true)
        {s.nextPageId} ∧
      ((((s.pin first).formatNew page).unpin first false).unpin s.nextPageId true).Holds s.nextPageId
        page := by
  set formatted := (s.pin first).formatNew page with hformatted
  have hpins : formatted.pins = s.nextPageId :: first :: s.pins := rfl
  have htouched : formatted.touched = insert s.nextPageId s.touched := rfl
  have hextent : s.nextPageId < formatted.extent := by
    rw [hformatted, extent_formatNew]
    exact lt_of_lt_of_le (Nat.lt_succ_self _) (le_max_right _ _)
  have hpinsFirst : (formatted.unpin first false).pins = s.nextPageId :: s.pins := by
    rw [unpin, hpins, List.erase_cons_tail (by simpa using hne.symm), List.erase_cons_head]
  have hfirst : first ∈ formatted.pins := hpins ▸ List.mem_cons_of_mem _ List.mem_cons_self
  have hnew : s.nextPageId ∈ (formatted.unpin first false).pins := hpinsFirst ▸ List.mem_cons_self
  have hclean : first ∉ formatted.touched := by
    rw [htouched, hidle.touched]
    simpa using hne
  have hevolves : s.Evolves formatted {s.nextPageId} :=
    ((Evolves.refl s _).pin first).formatNew (Set.mem_singleton _) page
  refine ⟨exec_unpinPage hfirst (fun hmem => absurd hmem hclean) (by simp) .normal,
    exec_unpinPage hnew (fun _ => rfl) (fun _ => hextent) .normal,
    ⟨(hevolves.unpin first false).unpin s.nextPageId true, ?_, ?_⟩, (s.pin first).holds_formatNew page⟩
  · rw [unpin, hpinsFirst, List.erase_cons_head]
  · change formatted.touched \ {s.nextPageId} = s.touched
    rw [htouched, hidle.touched, Set.insert_sdiff_of_mem _ (Set.mem_singleton _), Set.empty_sdiff]

/-- Releasing the two pages that a function changed. -/
theorem settles_unpin_two {s t : PageArray} {changed : Set ℕ} (hsettled : s.touched = ∅) {first second : ℕ}
    (hne : second ≠ first) (hevolves : s.Evolves t changed) (hpins : t.pins = second :: first :: s.pins)
    (htouched : t.touched ⊆ {first, second}) (hfirst : first < t.extent) (hsecond : second < t.extent) :
    arrayHandler.exec (unpinPage first true .normal) t = some ((), t.unpin first true) ∧
      arrayHandler.exec (unpinPage second true .normal) (t.unpin first true) =
        some ((), (t.unpin first true).unpin second true) ∧
      s.Settles ((t.unpin first true).unpin second true) changed := by
  have hfirstMem : first ∈ t.pins := hpins ▸ List.mem_cons_of_mem _ List.mem_cons_self
  have hpinsFirst : (t.unpin first true).pins = second :: s.pins := by
    rw [unpin, hpins, List.erase_cons_tail (by simpa using hne), List.erase_cons_head]
  have hsecondMem : second ∈ (t.unpin first true).pins := hpinsFirst ▸ List.mem_cons_self
  have hsecondExtent : second < (t.unpin first true).extent := hsecond
  refine ⟨exec_unpinPage hfirstMem (fun _ => rfl) (fun _ => hfirst) .normal,
    exec_unpinPage hsecondMem (fun _ => rfl) (fun _ => hsecondExtent) .normal,
    (hevolves.unpin first true).unpin second true, ?_, ?_⟩
  · rw [unpin, hpinsFirst, List.erase_cons_head]
  · have hempty : ((t.unpin first true).unpin second true).touched =
        (t.touched \ {first}) \ {second} := rfl
    rw [hempty, hsettled, Set.sdiff_sdiff, Set.sdiff_eq_empty]
    exact htouched

/-- Releasing both pins of the only page that a function changed. -/
theorem settles_unpin_twice {s t : PageArray} {changed : Set ℕ} (hsettled : s.touched = ∅) {pageId : ℕ}
    (hevolves : s.Evolves t changed) (hpins : t.pins = pageId :: pageId :: s.pins)
    (htouched : t.touched = {pageId}) (hextent : pageId < t.extent) :
    arrayHandler.exec (unpinPage pageId true .normal) t = some ((), t.unpin pageId true) ∧
      arrayHandler.exec (unpinPage pageId true .normal) (t.unpin pageId true) =
        some ((), (t.unpin pageId true).unpin pageId true) ∧
      s.Settles ((t.unpin pageId true).unpin pageId true) changed := by
  have hpinsFirst : (t.unpin pageId true).pins = pageId :: s.pins := by
    rw [unpin, hpins, List.erase_cons_head]
  have hextentFirst : pageId < (t.unpin pageId true).extent := hextent
  refine ⟨exec_unpinPage (hpins ▸ List.mem_cons_self) (fun _ => rfl) (fun _ => hextent) .normal,
    exec_unpinPage (hpinsFirst ▸ List.mem_cons_self) (fun _ => rfl) (fun _ => hextentFirst) .normal,
    (hevolves.unpin pageId true).unpin pageId true, ?_, ?_⟩
  · rw [unpin, hpinsFirst, List.erase_cons_head]
  · have hempty : ((t.unpin pageId true).unpin pageId true).touched = (t.touched \ {pageId}) \ {pageId} := rfl
    rw [hempty, htouched, Set.sdiff_self, Set.empty_sdiff, hsettled]

end PageArray

end FtsUring
