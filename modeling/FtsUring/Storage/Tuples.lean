import FtsUring.Storage.SlottedPage

/-!
# The tuples of a slotted page

A page that starts empty keeps every tuple that an insertion accepted. The tuples lie one below the other at
the end of the page and the slots one behind the other after the header, so the offset of a tuple follows
from the lengths of the tuples before it.
-/

namespace FtsUring

open Foundation

/-- Insert one more tuple; the accepted tuples are collected. -/
def storeTuple (state : List (List UInt8) × Page) (tuple : List UInt8) : List (List UInt8) × Page :=
  let answer := slottedPageInsertTuple state.2 tuple
  (if answer.1 then state.1 ++ [tuple] else state.1, answer.2)

/-- Insert tuples into a new page. -/
def storeTuples (pageId : ℕ) (pageType : PageType) (tuples : List (List UInt8)) :
    List (List UInt8) × Page :=
  tuples.foldl storeTuple ([], slottedPageInit pageId pageType)

/-- The bytes that tuples and their slots take. -/
def usedSpace (tuples : List (List UInt8)) : ℕ := (tuples.map fun tuple => 4 + tuple.length).sum

/-- The bytes of tuples. -/
def tupleBytes (tuples : List (List UInt8)) : ℕ := (tuples.map List.length).sum

/-- Where a tuple lies: below those before it. -/
def tupleOffset (tuples : List (List UInt8)) (i : ℕ) : ℕ := 4096 - tupleBytes (tuples.take (i + 1))

/-- A page with these tuples. -/
structure Page.StoresTuples (page : Page) (tuples : List (List UInt8)) : Prop where
  slotCount : page.slotCount = tuples.length
  lower : page.freeSpaceLower = 24 + 4 * tuples.length
  upper : page.freeSpaceUpper = 4096 - tupleBytes tuples
  fits : usedSpace tuples ≤ 4096 - 24
  offset : ∀ i < tuples.length, page.field (24 + 4 * i) 2 = tupleOffset tuples i
  length : ∀ i tuple, tuples[i]? = some tuple → page.field (24 + 4 * i + 2) 2 = tuple.length
  bytes : ∀ i tuple, tuples[i]? = some tuple → page.slice (tupleOffset tuples i) tuple.length = tuple

/-- What a page promises after insertions: it accepts what fits into the free bytes and keeps the others out,
returns every accepted tuple, and keeps the slots and the tuples apart. -/
structure Page.KeepsTuples (page : Page) (tuples : List (List UInt8)) : Prop where
  accepts : ∀ tuple, (slottedPageInsertTuple page tuple).1 = true ↔
    4 + tuple.length ≤ 4096 - 24 - usedSpace tuples
  refuses : ∀ tuple, (slottedPageInsertTuple page tuple).1 = false →
    (slottedPageInsertTuple page tuple).2 = page
  returns : ∀ i tuple, tuples[i]? = some tuple → ∃ ref, slottedPageGetTuple page i = some ref ∧
    ref.length = tuple.length ∧ page.tuple ref = tuple
  null : ∀ i, tuples.length ≤ i → slottedPageGetTuple page i = none
  apart : ∀ i ref, slottedPageGetTuple page i = some ref →
    24 + 4 * tuples.length ≤ ref.offset ∧ ref.offset + ref.length ≤ 4096
  disjoint : ∀ i j ref other, i < j → slottedPageGetTuple page i = some ref →
    slottedPageGetTuple page j = some other → other.offset + other.length ≤ ref.offset

/-! ## Space -/

/-- The space of one more tuple. -/
theorem usedSpace_concat (tuples : List (List UInt8)) (tuple : List UInt8) :
    usedSpace (tuples ++ [tuple]) = usedSpace tuples + (4 + tuple.length) := by
  simp [usedSpace]

/-- Every tuple has a slot. -/
theorem usedSpace_eq (tuples : List (List UInt8)) :
    usedSpace tuples = 4 * tuples.length + tupleBytes tuples := by
  induction tuples with
  | nil => rfl
  | cons tuple tuples ih =>
    simp only [usedSpace, tupleBytes, List.map_cons, List.sum_cons, List.length_cons] at ih ⊢
    omega

/-- The bytes of one more tuple. -/
theorem tupleBytes_concat (tuples : List (List UInt8)) (tuple : List UInt8) :
    tupleBytes (tuples ++ [tuple]) = tupleBytes tuples + tuple.length := by
  simp [tupleBytes]

/-- The bytes up to a tuple. -/
theorem tupleBytes_take_succ {tuples : List (List UInt8)} {i : ℕ} {tuple : List UInt8}
    (h : tuples[i]? = some tuple) :
    tupleBytes (tuples.take (i + 1)) = tupleBytes (tuples.take i) + tuple.length := by
  rw [List.take_add_one, h, Option.toList_some, tupleBytes_concat]

/-- The first tuples have no more bytes than all of them. -/
theorem tupleBytes_take_le (tuples : List (List UInt8)) {i j : ℕ} (h : i ≤ j) :
    tupleBytes (tuples.take i) ≤ tupleBytes (tuples.take j) := by
  have hinitial : tuples.take i <+: tuples.take j := List.take_prefix_take_left h
  exact (hinitial.sublist.map List.length).sum_le_sum fun _ _ => Nat.zero_le _

/-- All tuples have the bytes of all tuples. -/
theorem tupleBytes_take_le_all (tuples : List (List UInt8)) (i : ℕ) :
    tupleBytes (tuples.take i) ≤ tupleBytes tuples := by
  obtain hle | hgt := le_total i tuples.length
  · have hall := tupleBytes_take_le tuples hle
    rwa [List.take_length] at hall
  · rw [List.take_of_length_le hgt]

/-- The tuples before a new one stay where they are. -/
theorem tupleOffset_concat (tuples : List (List UInt8)) (tuple : List UInt8) {i : ℕ}
    (h : i < tuples.length) : tupleOffset (tuples ++ [tuple]) i = tupleOffset tuples i := by
  rw [tupleOffset, tupleOffset, List.take_append_of_le_length h]

/-- A new tuple lies below the others. -/
theorem tupleOffset_length (tuples : List (List UInt8)) (tuple : List UInt8) :
    tupleOffset (tuples ++ [tuple]) tuples.length = 4096 - tupleBytes tuples - tuple.length := by
  rw [tupleOffset, List.take_of_length_le (by simp), tupleBytes_concat]
  omega

/-- A tuple among some and a last one. -/
theorem getElem?_concat_eq_some {tuples : List (List UInt8)} {tuple other : List UInt8} {i : ℕ}
    (h : (tuples ++ [tuple])[i]? = some other) :
    tuples[i]? = some other ∨ i = tuples.length ∧ other = tuple := by
  obtain hlt | heq | hgt := lt_trichotomy i tuples.length
  · rw [List.getElem?_append_left hlt] at h
    exact .inl h
  · rw [heq, List.getElem?_concat_length, Option.some.injEq] at h
    exact .inr ⟨heq, h.symm⟩
  · rw [List.getElem?_eq_none (by simpa using hgt)] at h
    cases h

/-! ## One insertion -/

namespace Page.StoresTuples

variable {page : Page} {tuples : List (List UInt8)}

/-- A new page has no tuples. -/
theorem init (pageId : ℕ) (pageType : PageType) : (slottedPageInit pageId pageType).StoresTuples [] := by
  obtain ⟨-, hcount, hlower, hupper, -⟩ := slottedPageInit_fields pageId pageType
  refine ⟨hcount, hlower, hupper, Nat.zero_le _, fun i hi => ?_, fun i tuple htuple => ?_,
    fun i tuple htuple => ?_⟩
  · exact absurd hi (Nat.not_lt_zero i)
  · cases htuple
  · cases htuple

/-- A tuple that does not fit is refused. -/
theorem insert_full (h : page.StoresTuples tuples) {tuple : List UInt8}
    (hfull : 4096 - 24 - usedSpace tuples < 4 + tuple.length) :
    slottedPageInsertTuple page tuple = (false, page) := by
  have hspace := usedSpace_eq tuples
  have hfits := h.fits
  have hlower := h.lower
  have hupper := h.upper
  apply slottedPageInsertTuple_full <;> omega

/-- A tuple that fits is stored. -/
theorem insert_fits (h : page.StoresTuples tuples) {tuple : List UInt8}
    (hfits : 4 + tuple.length ≤ 4096 - 24 - usedSpace tuples) :
    (slottedPageInsertTuple page tuple).1 = true ∧
      (slottedPageInsertTuple page tuple).2.StoresTuples (tuples ++ [tuple]) := by
  have hspace := usedSpace_eq tuples
  have hused := h.fits
  have hlower := h.lower
  have hupper := h.upper
  have hcount := h.slotCount
  obtain ⟨hok, hinserted⟩ := @slottedPageInsertTuple_fits page tuple (by omega) (by omega) (by omega)
    (by omega)
  refine ⟨hok, ?_, ?_, ?_, ?_, fun i hi => ?_, fun i other hother => ?_, fun i other hother => ?_⟩
  · rw [hinserted.slotCount, hcount, List.length_append, List.length_singleton]
  · rw [hinserted.lower, hlower, List.length_append, List.length_singleton]
    omega
  · rw [hinserted.upper, hupper, tupleBytes_concat]
    omega
  · rw [usedSpace_concat]
    omega
  · rw [List.length_append, List.length_singleton] at hi
    obtain hi | rfl := Nat.lt_succ_iff_lt_or_eq.mp hi
    · rw [hinserted.oldSlots _ _ (by omega) (by omega), h.offset i hi, tupleOffset_concat _ _ hi]
    · rw [tupleOffset_length, ← hlower, hinserted.slotOffset, hupper]
  · obtain hother | ⟨rfl, rfl⟩ := getElem?_concat_eq_some hother
    · have hi := (List.getElem?_eq_some_iff.mp hother).1
      rw [hinserted.oldSlots _ _ (by omega) (by omega), h.length i other hother]
    · have hslot : 24 + 4 * tuples.length + 2 = page.freeSpaceLower + 2 := by omega
      rw [hslot, hinserted.slotLength]
  · obtain hother | ⟨rfl, rfl⟩ := getElem?_concat_eq_some hother
    · have hi := (List.getElem?_eq_some_iff.mp hother).1
      have hoffset : page.freeSpaceUpper ≤ tupleOffset tuples i := by
        have hbytes := tupleBytes_take_le_all tuples (i + 1)
        rw [tupleOffset]
        omega
      rw [tupleOffset_concat _ _ hi, hinserted.oldTuples _ _ hoffset, h.bytes i other hother]
    · rw [tupleOffset_length, ← hupper, hinserted.tuple]

/-- The slot of a tuple. -/
theorem getTuple (h : page.StoresTuples tuples) {i : ℕ} {tuple : List UInt8} (htuple : tuples[i]? = some tuple) :
    slottedPageGetTuple page i = some ⟨tupleOffset tuples i, tuple.length⟩ := by
  have hi : i < tuples.length := (List.getElem?_eq_some_iff.mp htuple).1
  rw [slottedPageGetTuple, if_neg (by rw [h.slotCount]; omega), h.offset i hi, h.length i tuple htuple]

/-- There are no other slots. -/
theorem getTuple_of_le (h : page.StoresTuples tuples) {i : ℕ} (hi : tuples.length ≤ i) :
    slottedPageGetTuple page i = none := by
  rw [slottedPageGetTuple, if_pos (h.slotCount ▸ hi)]

/-- A page with tuples keeps them. -/
theorem keepsTuples (h : page.StoresTuples tuples) : page.KeepsTuples tuples := by
  have hspace := usedSpace_eq tuples
  have hused := h.fits
  -- a slot that is found is that of a tuple
  have hfound : ∀ i ref, slottedPageGetTuple page i = some ref → ∃ tuple, tuples[i]? = some tuple ∧
      ref = ⟨tupleOffset tuples i, tuple.length⟩ := by
    intro i ref hget
    obtain hi | hi := Nat.lt_or_ge i tuples.length
    · refine ⟨tuples[i], List.getElem?_eq_getElem hi, ?_⟩
      rw [h.getTuple (List.getElem?_eq_getElem hi)] at hget
      exact (Option.some.inj hget).symm
    · rw [h.getTuple_of_le hi] at hget
      cases hget
  constructor
  · intro tuple
    obtain hfits | hfull := Nat.lt_or_ge (4096 - 24 - usedSpace tuples) (4 + tuple.length)
    · rw [h.insert_full hfits]
      exact iff_of_false Bool.false_ne_true (not_le.mpr hfits)
    · exact iff_of_true (h.insert_fits hfull).1 hfull
  · intro tuple hrefused
    obtain hfits | hfull := Nat.lt_or_ge (4096 - 24 - usedSpace tuples) (4 + tuple.length)
    · rw [h.insert_full hfits]
    · rw [(h.insert_fits hfull).1] at hrefused
      cases hrefused
  · exact fun i tuple htuple => ⟨_, h.getTuple htuple, rfl, h.bytes i tuple htuple⟩
  · exact fun i hi => h.getTuple_of_le hi
  · intro i ref hget
    obtain ⟨tuple, htuple, rfl⟩ := hfound i ref hget
    have hupto := tupleBytes_take_le_all tuples (i + 1)
    have hsucc := tupleBytes_take_succ htuple
    dsimp only [tupleOffset]
    constructor <;> omega
  · intro i j ref other hlt hget hother
    obtain ⟨tuple, htuple, rfl⟩ := hfound i ref hget
    obtain ⟨lower, hlower, rfl⟩ := hfound j other hother
    have hbelow : tupleBytes (tuples.take (i + 1)) ≤ tupleBytes (tuples.take j) := tupleBytes_take_le tuples hlt
    have hupto := tupleBytes_take_le_all tuples (j + 1)
    have hsucc := tupleBytes_take_succ hlower
    dsimp only [tupleOffset]
    omega

end Page.StoresTuples

/-! ## Sequences of insertions -/

/-- An insertion in terms of its answer. -/
theorem storeTuple_of_eq {state : List (List UInt8) × Page} {tuple : List UInt8} {answer : Bool × Page}
    (h : slottedPageInsertTuple state.2 tuple = answer) :
    storeTuple state tuple = (if answer.1 then state.1 ++ [tuple] else state.1, answer.2) := by
  subst h
  rfl

/-- One more insertion keeps the tuples stored. -/
theorem storesTuples_storeTuple {state : List (List UInt8) × Page} (h : state.2.StoresTuples state.1)
    (tuple : List UInt8) : (storeTuple state tuple).2.StoresTuples (storeTuple state tuple).1 := by
  obtain hfull | hfits := Nat.lt_or_ge (4096 - 24 - usedSpace state.1) (4 + tuple.length)
  · rw [storeTuple_of_eq (h.insert_full hfull)]
    exact h
  · obtain ⟨hok, hstored⟩ := h.insert_fits hfits
    cases hinsert : slottedPageInsertTuple state.2 tuple with
    | mk ok page =>
      rw [hinsert] at hok hstored
      rw [storeTuple_of_eq hinsert]
      obtain rfl : ok = true := hok
      exact hstored

/-- A page that was empty stores the tuples that it accepted. -/
theorem storesTuples_storeTuples (pageId : ℕ) (pageType : PageType) (tuples : List (List UInt8)) :
    (storeTuples pageId pageType tuples).2.StoresTuples (storeTuples pageId pageType tuples).1 := by
  induction tuples using List.reverseRecOn with
  | nil => exact .init pageId pageType
  | append_singleton tuples tuple ih =>
    rw [storeTuples, List.foldl_append]
    exact storesTuples_storeTuple ih tuple

/-- After any insertions into a new page, a tuple is accepted exactly when it and its slot fit into the bytes
that the accepted tuples left, a refused one changes nothing, and the accepted tuples are returned and lie
apart from each other and from the slots. -/
theorem keepsTuples_storeTuples (pageId : ℕ) (pageType : PageType) (tuples : List (List UInt8)) :
    (storeTuples pageId pageType tuples).2.KeepsTuples (storeTuples pageId pageType tuples).1 :=
  (storesTuples_storeTuples pageId pageType tuples).keepsTuples

end FtsUring
