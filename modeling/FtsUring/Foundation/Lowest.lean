import FtsUring.Foundation.TopK

/-!
# Ties for the last place, and the lowest entry of each label

Which of several equal items a selection of the best ones takes is left open when there is no room for all of them.
The other items are taken by every selection or by none. When labelled entries are selected and one entry of each
label is kept, a lowest one, the keys that remain do not depend on the selection, as long as the entries that tie for
the last place have labels of their own.
-/

namespace Foundation

variable {α κ : Type*} [LT κ]

section Ties

variable [DecidableLT κ]

/-- Fewer items are larger than there is room for, but there is no room for all that are not smaller. -/
def TiesAcross (key : α → κ) (limit : ℕ) (items : List α) (x : α) : Prop :=
  items.countP (fun y => key x < key y) < limit ∧ limit < items.countP fun y => ¬key y < key x

namespace IsTopK

variable {numbers : κ → Prop} {key : α → κ} {limit : ℕ} {items selected selected' : List α}

/-- How often an item is selected that does not tie for the last place. -/
theorem count_eq [DecidableEq α] (hlinear : LinearOn numbers) (h : IsTopK key limit items selected)
    (hnumbers : ∀ x ∈ items, numbers (key x)) {x : α} (hx : x ∈ items) (hties : ¬TiesAcross key limit items x) :
    selected.count x = if items.countP (fun y => key x < key y) < limit then items.count x else 0 := by
  obtain ⟨rejected, hperm, hlength, hbest⟩ := h
  have hirrefl : ¬key x < key x := hlinear.irrefl _ (hnumbers x hx)
  have hcount := hperm.count_eq x
  have htotal := hperm.length_eq
  rw [List.count_append] at hcount
  rw [List.length_append] at htotal
  split_ifs with hroom
  · -- if it was rejected, all selected items would be at least as large, and there would be too many of them
    have hfull : items.countP (fun y => ¬key y < key x) ≤ limit := not_lt.mp fun hmany => hties ⟨hroom, hmany⟩
    have hnone : x ∉ rejected := by
      intro hmem
      have hall : selected.countP (fun y => ¬key y < key x) = selected.length :=
        List.countP_eq_length.mpr fun y hy => decide_eq_true (hbest y hy x hmem)
      have hself : 0 < rejected.countP fun y => ¬key y < key x :=
        List.countP_pos_iff.mpr ⟨x, hmem, decide_eq_true hirrefl⟩
      have hsplit := hperm.countP_eq fun y => decide ¬key y < key x
      have hpositive := List.length_pos_of_mem hmem
      rw [List.countP_append] at hsplit
      omega
    rw [List.count_eq_zero.mpr hnone] at hcount
    omega
  · -- if it was selected, so would be all larger items
    rw [List.count_eq_zero]
    intro hmem
    have hnone : rejected.countP (fun y => key x < key y) = 0 :=
      List.countP_eq_zero.mpr fun y hy hlt => hbest x hmem y hy (of_decide_eq_true hlt)
    have hself : selected.countP (fun y => key x < key y) < selected.length := by
      refine lt_of_le_of_ne List.countP_le_length fun heq => hirrefl ?_
      exact of_decide_eq_true (List.countP_eq_length.mp heq x hmem)
    have hsplit := hperm.countP_eq fun y => decide (key x < key y)
    rw [List.countP_append] at hsplit
    omega

/-- The selected items of a kind that does not tie for the last place are determined. -/
theorem perm_filter (hlinear : LinearOn numbers) (h : IsTopK key limit items selected)
    (h' : IsTopK key limit items selected') (hnumbers : ∀ x ∈ items, numbers (key x)) {p : α → Bool}
    (hties : ∀ x ∈ items, p x → ¬TiesAcross key limit items x) :
    (selected.filter p).Perm (selected'.filter p) := by
  classical
  rw [List.perm_iff_count]
  intro x
  by_cases hp : p x
  · rw [List.count_filter hp, List.count_filter hp]
    by_cases hx : x ∈ items
    · rw [h.count_eq hlinear hnumbers hx (hties x hx hp), h'.count_eq hlinear hnumbers hx (hties x hx hp)]
    · rw [List.count_eq_zero.mpr fun hmem => hx (h.mem hmem), List.count_eq_zero.mpr fun hmem => hx (h'.mem hmem)]
  · have hnone : ∀ chosen : List α, x ∉ chosen.filter p := fun _ hmem => hp (List.mem_filter.mp hmem).2
    rw [List.count_eq_zero.mpr (hnone _), List.count_eq_zero.mpr (hnone _)]

/-- The keys of the other selected items are determined. -/
theorem perm_keys_filter (hlinear : LinearOn numbers) (h : IsTopK key limit items selected)
    (h' : IsTopK key limit items selected') (hnumbers : ∀ x ∈ items, numbers (key x)) {p : α → Bool}
    (hties : ∀ x ∈ items, p x → ¬TiesAcross key limit items x) :
    ((selected.filter fun x => !p x).map key).Perm ((selected'.filter fun x => !p x).map key) := by
  have hkeys := h.perm_keys hlinear h' hnumbers
  have hkind := (h.perm_filter hlinear h' hnumbers hties).map key
  have hsplit := (List.filter_append_perm p selected).map key
  have hsplit' := (List.filter_append_perm p selected').map key
  rw [List.map_append] at hsplit hsplit'
  have hall := (hsplit.trans hkeys).trans hsplit'.symm
  exact (List.perm_append_left_iff _).mp ((hkind.symm.append_right _).trans hall)

/-- The same for the selections of several parts. -/
theorem flatten_perm_filter (hlinear : LinearOn numbers) {parts chosen chosen' : List (List α)}
    (h : List.Forall₂ (IsTopK key limit) parts chosen) (h' : List.Forall₂ (IsTopK key limit) parts chosen')
    (hnumbers : ∀ part ∈ parts, ∀ x ∈ part, numbers (key x)) {p : α → Bool}
    (hties : ∀ part ∈ parts, ∀ x ∈ part, p x → ¬TiesAcross key limit part x) :
    (chosen.flatten.filter p).Perm (chosen'.flatten.filter p) ∧
      ((chosen.flatten.filter fun x => !p x).map key).Perm ((chosen'.flatten.filter fun x => !p x).map key) := by
  induction h generalizing chosen' with
  | nil =>
    cases h'
    exact ⟨List.Perm.refl _, List.Perm.refl _⟩
  | @cons part choice parts chosen hchoice _ ih =>
    cases h' with
    | @cons _ choice' _ chosen' hchoice' hrest' =>
      have hpart := hnumbers part List.mem_cons_self
      have hpartTies := hties part List.mem_cons_self
      obtain ⟨hkind, hothers⟩ := ih hrest' (fun other hother => hnumbers other (List.mem_cons_of_mem _ hother))
        fun other hother => hties other (List.mem_cons_of_mem _ hother)
      simp only [List.flatten_cons, List.filter_append, List.map_append]
      exact ⟨(hchoice.perm_filter hlinear hchoice' hpart hpartTies).append hkind,
        (hchoice.perm_keys_filter hlinear hchoice' hpart hpartTies).append hothers⟩

end IsTopK

end Ties

/-! ## The lowest entries -/

variable {ι : Type*}

/-- One entry of each label, such that no entry of its label is lower. -/
structure IsLowest (entries lowest : List (ι × κ)) : Prop where
  nodup : (lowest.map Prod.fst).Nodup
  mem : ∀ low ∈ lowest, low ∈ entries
  least : ∀ entry ∈ entries, ∃ low ∈ lowest, low.1 = entry.1 ∧ ¬entry.2 < low.2

namespace IsLowest

variable {numbers : κ → Prop} {entries entries' lowest lowest' : List (ι × κ)}

/-- Only the entries themselves matter. -/
theorem congr (h : IsLowest entries lowest) (hsame : ∀ entry, entry ∈ entries ↔ entry ∈ entries') :
    IsLowest entries' lowest where
  nodup := h.nodup
  mem low hlow := (hsame low).mp (h.mem low hlow)
  least entry hentry := h.least entry ((hsame entry).mpr hentry)

/-- The lowest entry of a label is determined. -/
theorem mem_of_mem (hlinear : LinearOn numbers) (h : IsLowest entries lowest) (h' : IsLowest entries' lowest')
    (hnumbers : ∀ entry ∈ entries, numbers entry.2) (hsame : ∀ entry, entry ∈ entries ↔ entry ∈ entries')
    {entry : ι × κ} (hentry : entry ∈ lowest) : entry ∈ lowest' := by
  have hmem := h.mem entry hentry
  obtain ⟨low, hlow, hlabel, hnotLower⟩ := h'.least entry ((hsame entry).mp hmem)
  have hlowMem := (hsame low).mpr (h'.mem low hlow)
  obtain ⟨other, hother, hotherLabel, hnotHigher⟩ := h.least low hlowMem
  obtain rfl : other = entry := List.inj_on_of_nodup_map h.nodup hother hentry (hotherLabel.trans hlabel)
  obtain hlt | heq | hgt := hlinear.trichotomy other.2 low.2 (hnumbers other hmem) (hnumbers low hlowMem)
  · exact absurd hlt hnotLower
  · rwa [Prod.ext hlabel.symm heq]
  · exact absurd hgt hnotHigher

/-- The lowest entries are determined. -/
theorem perm (hlinear : LinearOn numbers) (h : IsLowest entries lowest) (h' : IsLowest entries' lowest')
    (hnumbers : ∀ entry ∈ entries, numbers entry.2) (hsame : ∀ entry, entry ∈ entries ↔ entry ∈ entries') :
    lowest.Perm lowest' := by
  have hnumbers' : ∀ entry ∈ entries', numbers entry.2 :=
    fun entry hentry => hnumbers entry ((hsame entry).mpr hentry)
  refine (List.perm_ext_iff_of_nodup h.nodup.of_map h'.nodup.of_map).mpr fun entry => ⟨?_, ?_⟩
  · exact h.mem_of_mem hlinear h' hnumbers hsame
  · exact h'.mem_of_mem hlinear h hnumbers' fun entry => (hsame entry).symm

/-- Entries of different labels are all the lowest ones. -/
theorem of_nodup (hlinear : LinearOn numbers) (hnumbers : ∀ entry ∈ entries, numbers entry.2)
    (hnodup : (entries.map Prod.fst).Nodup) : IsLowest entries entries where
  nodup := hnodup
  mem _ hlow := hlow
  least entry hentry := ⟨entry, hentry, rfl, hlinear.irrefl _ (hnumbers entry hentry)⟩

/-- The lowest entries of some labels. -/
theorem filter (h : IsLowest entries lowest) (p : ι → Bool) :
    IsLowest (entries.filter fun entry => p entry.1) (lowest.filter fun entry => p entry.1) where
  nodup := h.nodup.sublist (List.filter_sublist.map Prod.fst)
  mem low hlow := by
    rw [List.mem_filter] at hlow ⊢
    exact ⟨h.mem low hlow.1, hlow.2⟩
  least entry hentry := by
    rw [List.mem_filter] at hentry
    obtain ⟨low, hlow, hlabel, hnotLower⟩ := h.least entry hentry.1
    exact ⟨low, List.mem_filter.mpr ⟨hlow, hlabel ▸ hentry.2⟩, hlabel, hnotLower⟩

/-- The keys of the lowest entries are those of the lowest entries of some labels and of all entries of the others,
when the others have one entry each. -/
theorem perm_keys (hlinear : LinearOn numbers) (h : IsLowest entries lowest) (h' : IsLowest entries' lowest')
    (hnumbers : ∀ entry ∈ entries, numbers entry.2) (hnumbers' : ∀ entry ∈ entries', numbers entry.2)
    {p : ι → Bool}
    (hsame : (entries.filter fun entry => p entry.1).Perm (entries'.filter fun entry => p entry.1))
    (hkeys : ((entries.filter fun entry => !p entry.1).map Prod.snd).Perm
      ((entries'.filter fun entry => !p entry.1).map Prod.snd))
    (hsingle : ((entries.filter fun entry => !p entry.1).map Prod.fst).Nodup)
    (hsingle' : ((entries'.filter fun entry => !p entry.1).map Prod.fst).Nodup) :
    (lowest.map Prod.snd).Perm (lowest'.map Prod.snd) := by
  have hpart : ∀ (entry : ι × κ) (q : ι → Bool), entry ∈ entries.filter (fun entry => q entry.1) →
      numbers entry.2 :=
    fun entry q hentry => hnumbers entry (List.mem_of_mem_filter hentry)
  have hpart' : ∀ (entry : ι × κ) (q : ι → Bool), entry ∈ entries'.filter (fun entry => q entry.1) →
      numbers entry.2 := fun entry q hentry => hnumbers' entry (List.mem_of_mem_filter hentry)
  have hshared := (h.filter p).perm hlinear (h'.filter p) (fun entry => hpart entry p) fun _ => hsame.mem_iff
  have hown := (h.filter fun label => !p label).perm hlinear
    (of_nodup hlinear (fun entry => hpart entry fun label => !p label) hsingle)
    (fun entry => hpart entry fun label => !p label) fun _ => Iff.rfl
  have hown' := (h'.filter fun label => !p label).perm hlinear
    (of_nodup hlinear (fun entry => hpart' entry fun label => !p label) hsingle')
    (fun entry => hpart' entry fun label => !p label) fun _ => Iff.rfl
  have hothers := ((hown.map Prod.snd).trans hkeys).trans (hown'.map Prod.snd).symm
  have hsplit := (List.filter_append_perm (fun entry : ι × κ => p entry.1) lowest).map Prod.snd
  have hsplit' := (List.filter_append_perm (fun entry : ι × κ => p entry.1) lowest').map Prod.snd
  rw [List.map_append] at hsplit hsplit'
  exact (hsplit.symm.trans ((hshared.map Prod.snd).append hothers)).trans hsplit'

end IsLowest

end Foundation
