import Mathlib.Data.List.Sort
import Mathlib.Tactic

/-!
# The best of a stream

A buffer of bounded size keeps the items with the largest keys of a stream: while there is room an
item is added, and later an item replaces the first smallest one of the buffer when it is larger.
The buffer is then sorted by exchanging. Only the comparison of keys is used, and it has to be a
linear order only on the keys that occur.
-/

namespace Foundation

variable {α κ : Type*} [LT κ]

/-- The comparison is a strict linear order on the keys with a property. -/
structure LinearOn (numbers : κ → Prop) : Prop where
  irrefl : ∀ a, numbers a → ¬a < a
  trans : ∀ a b c, numbers a → numbers b → numbers c → a < b → b < c → a < c
  trichotomy : ∀ a b, numbers a → numbers b → a < b ∨ a = b ∨ b < a

/-- The comparison of keys that are not smaller. -/
theorem LinearOn.not_lt_trans {numbers : κ → Prop} (h : LinearOn numbers) {a b c : κ} (ha : numbers a)
    (hb : numbers b) (hc : numbers c) (hab : ¬a < b) (hbc : ¬b < c) : ¬a < c := by
  intro hac
  obtain hlt | heq | hgt := h.trichotomy a b ha hb
  · exact hab hlt
  · exact hbc (heq ▸ hac)
  · exact hbc (h.trans b a c hb ha hc hgt hac)

/-- The selected items are as many of the largest ones as allowed. -/
def IsTopK (key : α → κ) (limit : ℕ) (items selected : List α) : Prop :=
  ∃ rejected, (selected ++ rejected).Perm items ∧ selected.length = min limit items.length ∧
    ∀ x ∈ selected, ∀ y ∈ rejected, ¬key x < key y

namespace IsTopK

variable {key : α → κ} {limit : ℕ} {items items' selected selected' : List α}

/-- Nothing was selected from nothing. -/
theorem nil (key : α → κ) (limit : ℕ) : IsTopK key limit [] [] :=
  ⟨[], List.Perm.refl _, (Nat.min_zero _).symm, fun _ h => absurd h List.not_mem_nil⟩

/-- Selected items are items. -/
theorem mem (h : IsTopK key limit items selected) {x : α} (hx : x ∈ selected) : x ∈ items := by
  obtain ⟨rejected, hperm, -, -⟩ := h
  exact hperm.mem_iff.mp (List.mem_append_left _ hx)

/-- The order of the items does not matter. -/
theorem of_perm (h : IsTopK key limit items selected) (hitems : items.Perm items') :
    IsTopK key limit items' selected := by
  obtain ⟨rejected, hperm, hlength, hbest⟩ := h
  exact ⟨rejected, hperm.trans hitems, hitems.length_eq ▸ hlength, hbest⟩

/-- The order of the selected items does not matter. -/
theorem perm_selected (h : IsTopK key limit items selected) (hselected : selected'.Perm selected) :
    IsTopK key limit items selected' := by
  obtain ⟨rejected, hperm, hlength, hbest⟩ := h
  exact ⟨rejected, (hselected.append_right rejected).trans hperm, hselected.length_eq.trans hlength,
    fun x hx => hbest x (hselected.mem_iff.mp hx)⟩

/-- Everything is selected when there is room. -/
theorem of_length_le (h : items.length ≤ limit) : IsTopK key limit items items :=
  ⟨[], by rw [List.append_nil], (min_eq_right h).symm, fun _ _ _ hy => absurd hy List.not_mem_nil⟩

/-- Everything was selected when there was room. -/
theorem perm_of_length_le (h : IsTopK key limit items selected) (hroom : items.length ≤ limit) :
    selected.Perm items := by
  obtain ⟨rejected, hperm, hlength, -⟩ := h
  have htotal := hperm.length_eq
  rw [List.length_append] at htotal
  have hnone : rejected = [] := List.length_eq_zero_iff.mp (by omega)
  rwa [hnone, List.append_nil] at hperm

/-- What was selected from two lists with room for both tells that they have the same items. -/
theorem perm_of_room (h : IsTopK key limit items selected) (h' : IsTopK key limit items' selected)
    (hroom : items.length ≤ limit) (hroom' : items'.length ≤ limit) : items.Perm items' :=
  (h.perm_of_length_le hroom).symm.trans (h'.perm_of_length_le hroom')

/-- The number of selected items with a property that larger keys keep. -/
theorem countP_eq {numbers : κ → Prop} (h : IsTopK key limit items selected)
    (hnumbers : ∀ x ∈ items, numbers (key x)) {large : κ → Prop} [DecidablePred large]
    (hlarge : ∀ a b, numbers a → numbers b → large a → ¬b < a → large b) :
    selected.countP (fun x => large (key x)) = min limit (items.countP fun x => large (key x)) := by
  obtain ⟨rejected, hperm, hlength, hbest⟩ := h
  have hcount := hperm.countP_eq fun x => decide (large (key x))
  rw [List.countP_append] at hcount
  have htotal := hperm.length_eq
  rw [List.length_append] at htotal
  have hselected := selected.countP_le_length (p := fun x => decide (large (key x)))
  by_cases hsome : ∃ y ∈ rejected, large (key y)
  · -- all selected items are at least as large as a rejected one
    obtain ⟨y, hy, hlargeY⟩ := hsome
    have hall : selected.countP (fun x => decide (large (key x))) = selected.length := by
      rw [List.countP_eq_length]
      intro x hx
      rw [decide_eq_true_eq]
      exact hlarge (key y) (key x)
        (hnumbers y (hperm.mem_iff.mp (List.mem_append_right _ hy)))
        (hnumbers x (hperm.mem_iff.mp (List.mem_append_left _ hx))) hlargeY (hbest x hx y hy)
    have hpositive : 0 < rejected.countP fun x => decide (large (key x)) :=
      List.countP_pos_iff.mpr ⟨y, hy, by simpa using hlargeY⟩
    have hrejected := rejected.countP_le_length (p := fun x => decide (large (key x)))
    omega
  · have hnone : rejected.countP (fun x => decide (large (key x))) = 0 := by
      rw [List.countP_eq_zero]
      intro y hy hlargeY
      exact hsome ⟨y, hy, by simpa using hlargeY⟩
    omega

/-- The keys of the selected items are determined. -/
theorem perm_keys {numbers : κ → Prop} (hlinear : LinearOn numbers) (h : IsTopK key limit items selected)
    (h' : IsTopK key limit items selected') (hnumbers : ∀ x ∈ items, numbers (key x)) :
    (selected.map key).Perm (selected'.map key) := by
  classical
  rw [List.perm_iff_count]
  intro value
  by_cases hvalue : numbers value
  swap
  · have hzero : ∀ {chosen : List α}, IsTopK key limit items chosen →
        (chosen.map key).count value = 0 := by
      intro chosen hchosen
      rw [List.count_eq_zero]
      intro hmem
      obtain ⟨x, hx, rfl⟩ := List.mem_map.mp hmem
      exact hvalue (hnumbers x (hchosen.mem hx))
    rw [hzero h, hzero h']
  -- count the keys from the value on, and the larger ones
  have hsplit : ∀ {chosen : List α}, IsTopK key limit items chosen →
      chosen.countP (fun x => ¬key x < value) =
        chosen.countP (fun x => value < key x) + (chosen.map key).count value := by
    intro chosen hchosen
    have hlocal : ∀ x ∈ chosen, numbers (key x) := fun x hx => hnumbers x (hchosen.mem hx)
    clear hchosen
    induction chosen with
    | nil => rfl
    | cons x rest ih =>
      have hrest := ih fun y hy => hlocal y (List.mem_cons_of_mem x hy)
      have hx := hlocal x List.mem_cons_self
      rw [List.map_cons, List.count_cons, List.countP_cons, List.countP_cons, hrest]
      obtain hlt | heq | hgt := hlinear.trichotomy (key x) value hx hvalue
      · have hnot : ¬value < key x := fun hgt =>
          hlinear.irrefl value hvalue (hlinear.trans _ _ _ hvalue hx hvalue hgt hlt)
        have hne : key x ≠ value := fun heq => hlinear.irrefl _ hvalue (heq ▸ hlt)
        simp [hlt, hnot, hne]
      · simp [heq, hlinear.irrefl _ hvalue]
        omega
      · have hnot : ¬key x < value := fun hlt =>
          hlinear.irrefl value hvalue (hlinear.trans _ _ _ hvalue hx hvalue hgt hlt)
        have hne : key x ≠ value := fun heq => hlinear.irrefl _ hvalue (heq ▸ hgt)
        simp [hgt, hnot, hne]
        omega
  have hfrom : ∀ a b, numbers a → numbers b → ¬a < value → ¬b < a → ¬b < value :=
    fun a b ha hb hlarge hle => hlinear.not_lt_trans hb ha hvalue hle hlarge
  have hbeyond : ∀ a b, numbers a → numbers b → value < a → ¬b < a → value < b := by
    intro a b ha hb hlarge hle
    obtain hlt | heq | hgt := hlinear.trichotomy b a hb ha
    · exact absurd hlt hle
    · rwa [heq]
    · exact hlinear.trans _ _ _ hvalue ha hb hlarge hgt
  have hcount := hsplit h
  have hcount' := hsplit h'
  rw [h.countP_eq hnumbers hfrom, h.countP_eq hnumbers hbeyond] at hcount
  rw [h'.countP_eq hnumbers hfrom, h'.countP_eq hnumbers hbeyond] at hcount'
  omega

/-- Two selections in descending order have the same keys. -/
theorem keys_eq {numbers : κ → Prop} (hlinear : LinearOn numbers) (h : IsTopK key limit items selected)
    (h' : IsTopK key limit items selected') (hnumbers : ∀ x ∈ items, numbers (key x))
    (hsorted : selected.Pairwise fun x y => ¬key x < key y)
    (hsorted' : selected'.Pairwise fun x y => ¬key x < key y) :
    selected.map key = selected'.map key := by
  have hperm := h.perm_keys hlinear h' hnumbers
  refine @List.Perm.eq_of_pairwise κ (fun a b => ¬a < b) _ _ ?_ ?_ ?_ hperm
  · intro a b ha hb hab hba
    obtain ⟨x, hx, rfl⟩ := List.mem_map.mp ha
    obtain ⟨y, hy, rfl⟩ := List.mem_map.mp hb
    obtain hlt | heq | hgt := hlinear.trichotomy (key x) (key y) (hnumbers x (h.mem hx))
      (hnumbers y (h'.mem hy))
    · exact absurd hlt hab
    · exact heq
    · exact absurd hgt hba
  · exact List.pairwise_map.mpr hsorted
  · exact List.pairwise_map.mpr hsorted'

open Classical in
/-- Selecting from selections: when each part keeps enough of its own best items, the best of what is
kept are the best of all. -/
theorem append {numbers : κ → Prop} (hlinear : LinearOn numbers)
    {items₁ items₂ selected₁ selected₂ : List α}
    {room₁ room₂ : ℕ} (h₁ : IsTopK key room₁ items₁ selected₁)
    (h₂ : IsTopK key room₂ items₂ selected₂)
    (hlimit₁ : limit ≤ room₁) (hlimit₂ : limit ≤ room₂)
    (h : IsTopK key limit (selected₁ ++ selected₂) selected)
    (hnumbers : ∀ x ∈ items₁ ++ items₂, numbers (key x)) :
    IsTopK key limit (items₁ ++ items₂) selected := by
  obtain ⟨rejected₁, hperm₁, hlength₁, hbest₁⟩ := h₁
  obtain ⟨rejected₂, hperm₂, hlength₂, hbest₂⟩ := h₂
  obtain ⟨rejected, hperm, hlength, hbest⟩ := h
  have hkept : ∀ z ∈ selected ++ rejected, z ∈ items₁ ++ items₂ := by
    intro z hz
    rw [List.mem_append]
    obtain hleft | hright := List.mem_append.mp (hperm.mem_iff.mp hz)
    · exact Or.inl (hperm₁.mem_iff.mp (List.mem_append_left _ hleft))
    · exact Or.inr (hperm₂.mem_iff.mp (List.mem_append_left _ hright))
  -- an item that a part rejected is not larger than one that is selected in the end
  have hpart : ∀ (part rest : List α) (room : ℕ), limit ≤ room →
      (selected ++ rejected).Perm (part ++ rest) → part.length = room →
        (∀ z ∈ part, z ∈ items₁ ++ items₂) →
        ∀ y ∈ items₁ ++ items₂, (∀ z ∈ part, ¬key z < key y) → ∀ x ∈ selected, ¬key x < key y := by
    intro part rest room hlimit hsplit hfull hpart y hy hall x hx hlt
    have hxNumber := hnumbers x (hkept x (List.mem_append_left _ hx))
    have hyNumber := hnumbers y hy
    have hlarger : ∀ z ∈ part, key x < key z := by
      intro z hz
      have hzNumber := hnumbers z (hpart z hz)
      obtain hzy | heq | hyz := hlinear.trichotomy (key z) (key y) hzNumber hyNumber
      · exact absurd hzy (hall z hz)
      · rwa [heq]
      · exact hlinear.trans _ _ _ hxNumber hyNumber hzNumber hlt hyz
    have hcount := hsplit.countP_eq fun z => decide (key x < key z)
    rw [List.countP_append, List.countP_append] at hcount
    have hpartCount : part.countP (fun z => decide (key x < key z)) = room := by
      rw [← hfull, List.countP_eq_length]
      exact fun z hz => decide_eq_true (hlarger z hz)
    have hself : selected.countP (fun z => decide (key x < key z)) < selected.length := by
      refine lt_of_le_of_ne List.countP_le_length fun heq => ?_
      rw [List.countP_eq_length] at heq
      exact hlinear.irrefl _ hxNumber (of_decide_eq_true (heq x hx))
    have hrejected : 0 < rejected.countP fun z => decide (key x < key z) := by omega
    obtain ⟨z, hz, hxz⟩ := List.countP_pos_iff.mp hrejected
    exact hbest x hx z hz (of_decide_eq_true hxz)
  have hpermAll : (selected ++ (rejected ++ (rejected₁ ++ rejected₂))).Perm (items₁ ++ items₂) := by
    rw [← List.append_assoc]
    refine (hperm.append_right _).trans ?_
    refine List.Perm.trans ?_ (hperm₁.append hperm₂)
    rw [List.append_assoc, List.append_assoc]
    refine List.Perm.append_left _ ?_
    rw [← List.append_assoc, ← List.append_assoc]
    exact List.perm_append_comm.append_right _
  have hcount₁ := hperm₁.length_eq
  have hcount₂ := hperm₂.length_eq
  rw [List.length_append] at hcount₁ hcount₂
  refine ⟨rejected ++ (rejected₁ ++ rejected₂), hpermAll, ?_, ?_⟩
  · rw [hlength, List.length_append, List.length_append]
    omega
  · intro x hx y hy
    obtain hy | hy := List.mem_append.mp hy
    · exact hbest x hx y hy
    obtain hy | hy := List.mem_append.mp hy
    · have hpositive := List.length_pos_of_mem hy
      refine hpart selected₁ selected₂ room₁ hlimit₁ hperm (by omega) ?_ y ?_
        (fun z hz => hbest₁ z hz y hy) x hx
      · exact fun z hz => List.mem_append_left _ (hperm₁.mem_iff.mp (List.mem_append_left _ hz))
      · exact List.mem_append_left _ (hperm₁.mem_iff.mp (List.mem_append_right _ hy))
    · have hpositive := List.length_pos_of_mem hy
      refine hpart selected₂ selected₁ room₂ hlimit₂ (hperm.trans List.perm_append_comm) (by omega) ?_ y ?_
        (fun z hz => hbest₂ z hz y hy) x hx
      · exact fun z hz => List.mem_append_right _ (hperm₂.mem_iff.mp (List.mem_append_left _ hz))
      · exact List.mem_append_right _ (hperm₂.mem_iff.mp (List.mem_append_right _ hy))

/-- The images of a selection are a selection of the images. -/
theorem map {β : Type*} (f : α → β) {key' : β → κ} (hkey : ∀ x, key' (f x) = key x)
    (h : IsTopK key limit items selected) : IsTopK key' limit (items.map f) (selected.map f) := by
  obtain ⟨rejected, hperm, hlength, hbest⟩ := h
  refine ⟨rejected.map f, ?_, ?_, ?_⟩
  · rw [← List.map_append]
    exact hperm.map f
  · rw [List.length_map, List.length_map, hlength]
  · intro a ha b hb
    obtain ⟨x, hx, rfl⟩ := List.mem_map.mp ha
    obtain ⟨y, hy, rfl⟩ := List.mem_map.mp hb
    rw [hkey, hkey]
    exact hbest x hx y hy

/-- The keys of a selection are a selection of the keys. -/
theorem keys (h : IsTopK key limit items selected) :
    IsTopK id limit (items.map key) (selected.map key) :=
  h.map key fun _ => rfl

/-- Selecting after a part was replaced by its own selection. -/
theorem replace {numbers : κ → Prop} (hlinear : LinearOn numbers) {part rest chosen : List α} {room : ℕ}
    (hpart : IsTopK key room part chosen) (hlimit : limit ≤ room)
    (h : IsTopK key limit (chosen ++ rest) selected)
    (hnumbers : ∀ x ∈ part ++ rest, numbers (key x)) : IsTopK key limit (part ++ rest) selected :=
  hpart.append hlinear (of_length_le (le_max_right limit rest.length)) hlimit (le_max_left _ _) h hnumbers

/-- Selecting from the selections of several parts. -/
theorem flatten {numbers : κ → Prop} (hlinear : LinearOn numbers) {room : ℕ} (hlimit : limit ≤ room)
    {parts chosen : List (List α)} (hparts : List.Forall₂ (IsTopK key room) parts chosen)
    (h : IsTopK key limit chosen.flatten selected)
    (hnumbers : ∀ x ∈ parts.flatten, numbers (key x)) : IsTopK key limit parts.flatten selected := by
  -- the parts are replaced one after the other
  have hfront : ∀ front : List α, (∀ x ∈ front ++ parts.flatten, numbers (key x)) →
      IsTopK key limit (front ++ chosen.flatten) selected →
        IsTopK key limit (front ++ parts.flatten) selected := by
    clear h hnumbers
    induction hparts with
    | nil => exact fun _ _ h => h
    | @cons part choice parts chosen hpart _ ih =>
      intro front hnumbers h
      rw [List.flatten_cons] at hnumbers h ⊢
      have hswap : ∀ left middle right : List α,
          (left ++ (middle ++ right)).Perm (middle ++ (left ++ right)) := by
        intro left middle right
        rw [← List.append_assoc, ← List.append_assoc]
        exact List.perm_append_comm.append_right right
      have hchoice : ∀ x ∈ (front ++ choice) ++ parts.flatten, numbers (key x) := by
        intro x hx
        rw [List.append_assoc, List.mem_append, List.mem_append] at hx
        obtain hx | hx | hx := hx
        · exact hnumbers x (List.mem_append_left _ hx)
        · exact hnumbers x (List.mem_append_right _ (List.mem_append_left _ (hpart.mem hx)))
        · exact hnumbers x (List.mem_append_right _ (List.mem_append_right _ hx))
      have hlater := ih (front ++ choice) hchoice (by rwa [List.append_assoc])
      rw [List.append_assoc] at hlater
      have hreplaced := hpart.replace hlinear hlimit (hlater.of_perm (hswap front choice parts.flatten))
        fun x hx => hnumbers x ((hswap front part parts.flatten).mem_iff.mpr hx)
      exact hreplaced.of_perm (hswap front part parts.flatten).symm
  exact hfront [] hnumbers h

/-- The selections of several parts are some of the items. -/
theorem exists_rest {room : ℕ} {parts chosen : List (List α)}
    (hparts : List.Forall₂ (IsTopK key room) parts chosen) :
    ∃ rest, (chosen.flatten ++ rest).Perm parts.flatten := by
  induction hparts with
  | nil => exact ⟨[], List.Perm.refl _⟩
  | @cons part choice parts chosen hpart _ ih =>
    obtain ⟨rejected, hperm, -, -⟩ := hpart
    obtain ⟨rest, hrest⟩ := ih
    refine ⟨rejected ++ rest, ?_⟩
    rw [List.flatten_cons, List.flatten_cons]
    calc (choice ++ chosen.flatten) ++ (rejected ++ rest)
        = choice ++ (chosen.flatten ++ (rejected ++ rest)) := List.append_assoc _ _ _
      _ = choice ++ ((chosen.flatten ++ rejected) ++ rest) := by rw [List.append_assoc]
      List.Perm _ (choice ++ ((rejected ++ chosen.flatten) ++ rest)) :=
        (List.perm_append_comm.append_right rest).append_left choice
      List.Perm _ ((choice ++ rejected) ++ (chosen.flatten ++ rest)) := by
        rw [List.append_assoc, List.append_assoc]
      List.Perm _ (part ++ parts.flatten) := hperm.append hrest

end IsTopK

/-- The first items of a sorted list are its best ones. -/
theorem isTopK_take_of_pairwise {key : α → κ} {items : List α}
    (hsorted : items.Pairwise fun x y => ¬key x < key y) (limit : ℕ) :
    IsTopK key limit items (items.take limit) := by
  refine ⟨items.drop limit, by rw [List.take_append_drop], List.length_take, ?_⟩
  rw [← List.take_append_drop limit items, List.pairwise_append] at hsorted
  exact hsorted.2.2

/-! ## The buffer -/

section Buffer

variable [DecidableLT κ] (key : α → κ)

/-- The index of the first smallest item, given the best one so far and the index of the next item. -/
def minIndexFrom (best : ℕ) (bestKey : κ) (index : ℕ) : List α → ℕ
  | [] => best
  | x :: rest =>
    if key x < bestKey then minIndexFrom index (key x) (index + 1) rest
    else minIndexFrom best bestKey (index + 1) rest

/-- Offer an item to a buffer with room for `limit` items. -/
def offer (limit : ℕ) (buffer : List α) (x : α) : List α :=
  if buffer.length < limit then buffer ++ [x]
  else
    match buffer with
    | [] => []
    | first :: rest =>
      let minIndex := minIndexFrom key 0 (key first) 1 rest
      match (first :: rest)[minIndex]? with
      | some smallest => if key smallest < key x then (first :: rest).set minIndex x else first :: rest
      | none => first :: rest

/-- Offer a stream of items. -/
def offerAll (limit : ℕ) (buffer : List α) (items : List α) : List α :=
  items.foldl (offer key limit) buffer

/-- Offering two streams. -/
theorem offerAll_append (limit : ℕ) (buffer items more : List α) :
    offerAll key limit buffer (items ++ more) = offerAll key limit (offerAll key limit buffer items) more :=
  List.foldl_append

/-- A buffer with room for all items of a stream takes them in their order. -/
theorem offerAll_of_room {limit : ℕ} {buffer items : List α} (hroom : buffer.length + items.length ≤ limit) :
    offerAll key limit buffer items = buffer ++ items := by
  induction items generalizing buffer with
  | nil => simp [offerAll]
  | cons x items ih =>
    rw [List.length_cons] at hroom
    have htaken : offer key limit buffer x = buffer ++ [x] := if_pos (by omega)
    have hrest : offerAll key limit (buffer ++ [x]) items = buffer ++ [x] ++ items := by
      apply ih
      rw [List.length_append, List.length_singleton]
      omega
    rw [offerAll, List.foldl_cons, htaken]
    exact hrest.trans (List.append_cons buffer x items).symm

variable {key}

/-- The search for the smallest item finds one. -/
theorem minIndexFrom_spec {numbers : κ → Prop} (hlinear : LinearOn numbers) {front rest : List α}
    {best : ℕ} {bestItem : α} (hnumbers : ∀ x ∈ front ++ rest, numbers (key x))
    (hbest : front[best]? = some bestItem) (hmin : ∀ x ∈ front, ¬key x < key bestItem) :
    ∃ smallest, (front ++ rest)[minIndexFrom key best (key bestItem) front.length rest]? = some smallest ∧
      ∀ x ∈ front ++ rest, ¬key x < key smallest := by
  induction rest generalizing front best bestItem with
  | nil =>
    rw [List.append_nil, minIndexFrom]
    exact ⟨bestItem, hbest, hmin⟩
  | cons x rest ih =>
    have hsplit : front ++ x :: rest = (front ++ [x]) ++ rest := by simp
    have hlength : front.length + 1 = (front ++ [x]).length := by simp
    have hbestMem := List.mem_of_getElem? hbest
    have hbestNumber := hnumbers bestItem (List.mem_append_left _ hbestMem)
    have hxNumber := hnumbers x (List.mem_append_right _ List.mem_cons_self)
    rw [hsplit] at hnumbers ⊢
    rw [minIndexFrom, hlength]
    split_ifs with hsmaller
    · apply ih hnumbers
      · rw [List.getElem?_append_right (le_refl _), Nat.sub_self]
        rfl
      · intro y hy
        obtain hy | hy := List.mem_append.mp hy
        · have hyNumber := hnumbers y (List.mem_append_left _ (List.mem_append_left _ hy))
          intro hlt
          exact hmin y hy (hlinear.trans _ _ _ hyNumber hxNumber hbestNumber hlt hsmaller)
        · rw [List.mem_singleton.mp hy]
          exact hlinear.irrefl _ hxNumber
    · apply ih hnumbers
      · obtain ⟨hlt, -⟩ := List.getElem?_eq_some_iff.mp hbest
        rw [List.getElem?_append_left hlt, hbest]
      · intro y hy
        obtain hy | hy := List.mem_append.mp hy
        · exact hmin y hy
        · rwa [List.mem_singleton.mp hy]

/-- Offering one item more. -/
theorem IsTopK.offer {numbers : κ → Prop} (hlinear : LinearOn numbers) {limit : ℕ}
    {items selected : List α} {x : α} (h : IsTopK key limit items selected)
    (hnumbers : ∀ y ∈ items ++ [x], numbers (key y)) :
    IsTopK key limit (items ++ [x]) (offer key limit selected x) := by
  have hselected : ∀ y ∈ selected, numbers (key y) :=
    fun y hy => hnumbers y (List.mem_append_left _ (h.mem hy))
  have hx := hnumbers x (List.mem_append_right _ (List.mem_singleton_self x))
  obtain ⟨rejected, hperm, hlength, hbest⟩ := h
  have htotal := hperm.length_eq
  rw [List.length_append] at htotal
  have hrejected : ∀ y ∈ rejected, numbers (key y) := fun y hy =>
    hnumbers y (List.mem_append_left _ (hperm.mem_iff.mp (List.mem_append_right _ hy)))
  have hlengthAll : (items ++ [x]).length = items.length + 1 := by simp
  rw [Foundation.offer.eq_def]
  split_ifs with hroom
  · -- nothing was rejected so far
    have hnone : rejected = [] := List.length_eq_zero_iff.mp (by omega)
    rw [hnone, List.append_nil] at hperm
    refine ⟨[], ?_, ?_, fun _ _ _ hy => absurd hy List.not_mem_nil⟩
    · rw [List.append_nil]
      exact hperm.append_right [x]
    · rw [List.length_append, List.length_singleton, hlengthAll]
      omega
  have hkeep : (selected ++ x :: rejected).Perm (items ++ [x]) := by
    refine (List.perm_middle).trans ?_
    exact (List.Perm.cons x hperm).trans (List.perm_append_singleton x items).symm
  cases hcases : selected with
  | nil =>
    rw [hcases] at hlength hroom hkeep
    refine ⟨x :: rejected, hkeep, ?_, fun _ hy => absurd hy List.not_mem_nil⟩
    rw [List.length_nil] at hlength hroom ⊢
    omega
  | cons first rest =>
    dsimp only
    have hfirst : [first][0]? = some first := rfl
    obtain ⟨smallest, hget, hmin⟩ := @minIndexFrom_spec α κ _ _ key numbers hlinear [first] rest 0 first
      (by rw [List.singleton_append, ← hcases]; exact hselected) hfirst (by
        intro y hy
        rw [List.mem_singleton.mp hy]
        exact hlinear.irrefl _ (hselected first (by rw [hcases]; exact List.mem_cons_self)))
    have hsame : [first].length = 1 := rfl
    rw [hsame, List.singleton_append] at hget
    rw [List.singleton_append, ← hcases] at hmin
    rw [hget]
    dsimp only
    set minIndex := minIndexFrom key 0 (key first) 1 rest
    rw [← hcases] at hget ⊢
    obtain ⟨hlt, hitem⟩ := List.getElem?_eq_some_iff.mp hget
    have hsmallestMem : smallest ∈ selected := List.mem_of_getElem? hget
    have hsmallest := hselected smallest hsmallestMem
    split_ifs with hlarger
    · have hset := List.set_perm_cons_eraseIdx hlt x
      have hold := List.getElem_cons_eraseIdx_perm hlt
      rw [hitem] at hold
      refine ⟨smallest :: rejected, ?_, ?_, ?_⟩
      · refine (hset.append_right _).trans ?_
        refine List.Perm.trans ?_ ((List.Perm.cons x hperm).trans
          (List.perm_append_singleton x items).symm)
        rw [List.cons_append]
        refine List.Perm.cons x ?_
        refine List.perm_middle.trans ?_
        rw [← List.cons_append]
        exact hold.append_right rejected
      · rw [List.length_set, hlengthAll]
        omega
      · intro y hy z hz
        have hy := (hset.mem_iff).mp hy
        rw [List.mem_cons] at hy hz
        -- everything in the new buffer is at least as large as the item that was replaced
        have hleast : ¬key y < key smallest := by
          obtain rfl | hy := hy
          · exact fun hbad => hlinear.irrefl _ hsmallest
              (hlinear.trans _ _ _ hsmallest hx hsmallest hlarger hbad)
          · exact hmin y (hold.mem_iff.mp (List.mem_cons_of_mem _ hy))
        have hyNumber : numbers (key y) := by
          obtain rfl | hy := hy
          · exact hx
          · exact hselected y (hold.mem_iff.mp (List.mem_cons_of_mem _ hy))
        obtain rfl | hz := hz
        · exact hleast
        · exact hlinear.not_lt_trans hyNumber hsmallest (hrejected z hz) hleast
            (hbest smallest hsmallestMem z hz)
    · refine ⟨x :: rejected, hkeep, ?_, ?_⟩
      · rw [hlengthAll]
        omega
      · intro y hy z hz
        obtain rfl | hz := List.mem_cons.mp hz
        · exact hlinear.not_lt_trans (hselected y hy) hsmallest hx (hmin y hy) hlarger
        · exact hbest y hy z hz

/-- Offering a stream selects the best of it. -/
theorem isTopK_offerAll {numbers : κ → Prop} (hlinear : LinearOn numbers) (limit : ℕ) {items : List α}
    (hnumbers : ∀ x ∈ items, numbers (key x)) :
    IsTopK key limit items (offerAll key limit [] items) := by
  induction items using List.reverseRecOn with
  | nil => exact IsTopK.nil key limit
  | append_singleton items x ih =>
    rw [offerAll] at ih ⊢
    rw [List.foldl_append]
    exact (ih fun y hy => hnumbers y (List.mem_append_left _ hy)).offer hlinear hnumbers

end Buffer

/-! ## Sorting by exchange -/

section Exchange

variable [DecidableLT κ] (key : α → κ)

/-- One pass: the first item is exchanged with every larger one on the way. -/
def exchangePass (first : α) : List α → α × List α
  | [] => (first, [])
  | x :: rest =>
    if key first < key x then
      let (largest, others) := exchangePass x rest
      (largest, first :: others)
    else
      let (largest, others) := exchangePass first rest
      (largest, x :: others)

/-- A number of passes, each over the items that follow. -/
def exchangePasses : ℕ → List α → List α
  | 0, items => items
  | _ + 1, [] => []
  | passes + 1, x :: rest =>
    let (largest, others) := exchangePass key x rest
    largest :: exchangePasses passes others

/-- Sort in descending order. -/
def exchangeSort (items : List α) : List α := exchangePasses key items.length items

variable {key}

/-- A pass over the images of items. -/
theorem exchangePass_map {β : Type*} (f : β → α) (first : β) (items : List β) :
    exchangePass key (f first) (items.map f) =
      (f (exchangePass (fun x => key (f x)) first items).1,
        (exchangePass (fun x => key (f x)) first items).2.map f) := by
  induction items generalizing first with
  | nil => rfl
  | cons x rest ih =>
    rw [List.map_cons, exchangePass, exchangePass]
    split_ifs
    · rw [ih x]
      rfl
    · rw [ih first]
      rfl

/-- Sorting the images of items. -/
theorem exchangeSort_map {β : Type*} (f : β → α) (items : List β) :
    exchangeSort key (items.map f) = (exchangeSort (fun x => key (f x)) items).map f := by
  have hpasses : ∀ passes (items : List β), exchangePasses key passes (items.map f) =
      (exchangePasses (fun x => key (f x)) passes items).map f := by
    intro passes
    induction passes with
    | zero => exact fun _ => rfl
    | succ passes ih =>
      intro items
      cases items with
      | nil => rfl
      | cons x rest =>
        rw [List.map_cons, exchangePasses, exchangePass_map]
        dsimp only
        rw [ih, exchangePasses]
        rfl
  rw [exchangeSort, List.length_map]
  exact hpasses items.length items

/-- A pass keeps the items. -/
theorem perm_exchangePass (first : α) (items : List α) :
    ((exchangePass key first items).1 :: (exchangePass key first items).2).Perm (first :: items) := by
  induction items generalizing first with
  | nil => exact List.Perm.refl _
  | cons x rest ih =>
    rw [exchangePass]
    split_ifs
    · exact (List.Perm.swap _ _ _).trans ((ih x).cons first)
    · exact (List.Perm.swap _ _ _).trans (((ih first).cons x).trans (List.Perm.swap _ _ _))

/-- A pass keeps the number of items. -/
theorem length_exchangePass (first : α) (items : List α) :
    (exchangePass key first items).2.length = items.length :=
  Nat.succ_injective (perm_exchangePass first items).length_eq

/-- A pass brings a largest item to the front. -/
theorem exchangePass_largest {numbers : κ → Prop} (hlinear : LinearOn numbers) {first : α}
    {items : List α} (hnumbers : ∀ x ∈ first :: items, numbers (key x)) :
    ∀ x ∈ first :: items, ¬key (exchangePass key first items).1 < key x := by
  induction items generalizing first with
  | nil =>
    intro x hx
    rw [List.mem_singleton.mp hx]
    exact hlinear.irrefl _ (hnumbers first List.mem_cons_self)
  | cons y rest ih =>
    have hfirst := hnumbers first List.mem_cons_self
    have hy := hnumbers y (List.mem_cons_of_mem _ List.mem_cons_self)
    -- the item that goes on is at least as large as both
    have hstep : ∀ next other, numbers (key next) → numbers (key other) → ¬key next < key other →
        (∀ x ∈ next :: rest, numbers (key x)) →
        ∀ x ∈ other :: next :: rest, ¬key (exchangePass key next rest).1 < key x := by
      intro next other hnext hother hle hrest x hx
      obtain rfl | hx := List.mem_cons.mp hx
      · have hmem := (@perm_exchangePass _ _ _ _ key next rest).mem_iff.mp List.mem_cons_self
        exact hlinear.not_lt_trans (hrest _ hmem) hnext hother (ih hrest next List.mem_cons_self) hle
      · exact ih hrest x hx
    rw [exchangePass]
    split_ifs with hsmaller
    · have hle : ¬key y < key first := fun hbad =>
        hlinear.irrefl _ hfirst (hlinear.trans _ _ _ hfirst hy hfirst hsmaller hbad)
      exact hstep y first hy hfirst hle fun x hx => hnumbers x (List.mem_cons_of_mem _ hx)
    · intro x hx
      refine hstep first y hfirst hy hsmaller ?_ x ?_
      · intro z hz
        obtain rfl | hz := List.mem_cons.mp hz
        · exact hfirst
        · exact hnumbers z (List.mem_cons_of_mem _ (List.mem_cons_of_mem _ hz))
      · rw [List.mem_cons, List.mem_cons] at hx ⊢
        tauto

/-- Sorting keeps the items. -/
theorem perm_exchangeSort (items : List α) : (exchangeSort key items).Perm items := by
  have hpasses : ∀ passes (items : List α), (exchangePasses key passes items).Perm items := by
    intro passes
    induction passes with
    | zero => exact fun items => List.Perm.refl items
    | succ passes ih =>
      intro items
      cases items with
      | nil => exact List.Perm.refl _
      | cons x rest => exact ((ih _).cons _).trans (perm_exchangePass x rest)
  exact hpasses items.length items

/-- Sorting leaves the items in descending order. -/
theorem pairwise_exchangeSort {numbers : κ → Prop} (hlinear : LinearOn numbers) {items : List α}
    (hnumbers : ∀ x ∈ items, numbers (key x)) :
    (exchangeSort key items).Pairwise fun x y => ¬key x < key y := by
  have hpasses : ∀ (passes : ℕ) (items : List α), items.length ≤ passes →
      (∀ x ∈ items, numbers (key x)) → (exchangePasses key passes items).Perm items ∧
        (exchangePasses key passes items).Pairwise fun x y => ¬key x < key y := by
    intro passes
    induction passes with
    | zero =>
      intro items hlength _
      rw [List.length_eq_zero_iff.mp (Nat.le_zero.mp hlength)]
      exact ⟨List.Perm.refl _, List.Pairwise.nil⟩
    | succ passes ih =>
      intro items hlength hitems
      cases items with
      | nil => exact ⟨List.Perm.refl _, List.Pairwise.nil⟩
      | cons x rest =>
        have hperm := @perm_exchangePass _ _ _ _ key x rest
        obtain ⟨hothers, hsorted⟩ := ih (exchangePass key x rest).2
          (by rw [length_exchangePass]; exact Nat.le_of_succ_le_succ hlength)
          fun y hy => hitems y (hperm.mem_iff.mp (List.mem_cons_of_mem _ hy))
        refine ⟨(hothers.cons _).trans hperm, List.pairwise_cons.mpr ⟨fun y hy => ?_, hsorted⟩⟩
        exact exchangePass_largest hlinear hitems y
          (hperm.mem_iff.mp (List.mem_cons_of_mem _ (hothers.mem_iff.mp hy)))
  exact (hpasses items.length items (le_refl _) hnumbers).2

/-- Offering a stream and sorting the buffer selects the best of it, in descending order. -/
theorem isTopK_exchangeSort_offerAll {numbers : κ → Prop} (hlinear : LinearOn numbers) (limit : ℕ)
    {items : List α} (hnumbers : ∀ x ∈ items, numbers (key x)) :
    IsTopK key limit items (exchangeSort key (offerAll key limit [] items)) ∧
      (exchangeSort key (offerAll key limit [] items)).Pairwise fun x y => ¬key x < key y := by
  have htop := isTopK_offerAll hlinear limit hnumbers
  exact ⟨htop.perm_selected (perm_exchangeSort _),
    pairwise_exchangeSort hlinear fun x hx => hnumbers x (htop.mem hx)⟩

/-- When the best of two groups of keys are the same, then so are fewer of the best ones. -/
theorem IsTopK.transfer {numbers : κ → Prop} (hlinear : LinearOn numbers)
    {items items' best selected : List κ} {room limit : ℕ} (hbest : IsTopK id room items best)
    (hbest' : IsTopK id room items' best) (hlimit : limit ≤ room) (h : IsTopK id limit items selected)
    (hnumbers : ∀ x ∈ items, numbers x) (hnumbers' : ∀ x ∈ items', numbers x) :
    IsTopK id limit items' selected := by
  have hsorted := @pairwise_exchangeSort κ κ _ _ id numbers hlinear best fun x hx => hnumbers x (hbest.mem hx)
  have htake : IsTopK id limit best ((exchangeSort id best).take limit) :=
    (isTopK_take_of_pairwise hsorted limit).of_perm (perm_exchangeSort best)
  -- the best of the best are the best of each group
  have hfewer : ∀ {group : List κ}, IsTopK id room group best → (∀ x ∈ group, numbers x) →
      IsTopK id limit group ((exchangeSort id best).take limit) := by
    intro group hgroup hgroupNumbers
    have hreplaced := @IsTopK.replace κ κ _ id limit _ numbers hlinear group [] best room hgroup hlimit
      (by rwa [List.append_nil]) (by rwa [List.append_nil])
    rwa [List.append_nil] at hreplaced
  have hperm := h.perm_keys hlinear (hfewer hbest hnumbers) hnumbers
  rw [List.map_id, List.map_id] at hperm
  exact (hfewer hbest' hnumbers').perm_selected hperm

end Exchange

end Foundation
