import Mathlib.Data.List.Flatten
import Mathlib.Data.List.Perm.Basic
import Mathlib.Tactic

/-!
# Chains of pages that grow at the front

A log that is kept in pages of bounded size: items are added to the first page, and when that is
full a new page is put in front of it. Within a page the items are in the order in which they
were added, but the pages are not: reading the chain from the front finds the newest page first.
-/

namespace Foundation

variable {π : Type*}

/-- The pages with their ids, the newest first. -/
abbrev PageChain (π : Type*) : Type _ := List (ℕ × List π)

namespace PageChain

/-- The ids of the pages. -/
def ids (chain : PageChain π) : List ℕ := chain.map Prod.fst

/-- The items as a reader of the chain finds them. -/
def contents (chain : PageChain π) : List π := chain.flatMap Prod.snd

/-- The items in the order in which they were added. -/
def chronological : PageChain π → List π
  | [] => []
  | (_, page) :: rest => chronological rest ++ page

/-- The newest item. -/
def newest? : PageChain π → Option π
  | [] => none
  | (_, page) :: _ => page.getLast?

/-- Add an item; `newId` is the id of the page to put in front if one is needed. -/
def push (capacity newId : ℕ) (item : π) : PageChain π → PageChain π
  | [] => [(newId, [item])]
  | (id, page) :: rest =>
    if page.length < capacity then (id, page ++ [item]) :: rest
    else (newId, [item]) :: (id, page) :: rest

/-- Adding an item needs a new page. -/
def needsPage (capacity : ℕ) : PageChain π → Bool
  | [] => true
  | (_, page) :: _ => capacity ≤ page.length

/-- Replace the newest item. -/
def replaceNewest (item : π) : PageChain π → PageChain π
  | [] => []
  | (id, page) :: rest => (id, page.dropLast ++ [item]) :: rest

/-- No page is empty or too long, and all but the first are full. -/
structure Packed (capacity : ℕ) (chain : PageChain π) : Prop where
  nonempty : ∀ page ∈ chain, 0 < page.2.length
  fits : ∀ page ∈ chain, page.2.length ≤ capacity
  full : ∀ page ∈ chain.tail, page.2.length = capacity

/-- The items in the pages with an id. -/
def itemsAt (chain : PageChain π) (id : ℕ) : List π :=
  chain.flatMap fun page => if page.1 = id then page.2 else []

/-- The ids of a chain with a first page. -/
theorem ids_cons (id : ℕ) (page : List π) (rest : PageChain π) :
    ids ((id, page) :: rest) = id :: ids rest := rfl

/-- The items of a chain with a first page. -/
theorem contents_cons (id : ℕ) (page : List π) (rest : PageChain π) :
    contents ((id, page) :: rest) = page ++ contents rest :=
  List.flatMap_cons

/-- A reader finds the items that were added. -/
theorem perm_contents (chain : PageChain π) : chain.contents.Perm chain.chronological := by
  induction chain with
  | nil => exact List.Perm.refl _
  | cons first rest ih =>
    obtain ⟨id, page⟩ := first
    rw [contents_cons, chronological]
    exact (List.Perm.append_left page ih).trans List.perm_append_comm

/-- Adding an item adds it at the end. -/
theorem chronological_push (capacity newId : ℕ) (item : π) (chain : PageChain π) :
    (push capacity newId item chain).chronological = chain.chronological ++ [item] := by
  cases chain with
  | nil => rfl
  | cons first rest =>
    obtain ⟨id, page⟩ := first
    rw [push]
    split_ifs
    · rw [chronological, chronological, List.append_assoc]
    · rfl

/-- The pages after an item was added. -/
theorem ids_push (capacity newId : ℕ) (item : π) (chain : PageChain π) :
    (push capacity newId item chain).ids =
      if needsPage capacity chain then newId :: chain.ids else chain.ids := by
  cases chain with
  | nil => rfl
  | cons first rest =>
    obtain ⟨id, page⟩ := first
    rw [push, needsPage]
    by_cases hroom : page.length < capacity
    · rw [if_pos hroom, if_neg (by simpa using hroom)]
      rfl
    · rw [if_neg hroom, if_pos (by simpa using hroom)]
      rfl

/-- Adding an item keeps the chain packed. -/
theorem Packed.push {capacity : ℕ} (hcapacity : 0 < capacity) (newId : ℕ) (item : π)
    {chain : PageChain π} (h : chain.Packed capacity) : (push capacity newId item chain).Packed capacity := by
  cases chain with
  | nil =>
    refine ⟨?_, ?_, fun page hpage => absurd hpage List.not_mem_nil⟩
    · intro page hpage
      rw [PageChain.push, List.mem_singleton] at hpage
      rw [hpage]
      exact Nat.one_pos
    · intro page hpage
      rw [PageChain.push, List.mem_singleton] at hpage
      rw [hpage]
      exact hcapacity
  | cons first rest =>
    obtain ⟨id, page⟩ := first
    have hfirst := h.nonempty (id, page) List.mem_cons_self
    have hfits := h.fits (id, page) List.mem_cons_self
    rw [PageChain.push]
    split_ifs with hroom
    · refine ⟨?_, ?_, h.full⟩
      · intro other hother
        rw [List.mem_cons] at hother
        obtain rfl | hrest := hother
        · simp
        · exact h.nonempty other (List.mem_cons_of_mem _ hrest)
      · intro other hother
        rw [List.mem_cons] at hother
        obtain rfl | hrest := hother
        · rw [List.length_append, List.length_singleton]
          exact hroom
        · exact h.fits other (List.mem_cons_of_mem _ hrest)
    · refine ⟨?_, ?_, ?_⟩
      · intro other hother
        rw [List.mem_cons] at hother
        obtain rfl | hrest := hother
        · exact Nat.one_pos
        · exact h.nonempty other hrest
      · intro other hother
        rw [List.mem_cons] at hother
        obtain rfl | hrest := hother
        · exact hcapacity
        · exact h.fits other hrest
      · intro other hother
        rw [List.tail_cons, List.mem_cons] at hother
        obtain rfl | hrest := hother
        · exact le_antisymm hfits (not_lt.mp hroom)
        · exact h.full other hrest

/-- The newest item is the last one that was added. -/
theorem newest?_eq {capacity : ℕ} {chain : PageChain π} (h : chain.Packed capacity) :
    chain.newest? = chain.chronological.getLast? := by
  cases chain with
  | nil => rfl
  | cons first rest =>
    obtain ⟨id, page⟩ := first
    have hpage : page ≠ [] := List.ne_nil_of_length_pos (h.nonempty (id, page) List.mem_cons_self)
    rw [newest?, chronological, List.getLast?_append_of_ne_nil _ hpage]

/-- Replacing the newest item keeps the pages. -/
theorem ids_replaceNewest (item : π) (chain : PageChain π) :
    (chain.replaceNewest item).ids = chain.ids := by
  cases chain <;> rfl

/-- The newest item after one was added. -/
theorem newest?_push (capacity newId : ℕ) (item : π) (chain : PageChain π) :
    (push capacity newId item chain).newest? = some item := by
  cases chain with
  | nil => rfl
  | cons first rest =>
    obtain ⟨id, page⟩ := first
    rw [push]
    split_ifs with hroom
    · exact List.getLast?_concat
    · rfl

/-- The newest item after it was replaced. -/
theorem newest?_replaceNewest (item : π) {chain : PageChain π} (hne : chain ≠ []) :
    (chain.replaceNewest item).newest? = some item := by
  cases chain with
  | nil => exact absurd rfl hne
  | cons first rest => exact List.getLast?_concat

/-- Replacing the newest item by itself. -/
theorem replaceNewest_newest {item : π} {chain : PageChain π} (h : chain.newest? = some item) :
    chain.replaceNewest item = chain := by
  cases chain with
  | nil => rfl
  | cons first rest =>
    obtain ⟨id, page⟩ := first
    rw [replaceNewest, List.dropLast_append_getLast? item h]

/-- Replacing the newest item replaces the last one that was added. -/
theorem chronological_replaceNewest {capacity : ℕ} (item : π) {chain : PageChain π}
    (h : chain.Packed capacity) (hne : chain ≠ []) :
    (chain.replaceNewest item).chronological = chain.chronological.dropLast ++ [item] := by
  cases chain with
  | nil => exact absurd rfl hne
  | cons first rest =>
    obtain ⟨id, page⟩ := first
    have hpage : page ≠ [] := List.ne_nil_of_length_pos (h.nonempty (id, page) List.mem_cons_self)
    rw [replaceNewest, chronological, chronological, List.dropLast_append_of_ne_nil hpage,
      List.append_assoc]

/-- Replacing the newest item keeps the chain packed. -/
theorem Packed.replaceNewest {capacity : ℕ} (item : π) {chain : PageChain π}
    (h : chain.Packed capacity) : (chain.replaceNewest item).Packed capacity := by
  cases chain with
  | nil => exact h
  | cons first rest =>
    obtain ⟨id, page⟩ := first
    have hfirst := h.nonempty (id, page) List.mem_cons_self
    have hlength : (page.dropLast ++ [item]).length = page.length := by
      rw [List.length_append, List.length_dropLast, List.length_singleton]
      exact Nat.sub_add_cancel hfirst
    refine ⟨?_, ?_, h.full⟩
    · intro other hother
      rw [PageChain.replaceNewest, List.mem_cons] at hother
      obtain rfl | hrest := hother
      · exact hlength.symm ▸ hfirst
      · exact h.nonempty other (List.mem_cons_of_mem _ hrest)
    · intro other hother
      rw [PageChain.replaceNewest, List.mem_cons] at hother
      obtain rfl | hrest := hother
      · exact hlength.symm ▸ h.fits (id, page) List.mem_cons_self
      · exact h.fits other (List.mem_cons_of_mem _ hrest)

/-! ## The newest page -/

/-- How many items are not on the newest page, when so many were added. -/
def filledBefore (capacity count : ℕ) : ℕ := (count - 1) / capacity * capacity

/-- Behind full pages come as many items as they have room for. -/
theorem length_chronological_of_full {capacity : ℕ} {chain : PageChain π}
    (h : ∀ page ∈ chain, page.2.length = capacity) : chain.chronological.length = chain.length * capacity := by
  induction chain with
  | nil => exact (Nat.zero_mul capacity).symm
  | cons first rest ih =>
    obtain ⟨id, page⟩ := first
    have hpage : page.length = capacity := h (id, page) List.mem_cons_self
    rw [chronological, List.length_append, ih fun other hother => h other (List.mem_cons_of_mem _ hother), hpage,
      List.length_cons, Nat.succ_mul]

/-- A reader finds the items on the newest page in the order in which they were added, and then the others. -/
theorem Packed.contents_eq {capacity : ℕ} {chain : PageChain π} (h : chain.Packed capacity) :
    ∃ older, chain.contents = chain.chronological.drop (filledBefore capacity chain.chronological.length) ++ older ∧
      older.Perm (chain.chronological.take (filledBefore capacity chain.chronological.length)) := by
  cases chain with
  | nil => exact ⟨[], by simp [contents, chronological], by simp [chronological]⟩
  | cons first rest =>
    obtain ⟨id, page⟩ := first
    have hpositive := h.nonempty (id, page) List.mem_cons_self
    have hfits := h.fits (id, page) List.mem_cons_self
    have hrest := length_chronological_of_full h.full
    rw [List.tail_cons] at hrest
    dsimp only at hpositive hfits
    have hbefore : filledBefore capacity (chronological ((id, page) :: rest)).length =
        (chronological rest).length := by
      have hlast : page.length - 1 < capacity := by omega
      rw [chronological, List.length_append, filledBefore, hrest, Nat.add_sub_assoc hpositive,
        Nat.add_comm (rest.length * capacity), Nat.add_mul_div_right _ _ (by omega), Nat.div_eq_of_lt hlast,
        Nat.zero_add]
    rw [hbefore, contents_cons, chronological, List.drop_left, List.take_left]
    exact ⟨contents rest, rfl, perm_contents rest⟩

/-! ## Where the items are -/

/-- The page and the slot of each item, in the order in which the items were added. -/
def locations : PageChain π → List (ℕ × ℕ)
  | [] => []
  | (id, page) :: rest => locations rest ++ (List.range page.length).map fun slot => (id, slot)

/-- The page and the slot of the newest item. -/
def newestLocation (chain : PageChain π) : ℕ × ℕ :=
  ((chain.ids.head?).getD 0, (chain.head?.map fun page => page.2.length).getD 0 - 1)

/-- Every item has a location. -/
theorem length_locations (chain : PageChain π) :
    chain.locations.length = chain.chronological.length := by
  induction chain with
  | nil => rfl
  | cons first rest ih =>
    obtain ⟨id, page⟩ := first
    rw [locations, chronological, List.length_append, List.length_append, List.length_map,
      List.length_range, ih]

/-- Adding an item moves no other item. -/
theorem locations_push (capacity newId : ℕ) (item : π) (chain : PageChain π) :
    (push capacity newId item chain).locations =
      chain.locations ++ [(push capacity newId item chain).newestLocation] := by
  cases chain with
  | nil => rfl
  | cons first rest =>
    obtain ⟨id, page⟩ := first
    rw [push]
    split_ifs
    · rw [locations, locations, List.length_append, List.length_singleton, List.range_succ,
        List.map_append, List.append_assoc, newestLocation]
      simp [ids]
    · rfl

/-- An item is where its location says. -/
theorem exists_page_of_mem_zip {chain : PageChain π} {location : ℕ × ℕ} {item : π}
    (h : (location, item) ∈ chain.locations.zip chain.chronological) :
    ∃ page, (location.1, page) ∈ chain ∧ page[location.2]? = some item := by
  induction chain with
  | nil => exact absurd h List.not_mem_nil
  | cons first rest ih =>
    obtain ⟨id, page⟩ := first
    rw [locations, chronological, List.zip_append (length_locations rest), List.mem_append] at h
    obtain hrest | hpage := h
    · obtain ⟨found, hfound, hitem⟩ := ih hrest
      exact ⟨found, List.mem_cons_of_mem _ hfound, hitem⟩
    · obtain ⟨i, hi⟩ := List.mem_iff_getElem?.mp hpage
      rw [List.getElem?_zip_eq_some, List.getElem?_map, Option.map_eq_some_iff] at hi
      obtain ⟨⟨slot, hslot, rfl⟩, hitem⟩ := hi
      obtain ⟨hlt, hsame⟩ := List.getElem?_eq_some_iff.mp hslot
      rw [List.getElem_range] at hsame
      exact ⟨page, List.mem_cons_self, hsame ▸ hitem⟩

/-! ## Reading the pages in the order of their ids -/

/-- An id that no page has. -/
theorem itemsAt_eq_nil {chain : PageChain π} {id : ℕ} (h : id ∉ chain.ids) : chain.itemsAt id = [] := by
  rw [itemsAt, List.flatMap_eq_nil_iff]
  intro page hpage
  apply if_neg
  intro heq
  exact h (heq ▸ List.mem_map_of_mem hpage)

/-- The items of a page, when no two pages have one id. -/
theorem itemsAt_of_mem {chain : PageChain π} (hnodup : chain.ids.Nodup) {id : ℕ} {page : List π}
    (h : (id, page) ∈ chain) : chain.itemsAt id = page := by
  induction chain with
  | nil => exact absurd h List.not_mem_nil
  | cons first rest ih =>
    obtain ⟨firstId, firstPage⟩ := first
    rw [ids_cons, List.nodup_cons] at hnodup
    rw [itemsAt, List.flatMap_cons, ← itemsAt]
    obtain heq | hrest := List.mem_cons.mp h
    · rw [Prod.mk.injEq] at heq
      rw [heq.1, heq.2, if_pos rfl, itemsAt_eq_nil hnodup.1, List.append_nil]
    · have hne : firstId ≠ id := fun heq => hnodup.1 (heq ▸ List.mem_map_of_mem hrest)
      rw [if_neg hne, List.nil_append, ih hnodup.2 hrest]

/-- A reader that goes through the pages in ascending order of their ids finds the items in the order
in which they were added. -/
theorem flatMap_itemsAt {chain : PageChain π} (hdescending : chain.ids.Pairwise (· > ·)) {low count : ℕ}
    (hrange : ∀ id ∈ chain.ids, low ≤ id ∧ id < low + count) :
    (List.range' low count).flatMap chain.itemsAt = chain.chronological := by
  induction chain generalizing count with
  | nil =>
    rw [chronological, List.flatMap_eq_nil_iff]
    exact fun _ _ => rfl
  | cons first rest ih =>
    obtain ⟨id, page⟩ := first
    rw [ids_cons, List.pairwise_cons] at hdescending
    obtain ⟨hlow, hhigh⟩ := hrange id List.mem_cons_self
    have hrest : ∀ other ∈ ids rest, low ≤ other ∧ other < low + (id - low) := by
      intro other hother
      have hbound := (hrange other (List.mem_cons_of_mem _ hother)).1
      have hless := hdescending.1 other hother
      omega
    have hsplit : List.range' low count =
        List.range' low (id - low) ++ (id :: List.range' (id + 1) (low + count - (id + 1))) := by
      have hcount : count = (id - low) + (1 + (low + count - (id + 1))) := by omega
      have hmid : low + 1 * (id - low) = id := by omega
      conv_lhs => rw [hcount]
      rw [← List.range'_append, hmid, Nat.add_comm 1, List.range'_succ]
    have hfirst : ∀ other, itemsAt ((id, page) :: rest) other =
        (if id = other then page else []) ++ itemsAt rest other := fun _ => List.flatMap_cons
    have hfront : (List.range' low (id - low)).flatMap (itemsAt ((id, page) :: rest)) =
        (List.range' low (id - low)).flatMap (itemsAt rest) := by
      apply List.flatMap_congr
      intro other hother
      have hbound := (List.mem_range'_1.mp hother).2
      rw [hfirst, if_neg (by omega), List.nil_append]
    have hback : (List.range' (id + 1) (low + count - (id + 1))).flatMap
        (itemsAt ((id, page) :: rest)) = [] := by
      rw [List.flatMap_eq_nil_iff]
      intro other hother
      have hbound := (List.mem_range'_1.mp hother).1
      rw [hfirst, if_neg (by omega), List.nil_append]
      exact itemsAt_eq_nil fun hmem => absurd (hdescending.1 other hmem) (by omega)
    have hself : itemsAt ((id, page) :: rest) id = page := by
      rw [hfirst, if_pos rfl, itemsAt_eq_nil fun hmem => absurd (hdescending.1 id hmem) (lt_irrefl id),
        List.append_nil]
    rw [hsplit, List.flatMap_append, List.flatMap_cons, hfront, hback, hself, List.append_nil,
      ih hdescending.2 hrest, chronological]

end PageChain

end Foundation
