import FtsUring.Foundation.LeafChain

/-!
# The order and the fill of a chain of leaves

An insertion finds its leaf by the last keys of the leaves alone. This keeps all keys of the chain in order as
long as no leaf in front of another is empty, and the leaves of a chain that was split are never less than half
full. Keys may occur more than once.
-/

namespace Foundation

namespace LeafChain

variable {ι ε κ : Type*}

section Ordered

variable [LE κ] (key : ε → κ)

/-- The keys do not decrease along the chain. -/
def Ordered (chain : LeafChain ι ε) : Prop := chain.entries.Pairwise fun a b => key a ≤ key b

/-- A leaf in front of a chain. -/
theorem ordered_cons {id : ι} {leaf : List ε} {rest : LeafChain ι ε} :
    Ordered key ((id, leaf) :: rest) ↔ (leaf.Pairwise fun a b => key a ≤ key b) ∧ Ordered key rest ∧
      ∀ a ∈ leaf, ∀ b ∈ rest.entries, key a ≤ key b := by
  rw [Ordered, entries_cons, List.pairwise_append]
  rfl

/-- An update keeps the order. -/
theorem Ordered.update [DecidableEq κ] {chain : LeafChain ι ε} (h : Ordered key chain) (entry : ε) :
    Ordered key (update key entry chain) := by
  have hkeys : ∀ chain : LeafChain ι ε, Ordered key chain ↔ (chain.entries.map key).Pairwise (· ≤ ·) :=
    fun _ => List.pairwise_map.symm
  rw [hkeys, map_key_update, ← hkeys]
  exact h

end Ordered

/-- No leaf has more entries than there is room for, and with several leaves all are half full at least. -/
structure Balanced (capacity : ℕ) (chain : LeafChain ι ε) : Prop where
  fits : ∀ leaf ∈ chain, leaf.2.length ≤ capacity
  filled : 1 < chain.length → ∀ leaf ∈ chain, capacity / 2 ≤ leaf.2.length

/-- Balance is a matter of the numbers of entries. -/
theorem Balanced.of_lengths {capacity : ℕ} {chain other : LeafChain ι ε} (h : Balanced capacity chain)
    (hlengths : other.map (fun leaf => leaf.2.length) = chain.map fun leaf => leaf.2.length) :
    Balanced capacity other := by
  have hlength : other.length = chain.length := by simpa using congrArg List.length hlengths
  have hmem : ∀ leaf ∈ other, ∃ leaf' ∈ chain, leaf'.2.length = leaf.2.length := by
    intro leaf hleaf
    have hin := List.mem_map_of_mem (f := fun leaf : ι × List ε => leaf.2.length) hleaf
    rw [hlengths] at hin
    exact List.mem_map.mp hin
  refine ⟨fun leaf hleaf => ?_, fun hseveral leaf hleaf => ?_⟩
  · obtain ⟨leaf', hleaf', hsame⟩ := hmem leaf hleaf
    rw [← hsame]
    exact h.fits leaf' hleaf'
  · obtain ⟨leaf', hleaf', hsame⟩ := hmem leaf hleaf
    rw [← hsame]
    exact h.filled (hlength ▸ hseveral) leaf' hleaf'

/-- An update keeps the numbers of entries. -/
theorem lengths_update [DecidableEq κ] (key : ε → κ) (entry : ε) (chain : LeafChain ι ε) :
    (update key entry chain).map (fun leaf => leaf.2.length) = chain.map fun leaf => leaf.2.length := by
  induction chain with
  | nil => rfl
  | cons first rest ih =>
    obtain ⟨id, leaf⟩ := first
    rw [update]
    split
    · simp only [List.map_cons, List.length_set]
    · rw [List.map_cons, List.map_cons, ih]

section Below

variable [LE κ] [LT κ] [Std.IsLinearOrder κ] [Std.LawfulOrderLT κ] (key : ε → κ)

/-- A key above the last one of an ordered leaf is above all. -/
theorem Below.le {leaf : List ε} {k : κ} (hbelow : Below key leaf k)
    (h : leaf.Pairwise fun a b => key a ≤ key b) : ∀ a ∈ leaf, key a ≤ k := by
  obtain ⟨last, hlast, hlt⟩ := hbelow
  obtain ⟨front, rfl⟩ := List.getLast?_eq_some_iff.mp hlast
  intro a ha
  rw [List.mem_append, List.mem_singleton] at ha
  obtain ha | rfl := ha
  · have hle := (List.pairwise_append.mp h).2.2 a ha last (List.mem_singleton_self last)
    exact Std.le_trans hle (Std.le_of_lt hlt)
  · exact Std.le_of_lt hlt

/-- A key that is not above the last one of a leaf is not above what follows the leaf. -/
theorem le_of_not_below {leaf : List ε} {k : κ} (hbelow : ¬Below key leaf k) (hne : leaf ≠ []) {b : ε}
    (h : ∀ a ∈ leaf, key a ≤ key b) : k ≤ key b := by
  have hlast : ¬key (leaf.getLast hne) < k := fun hlt =>
    hbelow ⟨leaf.getLast hne, List.getLast?_eq_some_getLast hne, hlt⟩
  exact Std.le_trans (Std.not_lt.mp hlast) (h _ (List.getLast_mem hne))

end Below

/-! ## Insertion into one leaf -/

section Insert

variable [LT κ] [DecidableLT κ] (key : ε → κ)

/-- The new entry goes in front of the first greater one. -/
theorem insertSorted_cons (entry first : ε) (leaf : List ε) :
    insertSorted key entry (first :: leaf) =
      if key entry < key first then entry :: first :: leaf else first :: insertSorted key entry leaf := by
  rw [insertSorted, List.findIdx_cons]
  by_cases hfirst : key entry < key first
  · rw [if_pos hfirst, decide_eq_true hfirst]
    rfl
  · rw [if_neg hfirst, decide_eq_false hfirst]
    rfl

/-- One entry more. -/
theorem length_insertSorted (entry : ε) (leaf : List ε) :
    (insertSorted key entry leaf).length = leaf.length + 1 :=
  (perm_insertSorted key entry leaf).length_eq

/-- The entries of the leaf and the new one. -/
theorem mem_insertSorted {entry other : ε} {leaf : List ε} :
    other ∈ insertSorted key entry leaf ↔ other = entry ∨ other ∈ leaf := by
  rw [(perm_insertSorted key entry leaf).mem_iff, List.mem_cons]

variable [LE κ] [Std.IsLinearOrder κ] [Std.LawfulOrderLT κ]

/-- The leaf stays ordered. -/
theorem pairwise_insertSorted (entry : ε) {leaf : List ε} (h : leaf.Pairwise fun a b => key a ≤ key b) :
    (insertSorted key entry leaf).Pairwise fun a b => key a ≤ key b := by
  induction leaf with
  | nil => exact List.pairwise_singleton _ _
  | cons first leaf ih =>
    rw [List.pairwise_cons] at h
    rw [insertSorted_cons]
    split_ifs with hfirst
    · have hle := Std.le_of_lt hfirst
      refine List.pairwise_cons.mpr ⟨fun other hother => ?_, List.pairwise_cons.mpr h⟩
      rw [List.mem_cons] at hother
      obtain rfl | hother := hother
      · exact hle
      · exact Std.le_trans hle (h.1 other hother)
    · refine List.pairwise_cons.mpr ⟨fun other hother => ?_, ih h.2⟩
      rw [mem_insertSorted] at hother
      obtain rfl | hother := hother
      · exact Std.not_lt.mp hfirst
      · exact h.1 other hother

variable {capacity : ℕ}

/-- The leaf and perhaps the new one behind it are ordered. -/
theorem ordered_place (hcapacity : 2 ≤ capacity) (newId : ι) (entry : ε) (id : ι) {leaf : List ε}
    (h : leaf.Pairwise fun a b => key a ≤ key b) : Ordered key (place key capacity newId entry id leaf) := by
  have hsingle : ∀ (id : ι) {leaf : List ε}, (leaf.Pairwise fun a b => key a ≤ key b) →
      Ordered key [(id, leaf)] := by
    intro id leaf hleaf
    rw [ordered_cons]
    exact ⟨hleaf, List.Pairwise.nil, fun _ _ b hb => absurd hb List.not_mem_nil⟩
  have hentries : ∀ (id : ι) (leaf : List ε), entries [(id, leaf)] = leaf := fun id leaf => by simp [entries]
  have hhalves := h
  rw [← List.take_append_drop (leaf.length / 2) leaf, List.pairwise_append] at hhalves
  obtain ⟨hlow, hhigh, hcross⟩ := hhalves
  simp only [place]
  split_ifs with hroom hbelow
  · exact hsingle id (pairwise_insertSorted key entry h)
  · rw [ordered_cons, hentries]
    refine ⟨hlow, hsingle newId (pairwise_insertSorted key entry hhigh), fun a ha b hb => ?_⟩
    rw [mem_insertSorted] at hb
    obtain rfl | hb := hb
    · exact hbelow.le key hlow a ha
    · exact hcross a ha b hb
  · have hne : leaf.take (leaf.length / 2) ≠ [] := by
      apply List.ne_nil_of_length_pos
      rw [List.length_take]
      omega
    rw [ordered_cons, hentries]
    refine ⟨pairwise_insertSorted key entry hlow, hsingle newId hhigh, fun a ha b hb => ?_⟩
    rw [mem_insertSorted] at ha
    obtain rfl | ha := ha
    · exact le_of_not_below key hbelow hne fun a ha => hcross a ha b hb
    · exact hcross a ha b hb

/-! ## Insertion into the chain -/

/-- An insertion keeps the order. -/
theorem Ordered.insert (hcapacity : 2 ≤ capacity) (newId : ι) (entry : ε) {chain : LeafChain ι ε}
    (h : Ordered key chain) (hfilled : 1 < chain.length → ∀ leaf ∈ chain, leaf.2 ≠ []) :
    Ordered key (insert key capacity newId entry chain) := by
  induction chain with
  | nil => exact h
  | cons first rest ih =>
    obtain ⟨id, leaf⟩ := first
    obtain ⟨hleaf, hrest, hcross⟩ := (ordered_cons key).mp h
    rw [LeafChain.insert]
    split_ifs with hnext
    · have hfilled' : 1 < rest.length → ∀ leaf ∈ rest, leaf.2 ≠ [] := fun hseveral leaf hmem =>
        hfilled (by rw [List.length_cons]; omega) leaf (List.mem_cons_of_mem _ hmem)
      refine (ordered_cons key).mpr ⟨hleaf, ih hrest hfilled', fun a ha b hb => ?_⟩
      rw [(perm_entries_insert key capacity newId entry hnext.1).mem_iff, List.mem_cons] at hb
      obtain rfl | hb := hb
      · exact hnext.2.le key hleaf a ha
      · exact hcross a ha b hb
    · have hplace := ordered_place key hcapacity newId entry id hleaf
      rw [Ordered, entries_append, List.pairwise_append]
      refine ⟨hplace, hrest, fun a ha b hb => ?_⟩
      rw [(perm_entries_place key capacity newId entry id leaf).mem_iff, List.mem_cons] at ha
      obtain rfl | ha := ha
      · have hrestNe : rest ≠ [] := by
          rintro rfl
          exact List.not_mem_nil hb
        have hne : leaf ≠ [] := hfilled (by
          rw [List.length_cons]
          exact Nat.succ_lt_succ (List.length_pos_of_ne_nil hrestNe)) (id, leaf) List.mem_cons_self
        exact le_of_not_below key (fun hbelow => hnext ⟨hrestNe, hbelow⟩) hne fun a ha => hcross a ha b hb
      · exact hcross a ha b hb

/-! ## The fill -/

omit [LE κ] [Std.IsLinearOrder κ] [Std.LawfulOrderLT κ]

/-- The leaf and the new one have room for their entries. -/
theorem fits_place (hcapacity : 2 ≤ capacity) (newId : ι) (entry : ε) (id : ι) {leaf : List ε}
    (h : leaf.length ≤ capacity) :
    ∀ placed ∈ place key capacity newId entry id leaf, placed.2.length ≤ capacity := by
  intro placed hplaced
  simp only [place] at hplaced
  split_ifs at hplaced with hroom
  · rw [List.mem_singleton] at hplaced
    rw [hplaced, length_insertSorted]
    exact hroom
  · rw [List.mem_pair] at hplaced
    obtain rfl | rfl := hplaced
    · rw [List.length_take]
      omega
    · rw [length_insertSorted, List.length_drop]
      omega
  · rw [List.mem_pair] at hplaced
    obtain rfl | rfl := hplaced
    · rw [length_insertSorted, List.length_take]
      omega
    · rw [List.length_drop]
      omega

/-- Both are half full, if the leaf was. -/
theorem filled_place (newId : ι) (entry : ε) (id : ι) {leaf : List ε} (h : capacity / 2 ≤ leaf.length) :
    ∀ placed ∈ place key capacity newId entry id leaf, capacity / 2 ≤ placed.2.length := by
  intro placed hplaced
  simp only [place] at hplaced
  split_ifs at hplaced with hroom
  · rw [List.mem_singleton] at hplaced
    rw [hplaced, length_insertSorted]
    omega
  · rw [List.mem_pair] at hplaced
    obtain rfl | rfl := hplaced
    · rw [List.length_take]
      omega
    · rw [length_insertSorted, List.length_drop]
      omega
  · rw [List.mem_pair] at hplaced
    obtain rfl | rfl := hplaced
    · rw [length_insertSorted, List.length_take]
      omega
    · rw [List.length_drop]
      omega

/-- A property of leaves that an insertion into one leaf keeps holds of all leaves after an insertion. -/
theorem forall_insert {property : ι × List ε → Prop} (newId : ι) (entry : ε) {chain : LeafChain ι ε}
    (hplace : ∀ leaf ∈ chain, ∀ placed ∈ place key capacity newId entry leaf.1 leaf.2, property placed)
    (h : ∀ leaf ∈ chain, property leaf) : ∀ leaf ∈ insert key capacity newId entry chain, property leaf := by
  induction chain with
  | nil => exact h
  | cons first rest ih =>
    obtain ⟨id, leaf⟩ := first
    have hrest := ih (fun other hother => hplace other (List.mem_cons_of_mem _ hother))
      fun other hother => h other (List.mem_cons_of_mem _ hother)
    intro placed hplaced
    rw [LeafChain.insert] at hplaced
    split_ifs at hplaced
    · rw [List.mem_cons] at hplaced
      obtain rfl | hplaced := hplaced
      · exact h _ List.mem_cons_self
      · exact hrest placed hplaced
    · rw [List.mem_append] at hplaced
      obtain hplaced | hplaced := hplaced
      · exact hplace _ List.mem_cons_self placed hplaced
      · exact h placed (List.mem_cons_of_mem _ hplaced)

/-- An insertion keeps the balance. -/
theorem Balanced.insert (hcapacity : 2 ≤ capacity) (newId : ι) (entry : ε) {chain : LeafChain ι ε}
    (h : Balanced capacity chain) : Balanced capacity (insert key capacity newId entry chain) := by
  refine ⟨forall_insert key newId entry (fun leaf hleaf => fits_place key hcapacity newId entry leaf.1
    (h.fits leaf hleaf)) h.fits, fun hseveral => ?_⟩
  have hfilled : ∀ leaf ∈ chain, capacity / 2 ≤ leaf.2.length := by
    intro leaf hleaf
    by_cases hwas : 1 < chain.length
    · exact h.filled hwas leaf hleaf
    -- the only leaf was split
    obtain ⟨id, only⟩ := leaf
    have hchain : chain = [(id, only)] := by
      cases chain with
      | nil => exact absurd hleaf List.not_mem_nil
      | cons first rest =>
        have hrest : rest = [] := List.length_eq_zero_iff.mp (by rw [List.length_cons] at hwas; omega)
        rw [hrest, List.mem_singleton] at hleaf
        rw [hrest, hleaf]
    rw [hchain, LeafChain.insert, if_neg fun hnext => hnext.1 rfl, List.append_nil, place] at hseveral
    split_ifs at hseveral with hroom
    · exact absurd hseveral (lt_irrefl 1)
    · exact (Nat.div_le_self capacity 2).trans (not_lt.mp hroom)
  exact forall_insert key newId entry (fun leaf hleaf => filled_place key newId entry leaf.1
    (hfilled leaf hleaf)) hfilled

end Insert

end LeafChain

end Foundation
