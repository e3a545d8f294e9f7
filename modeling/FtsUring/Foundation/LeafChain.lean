import Mathlib.Data.List.Perm.Basic
import Mathlib.Data.List.Nodup
import Mathlib.Logic.Function.Basic
import Mathlib.Tactic

/-!
# Chains of leaves

A map that is kept as a chain of leaves, each with a bounded number of entries. A lookup goes
through all leaves. An insertion walks right as long as the last key of the leaf is below the
new one, and splits the leaf it arrives at when that is full.

The chain is a map from keys to entries: `lookup_insert` and `lookup_update` say that the
operations are the update of a function at one key. Neither needs the keys to be ordered: the
order only decides in which leaf an entry is found.
-/

namespace Foundation

variable {ι ε κ : Type*}

/-- The leaves with their ids, from first to last. -/
abbrev LeafChain (ι ε : Type*) : Type _ := List (ι × List ε)

namespace LeafChain

/-- The ids of the leaves. -/
def ids (chain : LeafChain ι ε) : List ι := chain.map Prod.fst

/-- All entries. -/
def entries (chain : LeafChain ι ε) : List ε := chain.flatMap Prod.snd

/-- The ids of a chain that is put together. -/
theorem ids_append (left right : LeafChain ι ε) : (left ++ right).ids = left.ids ++ right.ids :=
  List.map_append

/-- The entries of a chain that is put together. -/
theorem entries_append (left right : LeafChain ι ε) :
    (left ++ right).entries = left.entries ++ right.entries :=
  List.flatMap_append

/-- The ids of a chain with a first leaf. -/
theorem ids_cons (id : ι) (leaf : List ε) (rest : LeafChain ι ε) :
    ids ((id, leaf) :: rest) = id :: ids rest := rfl

/-- The entries of a chain with a first leaf. -/
theorem entries_cons (id : ι) (leaf : List ε) (rest : LeafChain ι ε) :
    entries ((id, leaf) :: rest) = leaf ++ entries rest :=
  List.flatMap_cons

section Keys

variable [DecidableEq κ] (key : ε → κ)

/-- The first entry with a key. -/
def lookup (chain : LeafChain ι ε) (k : κ) : Option ε := chain.entries.find? fun entry => key entry = k

/-- No key occurs twice. -/
def Distinct (chain : LeafChain ι ε) : Prop := (chain.entries.map key).Nodup

/-- Replace the first entry that has the key of the given one. -/
def update (entry : ε) : LeafChain ι ε → LeafChain ι ε
  | [] => []
  | (id, leaf) :: rest =>
    match leaf.findIdx? fun other => key other = key entry with
    | some i => (id, leaf.set i entry) :: rest
    | none => (id, leaf) :: update entry rest

/-- The lookup in a chain with a first leaf. -/
theorem lookup_cons (id : ι) (leaf : List ε) (rest : LeafChain ι ε) (k : κ) :
    lookup key ((id, leaf) :: rest) k =
      (leaf.find? fun entry => key entry = k).or (lookup key rest k) := by
  rw [lookup, entries_cons, List.find?_append, lookup]

/-- With distinct keys a lookup finds exactly the entries of the chain. -/
theorem lookup_eq_some {chain : LeafChain ι ε} (h : chain.Distinct key) {k : κ} {entry : ε} :
    lookup key chain k = some entry ↔ entry ∈ chain.entries ∧ key entry = k := by
  constructor
  · intro hfound
    exact ⟨List.mem_of_find?_eq_some hfound, by simpa using List.find?_some hfound⟩
  · rintro ⟨hmem, rfl⟩
    cases hfound : lookup key chain (key entry) with
    | none => exact absurd (List.find?_eq_none.mp hfound entry hmem) (by simp)
    | some other =>
      have hother := List.mem_of_find?_eq_some hfound
      have hkey : key other = key entry := by simpa using List.find?_some hfound
      rw [List.inj_on_of_nodup_map h hother hmem hkey]

/-- A lookup fails when no entry has the key. -/
theorem lookup_eq_none {chain : LeafChain ι ε} {k : κ} :
    lookup key chain k = none ↔ k ∉ chain.entries.map key := by
  simp [lookup]

/-- Replacing the first entry with a key changes a list only there. -/
theorem find?_set_findIdx? {leaf : List ε} {entry : ε} {i : ℕ}
    (hi : leaf.findIdx? (fun other => key other = key entry) = some i) (k : κ) :
    (leaf.set i entry).find? (fun other => key other = k) =
      if k = key entry then some entry else leaf.find? fun other => key other = k := by
  induction leaf generalizing i with
  | nil => simp at hi
  | cons first leaf ih =>
    rw [List.findIdx?_cons] at hi
    by_cases hfirst : key first = key entry
    · rw [if_pos (by simpa using hfirst), Option.some.injEq] at hi
      subst hi
      by_cases hk : k = key entry
      · rw [if_pos hk, List.set_cons_zero, List.find?_cons_of_pos (by simpa using hk.symm)]
      · rw [if_neg hk, List.set_cons_zero, List.find?_cons_of_neg (by simpa using Ne.symm hk),
          List.find?_cons_of_neg (by simpa [hfirst] using Ne.symm hk)]
    · rw [if_neg (by simpa using hfirst), Option.map_eq_some_iff] at hi
      obtain ⟨j, hj, rfl⟩ := hi
      rw [List.set_cons_succ]
      by_cases hk : key first = k
      · rw [List.find?_cons_of_pos (by simpa using hk), if_neg (hk ▸ hfirst),
          List.find?_cons_of_pos (by simpa using hk)]
      · rw [List.find?_cons_of_neg (by simpa using hk), ih hj,
          List.find?_cons_of_neg (by simpa using hk)]

/-- Replacing an entry replaces its key by itself. -/
theorem map_key_set_findIdx? {leaf : List ε} {entry : ε} {i : ℕ}
    (hi : leaf.findIdx? (fun other => key other = key entry) = some i) :
    (leaf.set i entry).map key = leaf.map key := by
  rw [List.findIdx?_eq_some_iff_getElem] at hi
  obtain ⟨hlt, hkey, -⟩ := hi
  have hmap : i < (leaf.map key).length := by rwa [List.length_map]
  have hsame : key entry = (leaf.map key)[i] := by
    rw [List.getElem_map]
    exact (of_decide_eq_true hkey).symm
  rw [List.map_set, hsame, List.set_getElem_self]

/-- An update keeps the leaves where they are. -/
theorem ids_update (entry : ε) (chain : LeafChain ι ε) : (update key entry chain).ids = chain.ids := by
  induction chain with
  | nil => rfl
  | cons first rest ih =>
    obtain ⟨id, leaf⟩ := first
    rw [update]
    split
    · rfl
    · rw [ids_cons, ids_cons, ih]

/-- An update keeps the keys. -/
theorem map_key_update (entry : ε) (chain : LeafChain ι ε) :
    (update key entry chain).entries.map key = chain.entries.map key := by
  induction chain with
  | nil => rfl
  | cons first rest ih =>
    obtain ⟨id, leaf⟩ := first
    rw [update]
    split
    next i hi =>
      rw [entries_cons, entries_cons, List.map_append, List.map_append, map_key_set_findIdx? key hi]
    next hnone =>
      rw [entries_cons, entries_cons, List.map_append, List.map_append, ih]

/-- An update of a key that is absent changes nothing. -/
theorem update_of_absent {entry : ε} {chain : LeafChain ι ε}
    (h : lookup key chain (key entry) = none) : update key entry chain = chain := by
  induction chain with
  | nil => rfl
  | cons first rest ih =>
    obtain ⟨id, leaf⟩ := first
    rw [lookup_cons, Option.or_eq_none_iff] at h
    have hnone : leaf.findIdx? (fun other => key other = key entry) = none := by
      rw [List.findIdx?_eq_none_iff]
      intro other hother
      simpa using List.find?_eq_none.mp h.1 other hother
    rw [update]
    simp only [hnone, ih h.2]

/-- An update of a key that is present is the update of the map. -/
theorem lookup_update {entry : ε} {chain : LeafChain ι ε}
    (h : lookup key chain (key entry) ≠ none) :
    lookup key (update key entry chain) =
      Function.update (lookup key chain) (key entry) (some entry) := by
  funext k
  rw [Function.update_apply]
  induction chain with
  | nil => exact absurd rfl h
  | cons first rest ih =>
    obtain ⟨id, leaf⟩ := first
    rw [update]
    split
    next i hi =>
      rw [lookup_cons, lookup_cons, find?_set_findIdx? key hi]
      split_ifs
      · exact Option.some_or
      · rfl
    next hnone =>
      have hleaf : leaf.find? (fun other => key other = key entry) = none := by
        rw [List.find?_eq_none]
        rw [List.findIdx?_eq_none_iff] at hnone
        simpa using hnone
      rw [lookup_cons, hleaf, Option.none_or] at h
      rw [lookup_cons, lookup_cons, ih h]
      split_ifs with hk
      · rw [hk, hleaf, Option.none_or]
      · rfl

end Keys

/-! ## Insertion -/

section Insert

variable [LT κ] [DecidableLT κ] (key : ε → κ) (capacity : ℕ)

/-- The last key of a leaf is below a key. -/
def Below (leaf : List ε) (k : κ) : Prop := ∃ last ∈ leaf.getLast?, key last < k

instance (leaf : List ε) (k : κ) : Decidable (Below key leaf k) :=
  match h : leaf.getLast? with
  | none => .isFalse (by simp [Below, h])
  | some last => decidable_of_iff (key last < k) (by simp [Below, h])

/-- Insert an entry in front of the first greater one. -/
def insertSorted (entry : ε) (leaf : List ε) : List ε :=
  leaf.insertIdx (leaf.findIdx fun other => key entry < key other) entry

/-- Insert an entry into a leaf, which is split if it is full. -/
def place (newId : ι) (entry : ε) (id : ι) (leaf : List ε) : LeafChain ι ε :=
  if leaf.length < capacity then [(id, insertSorted key entry leaf)]
  else
    let low := leaf.take (leaf.length / 2)
    let high := leaf.drop (leaf.length / 2)
    if Below key low (key entry) then [(id, low), (newId, insertSorted key entry high)]
    else [(id, insertSorted key entry low), (newId, high)]

/-- Insert an entry into the leaf that it belongs to. -/
def insert (newId : ι) (entry : ε) : LeafChain ι ε → LeafChain ι ε
  | [] => []
  | (id, leaf) :: rest =>
    if rest ≠ [] ∧ Below key leaf (key entry) then (id, leaf) :: insert newId entry rest
    else place key capacity newId entry id leaf ++ rest

/-- The leaf that a key belongs to is full. -/
def splits (k : κ) : LeafChain ι ε → Bool
  | [] => false
  | (_, leaf) :: rest =>
    if rest ≠ [] ∧ Below key leaf k then splits k rest else capacity ≤ leaf.length

/-- The leaf that a key belongs to. -/
def target (k : κ) : LeafChain ι ε → Option ι
  | [] => none
  | (id, leaf) :: rest => if rest ≠ [] ∧ Below key leaf k then target k rest else some id

/-- Inserting into a leaf adds the entry. -/
theorem perm_insertSorted (entry : ε) (leaf : List ε) :
    (insertSorted key entry leaf).Perm (entry :: leaf) :=
  List.perm_insertIdx _ _ List.findIdx_le_length

/-- Inserting into a leaf that is perhaps split adds the entry. -/
theorem perm_entries_place (newId : ι) (entry : ε) (id : ι) (leaf : List ε) :
    (place key capacity newId entry id leaf).entries.Perm (entry :: leaf) := by
  have hhalves : leaf.take (leaf.length / 2) ++ leaf.drop (leaf.length / 2) = leaf :=
    List.take_append_drop _ _
  unfold place
  simp only
  split_ifs
  · rw [entries_cons]
    exact (List.append_nil _).symm ▸ perm_insertSorted key entry leaf
  · rw [entries_cons, entries_cons]
    simp only [entries, List.flatMap_nil, List.append_nil]
    refine (List.Perm.append_left _ (perm_insertSorted key entry _)).trans ?_
    refine List.perm_middle.trans ?_
    rw [hhalves]
  · rw [entries_cons, entries_cons]
    simp only [entries, List.flatMap_nil, List.append_nil]
    refine (List.Perm.append_right _ (perm_insertSorted key entry _)).trans ?_
    rw [List.cons_append, hhalves]

/-- An insertion adds the entry. -/
theorem perm_entries_insert (newId : ι) (entry : ε) {chain : LeafChain ι ε} (h : chain ≠ []) :
    (insert key capacity newId entry chain).entries.Perm (entry :: chain.entries) := by
  induction chain with
  | nil => exact absurd rfl h
  | cons first rest ih =>
    obtain ⟨id, leaf⟩ := first
    rw [insert]
    split_ifs with hnext
    · rw [entries_cons, entries_cons]
      exact (List.Perm.append_left leaf (ih hnext.1)).trans List.perm_middle
    · rw [entries_append, entries_cons, ← List.cons_append]
      exact List.Perm.append_right _ (perm_entries_place key capacity newId entry id leaf)

/-- The leaves after one of them was perhaps split. -/
theorem ids_place (newId : ι) (entry : ε) (id : ι) (leaf : List ε) :
    (place key capacity newId entry id leaf).ids =
      if capacity ≤ leaf.length then [id, newId] else [id] := by
  unfold place
  by_cases hfull : capacity ≤ leaf.length
  · rw [if_neg (not_lt.mpr hfull), if_pos hfull]
    simp only
    split_ifs <;> rfl
  · rw [if_pos (not_le.mp hfull), if_neg hfull]
    rfl

/-- An insertion adds a leaf if it splits one. -/
theorem perm_ids_insert (newId : ι) (entry : ε) (chain : LeafChain ι ε) :
    (insert key capacity newId entry chain).ids.Perm
      (if splits key capacity (key entry) chain then newId :: chain.ids else chain.ids) := by
  induction chain with
  | nil => exact List.Perm.refl _
  | cons first rest ih =>
    obtain ⟨id, leaf⟩ := first
    rw [insert, splits]
    by_cases hnext : rest ≠ [] ∧ Below key leaf (key entry)
    · rw [if_pos hnext, if_pos hnext, ids_cons, ids_cons]
      refine (ih.cons id).trans ?_
      split_ifs
      · exact List.Perm.swap _ _ _
      · exact List.Perm.refl _
    · rw [if_neg hnext, if_neg hnext, ids_append, ids_place, ids_cons]
      by_cases hfull : capacity ≤ leaf.length
      · rw [if_pos hfull, if_pos (decide_eq_true hfull)]
        exact List.Perm.swap newId id _
      · rw [if_neg hfull, if_neg (fun htrue => hfull (of_decide_eq_true htrue))]
        exact List.Perm.refl _

/-- An insertion keeps the first leaf in front. -/
theorem head?_ids_insert (newId : ι) (entry : ε) (chain : LeafChain ι ε) :
    (insert key capacity newId entry chain).ids.head? = chain.ids.head? := by
  cases chain with
  | nil => rfl
  | cons first rest =>
    obtain ⟨id, leaf⟩ := first
    rw [insert]
    split_ifs
    · rfl
    · rw [ids_append, ids_place]
      split_ifs <;> rfl

variable [DecidableEq κ]

/-- An insertion of an absent key keeps the keys distinct. -/
theorem Distinct.insert (newId : ι) {entry : ε} {chain : LeafChain ι ε} (h : chain.Distinct key)
    (hchain : chain ≠ []) (habsent : lookup key chain (key entry) = none) :
    (insert key capacity newId entry chain).Distinct key := by
  rw [Distinct, ((perm_entries_insert key capacity newId entry hchain).map key).nodup_iff,
    List.map_cons, List.nodup_cons]
  exact ⟨(lookup_eq_none key).mp habsent, h⟩

/-- An insertion of an absent key is the update of the map. -/
theorem lookup_insert (newId : ι) {entry : ε} {chain : LeafChain ι ε} (h : chain.Distinct key)
    (hchain : chain ≠ []) (habsent : lookup key chain (key entry) = none) :
    lookup key (insert key capacity newId entry chain) =
      Function.update (lookup key chain) (key entry) (some entry) := by
  have hmem := fun other => (perm_entries_insert key capacity newId entry hchain).mem_iff (a := other)
  have hdistinct := h.insert key capacity newId hchain habsent
  funext k
  apply Option.ext
  intro other
  rw [lookup_eq_some key hdistinct, hmem, List.mem_cons, Function.update_apply]
  split_ifs with hk
  · subst hk
    constructor
    · rintro ⟨rfl | hother, hkey⟩
      · rfl
      · have hpresent := List.mem_map_of_mem (f := key) hother
        rw [hkey] at hpresent
        exact absurd hpresent ((lookup_eq_none key).mp habsent)
    · intro hsame
      rw [Option.some.injEq] at hsame
      exact ⟨Or.inl hsame.symm, by rw [hsame]⟩
  · rw [lookup_eq_some key h]
    constructor
    · rintro ⟨rfl | hother, hkey⟩
      · exact absurd hkey.symm hk
      · exact ⟨hother, hkey⟩
    · rintro ⟨hother, hkey⟩
      exact ⟨Or.inr hother, hkey⟩

end Insert

/-- An update keeps the keys distinct. -/
theorem Distinct.update [DecidableEq κ] {key : ε → κ} {chain : LeafChain ι ε} (h : chain.Distinct key)
    (entry : ε) : (update key entry chain).Distinct key := by
  rw [Distinct, map_key_update]
  exact h

end LeafChain

end Foundation
