import Mathlib.Tactic

/-!
# Keyed lists

A list whose elements have keys is a finite map as long as no key occurs twice. An element is changed when its key
is there, and added at the end when it is not. What the list holds for a key after many such steps is determined by
the steps with this key alone.
-/

namespace Foundation

variable {α β κ : Type*} [DecidableEq κ]

/-- Change the first element with a key, or add one. -/
def upsert (key : α → κ) (k : κ) (change : α → α) (new : α) (l : List α) : List α :=
  match l.findIdx? fun x => key x = k with
  | some i => l.modify i change
  | none => l ++ [new]

/-- One step for each entry. -/
def upsertAll (key : α → κ) (keyOf : β → κ) (change : β → α → α) (new : β → α)
    (entries : List β) (l : List α) :
    List α :=
  entries.foldl (fun l entry => upsert key (keyOf entry) (change entry) (new entry) l) l

/-- What the list holds for a key. -/
def findKey (key : α → κ) (k : κ) (l : List α) : Option α := l.find? fun x => key x = k

variable {key : α → κ} {k k' : κ} {change : α → α} {new : α} {l : List α}

/-! ## One step -/

/-- The step on a list with a first element. -/
theorem upsert_cons (x : α) : upsert key k change new (x :: l) =
    if key x = k then change x :: l else x :: upsert key k change new l := by
  rw [upsert, List.findIdx?_cons]
  by_cases hx : key x = k
  · simp [hx]
  · rw [upsert]
    simp only [hx, decide_false, Bool.false_eq_true, if_false]
    cases l.findIdx? fun x => key x = k <;> rfl

/-- A key is added to the keys when it is new. -/
theorem map_key_upsert (hchange : ∀ x, key x = k → key (change x) = k) (hnew : key new = k) :
    (upsert key k change new l).map key = if k ∈ l.map key then l.map key else l.map key ++ [k] := by
  induction l with
  | nil => simp [upsert, hnew]
  | cons x l ih =>
    rw [upsert_cons]
    by_cases hx : key x = k
    · simp [hx, hchange x hx]
    · rw [if_neg hx, List.map_cons, ih]
      by_cases hmem : k ∈ l.map key
      · simp [hmem]
      · have hne : ¬k = key x := fun heq => hx heq.symm
        simp [hmem, hne]

/-- No key comes to occur twice. -/
theorem nodup_upsert (hchange : ∀ x, key x = k → key (change x) = k) (hnew : key new = k)
    (hl : (l.map key).Nodup) : ((upsert key k change new l).map key).Nodup := by
  rw [map_key_upsert hchange hnew]
  split_ifs with hmem
  · exact hl
  · rw [← List.concat_eq_append]
    exact hl.concat hmem

/-- What the list holds for the keys afterwards. -/
theorem findKey_upsert (hchange : ∀ x, key x = k → key (change x) = k) (hnew : key new = k) :
    findKey key k' (upsert key k change new l) =
      if k' = k then some ((findKey key k l).elim new change) else findKey key k' l := by
  induction l with
  | nil =>
    by_cases hk : k' = k
    · simp [findKey, upsert, hnew, hk]
    · have hne : ¬k = k' := fun heq => hk heq.symm
      simp [findKey, upsert, hnew, hk, hne]
  | cons x l ih =>
    rw [upsert_cons]
    rw [findKey, findKey] at ih ⊢
    by_cases hx : key x = k
    · have hx' := hchange x hx
      by_cases hk : k' = k
      · simp [hx, hx', hk]
      · have hne : ¬k = k' := fun heq => hk heq.symm
        simp [findKey, hx, hx', hk, hne]
    · rw [if_neg hx, List.find?_cons, ih]
      by_cases hk : k' = k
      · simp [hk, hx]
      · simp [findKey, List.find?_cons, hk]

/-- The elements of a list in which no key occurs twice. -/
theorem mem_iff_findKey (hl : (l.map key).Nodup) {x : α} : x ∈ l ↔ findKey key (key x) l = some x := by
  induction l with
  | nil => simp [findKey]
  | cons y l ih =>
    rw [List.map_cons, List.nodup_cons] at hl
    rw [findKey] at ih ⊢
    rw [List.find?_cons, List.mem_cons, ih hl.2]
    by_cases hy : key y = key x
    · have hnot : ¬l.find? (fun z => key z = key x) = some x :=
        fun hx => hl.1 (hy ▸ List.mem_map_of_mem ((ih hl.2).mpr hx))
      rw [or_iff_left hnot, decide_eq_true hy]
      exact ⟨fun heq => congrArg some heq.symm, fun heq => (Option.some.inj heq).symm⟩
    · have hne : ¬x = y := fun heq => hy (heq ▸ rfl)
      simp [hy, hne]

/-- The elements afterwards. -/
theorem mem_upsert (hchange : ∀ x, key x = k → key (change x) = k) (hnew : key new = k)
    (hl : (l.map key).Nodup) {x : α} (hx : x ∈ upsert key k change new l) :
    x ∈ l ∧ key x ≠ k ∨ (∃ y ∈ l, key y = k ∧ x = change y) ∨ k ∉ l.map key ∧ x = new := by
  rw [mem_iff_findKey (nodup_upsert hchange hnew hl), findKey_upsert hchange hnew] at hx
  by_cases hk : key x = k
  · rw [if_pos hk, Option.some.injEq] at hx
    right
    cases hfind : findKey key k l with
    | none =>
      rw [hfind] at hx
      refine .inr ⟨fun hmem => ?_, hx.symm⟩
      obtain ⟨y, hy, hsame⟩ := List.mem_map.mp hmem
      exact absurd hsame (by simpa using List.find?_eq_none.mp hfind y hy)
    | some y =>
      rw [hfind] at hx
      exact .inl ⟨y, List.mem_of_find?_eq_some hfind, by simpa using List.find?_some hfind, hx.symm⟩
  · rw [if_neg hk, ← mem_iff_findKey hl] at hx
    exact .inl ⟨hx, hk⟩

/-! ## Many steps -/

variable {keyOf : β → κ} {changes : β → α → α} {news : β → α} {entries : List β}

/-- One entry more. -/
theorem upsertAll_concat (entry : β) : upsertAll key keyOf changes news (entries ++ [entry]) l =
    upsert key (keyOf entry) (changes entry) (news entry) (upsertAll key keyOf changes news entries l) := by
  rw [upsertAll, List.foldl_append]
  rfl

/-- No key comes to occur twice. -/
theorem nodup_upsertAll (hchange : ∀ entry x, key x = keyOf entry → key (changes entry x) = keyOf entry)
    (hnew : ∀ entry, key (news entry) = keyOf entry) (hl : (l.map key).Nodup) :
    ((upsertAll key keyOf changes news entries l).map key).Nodup := by
  induction entries using List.reverseRecOn with
  | nil => exact hl
  | append_singleton entries entry ih =>
    rw [upsertAll_concat]
    exact nodup_upsert (hchange entry) (hnew entry) ih

/-- The keys afterwards are the keys before and those of the entries. -/
theorem mem_map_key_upsertAll (hchange : ∀ entry x, key x = keyOf entry → key (changes entry x) = keyOf entry)
    (hnew : ∀ entry, key (news entry) = keyOf entry) :
    k ∈ (upsertAll key keyOf changes news entries l).map key ↔ k ∈ l.map key ∨ k ∈ entries.map keyOf := by
  induction entries using List.reverseRecOn with
  | nil => simp [upsertAll]
  | append_singleton entries entry ih =>
    rw [upsertAll_concat, map_key_upsert (hchange entry) (hnew entry), List.map_append, List.mem_append, ← or_assoc,
      ← ih, List.map_singleton, List.mem_singleton]
    split_ifs with hmem
    · exact ⟨.inl, fun h => h.elim id fun heq => heq ▸ hmem⟩
    · rw [List.mem_append, List.mem_singleton]

/-- What the list holds for a key is determined by the entries with this key. -/
theorem findKey_upsertAll (hchange : ∀ entry x, key x = keyOf entry → key (changes entry x) = keyOf entry)
    (hnew : ∀ entry, key (news entry) = keyOf entry) :
    findKey key k (upsertAll key keyOf changes news entries l) =
      (entries.filter fun entry => keyOf entry = k).foldl
        (fun found entry => some (found.elim (news entry) (changes entry))) (findKey key k l) := by
  induction entries using List.reverseRecOn with
  | nil => rfl
  | append_singleton entries entry ih =>
    rw [upsertAll_concat, findKey_upsert (hchange entry) (hnew entry), List.filter_append, List.foldl_append, ← ih]
    by_cases hk : k = keyOf entry
    · simp [hk]
    · have hne : ¬keyOf entry = k := fun heq => hk heq.symm
      simp [hk, hne]

end Foundation
