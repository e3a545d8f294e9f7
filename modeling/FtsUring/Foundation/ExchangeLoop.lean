import FtsUring.Foundation.TopK

/-!
# Sorting by exchange in place

The two nested loops of an exchange sort on an array. The outer loop brings a largest of the remaining entries
to each place in turn and may then change it, for example to write its place into it, while the entries behind
it are still to be sorted.
-/

namespace Foundation

variable {α κ : Type*} [LT κ] [DecidableLT κ] (key : α → κ)

/-- Exchange two entries when the second one is larger. -/
def exchangeAt (items : List α) (i j : ℕ) : List α :=
  match items[i]?, items[j]? with
  | some x, some y => if key x < key y then (items.set i y).set j x else items
  | _, _ => items

/-- The inner loop: exchange an entry with every larger one behind it. -/
def exchangeFrom (items : List α) (i : ℕ) : List α :=
  (List.range' (i + 1) (items.length - (i + 1))).foldl (fun items j => exchangeAt key items i j) items

/-- The outer loop, in which every entry is changed as soon as it is in its place. -/
def exchangeLoop (place : ℕ → α → α) (items : List α) : List α :=
  (List.range items.length).foldl (fun items i => (exchangeFrom key items i).modify i (place i)) items

variable {key}

/-- Exchanging two entries. -/
theorem exchangeAt_append (front done : List α) (first x : α) (rest : List α) :
    exchangeAt key (front ++ first :: (done ++ x :: rest)) front.length (front.length + 1 + done.length) =
      if key first < key x then front ++ x :: (done ++ first :: rest)
      else front ++ first :: (done ++ x :: rest) := by
  have hfirst : (front ++ first :: (done ++ x :: rest))[front.length]? = some first := by
    simp
  have hassoc : ∀ a : α, front ++ a :: (done ++ x :: rest) = (front ++ a :: done) ++ x :: rest := by
    simp
  have hlength : ∀ a : α, front.length + 1 + done.length = (front ++ a :: done).length := by
    intro a
    simp [Nat.add_assoc, Nat.add_comm 1]
  have hsecond : (front ++ first :: (done ++ x :: rest))[front.length + 1 + done.length]? = some x := by
    rw [hassoc first, hlength first]
    simp
  have hset : ((front ++ first :: (done ++ x :: rest)).set front.length x).set
      (front.length + 1 + done.length) first = front ++ x :: (done ++ first :: rest) := by
    rw [List.set_append_right _ _ (le_refl _), Nat.sub_self, List.set_cons_zero, hassoc x, hlength x,
      List.set_append_right _ _ (le_refl _), Nat.sub_self, List.set_cons_zero]
    simp
  rw [exchangeAt, hfirst, hsecond]
  dsimp only
  rw [hset]

/-- The inner loop is one pass over the entries behind the first one. -/
theorem exchangeFrom_append (front : List α) (first : α) (rest : List α) :
    exchangeFrom key (front ++ first :: rest) front.length =
      front ++ (exchangePass key first rest).1 :: (exchangePass key first rest).2 := by
  -- the entries between were looked at before
  have hloop : ∀ (rest done : List α) (first : α),
      (List.range' (front.length + 1 + done.length) rest.length).foldl
        (fun items j => exchangeAt key items front.length j) (front ++ first :: (done ++ rest)) =
          front ++ (exchangePass key first rest).1 :: (done ++ (exchangePass key first rest).2) := by
    intro rest
    induction rest with
    | nil => exact fun done first => rfl
    | cons x rest ih =>
      intro done first
      have hnext : ∀ y : α, front.length + 1 + done.length + 1 = front.length + 1 + (done ++ [y]).length := by
        intro y
        rw [List.length_append, List.length_singleton]
        omega
      have hmove : ∀ (y : α) (others : List α), done ++ y :: others = (done ++ [y]) ++ others := by
        simp
      rw [List.length_cons, List.range'_succ, List.foldl_cons, exchangeAt_append, exchangePass]
      split_ifs
      · rw [hmove first rest, hnext first, ih (done ++ [first]) x]
        simp
      · rw [hmove x rest, hnext x, ih (done ++ [x]) first]
        simp
  have hlength : (front ++ first :: rest).length - (front.length + 1) = rest.length := by
    rw [List.length_append, List.length_cons]
    omega
  rw [exchangeFrom, hlength]
  exact hloop rest [] first

/-- The loops sort, and change every entry at its place. -/
theorem exchangeLoop_eq (place : ℕ → α → α) (items : List α) :
    exchangeLoop key place items = (exchangeSort key items).mapIdx place := by
  -- the entries in front are in their places
  have hloop : ∀ (passes : ℕ) (front rest : List α), rest.length = passes →
      (List.range' front.length passes).foldl
        (fun items i => (exchangeFrom key items i).modify i (place i)) (front ++ rest) =
          front ++ (exchangePasses key passes rest).mapIdx fun i => place (front.length + i) := by
    intro passes
    induction passes with
    | zero =>
      intro front rest hlength
      rw [List.length_eq_zero_iff.mp hlength]
      rfl
    | succ passes ih =>
      intro front rest hlength
      cases rest with
      | nil => exact absurd hlength nofun
      | cons first rest =>
        have hshorter : (exchangePass key first rest).2.length = passes :=
          (length_exchangePass first rest).trans (Nat.succ_injective hlength)
        have hplaced : (front ++ (exchangePass key first rest).1 :: (exchangePass key first rest).2).modify
            front.length (place front.length) =
              (front ++ [place front.length (exchangePass key first rest).1]) ++
                (exchangePass key first rest).2 := by
          rw [List.modify_eq_set_getElem?]
          simp
        have hrest := ih (front ++ [place front.length (exchangePass key first rest).1])
          (exchangePass key first rest).2 hshorter
        rw [List.length_append, List.length_singleton] at hrest
        rw [List.range'_succ, List.foldl_cons, exchangeFrom_append, hplaced, hrest, exchangePasses,
          List.mapIdx_cons, List.append_assoc, List.singleton_append]
        congr 2
        apply List.mapIdx_eq_mapIdx_iff.mpr
        intro i hi
        rw [Nat.add_assoc, Nat.add_comm 1 i]
  have hall := hloop items.length [] items rfl
  rw [exchangeLoop, List.range_eq_range', exchangeSort]
  simpa using hall

end Foundation
