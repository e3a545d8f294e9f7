import FtsUring.Foundation.Program
import Mathlib.Computability.StateTransition
import Mathlib.Data.Set.Card

/-!
# Walks along links

A walk follows links, each place having at most one. If only finitely many places lie ahead, it ends exactly if
it meets no place that leads back to itself, and then it ends within as many steps as there are places. A
program that does one visit after another ends exactly if its walk does.
-/

namespace Foundation

open StateTransition

/-! ## Links -/

section Links

variable {ι : Type} (next : ι → Option ι)

/-- The walk ends within a number of visits. -/
def EndsWithin : ℕ → ι → Prop
  | 0, _ => False
  | visits + 1, i => ∀ j ∈ next i, EndsWithin visits j

/-- A walk that goes on to a place ends if it ends from there. -/
theorem EndsWithin.of_eq {next : ι → Option ι} {visits : ℕ} {i j : ι} (h : next i = some j)
    (hends : EndsWithin next visits j) : EndsWithin next (visits + 1) i := by
  intro k hk
  obtain rfl := Option.some.inj (h.symm.trans hk)
  exact hends

/-- A walk without a next place ends. -/
theorem EndsWithin.of_none {next : ι → Option ι} {i : ι} (h : next i = none) : EndsWithin next 1 i :=
  fun _ hj => absurd (h.symm.trans hj) nofun

/-- No place ahead leads back to itself. -/
def Acyclic (i : ι) : Prop := ∀ j, Reaches next i j → ¬Reaches₁ next j j

variable {next} {i j : ι}

/-- Nothing leads back from the next place either. -/
theorem Acyclic.of_mem (h : Acyclic next i) (hj : j ∈ next i) : Acyclic next j :=
  fun k hk => h k (hk.head hj)

/-- A place that leads back to itself has a next place that does. -/
theorem exists_next_of_cycle (h : Reaches₁ next i i) : ∃ j ∈ next i, Reaches₁ next j j := by
  obtain ⟨j, hj, hback⟩ := Relation.TransGen.head'_iff.mp h
  exact ⟨j, hj, Relation.TransGen.tail' hback hj⟩

/-- A walk that ends meets no place that leads back to itself. -/
theorem EndsWithin.acyclic {visits : ℕ} (h : EndsWithin next visits i) : Acyclic next i := by
  induction visits generalizing i with
  | zero => exact h.elim
  | succ visits ih =>
    intro k hk hcycle
    cases Relation.ReflTransGen.cases_head hk with
    | inl hhere =>
      subst hhere
      obtain ⟨j, hj, hj'⟩ := exists_next_of_cycle hcycle
      exact ih (h j hj) j .refl hj'
    | inr hlater =>
      obtain ⟨j, hj, hjk⟩ := hlater
      exact ih (h j hj) k hjk hcycle

/-- A walk that meets no place twice ends within as many visits as there are places ahead. -/
theorem Acyclic.endsWithin (h : Acyclic next i) (hfinite : {k | Reaches next i k}.Finite) {visits : ℕ}
    (hcount : {k | Reaches next i k}.ncard ≤ visits) : EndsWithin next visits i := by
  induction visits generalizing i with
  | zero =>
    have hnone := (Set.ncard_eq_zero hfinite).mp (Nat.le_zero.mp hcount)
    exact absurd (show Reaches next i i from .refl) (Set.eq_empty_iff_forall_notMem.mp hnone i)
  | succ visits ih =>
    intro j hj
    -- the place itself is not ahead of the next one
    have hahead : {k | Reaches next j k} ⊂ {k | Reaches next i k} := by
      refine ⟨fun k hk => Relation.ReflTransGen.head hj hk, fun hsub => ?_⟩
      exact h i .refl (Relation.TransGen.head' hj (hsub (show Reaches next i i from .refl)))
    have hless := Set.ncard_lt_ncard hahead hfinite
    exact ih (h.of_mem hj) (hfinite.subset hahead.subset) (by omega)

/-- Among finitely many places a walk ends exactly if it meets no place that leads back to itself. -/
theorem endsWithin_iff_acyclic {places : Finset ι} (hplaces : ∀ k, Reaches next i k → k ∈ places) :
    EndsWithin next places.card i ↔ Acyclic next i := by
  have hsub : {k | Reaches next i k} ⊆ (places : Set ι) := fun k hk => Finset.mem_coe.mpr (hplaces k hk)
  have hfinite := places.finite_toSet.subset hsub
  have hcount := Set.ncard_le_ncard hsub places.finite_toSet
  rw [Set.ncard_coe_finset] at hcount
  exact ⟨EndsWithin.acyclic, fun h => h.endsWithin hfinite hcount⟩

end Links

/-! ## Programs -/

namespace Handler

variable {L : CommandLanguage} {σ τ α β γ ι : Type}

/-- A run of the program comes to a point where it is a run of another one. -/
inductive Continues (h : Handler L σ) : Program L α → σ → Program L α → σ → Prop
  | here (p : Program L α) (s : σ) : Continues h p s p s
  | step {command : L.Command} {next : L.Answer command → Program L α} {s mid t : σ}
      {answer : L.Answer command} {q : Program L α} (hrun : h.run command s = some (answer, mid))
      (hnext : Continues h (next answer) mid q t) : Continues h (.call command next) s q t

variable {h : Handler L σ}

/-- The rest of the run is the run of the other program. -/
theorem Continues.exec_eq {p q : Program L α} {s t : σ} (hpq : h.Continues p s q t) :
    h.exec p s = h.exec q t := by
  induction hpq with
  | here p s => rfl
  | step hrun hnext ih => rw [exec, hrun, Option.bind_some, ih]

/-- After its first part a program continues with the second. -/
theorem Continues.bind {p : Program L β} {f : β → Program L α} {s t : σ} {value : β}
    (hp : h.exec p s = some (value, t)) : h.Continues (p >>= f) s (f value) t := by
  change h.Continues (p.bind f) s (f value) t
  induction p generalizing s with
  | pure result =>
    rw [exec, Option.some.injEq, Prod.mk.injEq] at hp
    rw [← hp.1, ← hp.2]
    exact .here _ _
  | call command next ih =>
    rw [exec, Option.bind_eq_some_iff] at hp
    obtain ⟨⟨answer, mid⟩, hrun, hnext⟩ := hp
    exact .step hrun (ih answer hnext)
  | diverge => exact absurd hp (by simp [exec])

/-- Runs in sequence. -/
theorem Continues.trans {p q r : Program L α} {s t u : σ} (hpq : h.Continues p s q t)
    (hqr : h.Continues q t r u) : h.Continues p s r u := by
  induction hpq with
  | here p s => exact hqr
  | step hrun hnext ih => exact .step hrun (ih hqr)

/-- What the specification does to the point, the implementation does too. -/
theorem Simulates.continues {impl : Handler L τ} {spec : Handler L σ} {related : τ → σ → Prop}
    (hsim : impl.Simulates spec related) {p q : Program L α} {s s' : σ} {t : τ}
    (hpq : spec.Continues p s q s') (hrel : related t s) : ∃ t', impl.Continues p t q t' ∧ related t' s' := by
  induction hpq generalizing t with
  | here p s => exact ⟨t, .here p t, hrel⟩
  | step hrun hnext ih =>
    obtain ⟨mid, hrun', hmid⟩ := hsim _ t _ hrel _ _ hrun
    obtain ⟨t', hcontinues, hrel'⟩ := ih hmid
    exact ⟨t', .step hrun' hcontinues, hrel'⟩

/-- A program that does one visit after another ends exactly if its walk does. -/
theorem isSome_exec_iff_endsWithin {next : ι → Option ι} {walk : ℕ → ι → Program L α}
    {inv : ι → σ → Prop}
    (hfuel : ∀ i, walk 0 i = .diverge)
    (hstop : ∀ visits i s, inv i s → next i = none → (h.exec (walk (visits + 1) i) s).isSome)
    (hgo : ∀ visits i j s, inv i s → next i = some j →
      ∃ t, inv j t ∧ h.Continues (walk (visits + 1) i) s (walk visits j) t)
    (visits : ℕ) {i : ι} {s : σ} (hs : inv i s) :
    (h.exec (walk visits i) s).isSome ↔ EndsWithin next visits i := by
  induction visits generalizing i s with
  | zero => simp [hfuel, EndsWithin]
  | succ visits ih =>
    cases hnext : next i with
    | none =>
      refine iff_of_true (hstop visits i s hs hnext) fun j hj => ?_
      exact absurd ((Option.mem_def.mp hj).symm.trans hnext) (Option.some_ne_none j)
    | some j =>
      obtain ⟨t, ht, hcontinues⟩ := hgo visits i j s hs hnext
      rw [hcontinues.exec_eq, ih ht, EndsWithin]
      constructor
      · intro hends k hk
        rw [hnext, Option.mem_some_iff] at hk
        exact hk ▸ hends
      · exact fun hall => hall j hnext

end Handler

end Foundation
