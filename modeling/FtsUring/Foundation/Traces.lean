import Mathlib.Tactic

/-!
# Sequences of calls

A component answers calls one after the other, and each call leads from a state to the next one or does not come
back. An abstract component always comes back. If every call that the abstract one allows keeps a relation between
their states, so does every sequence of such calls.
-/

namespace Foundation

variable {σ τ γ : Type*} {step : σ → γ → Option σ} {abstractStep : τ → γ → τ}
    {allowed : τ → γ → Prop}

/-- The state after a sequence of calls. -/
def runCalls (step : σ → γ → Option σ) (s : σ) (calls : List γ) : Option σ := calls.foldlM step s

/-- One call and the others. -/
theorem runCalls_cons (s : σ) (call : γ) (calls : List γ) :
    runCalls step s (call :: calls) = (step s call).bind fun next => runCalls step next calls :=
  List.foldlM_cons

/-- A call that comes back, and the others. -/
theorem runCalls_cons_eq {s mid : σ} {call : γ} (hcall : step s call = some mid) (calls : List γ) :
    runCalls step s (call :: calls) = runCalls step mid calls := by
  rw [runCalls_cons, hcall, Option.bind_some]

/-- The abstract component allows a sequence of calls. -/
def AllowedCalls (abstractStep : τ → γ → τ) (allowed : τ → γ → Prop) : τ → List γ → Prop
  | _, [] => True
  | t, call :: calls => allowed t call ∧ AllowedCalls abstractStep allowed (abstractStep t call) calls

/-- A relation that is kept by every call is kept by a sequence of calls. -/
theorem runCalls_refines {refines : σ → τ → Prop}
    (hstep : ∀ s t call next, refines s t → allowed t call → step s call = some next →
      refines next (abstractStep t call))
    {s final : σ} {t : τ} {calls : List γ} (hrefines : refines s t)
    (hallowed : AllowedCalls abstractStep allowed t calls)
    (hrun : runCalls step s calls = some final) : refines final (calls.foldl abstractStep t) := by
  induction calls generalizing s t with
  | nil =>
    obtain rfl := Option.some.inj hrun
    exact hrefines
  | cons call calls ih =>
    rw [runCalls_cons] at hrun
    obtain ⟨next, hcall, hrest⟩ := Option.bind_eq_some_iff.mp hrun
    exact ih (hstep s t call next hrefines hallowed.1 hcall) hallowed.2 hrest

end Foundation
