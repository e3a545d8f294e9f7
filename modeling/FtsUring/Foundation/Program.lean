import Mathlib.Data.List.Basic
import Mathlib.Tactic

/-!
# Programs over a command language

A `Program` is a tree of commands whose meaning is left open. A `Handler` gives the commands a
meaning as partial state transformers, and one program can be run by several handlers: the
real machine, and a simpler machine whose state is what the program is about.

Running a program on the simple machine is enough: when the real machine simulates the simple
one command by command, it returns the same result for every program that the simple machine
runs to its end (`Handler.Simulates.exec`). `Handler.Ensures` is total correctness of one run, with
the usual rules. `Program.Yields` and `Program.Calls` speak about all runs, under every meaning.
-/

namespace Foundation

/-- The commands of a language and the type of the answer to each. -/
structure CommandLanguage where
  Command : Type
  Answer : Command → Type

/-- A program that calls commands. `diverge` is a loop that does not end. -/
inductive Program (L : CommandLanguage) (α : Type) : Type
  | pure (value : α)
  | call (command : L.Command) (next : L.Answer command → Program L α)
  | diverge

namespace Program

variable {L : CommandLanguage} {α β γ : Type}

/-- Run one program and then another that depends on its result. -/
def bind : Program L α → (α → Program L β) → Program L β
  | .pure value, f => f value
  | .call command next, f => .call command fun answer => (next answer).bind f
  | .diverge, _ => .diverge

instance : Monad (Program L) where
  pure := Program.pure
  bind := Program.bind

/-- A program that is a single command. -/
def perform (command : L.Command) : Program L (L.Answer command) := .call command .pure

/-- Sequencing ends with the result unchanged when nothing follows. -/
theorem bind_pure' (p : Program L α) : p.bind .pure = p := by
  induction p with
  | pure value => rfl
  | call command next ih =>
    rw [bind]
    congr 1
    funext answer
    exact ih answer
  | diverge => rfl

/-- Sequencing is associative. -/
theorem bind_assoc' (p : Program L α) (f : α → Program L β) (g : β → Program L γ) :
    (p.bind f).bind g = p.bind fun value => (f value).bind g := by
  induction p with
  | pure value => rfl
  | call command next ih =>
    simp only [bind]
    congr 1
    funext answer
    exact ih answer
  | diverge => rfl

instance : LawfulMonad (Program L) :=
  LawfulMonad.mk' (m := Program L) (fun p => bind_pure' p) (fun _ _ => rfl)
    (fun p f g => bind_assoc' p f g)

end Program

/-- A meaning of the commands; `none` is a command that the machine does not accept. -/
structure Handler (L : CommandLanguage) (σ : Type) where
  run : (command : L.Command) → σ → Option (L.Answer command × σ)

namespace Handler

variable {L : CommandLanguage} {σ τ α β : Type}

/-- Run a program to its end. -/
def exec (h : Handler L σ) : Program L α → σ → Option (α × σ)
  | .pure value, s => some (value, s)
  | .call command next, s => (h.run command s).bind fun r => h.exec (next r.1) r.2
  | .diverge, _ => none

variable (h : Handler L σ)

/-- Running a finished program. -/
@[simp] theorem exec_pure (value : α) (s : σ) :
    h.exec (pure value : Program L α) s = some (value, s) := rfl

/-- Running a loop that does not end. -/
@[simp] theorem exec_diverge (s : σ) : h.exec (.diverge : Program L α) s = none := rfl

/-- Running one command. -/
@[simp] theorem exec_perform (command : L.Command) (s : σ) :
    h.exec (Program.perform command) s = h.run command s := by
  rw [Program.perform, exec]
  cases h.run command s <;> rfl

/-- Running two programs in sequence. -/
theorem exec_bind (p : Program L α) (f : α → Program L β) (s : σ) :
    h.exec (p >>= f) s = (h.exec p s).bind fun r => h.exec (f r.1) r.2 := by
  change h.exec (p.bind f) s = _
  induction p generalizing s with
  | pure value => rfl
  | call command next ih =>
    simp only [Program.bind, exec]
    cases h.run command s with
    | none => rfl
    | some r => exact ih r.1 r.2
  | diverge => rfl

/-- Running a program whose first part is known to end. -/
theorem exec_bind_of_eq {p : Program L α} {s s' : σ} {value : α} (hp : h.exec p s = some (value, s'))
    (f : α → Program L β) : h.exec (p >>= f) s = h.exec (f value) s' := by
  rw [exec_bind, hp, Option.bind_some]

/-- A run of two programs in sequence that ended. -/
theorem exec_bind_eq_some {p : Program L α} {f : α → Program L β} {s t : σ} {result : β} :
    h.exec (p >>= f) s = some (result, t) ↔
      ∃ value mid, h.exec p s = some (value, mid) ∧ h.exec (f value) mid = some (result, t) := by
  rw [exec_bind, Option.bind_eq_some_iff]
  exact ⟨fun ⟨r, hp, hf⟩ => ⟨r.1, r.2, hp, hf⟩, fun ⟨value, mid, hp, hf⟩ => ⟨(value, mid), hp, hf⟩⟩

/-! ## Total correctness -/

/-- The program ends, and its result and final state satisfy the postcondition. -/
def Ensures (p : Program L α) (s : σ) (post : α → σ → Prop) : Prop :=
  ∃ value s', h.exec p s = some (value, s') ∧ post value s'

variable {h} {s : σ}

/-- A finished program. -/
theorem Ensures.pure {value : α} {post : α → σ → Prop} (hpost : post value s) :
    h.Ensures (Pure.pure value : Program L α) s post :=
  ⟨value, s, rfl, hpost⟩

/-- A run that is known exactly. -/
theorem Ensures.of_exec {p : Program L α} {value : α} {s' : σ} {post : α → σ → Prop}
    (hp : h.exec p s = some (value, s')) (hpost : post value s') : h.Ensures p s post :=
  ⟨value, s', hp, hpost⟩

/-- Sequencing. -/
theorem Ensures.bind {p : Program L α} {f : α → Program L β} {mid : α → σ → Prop}
    {post : β → σ → Prop} (hp : h.Ensures p s mid)
    (hf : ∀ value s', mid value s' → h.Ensures (f value) s' post) : h.Ensures (p >>= f) s post := by
  obtain ⟨value, s', hexec, hmid⟩ := hp
  obtain ⟨result, s'', hexec', hpost⟩ := hf value s' hmid
  refine ⟨result, s'', ?_, hpost⟩
  rw [h.exec_bind_of_eq hexec, hexec']

/-- Sequencing after a run that is known exactly. -/
theorem Ensures.step {p : Program L α} {f : α → Program L β} {value : α} {s' : σ}
    {post : β → σ → Prop} (hp : h.exec p s = some (value, s')) (hf : h.Ensures (f value) s' post) :
    h.Ensures (p >>= f) s post := by
  obtain ⟨result, s'', hexec, hpost⟩ := hf
  refine ⟨result, s'', ?_, hpost⟩
  rw [h.exec_bind_of_eq hp, hexec]

/-- Weakening the postcondition. -/
theorem Ensures.mono {p : Program L α} {mid post : α → σ → Prop} (hp : h.Ensures p s mid)
    (hpost : ∀ value s', mid value s' → post value s') : h.Ensures p s post := by
  obtain ⟨value, s', hexec, hmid⟩ := hp
  exact ⟨value, s', hexec, hpost value s' hmid⟩

/-- A loop over a list, with an invariant of the elements still to come. -/
theorem Ensures.foldlM {γ : Type} {f : β → γ → Program L β} (invariant : List γ → β → σ → Prop)
    (hstep : ∀ x rest acc s, invariant (x :: rest) acc s →
      h.Ensures (f acc x) s fun acc' s' => invariant rest acc' s')
    {xs : List γ} {init : β} (hinit : invariant xs init s) :
    h.Ensures (xs.foldlM f init) s fun acc s' => invariant [] acc s' := by
  induction xs generalizing init s with
  | nil => exact .pure hinit
  | cons x rest ih =>
    rw [List.foldlM_cons]
    exact (hstep x rest init s hinit).bind fun acc' s' hrest => ih hrest

/-! ## Results under every meaning -/

end Handler

namespace Program

variable {L : CommandLanguage} {σ α β : Type}

/-- Whatever the commands answer, the result has the property if the program ends. -/
def Yields (result : α → Prop) : Program L α → Prop
  | .pure value => result value
  | .call _ next => ∀ answer, (next answer).Yields result
  | .diverge => True

variable {result : α → Prop}

/-- A finished program. -/
theorem Yields.pure {value : α} (h : result value) :
    (Pure.pure value : Program L α).Yields result := h

/-- Sequencing, where nothing is needed of the first program. -/
theorem Yields.bind (p : Program L β) {f : β → Program L α} (h : ∀ value, (f value).Yields result) :
    (p >>= f).Yields result := by
  change (p.bind f).Yields result
  induction p with
  | pure value => exact h value
  | call command next ih => exact fun answer => ih answer
  | diverge => trivial

/-- The result of a run. -/
theorem Yields.exec {p : Program L α} (hp : p.Yields result) {h : Handler L σ} {s s' : σ} {value : α}
    (hexec : h.exec p s = some (value, s')) : result value := by
  induction p generalizing s with
  | pure value =>
    rw [Handler.exec, Option.some.injEq, Prod.mk.injEq] at hexec
    exact hexec.1 ▸ hp
  | call command next ih =>
    rw [Handler.exec, Option.bind_eq_some_iff] at hexec
    obtain ⟨⟨answer, mid⟩, -, hnext⟩ := hexec
    exact ih answer (hp answer) hnext
  | diverge => exact absurd hexec nofun

/-! ## The commands of a program -/

/-- The program issues allowed commands only, whatever it is answered. -/
def Calls (allowed : L.Command → Prop) : Program L α → Prop
  | .pure _ => True
  | .call command next => allowed command ∧ ∀ answer, (next answer).Calls allowed
  | .diverge => True

variable {allowed : L.Command → Prop}

/-- A finished program. -/
theorem Calls.pure (value : α) : (Pure.pure value : Program L α).Calls allowed := trivial

/-- A single command. -/
theorem Calls.perform {command : L.Command} (h : allowed command) :
    (Program.perform command).Calls allowed :=
  ⟨h, fun _ => trivial⟩

/-- Sequencing. -/
theorem Calls.bind {p : Program L β} {f : β → Program L α} (hp : p.Calls allowed)
    (h : ∀ value, (f value).Calls allowed) : (p >>= f).Calls allowed := by
  change (p.bind f).Calls allowed
  induction p with
  | pure value => exact h value
  | call command next ih => exact ⟨hp.1, fun answer => ih answer (hp.2 answer)⟩
  | diverge => trivial

/-- Allowing more commands. -/
theorem Calls.mono {p : Program L α} (hp : p.Calls allowed) {allowed' : L.Command → Prop}
    (h : ∀ command, allowed command → allowed' command) : p.Calls allowed' := by
  induction p with
  | pure value => trivial
  | call command next ih => exact ⟨h command hp.1, fun answer => ih answer (hp.2 answer)⟩
  | diverge => trivial

/-- Every program issues some commands. -/
theorem calls_any (p : Program L α) : p.Calls fun _ => True := by
  induction p with
  | pure value => trivial
  | call command next ih => exact ⟨trivial, ih⟩
  | diverge => trivial

/-- What the allowed commands preserve, the program preserves. -/
theorem Calls.exec {p : Program L α} (hp : p.Calls allowed) {h : Handler L σ} {invariant : σ → Prop}
    (hstep : ∀ command, allowed command → ∀ s answer s', invariant s →
      h.run command s = some (answer, s') → invariant s')
    {s s' : σ} {value : α} (hs : invariant s) (hexec : h.exec p s = some (value, s')) : invariant s' := by
  induction p generalizing s with
  | pure result =>
    rw [Handler.exec, Option.some.injEq, Prod.mk.injEq] at hexec
    exact hexec.2 ▸ hs
  | call command next ih =>
    rw [Handler.exec, Option.bind_eq_some_iff] at hexec
    obtain ⟨⟨answer, mid⟩, hrun, hnext⟩ := hexec
    exact ih answer (hp.2 answer) (hstep command hp.1 s answer mid hs hrun) hnext
  | diverge => exact absurd hexec nofun

end Program

namespace Handler

variable {L : CommandLanguage} {σ τ α β : Type}

/-! ## Runs that are cut off -/

/-- The state when a run of the program is cut off before some command, or has ended. -/
inductive Reaches (h : Handler L σ) : Program L α → σ → σ → Prop
  | here (p : Program L α) (s : σ) : Reaches h p s s
  | step {command : L.Command} {next : L.Answer command → Program L α} {s mid s' : σ}
      {answer : L.Answer command} (hrun : h.run command s = some (answer, mid))
      (hnext : Reaches h (next answer) mid s') : Reaches h (.call command next) s s'

/-- The state at the end of a run. -/
theorem Reaches.of_exec {h : Handler L σ} {p : Program L α} {s s' : σ} {value : α}
    (hexec : h.exec p s = some (value, s')) : h.Reaches p s s' := by
  induction p generalizing s with
  | pure result =>
    rw [exec, Option.some.injEq, Prod.mk.injEq] at hexec
    exact hexec.2 ▸ .here _ s
  | call command next ih =>
    rw [exec, Option.bind_eq_some_iff] at hexec
    obtain ⟨⟨answer, mid⟩, hrun, hnext⟩ := hexec
    exact .step hrun (ih answer hnext)
  | diverge => exact absurd hexec nofun

/-! ## Simulation -/

/-- Whatever the specification answers to a command, the implementation answers too, in related
states. -/
def Simulates (impl : Handler L τ) (spec : Handler L σ) (related : τ → σ → Prop) : Prop :=
  ∀ command t s, related t s → ∀ answer s', spec.run command s = some (answer, s') →
    ∃ t', impl.run command t = some (answer, t') ∧ related t' s'

/-- An implementation that simulates the commands simulates whole programs. -/
theorem Simulates.exec {impl : Handler L τ} {spec : Handler L σ} {related : τ → σ → Prop}
    (hsim : impl.Simulates spec related) {p : Program L α} {t : τ} {s s' : σ} {value : α}
    (hrel : related t s) (hspec : spec.exec p s = some (value, s')) :
    ∃ t', impl.exec p t = some (value, t') ∧ related t' s' := by
  induction p generalizing t s with
  | pure result =>
    rw [Handler.exec, Option.some.injEq, Prod.mk.injEq] at hspec
    obtain ⟨rfl, rfl⟩ := hspec
    exact ⟨t, rfl, hrel⟩
  | call command next ih =>
    rw [Handler.exec, Option.bind_eq_some_iff] at hspec
    obtain ⟨⟨answer, mid⟩, hrun, hnext⟩ := hspec
    obtain ⟨t', hrun', hrel'⟩ := hsim command t s hrel answer mid hrun
    obtain ⟨t'', hexec, hrel''⟩ := ih answer hrel' hnext
    refine ⟨t'', ?_, hrel''⟩
    rw [Handler.exec, hrun', Option.bind_some, hexec]
  | diverge => exact absurd hspec (by simp [Handler.exec])

end Handler

end Foundation
