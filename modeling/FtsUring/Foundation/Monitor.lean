import FtsUring.Foundation.Program

/-!
# Monitors

A monitor watches the commands of a program and the answers to them, says which commands are allowed next, and
keeps a state of its own. A program obeys it if whatever the commands answer all commands it issues are allowed.
Then it does so in every run: one by a handler that accepts what is allowed ends, and its final state is related
to the one of the monitor as every single command relates them.
-/

namespace Foundation

/-- A monitor: what it allows, how it follows, and whether a loop that does not end is accepted. -/
structure Monitor (L : CommandLanguage) (G : Type) where
  allows : G → L.Command → Prop
  next : G → (command : L.Command) → L.Answer command → G
  mayDiverge : Prop

variable {L : CommandLanguage} {σ G α β γ : Type}

namespace Program

/-- The program issues allowed commands only, and ends with the postcondition. -/
def Obeys (mon : Monitor L G) (post : α → G → Prop) : Program L α → G → Prop
  | .pure value, g => post value g
  | .call command next, g =>
    mon.allows g command ∧ ∀ answer, (next answer).Obeys mon post (mon.next g command answer)
  | .diverge, _ => mon.mayDiverge

variable {mon : Monitor L G} {g : G} {post : α → G → Prop}

/-- A finished program. -/
theorem Obeys.pure {value : α} (hpost : post value g) : (Pure.pure value : Program L α).Obeys mon post g := hpost

/-- A single command. -/
theorem Obeys.perform {command : L.Command} {post : L.Answer command → G → Prop} (hallows : mon.allows g command)
    (hpost : ∀ answer, post answer (mon.next g command answer)) : (Program.perform command).Obeys mon post g :=
  ⟨hallows, hpost⟩

/-- Sequencing. -/
theorem Obeys.bind {p : Program L β} {f : β → Program L α} {mid : β → G → Prop} (hp : p.Obeys mon mid g)
    (hf : ∀ value g', mid value g' → (f value).Obeys mon post g') : (p >>= f).Obeys mon post g := by
  change (p.bind f).Obeys mon post g
  induction p generalizing g with
  | pure value => exact hf value g hp
  | call command next ih => exact ⟨hp.1, fun answer => ih answer (hp.2 answer)⟩
  | diverge => exact hp

/-- A command and what follows. -/
theorem Obeys.step {command : L.Command} {f : L.Answer command → Program L α} (hallows : mon.allows g command)
    (hf : ∀ answer, (f answer).Obeys mon post (mon.next g command answer)) :
    (Program.perform command >>= f).Obeys mon post g :=
  ⟨hallows, hf⟩

/-- Weakening the postcondition. -/
theorem Obeys.mono {p : Program L α} {mid : α → G → Prop} (hp : p.Obeys mon mid g)
    (hpost : ∀ value g', mid value g' → post value g') : p.Obeys mon post g := by
  induction p generalizing g with
  | pure value => exact hpost value g hp
  | call command next ih => exact ⟨hp.1, fun answer => ih answer (hp.2 answer)⟩
  | diverge => exact hp

/-- A loop over a list, with an invariant. -/
theorem Obeys.foldlM {f : β → γ → Program L β} (invariant : β → G → Prop) {xs : List γ}
    (hstep : ∀ x ∈ xs, ∀ acc g, invariant acc g → (f acc x).Obeys mon invariant g) {init : β}
    (hinit : invariant init g) : (xs.foldlM f init).Obeys mon invariant g := by
  induction xs generalizing init g with
  | nil => exact hinit
  | cons x rest ih =>
    rw [List.foldlM_cons]
    exact (hstep x List.mem_cons_self init g hinit).bind fun acc g' hacc =>
      ih (fun y hy => hstep y (List.mem_cons_of_mem _ hy)) hacc

/-- The final state of a run is related to the state of the monitor, if every command keeps them related. -/
theorem Obeys.exec {p : Program L α} (hp : p.Obeys mon post g) {h : Handler L σ} {related : σ → G → Prop}
    (hstep : ∀ command s g answer s', related s g → mon.allows g command → h.run command s = some (answer, s') →
      related s' (mon.next g command answer))
    {s s' : σ} (hs : related s g) {value : α} (hexec : h.exec p s = some (value, s')) :
    ∃ g', post value g' ∧ related s' g' := by
  induction p generalizing g s with
  | pure result =>
    rw [Handler.exec, Option.some.injEq, Prod.mk.injEq] at hexec
    obtain ⟨rfl, rfl⟩ := hexec
    exact ⟨g, hp, hs⟩
  | call command next ih =>
    rw [Handler.exec, Option.bind_eq_some_iff] at hexec
    obtain ⟨⟨answer, mid⟩, hrun, hnext⟩ := hexec
    exact ih answer (hp.2 answer) (hstep command s g answer mid hs hp.1 hrun) hnext
  | diverge => exact absurd hexec (by simp [Handler.exec])

end Program

namespace Monitor

open Classical in
/-- Run a handler together with a monitor; a command that is not allowed has no meaning. -/
noncomputable def watch (mon : Monitor L G) (h : Handler L σ) : Handler L (σ × G) where
  run command s :=
    if mon.allows s.2 command then
      (h.run command s.1).map fun r => (r.1, (r.2, mon.next s.2 command r.1))
    else none

/-- An allowed command under a monitor. -/
theorem run_watch {mon : Monitor L G} {h : Handler L σ} {command : L.Command} {s s' : σ} {g : G}
    {answer : L.Answer command} (hallows : mon.allows g command) (hrun : h.run command s = some (answer, s')) :
    (mon.watch h).run command (s, g) = some (answer, (s', mon.next g command answer)) := by
  simp only [watch, hallows, if_true, hrun, Option.map_some]

end Monitor

/-- A program that obeys the monitor ends under its eyes, if the handler accepts what is allowed. -/
theorem Program.Obeys.ensures {mon : Monitor L G} {p : Program L α} {post : α → G → Prop} {g : G}
    (hp : p.Obeys mon post g) (hends : ¬mon.mayDiverge) {h : Handler L σ} {related : σ → G → Prop}
    (haccepts : ∀ command s g, related s g → mon.allows g command → ∃ answer s',
      h.run command s = some (answer, s') ∧ related s' (mon.next g command answer))
    {s : σ} (hs : related s g) :
    (mon.watch h).Ensures p (s, g) fun value t => post value t.2 ∧ related t.1 t.2 := by
  induction p generalizing g s with
  | pure value => exact .pure ⟨hp, hs⟩
  | call command next ih =>
    obtain ⟨answer, mid, hrun, hmid⟩ := haccepts command s g hs hp.1
    obtain ⟨value, t, hexec, hpost⟩ := ih answer (hp.2 answer) hmid
    refine ⟨value, t, ?_, hpost⟩
    rw [Handler.exec, Monitor.run_watch hp.1 hrun, Option.bind_some, hexec]
  | diverge => exact absurd hp hends

end Foundation
