import Mathlib.Data.List.Forall2
import Mathlib.Data.List.Perm.Basic
import Mathlib.Tactic

/-!
# Requests that complete in any order

A caller puts requests into a queue, submits the queue, and waits for as many completions as it submitted
requests. The device carries out the submitted requests in any order and at any time, while the caller waits; it
chooses an outcome for each, and posts a completion for each when it is done.

When the requests do not interfere with each other, the order does not matter: the completions and the final state
are those of the requests one after the other, for some outcomes.
-/

namespace Foundation

variable {ρ ω σ α : Type}

/-! ## Devices -/

/-- What a request does to the state of a device, and what the device replies. -/
structure Device (ρ ω σ α : Type) where
  effect : ρ → ω → σ → σ
  reply : ρ → ω → σ → α

namespace Device

variable {d : Device ρ ω σ α} {s : σ}

/-- Carry out requests one after the other. -/
def performAll (d : Device ρ ω σ α) : List (ρ × ω) → σ → List (ρ × α) × σ
  | [], s => ([], s)
  | (request, outcome) :: rest, s =>
    let later := d.performAll rest (d.effect request outcome s)
    ((request, d.reply request outcome s) :: later.1, later.2)

/-- Requests and further requests. -/
theorem performAll_append (log later : List (ρ × ω)) :
    d.performAll (log ++ later) s =
      ((d.performAll log s).1 ++ (d.performAll later (d.performAll log s).2).1,
        (d.performAll later (d.performAll log s).2).2) := by
  induction log generalizing s with
  | nil => rfl
  | cons entry log ih => simp only [List.cons_append, performAll, ih]

/-- There is one reply for each request. -/
theorem performAll_map_fst (d : Device ρ ω σ α) (log : List (ρ × ω)) (s : σ) :
    (d.performAll log s).1.map Prod.fst = log.map Prod.fst := by
  induction log generalizing s with
  | nil => rfl
  | cons entry log ih => simp only [performAll, List.map_cons, ih]

/-- Two requests do not interfere with each other. -/
def Independent (d : Device ρ ω σ α) (first second : ρ) : Prop :=
  ∀ w w' s, d.effect second w' (d.effect first w s) = d.effect first w (d.effect second w' s) ∧
    d.reply second w' (d.effect first w s) = d.reply second w' s ∧
    d.reply first w (d.effect second w' s) = d.reply first w s

/-- It does not matter which of the requests comes first. -/
theorem Independent.symm {first second : ρ} (h : d.Independent first second) : d.Independent second first :=
  fun w w' s => ⟨(h w' w s).1.symm, (h w' w s).2.2, (h w' w s).2.1⟩

/-- Requests that do not interfere with each other are answered as if each were the only one. -/
theorem performAll_of_independent {log : List (ρ × ω)}
    (hindependent : log.Pairwise fun first second => d.Independent first.1 second.1) :
    d.performAll log s = (log.map fun entry => (entry.1, d.reply entry.1 entry.2 s),
      log.foldl (fun s entry => d.effect entry.1 entry.2 s) s) := by
  induction log generalizing s with
  | nil => rfl
  | cons entry log ih =>
    obtain ⟨hfirst, hrest⟩ := List.pairwise_cons.mp hindependent
    have hreplies : (log.map fun other => (other.1, d.reply other.1 other.2 (d.effect entry.1 entry.2 s))) =
        log.map fun other => (other.1, d.reply other.1 other.2 s) :=
      List.map_congr_left fun other hother => by rw [(hfirst other hother entry.2 other.2 s).2.1]
    rw [performAll, ih hrest, hreplies, List.map_cons, List.foldl_cons]

/-- The order of requests that do not interfere with each other does not matter. -/
theorem performAll_perm {log other : List (ρ × ω)} (hperm : log.Perm other)
    (hindependent : log.Pairwise fun first second => d.Independent first.1 second.1) :
    (d.performAll log s).1.Perm (d.performAll other s).1 ∧ (d.performAll log s).2 = (d.performAll other s).2 := by
  have hother : other.Pairwise fun first second => d.Independent first.1 second.1 :=
    (hperm.pairwise_iff fun h => h.symm).mp hindependent
  rw [performAll_of_independent hindependent, performAll_of_independent hother]
  refine ⟨hperm.map _, hperm.foldl_eq' (fun first hfirst second hsecond z => ?_) s⟩
  by_cases hsame : first = second
  · rw [hsame]
  · have hsymm : Std.Symm fun first second : ρ × ω => d.Independent first.1 second.1 := ⟨fun _ _ h => h.symm⟩
    exact (hindependent.forall hfirst hsecond hsame first.2 second.2 z).1

end Device

/-! ## The ring -/

/-- The requests that are not submitted, those that are not done, and the completions that the caller has not
seen. -/
structure RequestRing (ρ α : Type) where
  queued : List ρ
  inFlight : List ρ
  completions : List (ρ × α)

namespace RequestRing

variable {d : Device ρ ω σ α}

/-- Nothing is under way. -/
def idle : RequestRing ρ α := ⟨[], [], []⟩

/-- Submit the queued requests. -/
def submit (ring : RequestRing ρ α) : RequestRing ρ α :=
  { ring with queued := [], inFlight := ring.inFlight ++ ring.queued }

/-- The device carries out one of the submitted requests. -/
def complete (d : Device ρ ω σ α) (state : RequestRing ρ α × σ) (choice : ℕ × ω) :
    Option (RequestRing ρ α × σ) :=
  state.1.inFlight[choice.1]?.map fun request =>
    ({ state.1 with
        inFlight := state.1.inFlight.eraseIdx choice.1
        completions := state.1.completions ++ [(request, d.reply request choice.2 state.2)] },
      d.effect request choice.2 state.2)

/-- Wait for a completion while the device carries out some requests. If there is none then, the caller goes on
waiting. -/
def waitCqe (d : Device ρ ω σ α) (choices : List (ℕ × ω)) (state : RequestRing ρ α × σ) :
    Option ((ρ × α) × RequestRing ρ α × σ) :=
  (choices.foldlM (complete d) state).bind fun next =>
    match next.1.completions with
    | [] => none
    | cqe :: rest => some (cqe, { next.1 with completions := rest }, next.2)

/-- Wait for several completions. -/
def reapCqes (d : Device ρ ω σ α) : List (List (ℕ × ω)) → RequestRing ρ α × σ →
    Option (List (ρ × α) × RequestRing ρ α × σ)
  | [], state => some ([], state)
  | choices :: waits, state =>
    (waitCqe d choices state).bind fun first =>
      (reapCqes d waits first.2).map fun later => (first.1 :: later.1, later.2)

/-- The number of completions that can still be waited for. -/
def outstanding (ring : RequestRing ρ α) : ℕ := ring.completions.length + ring.inFlight.length

/-! ## What the caller sees -/

/-- One request is done. -/
theorem complete_cases {state next : RequestRing ρ α × σ} {choice : ℕ × ω}
    (hnext : complete d state choice = some next) :
    ∃ request, state.1.inFlight.Perm (request :: next.1.inFlight) ∧ next.1.queued = state.1.queued ∧
      next.1.completions = state.1.completions ++ [(request, d.reply request choice.2 state.2)] ∧
        next.2 = d.effect request choice.2 state.2 := by
  obtain ⟨request, hrequest, rfl⟩ := Option.map_eq_some_iff.mp hnext
  obtain ⟨hlt, rfl⟩ := List.getElem?_eq_some_iff.mp hrequest
  exact ⟨_, (List.getElem_cons_eraseIdx_perm hlt).symm, rfl, rfl, rfl⟩

/-- Several requests are done, in some order. -/
theorem foldlM_complete_cases {choices : List (ℕ × ω)} {state next : RequestRing ρ α × σ}
    (hnext : choices.foldlM (complete d) state = some next) :
    ∃ log : List (ρ × ω), state.1.inFlight.Perm (log.map Prod.fst ++ next.1.inFlight) ∧
      next.1.queued = state.1.queued ∧
      next.1.completions = state.1.completions ++ (d.performAll log state.2).1 ∧
        next.2 = (d.performAll log state.2).2 := by
  induction choices generalizing state with
  | nil =>
    cases hnext
    exact ⟨[], List.Perm.refl _, rfl, (List.append_nil _).symm, rfl⟩
  | cons choice choices ih =>
    rw [List.foldlM_cons] at hnext
    obtain ⟨mid, hmid, hrest⟩ := Option.bind_eq_some_iff.mp hnext
    obtain ⟨request, hperm, hqueued, hcompletions, hstate⟩ := complete_cases hmid
    obtain ⟨log, hlogPerm, hlogQueued, hlogCompletions, hlogState⟩ := ih hrest
    refine ⟨(request, choice.2) :: log, hperm.trans (hlogPerm.cons request), hlogQueued.trans hqueued, ?_, ?_⟩
    · rw [hlogCompletions, hcompletions, hstate, List.append_assoc]
      rfl
    · rw [hlogState, hstate]
      rfl

/-- A completion is seen. -/
theorem waitCqe_cases {choices : List (ℕ × ω)} {state next : RequestRing ρ α × σ} {cqe : ρ × α}
    (hnext : waitCqe d choices state = some (cqe, next)) :
    ∃ log : List (ρ × ω), state.1.inFlight.Perm (log.map Prod.fst ++ next.1.inFlight) ∧
      next.1.queued = state.1.queued ∧
      state.1.completions ++ (d.performAll log state.2).1 = cqe :: next.1.completions ∧
        next.2 = (d.performAll log state.2).2 := by
  obtain ⟨mid, hmid, hseen⟩ := Option.bind_eq_some_iff.mp hnext
  obtain ⟨log, hperm, hqueued, hcompletions, hstate⟩ := foldlM_complete_cases hmid
  cases hposted : mid.1.completions with
  | nil =>
    simp only [hposted] at hseen
    exact absurd hseen (by simp)
  | cons first rest =>
    simp only [hposted] at hseen
    cases hseen
    exact ⟨log, hperm, hqueued, hcompletions.symm.trans hposted, hstate⟩

/-- When the caller has waited for everything that was under way, it has seen the completions of all requests, as
they were carried out in some order, and nothing is left. -/
theorem reapCqes_cases {waits : List (List (ℕ × ω))} {state next : RequestRing ρ α × σ} {cqes : List (ρ × α)}
    (hlength : waits.length = state.1.outstanding) (hnext : reapCqes d waits state = some (cqes, next)) :
    ∃ log : List (ρ × ω), state.1.inFlight.Perm (log.map Prod.fst) ∧
      cqes = state.1.completions ++ (d.performAll log state.2).1 ∧
        next = (⟨state.1.queued, [], []⟩, (d.performAll log state.2).2) := by
  induction waits generalizing state cqes with
  | nil =>
    cases hnext
    obtain ⟨⟨queued, inFlight, completions⟩, s⟩ := next
    simp only [outstanding, List.length_nil] at hlength
    have hcompletions : completions = [] := List.eq_nil_of_length_eq_zero (by omega)
    have hinFlight : inFlight = [] := List.eq_nil_of_length_eq_zero (by omega)
    rw [hcompletions, hinFlight]
    exact ⟨[], List.Perm.refl _, rfl, rfl⟩
  | cons choices waits ih =>
    rw [reapCqes] at hnext
    obtain ⟨⟨cqe, mid⟩, hmid, hrest⟩ := Option.bind_eq_some_iff.mp hnext
    obtain ⟨⟨later, final⟩, hlater, heq⟩ := Option.map_eq_some_iff.mp hrest
    obtain ⟨rfl, rfl⟩ := Prod.mk.inj heq
    obtain ⟨log, hperm, hqueued, hseen, hstate⟩ := waitCqe_cases hmid
    have hmore : waits.length = mid.1.outstanding := by
      have hinFlight := hperm.length_eq
      have hposted := congrArg List.length hseen
      have hreplies := congrArg List.length (d.performAll_map_fst log state.2)
      simp only [List.length_append, List.length_map, List.length_cons, outstanding] at *
      omega
    obtain ⟨laterLog, hlaterPerm, hlaterSeen, hlaterState⟩ := ih hmore hlater
    refine ⟨log ++ laterLog, ?_, ?_, ?_⟩
    · rw [List.map_append]
      exact hperm.trans (hlaterPerm.append_left _)
    · rw [Device.performAll_append, ← List.append_assoc, hseen, ← hstate, hlaterSeen, List.cons_append]
    · rw [hlaterState, Device.performAll_append, hqueued, hstate]

/-- Whatever the order in which the device carries out requests that do not interfere with each other, the caller
sees the completions of the requests one after the other, up to their order, and they leave the same state. -/
theorem reapCqes_inOrder {waits : List (List (ℕ × ω))} {queued requests : List ρ} {s : σ}
    {next : RequestRing ρ α × σ} {cqes : List (ρ × α)} (hindependent : requests.Pairwise d.Independent)
    (hlength : waits.length = requests.length)
    (hnext : reapCqes d waits (⟨queued, requests, []⟩, s) = some (cqes, next)) :
    ∃ log : List (ρ × ω), log.map Prod.fst = requests ∧ cqes.Perm (d.performAll log s).1 ∧
      next = (⟨queued, [], []⟩, (d.performAll log s).2) := by
  obtain ⟨log, hperm, rfl, rfl⟩ := reapCqes_cases (by rw [hlength]; exact (Nat.zero_add _).symm) hnext
  obtain ⟨ordered, rfl, hordered⟩ : Relation.Comp (· = List.map Prod.fst ·) List.Perm requests log := by
    rw [List.eq_map_comp_perm]
    exact hperm
  obtain ⟨hreplies, hstate⟩ := Device.performAll_perm hordered (List.pairwise_map.mp hindependent)
  exact ⟨ordered, rfl, hreplies.symm, by rw [hstate]⟩

/-! ## The caller does not wait in vain -/

/-- The device may carry out the requests in their order, each while the caller waits for one completion. -/
theorem reapCqes_first (log : List (ρ × ω)) (queued : List ρ) (s : σ) :
    reapCqes d (log.map fun entry => [(0, entry.2)]) (⟨queued, log.map Prod.fst, []⟩, s) =
      some ((d.performAll log s).1, ⟨queued, [], []⟩, (d.performAll log s).2) := by
  induction log generalizing s with
  | nil => rfl
  | cons entry log ih =>
    have hfirst : waitCqe d [(0, entry.2)] (⟨queued, entry.1 :: log.map Prod.fst, []⟩, s) =
        some ((entry.1, d.reply entry.1 entry.2 s), ⟨queued, log.map Prod.fst, []⟩,
          d.effect entry.1 entry.2 s) := rfl
    rw [List.map_cons, List.map_cons, reapCqes, hfirst, Option.bind_some, ih]
    rfl

end RequestRing

end Foundation
