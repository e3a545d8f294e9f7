import FtsUring.Foundation.Program

/-!
# Pools of threads

A loop hands pieces of work to a pool with a bounded number of threads. A thread takes up a piece, issues its
commands one after the other and ends it; the loop then calls back, and it returns when it has called back for
every piece. A schedule says whose turn it is, so the commands of different pieces interleave in any way.

As every piece has a state of its own, the schedule does not matter: what a piece still has to compute stays the
same from step to step, and every step brings the pool nearer to its end.
-/

namespace Foundation

variable {L : CommandLanguage} {σ α : Type}

/-! ## One piece of work -/

/-- A piece of work: a program with the state that it works on. -/
inductive Work (L : CommandLanguage) (σ α : Type) : Type
  /-- No thread has taken it up. -/
  | queued (program : Program L α) (state : σ)
  /-- A thread has come to some place of the program. -/
  | running (program : Program L α) (state : σ)
  /-- The program has ended. -/
  | finished (value : α) (state : σ)
  /-- The loop has called back. -/
  | reported (value : α) (state : σ)

namespace Work

/-- No thread has taken it up. -/
def isQueued : Work L σ α → Bool
  | .queued _ _ => true
  | _ => false

/-- A thread works on it. -/
def isRunning : Work L σ α → Bool
  | .running _ _ => true
  | _ => false

/-- The loop has called back. -/
def isReported : Work L σ α → Bool
  | .reported _ _ => true
  | _ => false

/-- The result of a piece that the loop has called back for. -/
def result? : Work L σ α → Option (α × σ)
  | .reported value state => some (value, state)
  | _ => none

/-- The next step. A thread in a loop that does not end stays there. -/
def advance (h : Handler L σ) : Work L σ α → Option (Work L σ α)
  | .queued program state => some (.running program state)
  | .running (.pure value) state => some (.finished value state)
  | .running (.call command next) state =>
    (h.run command state).map fun r => .running (next r.1) r.2
  | .running .diverge state => some (.running .diverge state)
  | .finished value state => some (.reported value state)
  | .reported _ _ => none

/-- What comes out in the end. -/
def outcome (h : Handler L σ) : Work L σ α → Option (α × σ)
  | .queued program state => h.exec program state
  | .running program state => h.exec program state
  | .finished value state => some (value, state)
  | .reported value state => some (value, state)

end Work

/-- The number of commands of a run. -/
def Handler.runLength (h : Handler L σ) : Program L α → σ → ℕ
  | .pure _, _ => 0
  | .call command next, state =>
    match h.run command state with
    | none => 0
    | some r => h.runLength (next r.1) r.2 + 1
  | .diverge, _ => 0

namespace Work

variable {h : Handler L σ} {work next : Work L σ α}

/-- The number of steps to the call back. -/
def remaining (h : Handler L σ) : Work L σ α → ℕ
  | .queued program state => h.runLength program state + 3
  | .running program state => h.runLength program state + 2
  | .finished _ _ => 1
  | .reported _ _ => 0

/-- A step does not change what comes out. -/
theorem outcome_advance (hstep : work.advance h = some next) : next.outcome h = work.outcome h := by
  cases work with
  | queued program state =>
    cases hstep
    rfl
  | running program state =>
    cases program with
    | pure value =>
      cases hstep
      rfl
    | call command rest =>
      obtain ⟨r, hrun, rfl⟩ := Option.map_eq_some_iff.mp hstep
      rw [outcome, outcome, Handler.exec, hrun, Option.bind_some]
    | diverge =>
      cases hstep
      rfl
  | finished value state =>
    cases hstep
    rfl
  | reported value state => exact absurd hstep (by simp [advance])

/-- A piece that comes to an end is one step nearer to it. -/
theorem remaining_advance (hends : (work.outcome h).isSome) (hstep : work.advance h = some next) :
    next.remaining h + 1 = work.remaining h := by
  cases work with
  | queued program state =>
    cases hstep
    rfl
  | running program state =>
    cases program with
    | pure value =>
      cases hstep
      rfl
    | call command rest =>
      obtain ⟨r, hrun, rfl⟩ := Option.map_eq_some_iff.mp hstep
      simp only [remaining, Handler.runLength, hrun]
    | diverge => exact absurd hends (by simp [outcome])
  | finished value state =>
    cases hstep
    rfl
  | reported value state => exact absurd hstep (by simp [advance])

/-- A piece that comes to an end, and has not, has a next step. -/
theorem isSome_advance (hends : (work.outcome h).isSome) (hopen : work.isReported = false) :
    (work.advance h).isSome := by
  cases work with
  | queued program state => rfl
  | running program state =>
    cases program with
    | pure value => rfl
    | call command rest =>
      cases hrun : h.run command state with
      | none => exact absurd hends (by simp [outcome, Handler.exec, hrun])
      | some r => simp [advance, hrun]
    | diverge => rfl
  | finished value state => rfl
  | reported value state => exact absurd hopen (by simp [isReported])

/-- The result of a piece that the loop has called back for is what comes out. -/
theorem result?_eq_outcome (hdone : work.isReported = true) : work.result? = work.outcome h := by
  cases work with
  | reported value state => rfl
  | queued program state => exact absurd hdone (by simp [isReported])
  | running program state => exact absurd hdone (by simp [isReported])
  | finished value state => exact absurd hdone (by simp [isReported])

/-- The loop has not called back before the last step. -/
theorem isReported_of_advance (hstep : work.advance h = some next) : work.isReported = false := by
  cases work with
  | reported value state => exact absurd hstep (by simp [advance])
  | queued program state => rfl
  | running program state => rfl
  | finished value state => rfl

end Work

/-! ## The pool -/

/-- The pieces of work in a pool, and how often the loop has called back. -/
structure WorkPool (L : CommandLanguage) (σ α : Type) where
  works : List (Work L σ α)
  completed : ℕ

namespace WorkPool

/-- A pool to which pieces of work were handed. -/
def queue (pieces : List (Program L α × σ)) : WorkPool L σ α :=
  ⟨pieces.map fun piece => .queued piece.1 piece.2, 0⟩

/-- The next step of one piece. It is taken up when a thread has nothing to do. -/
def step (h : Handler L σ) (threads : ℕ) (pool : WorkPool L σ α) (i : ℕ) : Option (WorkPool L σ α) :=
  pool.works[i]?.bind fun work =>
    if work.isQueued ∧ threads ≤ pool.works.countP Work.isRunning then none
    else (work.advance h).map fun next =>
      ⟨pool.works.set i next, if next.isReported then pool.completed + 1 else pool.completed⟩

/-- The steps of a schedule. -/
def run (h : Handler L σ) (threads : ℕ) (pool : WorkPool L σ α) (schedule : List ℕ) :
    Option (WorkPool L σ α) :=
  schedule.foldlM (step h threads) pool

/-- The loop has called back for every piece. -/
def IsDone (pool : WorkPool L σ α) : Prop := ∀ work ∈ pool.works, work.isReported = true

instance (pool : WorkPool L σ α) : Decidable pool.IsDone :=
  inferInstanceAs (Decidable (∀ work ∈ pool.works, work.isReported = true))

/-- The results of the pieces that the loop has called back for. -/
def results (pool : WorkPool L σ α) : List (α × σ) := pool.works.filterMap Work.result?

/-- The number of steps that are left. -/
def remaining (h : Handler L σ) (pool : WorkPool L σ α) : ℕ := (pool.works.map (Work.remaining h)).sum

/-- Every piece comes to an end. -/
def Ends (h : Handler L σ) (pool : WorkPool L σ α) : Prop := ∀ work ∈ pool.works, (work.outcome h).isSome

section Steps

variable {h : Handler L σ} {threads : ℕ} {pool next : WorkPool L σ α} {schedule : List ℕ}

/-- A step advances one piece. -/
theorem step_cases {i : ℕ} (hstep : pool.step h threads i = some next) :
    ∃ before work after work', pool.works = before ++ work :: after ∧ work.advance h = some work' ∧
      next.works = before ++ work' :: after ∧
        next.completed = if work'.isReported then pool.completed + 1 else pool.completed := by
  rw [step, Option.bind_eq_some_iff] at hstep
  obtain ⟨work, hwork, hadvance⟩ := hstep
  split_ifs at hadvance
  obtain ⟨work', hwork', rfl⟩ := Option.map_eq_some_iff.mp hadvance
  obtain ⟨hi, hget⟩ := List.getElem?_eq_some_iff.mp hwork
  have hsplit : pool.works = pool.works.take i ++ work :: pool.works.drop (i + 1) := by
    rw [← hget, ← List.drop_eq_getElem_cons hi, List.take_append_drop]
  refine ⟨pool.works.take i, work, pool.works.drop (i + 1), work', hsplit, hwork', ?_, rfl⟩
  exact List.set_eq_take_append_cons_drop.trans (if_pos hi)

/-- More threads can do what fewer can. -/
theorem step_of_le {more i : ℕ} (hle : threads ≤ more) (hstep : pool.step h threads i = some next) :
    pool.step h more i = some next := by
  obtain ⟨work, hwork, hadvance⟩ := Option.bind_eq_some_iff.mp hstep
  rw [step, hwork, Option.bind_some]
  split_ifs at hadvance with hbusy
  rwa [if_neg fun hfull => hbusy ⟨hfull.1, hle.trans hfull.2⟩]

/-- A step does not change what comes out. -/
theorem outcomes_step {i : ℕ} (hstep : pool.step h threads i = some next) :
    next.works.map (Work.outcome h) = pool.works.map (Work.outcome h) := by
  obtain ⟨before, work, after, work', hworks, hadvance, hnext, -⟩ := step_cases hstep
  rw [hworks, hnext, List.map_append, List.map_append, List.map_cons, List.map_cons,
    Work.outcome_advance hadvance]

/-- The loop counts how often it has called back. -/
theorem completed_step {i : ℕ} (hstep : pool.step h threads i = some next)
    (hcount : pool.completed = pool.works.countP Work.isReported) :
    next.completed = next.works.countP Work.isReported := by
  obtain ⟨before, work, after, work', hworks, hadvance, hnext, hcompleted⟩ := step_cases hstep
  rw [hcompleted, hcount, hworks, hnext, List.countP_append, List.countP_append, List.countP_cons,
    List.countP_cons, Work.isReported_of_advance hadvance]
  cases work'.isReported
  · simp
  · simp [Nat.add_assoc]

/-- A step brings the pool nearer to its end. -/
theorem remaining_step {i : ℕ} (hends : pool.Ends h) (hstep : pool.step h threads i = some next) :
    next.remaining h + 1 = pool.remaining h := by
  obtain ⟨before, work, after, work', hworks, hadvance, hnext, -⟩ := step_cases hstep
  have hwork : work ∈ pool.works := by
    rw [hworks]
    exact List.mem_append_right _ List.mem_cons_self
  have hless := Work.remaining_advance (hends work hwork) hadvance
  rw [remaining, remaining, hworks, hnext]
  simp only [List.map_append, List.map_cons, List.sum_append, List.sum_cons]
  omega

/-- Whether the pieces come to an end does not depend on the steps. -/
theorem Ends.of_outcomes (hends : pool.Ends h)
    (hsame : next.works.map (Work.outcome h) = pool.works.map (Work.outcome h)) : next.Ends h := by
  intro work hwork
  have hmem : work.outcome h ∈ pool.works.map (Work.outcome h) := hsame ▸ List.mem_map_of_mem hwork
  obtain ⟨other, hother, heq⟩ := List.mem_map.mp hmem
  rw [← heq]
  exact hends other hother

/-- As long as the loop has not called back for every piece, some step is possible. -/
theorem exists_step (hthreads : 0 < threads) (hends : pool.Ends h) (hopen : ¬pool.IsDone) :
    ∃ i, (pool.step h threads i).isSome := by
  have hready : ∀ i work, pool.works[i]? = some work → work.isReported = false →
      ¬(work.isQueued ∧ threads ≤ pool.works.countP Work.isRunning) → (pool.step h threads i).isSome := by
    intro i work hwork hnot hfree
    rw [step, hwork, Option.bind_some, if_neg hfree, Option.isSome_map]
    exact Work.isSome_advance (hends work (List.mem_of_getElem? hwork)) hnot
  simp only [IsDone, not_forall] at hopen
  obtain ⟨work, hwork, hnot⟩ := hopen
  obtain ⟨i, hi⟩ := List.mem_iff_getElem?.mp hwork
  by_cases hbusy : ∃ other ∈ pool.works, other.isRunning = true
  · -- a piece that a thread works on can go on
    obtain ⟨other, hother, hrunning⟩ := hbusy
    obtain ⟨j, hj⟩ := List.mem_iff_getElem?.mp hother
    refine ⟨j, hready j other hj ?_ ?_⟩ <;> cases other <;>
      simp_all [Work.isRunning, Work.isReported, Work.isQueued]
  · -- all threads are free
    have hnone : pool.works.countP Work.isRunning = 0 := by
      rw [List.countP_eq_zero]
      exact fun other hother hrunning => hbusy ⟨other, hother, hrunning⟩
    refine ⟨i, hready i work hi (Bool.eq_false_iff.mpr hnot) ?_⟩
    rw [hnone]
    omega

end Steps

/-! ## Runs -/

section Runs

variable {h : Handler L σ} {threads : ℕ} {pool final : WorkPool L σ α} {schedule : List ℕ}

/-- More threads can follow the schedule of fewer ones. -/
theorem run_of_le {more : ℕ} (hle : threads ≤ more) (hrun : pool.run h threads schedule = some final) :
    pool.run h more schedule = some final := by
  induction schedule generalizing pool with
  | nil => exact hrun
  | cons i schedule ih =>
    rw [run, List.foldlM_cons] at hrun
    obtain ⟨next, hstep, hrest⟩ := Option.bind_eq_some_iff.mp hrun
    rw [run, List.foldlM_cons, step_of_le hle hstep]
    exact ih hrest

/-- What every step preserves, a schedule preserves. -/
theorem run_induction {invariant : WorkPool L σ α → Prop}
    (hstep : ∀ pool i next, invariant pool → pool.step h threads i = some next → invariant next)
    (hpool : invariant pool) (hrun : pool.run h threads schedule = some final) : invariant final := by
  induction schedule generalizing pool with
  | nil =>
    cases hrun
    exact hpool
  | cons i schedule ih =>
    rw [run, List.foldlM_cons] at hrun
    obtain ⟨mid, hmid, hrest⟩ := Option.bind_eq_some_iff.mp hrun
    exact ih (hstep pool i mid hpool hmid) hrest

/-- A schedule does not change what comes out. -/
theorem outcomes_run (hrun : pool.run h threads schedule = some final) :
    final.works.map (Work.outcome h) = pool.works.map (Work.outcome h) :=
  run_induction (fun _ _ _ hsame hstep => (outcomes_step hstep).trans hsame) rfl hrun

/-- Every schedule makes as many steps as the pool is nearer to its end. -/
theorem length_add_remaining (hends : pool.Ends h) (hrun : pool.run h threads schedule = some final) :
    schedule.length + final.remaining h = pool.remaining h := by
  induction schedule generalizing pool with
  | nil =>
    cases hrun
    exact Nat.zero_add _
  | cons i schedule ih =>
    rw [run, List.foldlM_cons] at hrun
    obtain ⟨mid, hmid, hrest⟩ := Option.bind_eq_some_iff.mp hrun
    have hless := remaining_step hends hmid
    have htotal := ih (hends.of_outcomes (outcomes_step hmid)) hrest
    rw [List.length_cons]
    omega

/-- A pool that can always go on, but not for ever, comes to the end under some schedule. -/
theorem exists_run_isDone {limit : ℕ}
    (hbounded : ∀ schedule final, pool.run h threads schedule = some final → schedule.length ≤ limit)
    (hcontinues : ∀ schedule final, pool.run h threads schedule = some final →
      final.IsDone ∨ ∃ i, (final.step h threads i).isSome) :
    ∃ schedule final, pool.run h threads schedule = some final ∧ final.IsDone := by
  by_contra hnever
  have hlong : ∀ length, ∃ schedule final, schedule.length = length ∧
      pool.run h threads schedule = some final := by
    intro length
    induction length with
    | zero => exact ⟨[], pool, rfl, rfl⟩
    | succ length ih =>
      obtain ⟨schedule, mid, hlength, hrun⟩ := ih
      obtain hdone | ⟨i, hi⟩ := hcontinues schedule mid hrun
      · exact absurd ⟨schedule, mid, hrun, hdone⟩ hnever
      · obtain ⟨final, hfinal⟩ := Option.isSome_iff_exists.mp hi
        refine ⟨schedule ++ [i], final, by rw [List.length_append, hlength]; rfl, ?_⟩
        rw [run] at hrun
        rw [run, List.foldlM_append, hrun]
        exact (Option.bind_some _ _).trans (by rw [List.foldlM_cons, hfinal]; rfl)
  obtain ⟨schedule, final, hlength, hrun⟩ := hlong (limit + 1)
  have hshort := hbounded schedule final hrun
  omega

/-- The results of a pool that is done. -/
theorem map_some_results (hdone : pool.IsDone) :
    pool.results.map some = pool.works.map (Work.outcome h) := by
  obtain ⟨works, completed⟩ := pool
  induction works with
  | nil => rfl
  | cons work works ih =>
    have hrest := ih fun other hother => hdone other (List.mem_cons_of_mem _ hother)
    have hwork := @Work.result?_eq_outcome L σ α h work (hdone work List.mem_cons_self)
    cases work with
    | reported value state =>
      exact congrArg (some (value, state) :: ·) hrest
    | queued program state => exact absurd (hdone _ List.mem_cons_self) (by simp [Work.isReported])
    | running program state => exact absurd (hdone _ List.mem_cons_self) (by simp [Work.isReported])
    | finished value state => exact absurd (hdone _ List.mem_cons_self) (by simp [Work.isReported])

end Runs

/-! ## Pieces that were handed to a pool -/

section Queue

variable {h : Handler L σ} {threads : ℕ} {pieces : List (Program L α × σ)} {final : WorkPool L σ α}
  {schedule : List ℕ}

/-- What comes out of the pieces. -/
theorem outcomes_queue : (queue pieces).works.map (Work.outcome h) =
    pieces.map fun piece => h.exec piece.1 piece.2 := by
  rw [queue, List.map_map]
  rfl

/-- Whatever the schedule, when the loop returns it has called back once for every piece, and the results are
those of the pieces alone. -/
theorem run_queue (hrun : (queue pieces).run h threads schedule = some final) (hdone : final.IsDone) :
    final.results.map some = (pieces.map fun piece => h.exec piece.1 piece.2) ∧
      final.completed = pieces.length := by
  have hsame := outcomes_run hrun
  rw [outcomes_queue] at hsame
  refine ⟨(map_some_results hdone).trans hsame, ?_⟩
  have hcount : final.completed = final.works.countP Work.isReported := by
    refine run_induction (fun _ _ _ hcount hstep => completed_step hstep hcount) ?_ hrun
    rw [queue, eq_comm, List.countP_eq_zero]
    intro work hwork
    obtain ⟨piece, -, rfl⟩ := List.mem_map.mp hwork
    exact Bool.false_ne_true
  have hlength := congrArg List.length hsame
  rw [List.length_map, List.length_map] at hlength
  rw [hcount, List.countP_eq_length.mpr hdone, hlength]

/-- When every piece alone comes to an end, no schedule is longer than the pieces together, and every pool that it
leads to is done or can go on. -/
theorem run_queue_progress (hthreads : 0 < threads)
    (hends : ∀ piece ∈ pieces, (h.exec piece.1 piece.2).isSome)
    (hrun : (queue pieces).run h threads schedule = some final) :
    schedule.length ≤ (queue pieces).remaining h ∧ (final.IsDone ∨ ∃ i, (final.step h threads i).isSome) := by
  have hqueue : (queue pieces).Ends h := by
    intro work hwork
    obtain ⟨piece, hpiece, rfl⟩ := List.mem_map.mp hwork
    exact hends piece hpiece
  have htotal := length_add_remaining hqueue hrun
  refine ⟨by omega, ?_⟩
  by_cases hdone : final.IsDone
  · exact .inl hdone
  · exact .inr (exists_step hthreads (hqueue.of_outcomes (outcomes_run hrun)) hdone)

end Queue

end WorkPool

end Foundation
