import Mathlib
import OperatorSplitting.Proofs.Admm.Step

/-!
# The sequence of iterates

The update of the method, repeated from a starting point, makes a sequence of iterates.  It knows
nothing of the bookkeeping of a solver: neither its settings, nor its state, history and timing.  This
module defines the sequence (`orbit`) and shows that a step of a solver that is not terminal is one
update (`step_of_update`).
-/

namespace OperatorSplitting

open Eval

variable {K R W : Type} [RealArithmetic R] [RealArithmetic W] [Widening R W] [Scalar K R W]

/-! ### Updates -/

/-- The variables of the method, with what its parts carry from one update to the next, and the results
of the update that made them.  The starting point was made by none. -/
structure Iterate (K R W : Type) where
  terms : List (Term K R W)
  x : Signal K
  strategy : Strategy K R W
  trace : Trace K W
  result : Option (Solver.StepResult K R W)

namespace Iterate

/-- The new variables at a solution of the x-update: first all split variables, then all dual
variables, then the residuals. -/
def couple (f : Functional K R W) (terms : List (Term K R W)) (report : SubproblemReport K W) :
    Eval K W (Solver.StepResult K R W) := do
  let splits ← (do Solver.splitUpdates (← Solver.images report.x terms))
  let updates ← Solver.dualUpdates splits
  let diagnostics ← Solver.diagnostics f report.x updates
  return ⟨report, updates, diagnostics⟩

/-- What an update does with a solution of the x-update: one that is not finite is refused, and the new
variables are made at any other. -/
def finish (f : Functional K R W) (terms : List (Term K R W)) (number : ℕ)
    (report : SubproblemReport K W) : Eval K W (Solver.StepResult K R W) :=
  if report.x.allFinite then couple f terms report
  else throw (.numerical (.nonFiniteIterate number))

/-- The update that makes the iterate with the given number. -/
def update (f : Functional K R W) (number : ℕ) (q : Iterate K R W) :
    Except Error (Iterate K R W) :=
  match q.strategy.solve ⟨f, q.terms.map Term.coupling⟩ q.x q.trace with
  | ((.error e, _), _) => .error e
  | ((.ok report, strategy), trace) =>
    if report.x.allFinite then
      match (couple f q.terms report).run trace with
      | (.error e, _) => .error e
      | (.ok r, trace) =>
        .ok ⟨r.updates.map Solver.TermUpdate.after, r.report.x, strategy, trace, some r⟩
    else .error (.numerical (.nonFiniteIterate number))

/-- An update goes through where the x-update finds a finite signal and the phases after it succeed. -/
theorem update_of_couple {f : Functional K R W} {q : Iterate K R W} {report : SubproblemReport K W}
    {strategy : Strategy K R W} {r : Solver.StepResult K R W} {t t' : Trace K W}
    (hsolve : q.strategy.solve ⟨f, q.terms.map Term.coupling⟩ q.x q.trace =
      ((.ok report, strategy), t)) (hfinite : report.x.allFinite = true)
    (hcouple : (couple f q.terms report).run t = (.ok r, t')) (number : ℕ) :
    q.update f number =
      .ok ⟨r.updates.map Solver.TermUpdate.after, r.report.x, strategy, t', some r⟩ := by
  unfold update
  rw [hsolve]
  dsimp only
  rw [if_pos hfinite, hcouple]

/-- The iterates that repeated updates make from a starting point. -/
def orbit (f : Functional K R W) (start : Iterate K R W) : ℕ → Except Error (Iterate K R W)
  | 0 => .ok start
  | k + 1 => do (← orbit f start k).update f (k + 1)

end Iterate

namespace Solver

/-- Where a solver stands. -/
def point (s : Solver K R W) (t : Trace K W) : Iterate K R W := ⟨s.terms, s.x, s.strategy, t, none⟩

/-- The iterates that repeated updates make from where a solver stands. -/
def orbit (s : Solver K R W) (t : Trace K W) : ℕ → Except Error (Iterate K R W) :=
  Iterate.orbit s.f (s.point t)

/-! ### Steps -/

/-- Inside a step, the computation does what an evaluation does.  Besides, only the timing may
change. -/
def Attempt.Evaluates {α : Type} (m : Attempt K R W α) (e : Eval K W α) : Prop :=
  ∀ c, ∃ timing, m.run c = ((e.run c.trace).1, ⟨c.strategy, timing, (e.run c.trace).2⟩)

namespace Attempt.Evaluates

omit [RealArithmetic R] [RealArithmetic W] [Widening R W] [Scalar K R W]

variable {α β : Type}

theorem pure (a : α) : Evaluates (Pure.pure a : Attempt K R W α) (Pure.pure a) :=
  fun c => ⟨c.timing, rfl⟩

theorem timed [RealArithmetic W] (phase : String) (e : Eval K W α) :
    Evaluates (Attempt.timed phase (Attempt.lift e) : Attempt K R W α) e :=
  fun c => ⟨c.timing.mark phase, rfl⟩

theorem bind {m : Attempt K R W α} {e : Eval K W α} {f : α → Attempt K R W β} {g : α → Eval K W β}
    (hm : Evaluates m e) (hf : ∀ a, Evaluates (f a) (g a)) : Evaluates (m >>= f) (e >>= g) := by
  intro c
  obtain ⟨timing, hrun⟩ := hm c
  rw [run_bind, run_bind, hrun]
  rcases e.run c.trace with ⟨result, t⟩
  cases result with
  | error error => exact ⟨timing, rfl⟩
  | ok a => exact hf a ⟨c.strategy, timing, t⟩

end Attempt.Evaluates

/-- The phases after the x-update make the new variables. -/
theorem evaluates_couple (s : Solver K R W) (report : SubproblemReport K W) :
    Attempt.Evaluates (do
      let splits ← Attempt.timed "update_z" <| Attempt.lift do
        splitUpdates (← images report.x s.terms)
      let updates ← Attempt.timed "update_u" <| Attempt.lift (dualUpdates splits)
      let diagnostics ← Attempt.timed "diagnostics" <|
        Attempt.lift (diagnostics s.f report.x updates)
      return ⟨report, updates, diagnostics⟩ : Attempt K R W (StepResult K R W))
      (Iterate.couple s.f s.terms report) :=
  (Attempt.Evaluates.timed _ _).bind fun _ => (Attempt.Evaluates.timed _ _).bind fun _ =>
    (Attempt.Evaluates.timed _ _).bind fun _ => .pure _

theorem evaluates_finish (s : Solver K R W) (number : ℕ) (report : SubproblemReport K W) :
    Attempt.Evaluates (do
      if !report.x.allFinite then
        throw (.numerical (.nonFiniteIterate number))
      let splits ← Attempt.timed "update_z" <| Attempt.lift do
        splitUpdates (← images report.x s.terms)
      let updates ← Attempt.timed "update_u" <| Attempt.lift (dualUpdates splits)
      let diagnostics ← Attempt.timed "diagnostics" <|
        Attempt.lift (diagnostics s.f report.x updates)
      return ⟨report, updates, diagnostics⟩ : Attempt K R W (StepResult K R W))
      (Iterate.finish s.f s.terms number report) := by
  unfold Iterate.finish
  cases report.x.allFinite with
  | true => exact evaluates_couple s report
  | false => exact fun c => ⟨c.timing, rfl⟩

/-- The x-update of a step. -/
def solved (s : Solver K R W) (t : Trace K W) :
    (Except Error (SubproblemReport K W) × Strategy K R W) × Trace K W :=
  s.strategy.solve s.xUpdate s.x t

/-- The results of a step. -/
def finished (s : Solver K R W) (t : Trace K W) : Except Error (StepResult K R W) × Trace K W :=
  match s.solved t with
  | ((.error e, _), trace) => (.error e, trace)
  | ((.ok report, _), trace) => (Iterate.finish s.f s.terms (s.iteration + 1) report).run trace

/-- All phases of a step.  The x-update alone may change the strategy. -/
theorem run_attempt (s : Solver K R W) (timing : Timing W) (t : Trace K W) :
    ∃ timing', (attempt s).run ⟨s.strategy, timing, t⟩ =
      ((s.finished t).1, ⟨(s.solved t).1.2, timing', (s.finished t).2⟩) := by
  have hmodify : (modify fun c => { c with timing := c.timing.startIteration } :
      Attempt K R W PUnit).run ⟨s.strategy, timing, t⟩ =
      (.ok ⟨⟩, ⟨s.strategy, timing.startIteration, t⟩) := rfl
  have hfirst : (Attempt.timed "update_x" (Attempt.solve s.xUpdate s.x)).run
      ⟨s.strategy, timing.startIteration, t⟩ = ((s.solved t).1.1,
        ⟨(s.solved t).1.2, timing.startIteration.mark "update_x", (s.solved t).2⟩) := rfl
  unfold attempt finished
  rw [run_bind, hmodify]
  dsimp only
  rw [run_bind, hfirst]
  rcases s.solved t with ⟨⟨result, strategy⟩, trace⟩
  cases result with
  | error e => exact ⟨_, rfl⟩
  | ok report => exact evaluates_finish s (s.iteration + 1) report ⟨strategy, _, trace⟩

/-- What a step of a solver that is not terminal does. -/
theorem step_running {s : Solver K R W} (hstate : s.state.isTerminal = false) (t : Trace K W) :
    ∃ timing, s.step t =
      match s.finished t with
      | (.error e, t') => ((.error e,
          { s with state := .running, strategy := (s.solved t).1.2, timing := timing }), t')
      | (.ok r, t') => ((.ok (), commit
          { s with state := .running, strategy := (s.solved t).1.2, timing := timing } r), t') := by
  obtain ⟨timing, hrun⟩ := run_attempt s s.timing t
  refine ⟨timing, ?_⟩
  unfold step
  rw [if_neg (by rw [hstate]; exact Bool.noConfusion), hrun]
  rcases s.finished t with ⟨e | r, t'⟩ <;> rfl

/-- A step is refused at the end of a run, or it fails in one of its phases, or it takes the results
of the phases over. -/
theorem step_finished_cases {s s' : Solver K R W} {t t' : Trace K W} {result : Except Error Unit}
    (h : s.step t = ((result, s'), t')) :
    (result = .error (.configuration (.alreadyTerminated s.state s.iteration)) ∧ s' = s) ∨
      ∃ timing, (∃ e, s.finished t = (.error e, t') ∧ result = .error e ∧
          s' = { s with state := .running, strategy := (s.solved t).1.2, timing := timing }) ∨
        ∃ r, s.finished t = (.ok r, t') ∧ result = .ok () ∧ s' = commit
          { s with state := .running, strategy := (s.solved t).1.2, timing := timing } r := by
  by_cases hterminal : s.state.isTerminal = true
  · rw [step, if_pos hterminal] at h
    cases h
    exact .inl ⟨rfl, rfl⟩
  · obtain ⟨timing, hstep⟩ := step_running (Bool.not_eq_true _ ▸ hterminal) t
    rw [hstep] at h
    refine .inr ⟨timing, ?_⟩
    rcases hfinished : s.finished t with ⟨e | r, t₁⟩
    · rw [hfinished] at h
      cases h
      exact .inl ⟨e, rfl, rfl, rfl⟩
    · rw [hfinished] at h
      cases h
      exact .inr ⟨r, rfl, rfl, rfl⟩

/-- A step leaves the strategy as it was or as the x-update has left it. -/
theorem strategy_of_step {s s' : Solver K R W} {t t' : Trace K W} {result : Except Error Unit}
    (h : s.step t = ((result, s'), t')) :
    s'.strategy = s.strategy ∨ s'.strategy = (s.solved t).1.2 := by
  rcases step_finished_cases h with ⟨-, rfl⟩ | ⟨timing, ⟨e, -, -, rfl⟩ | ⟨r, -, -, rfl⟩⟩
  · exact .inl rfl
  · exact .inr rfl
  · exact .inr rfl

/-- A step fails because the run has ended or in one of its phases. -/
theorem error_of_step {s s' : Solver K R W} {t t' : Trace K W} {e : Error}
    (h : s.step t = ((.error e, s'), t')) :
    e = .configuration (.alreadyTerminated s.state s.iteration) ∨ (s.finished t).1 = .error e := by
  rcases step_finished_cases h with ⟨hrefused, -⟩ | ⟨timing, ⟨e', hfinished, he, -⟩ | ⟨r, -, hok, -⟩⟩
  · exact .inl (Except.error.inj hrefused)
  · cases he
    exact .inr (congrArg Prod.fst hfinished)
  · cases hok

/-- The update at a solver has the results of its steps. -/
theorem update_point (s : Solver K R W) (t : Trace K W) :
    (s.point t).update s.f (s.iteration + 1) =
      match s.finished t with
      | (.error e, _) => .error e
      | (.ok r, trace) =>
        .ok ⟨r.updates.map TermUpdate.after, r.report.x, (s.solved t).1.2, trace, some r⟩ := by
  have hpoint : (s.point t).strategy.solve ⟨s.f, (s.point t).terms.map Term.coupling⟩
      (s.point t).x (s.point t).trace = s.solved t := rfl
  unfold Iterate.update finished
  rw [hpoint]
  rcases s.solved t with ⟨⟨result, strategy⟩, trace⟩
  cases result with
  | error e => rfl
  | ok report =>
    dsimp only
    unfold Iterate.finish
    cases report.x.allFinite <;> rfl

/-- A step of a solver that is not terminal fails if the update fails, and leaves the variables as they
were. -/
theorem step_of_update_error {s : Solver K R W} {t : Trace K W} {e : Error}
    (hstate : s.state.isTerminal = false)
    (h : (s.point t).update s.f (s.iteration + 1) = .error e) :
    ∃ strategy timing t', s.step t =
      ((.error e, { s with state := .running, strategy := strategy, timing := timing }), t') := by
  obtain ⟨timing, hstep⟩ := step_running hstate t
  rw [update_point] at h
  rw [hstep]
  rcases hfinished : s.finished t with ⟨result, t'⟩
  rw [hfinished] at h
  cases result with
  | error e' =>
    cases h
    exact ⟨_, _, _, rfl⟩
  | ok r => cases h

/-- A step of a solver that is not terminal takes the results of the update over. -/
theorem step_of_update {s : Solver K R W} {t : Trace K W} {q : Iterate K R W}
    (hstate : s.state.isTerminal = false)
    (h : (s.point t).update s.f (s.iteration + 1) = .ok q) :
    ∃ r strategy timing trace,
      q = ⟨r.updates.map TermUpdate.after, r.report.x, strategy, trace, some r⟩ ∧
      s.step t = ((.ok (), commit
        { s with state := .running, strategy := strategy, timing := timing } r), trace) := by
  obtain ⟨timing, hstep⟩ := step_running hstate t
  rw [update_point] at h
  rw [hstep]
  rcases hfinished : s.finished t with ⟨result, t'⟩
  rw [hfinished] at h
  cases result with
  | error e => cases h
  | ok r =>
    cases h
    exact ⟨_, _, _, _, rfl, rfl⟩

end Solver

end OperatorSplitting
