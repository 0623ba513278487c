import Mathlib
import OperatorSplitting.Proofs.Admm.Retry

/-!
# The log of phases

The timer of a solver has a counter of its own, which goes up when a step begins, while the number of
the iteration goes up when a step has succeeded.  So the rows of a step carry the number of the attempt:
one more than the steps before it, those that failed included (`Ran.hasLog`).  That is the number of
the iteration that is attempted as long as no step has failed; each failed step puts the two one
further apart (`ran_phase_log`).

Each step leaves the rows of the phases that it has entered, in their order: all four if it succeeds,
and those up to the phase in which it fails otherwise (`step_log`).  A step of a finished run leaves
none.
-/

namespace OperatorSplitting

open Eval

/-- The recorded phases with the numbers of the iterations that they are filed under. -/
def Timing.labels {W : Type} (t : Timing W) : List (String × ℕ) :=
  t.records.map fun r => (r.phase, r.iteration)

namespace Solver

/-! ### Phases -/

/-- The timed phases of a step. -/
inductive Phase where
  | updateX
  | updateZ
  | updateU
  | diagnostics
deriving DecidableEq

namespace Phase

/-- The name under which a phase is recorded. -/
def name : Phase → String
  | .updateX => "update_x"
  | .updateZ => "update_z"
  | .updateU => "update_u"
  | .diagnostics => "diagnostics"

/-- All phases, in their order. -/
def all : List Phase := [.updateX, .updateZ, .updateU, .diagnostics]

/-- The phases that a step enters: those up to the one in which it fails, and all if it fails in
none. -/
def entered : Option Phase → List Phase
  | none => all
  | some p => all.takeWhile (· ≠ p) ++ [p]

end Phase

section Marks

variable {W : Type} [Zero W]

/-- Record some phases of the current iteration. -/
def markPhases (t : Timing W) (phases : List Phase) : Timing W :=
  phases.foldl (fun t p => t.mark p.name) t

theorem iteration_markPhases (t : Timing W) (phases : List Phase) :
    (markPhases t phases).iteration = t.iteration := by
  induction phases generalizing t with
  | nil => rfl
  | cons p ps ih => exact ih (t.mark p.name)

theorem labels_markPhases (t : Timing W) (phases : List Phase) :
    (markPhases t phases).labels = t.labels ++ phases.map fun p => (p.name, t.iteration) := by
  induction phases generalizing t with
  | nil => exact (List.append_nil _).symm
  | cons p ps ih =>
    have hmark : (t.mark p.name).labels = t.labels ++ [(p.name, t.iteration)] := by
      simp [Timing.labels, Timing.mark]
    show (markPhases (t.mark p.name) ps).labels = _
    rw [ih, hmark, List.append_assoc]
    rfl

end Marks

variable {K R W : Type} [RealArithmetic R] [RealArithmetic W] [Widening R W] [Scalar K R W]

/-! ### What becomes of a step -/

/-- Where and how the phases after the x-update fail, if they fail. -/
def coupleFailure? (s : Solver K R W) (report : SubproblemReport K W) (t : Trace K W) :
    Option (Phase × Error) :=
  match (do splitUpdates (← images report.x s.terms) : Eval K W _).run t with
  | (.error e, _) => some (.updateZ, e)
  | (.ok splits, t) =>
    match dualUpdates splits with
    | .error e => some (.updateU, e)
    | .ok updates =>
      match ((Solver.diagnostics s.f report.x updates).run t).1 with
      | .error e => some (.diagnostics, e)
      | .ok _ => none

/-- Where and how a step of a solver fails that is not terminal, if it fails.  A solution of the
x-update that is not finite is a failure of the x-update. -/
def failure? (s : Solver K R W) (t : Trace K W) : Option (Phase × Error) :=
  match s.solved t with
  | ((.error e, _), _) => some (.updateX, e)
  | ((.ok report, _), t) =>
    if report.x.allFinite then s.coupleFailure? report t
    else some (.updateX, .numerical (.nonFiniteIterate (s.iteration + 1)))

/-- The phase in which a step fails, if it fails. -/
def failedPhase? (s : Solver K R W) (t : Trace K W) : Option Phase := (s.failure? t).map Prod.fst

/-- What a step answers that fails so. -/
def verdict : Option (Phase × Error) → Except Error Unit
  | some (_, e) => .error e
  | none => .ok ()

omit [RealArithmetic R] [Widening R W] [Scalar K R W] in
theorem run_timed_lift {α : Type} (phase : String) (m : Eval K W α) (c : Carried K R W) :
    (Attempt.timed phase (Attempt.lift m)).run c =
      ((m.run c.trace).1, ⟨c.strategy, c.timing.mark phase, (m.run c.trace).2⟩) := rfl

/-- The phases of a step after the x-update. -/
def coupled (s : Solver K R W) (report : SubproblemReport K W) :
    Attempt K R W (StepResult K R W) := do
  let splits ← Attempt.timed "update_z" <| Attempt.lift do
    splitUpdates (← images report.x s.terms)
  let updates ← Attempt.timed "update_u" <| Attempt.lift (dualUpdates splits)
  let diagnostics ← Attempt.timed "diagnostics" <|
    Attempt.lift (Solver.diagnostics s.f report.x updates)
  return ⟨report, updates, diagnostics⟩

/-- The phases after the x-update are recorded as they are entered, and the first failure ends the
step. -/
theorem coupled_log (s : Solver K R W) (report : SubproblemReport K W) (c : Carried K R W) :
    ((coupled s report).run c).1.map (fun _ => ()) = verdict (s.coupleFailure? report c.trace) ∧
      ((coupled s report).run c).2.timing = markPhases c.timing
        (Phase.entered ((s.coupleFailure? report c.trace).map Prod.fst)).tail := by
  unfold coupled coupleFailure?
  rw [run_bind, run_timed_lift]
  rcases (do splitUpdates (← images report.x s.terms) : Eval K W _).run c.trace with ⟨e | splits, t₁⟩
  · exact ⟨rfl, rfl⟩
  · dsimp only
    rw [run_bind, run_timed_lift]
    cases dualUpdates splits with
    | error e => exact ⟨rfl, rfl⟩
    | ok updates =>
      have hlift : (liftM (.ok updates : Except Error _) : Eval K W _).run t₁ = (.ok updates, t₁) :=
        rfl
      rw [hlift]
      dsimp only
      rw [run_bind, run_timed_lift]
      rcases (Solver.diagnostics s.f report.x updates).run t₁ with ⟨e | d, t₂⟩
      · exact ⟨rfl, rfl⟩
      · exact ⟨rfl, rfl⟩

theorem markPhases_entered (t : Timing W) (o : Option Phase) :
    markPhases t (Phase.entered o) = markPhases (t.mark "update_x") (Phase.entered o).tail := by
  rcases o with _ | _ | _ | _ | _ <;> rfl

/-- All phases of a step. -/
theorem attempt_log (s : Solver K R W) (timing : Timing W) (t : Trace K W) :
    ((attempt s).run ⟨s.strategy, timing, t⟩).1.map (fun _ => ()) = verdict (s.failure? t) ∧
      ((attempt s).run ⟨s.strategy, timing, t⟩).2.timing =
        markPhases timing.startIteration (Phase.entered (s.failedPhase? t)) := by
  have hmodify : (modify fun c => { c with timing := c.timing.startIteration } :
      Attempt K R W PUnit).run ⟨s.strategy, timing, t⟩ =
      (.ok ⟨⟩, ⟨s.strategy, timing.startIteration, t⟩) := rfl
  have hfirst : (Attempt.timed "update_x" (Attempt.solve s.xUpdate s.x)).run
      ⟨s.strategy, timing.startIteration, t⟩ = ((s.solved t).1.1,
        ⟨(s.solved t).1.2, timing.startIteration.mark "update_x", (s.solved t).2⟩) := rfl
  unfold attempt failedPhase? failure?
  rw [run_bind, hmodify]
  dsimp only
  rw [run_bind, hfirst, markPhases_entered]
  rcases s.solved t with ⟨⟨result, strategy⟩, t₁⟩
  cases result with
  | error e => exact ⟨rfl, rfl⟩
  | ok report =>
    dsimp only
    cases report.x.allFinite with
    | false => exact ⟨rfl, rfl⟩
    | true => exact coupled_log s report ⟨strategy, timing.startIteration.mark "update_x", t₁⟩

/-- A step of a finished run is refused. -/
theorem step_of_isTerminal {s : Solver K R W} (h : s.state.isTerminal = true) (t : Trace K W) :
    s.step t = ((.error (.configuration (.alreadyTerminated s.state s.iteration)), s), t) := by
  unfold step
  rw [if_pos h]

/-- What any other step answers and leaves in the log. -/
theorem step_log {s : Solver K R W} (h : s.state.isTerminal = false) (t : Trace K W) :
    (s.step t).1.1 = verdict (s.failure? t) ∧
      (s.step t).1.2.timing =
        markPhases s.timing.startIteration (Phase.entered (s.failedPhase? t)) ∧
      (s.step t).1.2.iteration = s.iteration + [s.failedPhase? t].count none := by
  obtain ⟨hverdict, htiming⟩ := attempt_log s s.timing t
  unfold failedPhase? at htiming ⊢
  unfold step
  rw [if_neg (by rw [h]; exact Bool.noConfusion)]
  rcases hrun : (attempt s).run ⟨s.strategy, s.timing, t⟩ with ⟨result, c⟩
  rw [hrun] at hverdict htiming
  cases hfailure : s.failure? t with
  | none =>
    rw [hfailure] at hverdict htiming
    cases result with
    | error e => cases hverdict
    | ok r => exact ⟨rfl, htiming, rfl⟩
  | some f =>
    rw [hfailure] at hverdict htiming
    cases result with
    | ok r => cases hverdict
    | error e =>
      cases hverdict
      exact ⟨rfl, htiming, rfl⟩

theorem failure?_eq_none_of_step {s s' : Solver K R W} {t t' : Trace K W}
    (h : s.step t = ((.ok (), s'), t')) : s.failure? t = none := by
  cases hterminal : s.state.isTerminal with
  | true =>
    rw [step_of_isTerminal hterminal] at h
    cases h
  | false =>
    obtain ⟨hverdict, -⟩ := step_log hterminal t
    rw [h] at hverdict
    cases hfailure : s.failure? t with
    | none => rfl
    | some f =>
      rw [hfailure] at hverdict
      cases hverdict

/-! ### Runs -/

/-- The step that a call makes, unless it is refused: the phase in which it failed, or none. -/
def attempts (s : Solver K R W) (t : Trace K W) : List (Option Phase) :=
  if s.state.isTerminal then [] else [s.failedPhase? t]

/-- The steps that iterating makes, in their order. -/
def attemptsWithin (s : Solver K R W) : ℕ → Trace K W → List (Option Phase)
  | 0, _ => []
  | n + 1, t => s.attempts t ++
    match s.step t with
    | ((.ok (), s), t) => attemptsWithin s n t
    | ((.error _, _), _) => []

/-- A solver that was made from a problem and then stepped or solved any number of times, each time
from any trace, whether the calls succeeded or failed, with all steps that were made. -/
inductive Ran (p : Problem K R W) (config : Config W) (strategy : Strategy K R W) :
    Solver K R W → List (Option Phase) → Prop
  | create {s t t'} : (create p config strategy).run t = (.ok s, t') → Ran p config strategy s []
  | step {log s s' t t' result} : Ran p config strategy s log → s.step t = ((result, s'), t') →
      Ran p config strategy s' (log ++ s.attempts t)
  | solve {log s s' t t' result} : Ran p config strategy s log → s.solve t = ((result, s'), t') →
      Ran p config strategy s' (log ++ s.attemptsWithin (s.config.maxIter - s.iteration) t)

/-- The number of failed steps. -/
def failures (log : List (Option Phase)) : ℕ := log.countP Option.isSome

/-- The rows that the steps leave: those of each step are filed under its number. -/
def rows (log : List (Option Phase)) : List (String × ℕ) :=
  (log.zipIdx 1).flatMap fun o => (Phase.entered o.1).map fun p => (p.name, o.2)

/-- The rows of the log are those of the steps that were made, and the completed iterations are the steps
that have not failed. -/
structure HasLog (s : Solver K R W) (log : List (Option Phase)) : Prop where
  labels : s.timing.labels = ("setup", 0) :: rows log
  number : s.timing.iteration = log.length
  iteration : s.iteration = log.count none

theorem rows_concat (log : List (Option Phase)) (o : Option Phase) :
    rows (log ++ [o]) = rows log ++ (Phase.entered o).map fun p => (p.name, log.length + 1) := by
  rw [rows, List.zipIdx_append, List.flatMap_append, Nat.add_comm]
  simp [rows]

theorem count_none_add_failures (log : List (Option Phase)) :
    log.count none + failures log = log.length := by
  induction log with
  | nil => rfl
  | cons o log ih =>
    rw [failures, List.count_cons, List.countP_cons, List.length_cons, ← ih, failures]
    cases o <;> simp <;> omega

theorem HasLog.step {log : List (Option Phase)} {s : Solver K R W} (h : s.HasLog log)
    (t : Trace K W) : (s.step t).1.2.HasLog (log ++ s.attempts t) := by
  unfold attempts
  cases hterminal : s.state.isTerminal with
  | true =>
    rw [step_of_isTerminal hterminal, if_pos rfl, List.append_nil]
    exact h
  | false =>
    rw [if_neg Bool.noConfusion]
    obtain ⟨-, htiming, hiteration⟩ := step_log hterminal t
    refine ⟨?_, ?_, ?_⟩
    · rw [htiming, labels_markPhases, rows_concat, ← List.cons_append, ← h.labels,
        Timing.iteration_startIteration, h.number]
      rfl
    · rw [htiming, iteration_markPhases, Timing.iteration_startIteration, h.number]
      simp
    · rw [hiteration, h.iteration, List.count_append]

theorem HasLog.solveWithin {log : List (Option Phase)} {s : Solver K R W} (h : s.HasLog log)
    (n : ℕ) (t : Trace K W) : (solveWithin n s t).1.2.HasLog (log ++ s.attemptsWithin n t) := by
  induction n generalizing log s t with
  | zero =>
    rw [attemptsWithin, List.append_nil]
    exact h
  | succ n ih =>
    unfold attemptsWithin
    cases hterminal : s.state.isTerminal with
    | true =>
      rw [solveWithin_of_isTerminal hterminal, step_of_isTerminal hterminal, attempts,
        if_pos hterminal, List.append_nil, List.append_nil]
      exact h
    | false =>
      have hnext := h.step t
      rw [solveWithin_succ hterminal]
      rcases hrun : s.step t with ⟨⟨result, s₁⟩, t₁⟩
      rw [hrun] at hnext
      cases result with
      | error e =>
        dsimp only
        rw [List.append_nil]
        exact hnext
      | ok u =>
        dsimp only
        rw [← List.append_assoc]
        exact ih hnext t₁

/-- Solving makes the steps that the run has left. -/
theorem HasLog.solve {log : List (Option Phase)} {s : Solver K R W} (h : s.HasLog log)
    (t : Trace K W) :
    (s.solve t).1.2.HasLog (log ++ s.attemptsWithin (s.config.maxIter - s.iteration) t) := by
  rcases lt_or_ge s.iteration s.config.maxIter with hlt | hge
  · rw [solve_of_lt hlt]
    exact h.solveWithin _ t
  · -- No iterations are left, so the run has ended or ends here without a step.
    rw [Nat.sub_eq_zero_of_le hge, attemptsWithin, List.append_nil]
    cases hterminal : s.state.isTerminal with
    | true =>
      rw [solve_of_isTerminal hterminal, solveWithin_of_isTerminal hterminal]
      exact h
    | false =>
      have hend : s.solve = Solver.solveWithin (s.config.maxIter - s.iteration)
          { s with state := .maxIterReached } := by
        unfold Solver.solve
        rw [if_pos (by simp [hge, hterminal])]
      rw [hend, solveWithin_of_isTerminal rfl]
      exact ⟨h.labels, h.number, h.iteration⟩

variable {p : Problem K R W} {config : Config W} {strategy : Strategy K R W}

theorem Ran.hasLog {s : Solver K R W} {log : List (Option Phase)}
    (h : s.Ran p config strategy log) : s.HasLog log := by
  induction h with
  | create hmade =>
    obtain ⟨-, -, -, -, -, -, -, rfl⟩ := run_create_eq_ok_iff.mp hmade
    exact ⟨rfl, rfl, rfl⟩
  | @step log s s' t t' result _ hstep ih =>
    have hnext := ih.step t
    rwa [hstep] at hnext
  | @solve log s s' t t' result _ hsolve ih =>
    have hnext := ih.solve t
    rwa [hsolve] at hnext

/-- The log of any run.  After the row of the setup stand those of the steps, each of which is filed
under its number among all steps that were made; the completed iterations are the steps that have not
failed.  So a step leaves rows under the number of the iteration that it attempts plus the number of the
steps that have failed before it.  It leaves one row for each phase that it enters, in their order: all
four if it succeeds, and those up to the one that fails if it fails.  A refused step leaves none. -/
theorem ran_phase_log {s : Solver K R W} {log : List (Option Phase)}
    (h : s.Ran p config strategy log) :
    s.timing.labels = ("setup", 0) :: rows log ∧
    s.iteration + failures log = log.length ∧
    (s.state.isTerminal = true → ∀ t, s.step t =
      ((.error (.configuration (.alreadyTerminated s.state s.iteration)), s), t)) ∧
    (s.state.isTerminal = false → ∀ t, (s.step t).1.1 = verdict (s.failure? t) ∧
      (s.step t).1.2.timing.labels = s.timing.labels ++
        (Phase.entered (s.failedPhase? t)).map fun p =>
          (p.name, s.iteration + 1 + failures log)) := by
  have hlog := h.hasLog
  have hlength : s.iteration + failures log = log.length := by
    rw [hlog.iteration, count_none_add_failures]
  refine ⟨hlog.labels, hlength, fun hterminal t => step_of_isTerminal hterminal t,
    fun hterminal t => ?_⟩
  obtain ⟨hverdict, htiming, -⟩ := step_log hterminal t
  have hnumber : s.timing.iteration + 1 = s.iteration + 1 + failures log := by
    rw [hlog.number]
    omega
  refine ⟨hverdict, ?_⟩
  rw [htiming, labels_markPhases, Timing.iteration_startIteration, hnumber]
  rfl

/-! ### Steps that fail -/

theorem failure?_misshapen : misshapenSolver.failure? .empty =
    some (.updateU, .shapeMismatch "array subtraction" (.vector 1) (.vector 2)) := by
  unfold failure?
  simp only [allFinite_eq_true]
  rfl

theorem phase_log_misshapen : ∃ s t, misshapenSolver.step .empty =
    ((.error (.shapeMismatch "array subtraction" (.vector 1) (.vector 2)), s), t) ∧
      s.iteration = 0 ∧ s.timing.labels =
        [("setup", 0), ("update_x", 1), ("update_z", 1), ("update_u", 1)] := by
  have hmade : misshapenSolver.Ran misshapenProblem .default (.external restingStrategy []) [] :=
    .create run_create_misshapen
  have hlog : misshapenSolver.attempts .empty = [some .updateU] := by
    unfold attempts failedPhase?
    rw [failure?_misshapen]
    rfl
  obtain ⟨s, t, hstep⟩ := step_misshapen
  have hran := hmade.step hstep
  rw [hlog] at hran
  obtain ⟨hlabels, hcount, -, -⟩ := ran_phase_log hran
  exact ⟨s, t, hstep, Nat.add_right_cancel hcount, hlabels⟩

/-- The solver of the brittle problem after its first step, which has failed. -/
noncomputable def brittleRetry (a : ℝ) (timing : Timing ℝ) : Solver ℝ ℝ ℝ :=
  { brittleSolver a with state := .running, strategy := .descent 1 (1 + 1), timing := timing }

/-- The second step succeeds, as its x-update goes farther. -/
theorem step_brittleRetry (timing : Timing ℝ) (t : Trace ℝ ℝ) :
    ∃ s' t', (brittleRetry 4 timing).step t = ((.ok (), s'), t') := by
  obtain ⟨timing', hstep⟩ := step_running (s := brittleRetry 4 timing) rfl t
  obtain ⟨r, hr, -⟩ := succeeds_finish_brittle (a := 4) (x := 4 - (1 + 1)) (by norm_num)
  have htwo : (0 : ℝ) ≤ 1 + 1 := by norm_num
  have hfour : (1 + 1 : ℝ) + (1 + 1) ≤ 4 := by norm_num
  have hfinished : (brittleRetry 4 timing).finished t = (.ok r, t) :=
    (finished_brittle four_pos htwo hfour .running timing t).trans (hr t)
  rw [hfinished] at hstep
  exact ⟨_, _, hstep⟩

/-- The split update of the brittle problem fails at first and goes through in the second step.  That is
the first iteration of the run, and its rows are filed under two. -/
theorem exists_retry_mislabelled : ∃ s t,
    (create (brittleProblem 4) .default (.ofSteps 1)).run .empty = (.ok s, t) ∧
    ∃ e s₁ t₁, s.step t = ((.error e, s₁), t₁) ∧ s₁.iteration = 0 ∧
    ∃ s₂ t₂, s₁.step t₁ = ((.ok (), s₂), t₂) ∧ s₂.iteration = 1 ∧
      s₂.timing.labels = s₁.timing.labels ++
        [("update_x", 2), ("update_z", 2), ("update_u", 2), ("diagnostics", 2)] := by
  obtain ⟨t, hcreate⟩ := run_create_brittle four_pos
  obtain ⟨timing, hstep⟩ := step_brittle (a := 4) (by norm_num) t
  obtain ⟨s₂, t₂, hagain⟩ := step_brittleRetry timing t
  refine ⟨_, t, hcreate, _, brittleRetry 4 timing, t, hstep, rfl, s₂, t₂, hagain, ?_⟩
  have hnumber : timing.iteration = 1 := by
    have htiming := (step_log (s := brittleSolver 4) rfl t).2.1
    rw [hstep] at htiming
    exact (congrArg Timing.iteration htiming).trans (iteration_markPhases _ _)
  have hphase : (brittleRetry 4 timing).failedPhase? t = none :=
    congrArg (Option.map Prod.fst) (failure?_eq_none_of_step hagain)
  obtain ⟨-, htiming, hiteration⟩ := step_log (s := brittleRetry 4 timing) rfl t
  rw [hagain, hphase] at htiming hiteration
  refine ⟨hiteration, ?_⟩
  rw [htiming, labels_markPhases, Timing.iteration_startIteration,
    show (brittleRetry 4 timing).timing.iteration = 1 from hnumber]
  rfl

end Solver

end OperatorSplitting
