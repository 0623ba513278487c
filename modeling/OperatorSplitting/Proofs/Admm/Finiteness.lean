import Mathlib
import OperatorSplitting.Proofs.Admm.Lifecycle
import OperatorSplitting.Proofs.Admm.Orbit

/-!
# Finite iterates

Rounded numbers leave the finite range.  A step looks at the solution of the x-update before it goes
on, and fails if an element of it is not finite.  Hence the iterate of a run with a finite start stays
finite, whatever the operators, the penalties and the strategy do (`reachable_finite`).

Nothing looks at the split and the dual variables.  In double precision the l2,1 norm of a single large
element overflows, its proximal point is not a number, and the step succeeds all the same
(`exists_step_not_finite`).
-/

namespace OperatorSplitting

variable {K R W : Type} [RealArithmetic R] [RealArithmetic W] [Widening R W] [Scalar K R W]

/-- The results of an update belong to a finite solution of the x-update. -/
theorem Iterate.ensures_finish (f : Functional K R W) (terms : List (Term K R W)) (number : ℕ)
    (report : SubproblemReport K W) :
    Ensures (fun _ => True) (finish f terms number report) fun r => r.report.x.allFinite = true := by
  unfold finish
  split
  · next hfinite =>
    exact (Ensures.trivial _).bind fun _ _ => (Ensures.trivial _).bind fun _ _ =>
      (Ensures.trivial _).bind fun _ _ => .pure hfinite
  · exact .throw _

namespace Solver

variable {s s' : Solver K R W} {t t' : Trace K W}

theorem allFinite_of_finished {r : StepResult K R W} (h : s.finished t = (.ok r, t')) :
    r.report.x.allFinite = true := by
  unfold finished at h
  rcases hsolved : s.solved t with ⟨⟨result, strategy⟩, t₁⟩
  rw [hsolved] at h
  cases result with
  | error e => cases h
  | ok report => exact ((Iterate.ensures_finish _ _ _ report).of_run h True.intro).2

/-- A step either fails and leaves the variables, the iteration number and the history as they were, or
it succeeds with a finite iterate. -/
theorem finite_of_step {result : Except Error Unit} (h : s.step t = ((result, s'), t')) :
    (∃ e, result = .error e ∧ s'.x = s.x ∧ s'.terms = s.terms ∧ s'.iteration = s.iteration ∧
        s'.history = s.history) ∨
      result = .ok () ∧ s'.x.allFinite = true := by
  rcases step_finished_cases h with
    ⟨rfl, rfl⟩ | ⟨timing, ⟨e, -, rfl, rfl⟩ | ⟨r, hfinished, rfl, rfl⟩⟩
  · exact .inl ⟨_, rfl, rfl, rfl, rfl, rfl⟩
  · exact .inl ⟨e, rfl, rfl, rfl, rfl, rfl⟩
  · exact .inr ⟨rfl, allFinite_of_finished hfinished⟩

/-- A solution of the x-update that is not finite makes the step fail. -/
theorem step_of_not_finite (hstate : s.state.isTerminal = false) {report : SubproblemReport K W}
    (hsolved : (s.solved t).1.1 = .ok report) (hreport : report.x.allFinite = false) :
    ∃ s' t', s.step t =
      ((.error (.numerical (.nonFiniteIterate (s.iteration + 1))), s'), t') := by
  obtain ⟨timing, hstep⟩ := step_running hstate t
  have hfinished : (s.finished t).1 = .error (.numerical (.nonFiniteIterate (s.iteration + 1))) := by
    unfold finished
    rcases hrun : s.solved t with ⟨⟨result, strategy⟩, t₁⟩
    rw [hrun] at hsolved
    cases hsolved
    dsimp only
    rw [Iterate.finish, if_neg (by rw [hreport]; exact Bool.noConfusion)]
    rfl
  rw [hstep]
  rcases hrun : s.finished t with ⟨result, t₁⟩
  rw [hrun] at hfinished
  cases hfinished
  exact ⟨_, _, rfl⟩

theorem Reachable.allFinite {p : Problem K R W} {config : Config W} {strategy : Strategy K R W}
    (hstart : p.start.allFinite = true) (h : s.Reachable p config strategy) :
    s.x.allFinite = true := by
  refine h.invariant (P := fun s => s.x.allFinite = true) (fun hcreate => ?_) (fun hx hstep => ?_) id
  · obtain ⟨-, -, _, _, -, _, -, rfl⟩ := run_create_eq_ok_iff.mp hcreate
    exact hstart
  · rcases finite_of_step hstep with ⟨e, -, hsame, -⟩ | ⟨-, hfinite⟩
    · rw [hsame]
      exact hx
    · exact hfinite

/-- The iterate is always finite, if the start is.  A step that succeeds has a finite iterate; if the
x-update has a solution that is not finite the step says so, with the number of the iteration; and a
step that fails in any phase leaves the variables, the iteration number and the history as they were. -/
theorem reachable_finite {p : Problem K R W} {config : Config W} {strategy : Strategy K R W}
    (hstart : p.start.allFinite = true) (h : s.Reachable p config strategy) :
    s.x.allFinite = true ∧
    (∀ s' t t', s.step t = ((.ok (), s'), t') → s'.x.allFinite = true) ∧
    (s.state.isTerminal = false → ∀ t report, (s.solved t).1.1 = .ok report →
      report.x.allFinite = false → ∃ s' t', s.step t =
        ((.error (.numerical (.nonFiniteIterate (s.iteration + 1))), s'), t')) ∧
    (∀ e s' t t', s.step t = ((.error e, s'), t') → s'.x = s.x ∧ s'.terms = s.terms ∧
      s'.iteration = s.iteration ∧ s'.history = s.history) := by
  refine ⟨h.allFinite hstart, fun s' t t' hstep => (h.step hstep).allFinite hstart,
    fun hstate t report hsolved hreport => step_of_not_finite hstate hsolved hreport,
    fun e s' t t' hstep => ?_⟩
  rcases finite_of_step hstep with ⟨e', -, hsame⟩ | ⟨hok, -⟩
  · exact hsame
  · cases hok

/-! ### Overflow in the proximal step -/

/-- The square of the starting point is not finite in double precision. -/
def overflowingProblem : Problem Float Float Float where
  f := .zero
  penalties := [.l21 0]
  operators := [.leaf (.identity (.vector 1))]
  weights := [1.0]
  start := .ofArray #[1e200]

/-- The solver that the problem makes. -/
def overflowingSolver : Solver Float Float Float where
  f := .zero
  terms := [⟨.l21 0, .leaf (.identity (.vector 1)), 1.0, .ofArray #[1e200], .zeros (.vector 1)⟩]
  config := .default
  strategy := .ofSteps 20
  x := .ofArray #[1e200]
  iteration := 0
  state := .initialized
  history := .empty
  timing := Timing.empty.mark "setup"

/-- What has happened when the solver is made. -/
def overflowingTrace : Trace Float Float :=
  ((create overflowingProblem .default (.ofSteps 20)).run .empty).2

theorem run_create_overflowing : (create overflowingProblem .default (.ofSteps 20)).run .empty =
    (.ok overflowingSolver, overflowingTrace) := by
  have hfault : overflowingProblem.fault? = none := by decide +kernel
  have hconfig : (Config.default : Config Float).fault? = none := by decide +kernel
  unfold overflowingTrace create
  rw [hfault, hconfig]
  rfl

theorem allFinite_overflowing : overflowingProblem.start.allFinite = true := by decide +kernel

/-- Whether the split and the dual variable of each term are finite, after a step that succeeds. -/
def coupledFiniteness : Except Error Unit × Solver Float Float Float → Option (List (Bool × Bool))
  | (.ok (), s) => some (s.terms.map fun t => (t.z.allFinite, t.u.allFinite))
  | (.error _, _) => none

/-- The norm of the one group is infinite, and so is what remains of it when it is shrunk.  Their
quotient is not a number. -/
theorem step_overflowing : ∃ s t, overflowingSolver.step overflowingTrace = ((.ok (), s), t) ∧
    s.terms.map (fun t => (t.z.allFinite, t.u.allFinite)) = [(false, false)] := by
  have hstep : coupledFiniteness (overflowingSolver.step overflowingTrace).1 =
      some [(false, false)] := by decide +kernel
  rcases hrun : overflowingSolver.step overflowingTrace with ⟨⟨result, s⟩, t⟩
  rw [hrun] at hstep
  cases result with
  | error e => cases hstep
  | ok u => exact ⟨s, t, rfl, Option.some.inj hstep⟩

theorem finite_overflowing : ∃ s t, overflowingSolver.step overflowingTrace = ((.ok (), s), t) ∧
    s.x.allFinite = true := by
  obtain ⟨s, t, hstep, -⟩ := step_overflowing
  obtain ⟨-, hfinite, -⟩ := reachable_finite allFinite_overflowing (.create run_create_overflowing)
  exact ⟨s, t, hstep, hfinite s _ t hstep⟩

/-- A step from a finite start that succeeds, although neither the new split variable nor the new dual
variable is finite. -/
theorem exists_step_not_finite : overflowingProblem.start.allFinite = true ∧
    ∃ s t, (create overflowingProblem .default (.ofSteps 20)).run .empty = (.ok s, t) ∧
      ∃ s' t', s.step t = ((.ok (), s'), t') ∧
        s'.terms.map (fun t => (t.z.allFinite, t.u.allFinite)) = [(false, false)] :=
  ⟨allFinite_overflowing, _, _, run_create_overflowing, step_overflowing⟩

end Solver

end OperatorSplitting
