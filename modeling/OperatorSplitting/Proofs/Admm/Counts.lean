import Mathlib
import OperatorSplitting.Proofs.Admm.IterationCap
import OperatorSplitting.Proofs.Admm.Orbit

/-!
# Counts of a run

A row of statistics counts two things: the iterations of the run, and those of the linear solve
inside the x-update.  Both are bounded by settings.  A run is within its cap, or makes one iteration
beyond a cap of zero; a linear solve is within the cap of its own settings.  So all counts in the
history of a reachable solver fit into 64 bits as the settings do (`Solver.Reachable.countsFit`).  A
strategy from outside has to report such counts by itself.
-/

namespace OperatorSplitting

variable {K R W : Type}

/-- The counts of a row fit into 64 bits. -/
structure IterationStats.CountsFit (row : IterationStats W) : Prop where
  iteration : row.iteration < Nat.pow 2 64
  inner : ∀ n ∈ row.innerIterations, n < Nat.pow 2 64

/-- The count that a linear solve reports fits into 64 bits. -/
def SubproblemReport.CountFits (report : SubproblemReport K W) : Prop :=
  ∀ info ∈ report.linearSolve, info.iterations < Nat.pow 2 64

variable [RealArithmetic R] [RealArithmetic W] [Widening R W] [Scalar K R W]

/-! ### Linear solves -/

namespace CgState

omit [RealArithmetic W] [Widening R W] in
theorem ensures_step_iteration (a : LinearOperator K) (s : CgState K R) :
    Ensures (fun _ => True) (s.step a : Eval K W _) fun s' => s'.iteration = s.iteration + 1 := by
  refine (Ensures.trivial _).bind fun image _ => (Ensures.trivial _).bind fun d _ =>
    Ensures.ite (.throw _) ?_
  refine (Ensures.trivial _).bind fun x _ => (Ensures.trivial _).bind fun residual _ => ?_
  exact (Ensures.trivial _).bind fun direction _ => .pure rfl

theorem ensures_iterate_iteration (a : LinearOperator K) (threshold : W) (n : ℕ)
    (s : CgState K R) :
    Ensures (fun _ => True) (s.iterate a threshold n : Eval K W _) fun s' =>
      s'.iteration ≤ s.iteration + n := by
  induction n generalizing s with
  | zero => exact .pure le_rfl
  | succ n ih =>
    unfold iterate
    refine Ensures.ite ((ensures_step_iteration a s).bind fun s₁ hs₁ => ?_)
      (.pure (Nat.le_add_right _ _))
    exact (ih s₁).mono fun s' hs' => by omega

end CgState

/-- A linear solve is within its cap. -/
theorem ensures_conjugateGradient_iterations (a : LinearOperator K) (b x : Signal K)
    (options : CgOptions W) :
    Ensures (fun _ => True) (conjugateGradient a b x options : Eval K W _) fun r =>
      r.2.iterations ≤ options.maxIter := by
  have hstart : Ensures (fun _ => True) (CgState.start a b x : Eval K W (CgState K R)) fun s =>
      s.iteration = 0 :=
    (Ensures.trivial _).bind fun _ _ => (Ensures.trivial _).bind fun _ _ => .pure rfl
  unfold conjugateGradient
  refine Ensures.ite (.throw _) (Ensures.ite (.throw _) (hstart.bind fun s hs => ?_))
  refine (CgState.ensures_iterate_iteration a _ _ s).bind fun s' hs' => .pure ?_
  rw [hs, Nat.zero_add] at hs'
  exact hs'

/-! ### Strategies -/

namespace Strategy

/-- The counts that the strategy will report fit into 64 bits. -/
def CountsFit : Strategy K R W → Prop
  | .descent _ _ => True
  | .leastSquares options _ => options.maxIter < Nat.pow 2 64
  | .external e _ => ∀ solves p x t report, ((e.solve solves p x).run t).1 = .ok report →
    report.CountFits

variable {s : Strategy K R W}

theorem CountsFit.solve (hs : s.CountsFit) (p : XUpdate K R W) (x : Signal K) (t : Trace K W) :
    (s.solve p x t).1.2.CountsFit ∧
      ∀ report, (s.solve p x t).1.1 = .ok report → report.CountFits := by
  cases s with
  | descent steps stepSize =>
    refine ⟨trivial, fun report h => ?_⟩
    obtain ⟨x', -, rfl⟩ := Except.map_eq_ok_iff.mp
      (show (Descent.run p steps x stepSize t).1.1.map _ = .ok report from h)
    exact fun info hinfo => nomatch hinfo
  | leastSquares options equations =>
    have hbound : options.maxIter < Nat.pow 2 64 := hs
    cases equations with
    | none => exact ⟨hs, fun report h => nomatch h⟩
    | some equations =>
      have hsolve : Ensures (fun _ => True) (equations.solve options p.couplings x)
          SubproblemReport.CountFits := by
        refine (Ensures.trivial _).bind fun rhs _ =>
          (ensures_conjugateGradient_iterations _ rhs x options).bind fun solved hsolved => ?_
        have hcount : SubproblemReport.CountFits ⟨solved.1, some solved.2⟩ := by
          rintro info ⟨rfl⟩
          exact hsolved.trans_lt hbound
        exact Ensures.ite ((Ensures.trivial _).bind fun _ _ => .pure hcount) (.pure hcount)
      exact ⟨hs, (hsolve t trivial).2⟩
  | external e solves => exact ⟨hs, fun report h => hs solves p x t report h⟩

omit [RealArithmetic W] [Widening R W] in
theorem CountsFit.ensures_setup (hs : s.CountsFit) (f : Functional K R W)
    (operators : List (LinearOperator K × R)) :
    Ensures (fun _ => True) (s.setup f operators) CountsFit := by
  cases s with
  | descent steps stepSize =>
    exact Ensures.ite (.throw _) ((Ensures.trivial _).bind fun _ _ => .pure trivial)
  | leastSquares options equations =>
    unfold setup
    dsimp only
    split
    · exact .throw _
    · exact (Ensures.trivial _).bind fun _ _ => .pure hs
  | external e solves => exact (Ensures.trivial _).bind fun _ _ => .pure hs

end Strategy

/-! ### Runs -/

/-- The results of an update carry the report of the x-update. -/
theorem Iterate.ensures_finish_report (f : Functional K R W) (terms : List (Term K R W))
    (number : ℕ) (report : SubproblemReport K W) :
    Ensures (fun _ => True) (finish f terms number report) fun r => r.report = report := by
  unfold finish
  split
  · exact (Ensures.trivial _).bind fun _ _ => (Ensures.trivial _).bind fun _ _ =>
      (Ensures.trivial _).bind fun _ _ => .pure rfl
  · exact .throw _

namespace Solver

/-- The counts that the strategy will report fit into 64 bits, and those of earlier linear solves in
the history do. -/
structure CountsFit (s : Solver K R W) : Prop where
  strategy : s.strategy.CountsFit
  rows : ∀ row ∈ s.history.newest, ∀ n ∈ row.innerIterations, n < Nat.pow 2 64

variable {s s' : Solver K R W} {t t' : Trace K W}

theorem CountsFit.finished (hs : s.CountsFit) {r : StepResult K R W}
    (h : s.finished t = (.ok r, t')) : r.report.CountFits := by
  have hsolve := (hs.strategy.solve s.xUpdate s.x t).2
  unfold Solver.finished solved at h
  rcases hsolved : s.strategy.solve s.xUpdate s.x t with ⟨⟨result, strategy⟩, t₁⟩
  rw [hsolved] at h hsolve
  cases result with
  | error e => cases h
  | ok report =>
    rw [((Iterate.ensures_finish_report _ _ _ report).of_run h True.intro).2]
    exact hsolve report rfl

theorem CountsFit.step (hs : s.CountsFit) {result : Except Error Unit}
    (h : s.step t = ((result, s'), t')) : s'.CountsFit := by
  have hstrategy : (s.solved t).1.2.CountsFit := (hs.strategy.solve s.xUpdate s.x t).1
  rcases step_finished_cases h with ⟨-, rfl⟩ | ⟨timing, ⟨e, -, -, rfl⟩ | ⟨r, hfinished, -, rfl⟩⟩
  · exact hs
  · exact ⟨hstrategy, hs.rows⟩
  · refine ⟨hstrategy, fun row hrow n hn => ?_⟩
    rcases mem_history_commit hrow with hold | rfl
    · exact hs.rows row hold n hn
    · obtain ⟨info, hinfo, rfl⟩ := Option.mem_map.mp hn
      exact hs.finished hfinished info hinfo

variable {p : Problem K R W} {config : Config W} {strategy : Strategy K R W}

/-- All counts in the history of a reachable solver fit into 64 bits, if those of the settings
do. -/
theorem Reachable.countsFit (hconfig : config.maxIter < Nat.pow 2 64)
    (hstrategy : strategy.CountsFit) (h : s.Reachable p config strategy) :
    ∀ row ∈ s.history.records, row.CountsFit := by
  have hfit : s.CountsFit := by
    refine h.invariant (P := CountsFit) (fun hcreate => ?_) (fun hs hstep => hs.step hstep)
      fun hs => ⟨hs.strategy, hs.rows⟩
    obtain ⟨-, -, strategy', t₁, hsetup, -, -, rfl⟩ := run_create_eq_ok_iff.mp hcreate
    exact ⟨((hstrategy.ensures_setup _ _).of_run hsetup trivial).2, List.forall_mem_nil _⟩
  have hcapped := h.capped
  intro row hrow
  have hrow := List.mem_reverse.mp hrow
  refine ⟨?_, hfit.rows row hrow⟩
  have hle := (hcapped.history row hrow).trans hcapped.iteration_le
  exact hle.trans_lt (max_lt hconfig (by decide))

end Solver

end OperatorSplitting
