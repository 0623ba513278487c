import OperatorSplitting.Admm.Solver
import OperatorSplitting.Proofs.Functional.Evaluation

/-!
# Solvers do not depend on what happened before

The x-update, the linear solver and all phases of a step are made of evaluations of operators and
functionals, and are steady if these are.  A strategy may remember more than the trace shows; of a
strategy given from outside it has to be known that it leaves a faithful trace behind.  Every solve of
an x-update then ends in a faithful trace, whatever strategy is used.
-/

namespace OperatorSplitting

open Eval

variable {K R W : Type} [Scalar K R W] {names : Naming K}

/-! ### The x-update -/

/-- All closures of the x-update are the ones that their numbers stand for. -/
structure XUpdate.Named (names : Naming K) (p : XUpdate K R W) : Prop where
  f : p.f.Named names
  couplings : ∀ c ∈ p.couplings, c.operator.Named names

theorem Coupling.steady_mismatch {c : Coupling K R} (h : c.operator.Named names) (x : Signal K) :
    Steady names (c.mismatch x : Eval K W _) :=
  (LinearOperator.steady_apply h x).bind fun _ _ => (Steady.liftExcept _).bind fun _ _ =>
    .liftExcept _

namespace XUpdate

variable [RealArithmetic R]

theorem steady_addPenalties {cs : List (Coupling K R)} (h : ∀ c ∈ cs, c.operator.Named names)
    (x : Signal K) (total : R) : Steady names (addPenalties x cs total : Eval K W _) := by
  induction cs generalizing total with
  | nil => exact .pure _
  | cons c cs ih =>
    obtain ⟨hc, hcs⟩ := List.forall_mem_cons.mp h
    exact (Coupling.steady_mismatch hc x).bind fun r _ => ih hcs _

theorem steady_objective [RealArithmetic W] [Widening R W] {p : XUpdate K R W} (h : p.Named names)
    (x : Signal K) :
    Steady names (p.objective x) :=
  (Functional.steady_value h.f x).bind fun _ _ => steady_addPenalties h.couplings x _

omit [RealArithmetic R] in
theorem steady_addGradients {cs : List (Coupling K R)} (h : ∀ c ∈ cs, c.operator.Named names)
    (x g : Signal K) : Steady names (addGradients x cs g : Eval K W _) := by
  induction cs generalizing g with
  | nil => exact .pure _
  | cons c cs ih =>
    obtain ⟨hc, hcs⟩ := List.forall_mem_cons.mp h
    exact (Coupling.steady_mismatch hc x).bind fun r _ =>
      (LinearOperator.steady_adjoint hc r).bind fun _ _ => (Steady.liftExcept _).bind fun g' _ =>
        ih hcs g'

theorem steady_gradient {p : XUpdate K R W} (h : p.Named names) (x : Signal K) :
    Steady names (p.gradient x) :=
  (Functional.steady_grad h.f x).bind fun g _ => steady_addGradients h.couplings x g

/-- The gradient of the x-update is that of the smooth functional, to which the couplings add. -/
theorem outcome_gradient_eq_ok_iff {p : XUpdate K R W} (h : p.Named names) {x e : Signal K} :
    (p.gradient x).outcome = .ok e ↔ ∃ g, (p.f.grad x : Eval K W _).outcome = .ok g ∧
      (addGradients x p.couplings g : Eval K W _).outcome = .ok e := by
  rw [gradient, (Functional.steady_grad h.f x).outcome_bind_eq_ok_iff
    fun g _ => steady_addGradients h.couplings x g]

end XUpdate

/-! ### Strategies -/

namespace Descent

variable [RealArithmetic R] [RealArithmetic W] [Widening R W]

theorem steady_search {p : XUpdate K R W} (h : p.Named names) (x g : Signal K) (phi gradientSqr : R)
    (tries : Nat) (t : R) : Steady names (search p x g phi gradientSqr tries t) := by
  induction tries generalizing t with
  | zero => exact .pure _
  | succ tries ih =>
    refine (Steady.liftExcept _).bind fun candidate _ =>
      (XUpdate.steady_objective h candidate).bind fun value _ => ?_
    split
    · exact .pure _
    · exact ih _

theorem steady_step {p : XUpdate K R W} (h : p.Named names) (x : Signal K) (stepSize : R) :
    Steady names (step p x stepSize) := by
  refine (XUpdate.steady_gradient h x).bind fun g _ => Steady.ite (.pure _) ?_
  refine (XUpdate.steady_objective h x).bind fun phi _ =>
    (steady_search h x g phi _ _ stepSize).bind fun found _ => ?_
  exact Steady.ite ((Steady.report _).bind fun _ _ => .pure _) (.pure _)

omit [RealArithmetic W] [Widening R W] in
/-- A solve by gradient steps is its first step, and the other steps from where that one leads. -/
theorem run_succ (p : XUpdate K R W) (steps : Nat) (x : Signal K) (stepSize : R) (t : Trace K W) :
    run p (steps + 1) x stepSize t =
      match (step p x stepSize).run t with
      | (.error e, t) => ((.error e, stepSize), t)
      | (.ok none, t) => ((.ok x, stepSize), t)
      | (.ok (some (next, size)), t) => run p steps next (size + size) t := by
  rw [run]
  simp only [bind, StateT.bind]
  rcases (step p x stepSize).run t with ⟨e | (_ | ⟨next, size⟩), t'⟩ <;> rfl

theorem run_keeps {p : XUpdate K R W} (h : p.Named names) (steps : Nat) (x : Signal K)
    (stepSize : R) {t : Trace K W} (ht : t.Faithful names) :
    (run p steps x stepSize t).2.Faithful names := by
  induction steps generalizing x stepSize t with
  | zero => exact ht
  | succ steps ih =>
    have hkeep := ((steady_step h x stepSize) t ht).2
    rw [run_succ]
    rcases hrun : (step p x stepSize).run t with ⟨r, t'⟩
    rw [hrun] at hkeep
    rcases r with e | (_ | ⟨next, size⟩)
    · exact hkeep
    · exact hkeep
    · exact ih next (size + size) hkeep

end Descent

theorem CgState.steady_start [RealArithmetic R] {a : LinearOperator K} (h : a.Named names)
    (b x : Signal K) : Steady names (start a b x : Eval K W (CgState K R)) :=
  (LinearOperator.steady_apply h x).bind fun _ _ => (Steady.liftExcept _).bind fun _ _ => .pure _

theorem CgState.steady_step [RealArithmetic R] {a : LinearOperator K} (h : a.Named names)
    (s : CgState K R) :
    Steady names (s.step a : Eval K W _) := by
  refine (LinearOperator.steady_apply h _).bind fun image _ => ?_
  refine (Steady.liftExcept _).bind fun d _ => Steady.ite (.throw _) ?_
  exact (Steady.liftExcept _).bind fun _ _ => (Steady.liftExcept _).bind fun _ _ =>
    (Steady.liftExcept _).bind fun _ _ => .pure _

variable [RealArithmetic R] [RealArithmetic W] [Widening R W]

theorem CgState.steady_iterate {a : LinearOperator K} (h : a.Named names) (threshold : W) (n : Nat)
    (s : CgState K R) : Steady names (s.iterate a threshold n : Eval K W _) := by
  induction n generalizing s with
  | zero => exact .pure _
  | succ n ih =>
    unfold iterate
    split
    · exact (steady_step h s).bind fun s' _ => ih s'
    · exact .pure _

theorem steady_conjugateGradient {a : LinearOperator K} (h : a.Named names) (b x : Signal K)
    (options : CgOptions W) : Steady names (conjugateGradient a b x options : Eval K W _) := by
  unfold conjugateGradient
  refine Steady.ite (.throw _) (Steady.ite (.throw _) ?_)
  refine (CgState.steady_start h b x).bind fun s _ => ?_
  exact (CgState.steady_iterate h _ _ s).bind fun _ _ => .pure _

namespace NormalEquations

omit [RealArithmetic R] [RealArithmetic W] [Widening R W] in
theorem named_addGrams {operators : List (LinearOperator K × R)} {lhs lhs' : LinearOperator K}
    (h : ∀ p ∈ operators, p.1.Named names) (hlhs : lhs.Named names)
    (heq : addGrams operators lhs = .ok lhs') : lhs'.Named names := by
  induction operators generalizing lhs with
  | nil =>
    cases heq
    exact hlhs
  | cons p operators ih =>
    obtain ⟨hp, hrest⟩ := List.forall_mem_cons.mp h
    unfold addGrams at heq
    cases hsum : lhs.add (.multiple (Scalar.ofReal p.2) p.1.gramOperator) with
    | error e => simp [hsum, bind, Except.bind] at heq
    | ok sum =>
      simp only [hsum, bind, Except.bind] at heq
      obtain ⟨-, -, rfl⟩ := LinearOperator.add_eq_ok_iff.mp hsum
      refine ih hrest ?_ heq
      exact ⟨hlhs, hp, hp⟩

omit [RealArithmetic R] [RealArithmetic W] [Widening R W] in
theorem steady_addCouplings {cs : List (Coupling K R)} (h : ∀ c ∈ cs, c.operator.Named names)
    (rhs : Signal K) : Steady names (addCouplings cs rhs : Eval K W _) := by
  induction cs generalizing rhs with
  | nil => exact .pure _
  | cons c cs ih =>
    obtain ⟨hc, hcs⟩ := List.forall_mem_cons.mp h
    exact (Steady.liftExcept _).bind fun target _ =>
      (LinearOperator.steady_adjoint hc target).bind fun _ _ =>
        (Steady.liftExcept _).bind fun rhs' _ => ih hcs rhs'

theorem steady_solve {n : NormalEquations K} (h : n.lhs.Named names) (options : CgOptions W)
    {cs : List (Coupling K R)} (hcs : ∀ c ∈ cs, c.operator.Named names) (x : Signal K) :
    Steady names (n.solve options cs x) := by
  refine (steady_addCouplings hcs _).bind fun rhs _ =>
    (steady_conjugateGradient h rhs x options).bind fun solved _ => ?_
  obtain ⟨solution, info⟩ := solved
  exact Steady.ite ((Steady.report _).bind fun _ _ => .pure _) (.pure _)

variable {l : SquaredLoss K R} {operators : List (LinearOperator K × R)}

omit [RealArithmetic W] [Widening R W] in
/-- The equations use the closures of the loss and of the operators. -/
theorem ensures_ofLoss (hl : l.operator.Named names) (h : ∀ p ∈ operators, p.1.Named names) :
    Ensures (Trace.Faithful names) (ofLoss l operators : Eval K W _) fun n => n.lhs.Named names := by
  refine (Ensures.liftExcept _).bind fun lhs hlhs => ?_
  refine (LinearOperator.steady_adjoint hl _).ensures.bind fun _ _ => ?_
  refine (Steady.report _).ensures.bind fun _ _ => .pure ?_
  refine named_addGrams h ?_ hlhs
  exact ⟨hl, hl⟩

end NormalEquations

/-- The computations of a strategy given from outside leave faithful traces behind. -/
structure ExternalStrategy.Keeps (names : Naming K) (e : ExternalStrategy K R W) : Prop where
  setup : ∀ f operators, Ensures (Trace.Faithful names) (e.setup f operators) fun _ => True
  solve : ∀ solves p x, Ensures (Trace.Faithful names) (e.solve solves p x) fun _ => True

namespace Strategy

/-- A strategy given from outside leaves faithful traces behind. -/
def Keeps (names : Naming K) : Strategy K R W → Prop
  | .external e _ => e.Keeps names
  | _ => True

/-- The same, and the equations that have been set up use no other closures than those that their
numbers stand for. -/
def Ready (names : Naming K) : Strategy K R W → Prop
  | .external e _ => e.Keeps names
  | .leastSquares _ (some equations) => equations.lhs.Named names
  | _ => True

omit [RealArithmetic W] [Widening R W] in
/-- Preparing a strategy. -/
theorem ensures_setup {s : Strategy K R W} (hs : s.Keeps names) {f : Functional K R W}
    (hf : f.Named names) {operators : List (LinearOperator K × R)}
    (h : ∀ p ∈ operators, p.1.Named names) :
    Ensures (Trace.Faithful names) (s.setup f operators) (Ready names) := by
  cases s with
  | descent steps stepSize =>
    exact Ensures.ite (.throw _) ((Steady.report _).ensures.bind fun _ _ => .pure trivial)
  | leastSquares options equations =>
    unfold setup
    dsimp only
    split
    · exact .throw _
    · next l hl =>
      have hoperator := Functional.named_asSquaredLoss? hf hl
      exact (NormalEquations.ensures_ofLoss hoperator h).bind fun n hn => .pure hn
  | external e solves => exact (hs.setup f operators).bind fun _ _ => .pure hs

/-- Solving an x-update. -/
theorem solve_ready {s : Strategy K R W} (hs : s.Ready names) {p : XUpdate K R W}
    (hp : p.Named names) (x : Signal K) {t : Trace K W} (ht : t.Faithful names) :
    (s.solve p x t).2.Faithful names ∧ (s.solve p x t).1.2.Ready names := by
  cases s with
  | descent steps stepSize => exact ⟨Descent.run_keeps hp steps x stepSize ht, trivial⟩
  | leastSquares options equations =>
    cases equations with
    | none => exact ⟨ht, trivial⟩
    | some equations =>
      exact ⟨((NormalEquations.steady_solve hs options hp.couplings x) t ht).2, hs⟩
  | external e solves => exact ⟨(hs.solve solves p x t ht).1, hs⟩

end Strategy

end OperatorSplitting
