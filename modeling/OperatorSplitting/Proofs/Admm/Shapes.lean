import Mathlib
import OperatorSplitting.Proofs.Admm.Phases

/-!
# Shapes in a run

The shapes of a problem fit if the smooth functional takes the shape of the starting point and every
penalty takes the output shape of its operator (`Problem.Fits`).  Such a problem is refused only with
a configuration error, and no step and no solve meets shapes that do not fit, wherever the run stands
(`no_shape_mismatch`).

Only the shapes of the operators are looked at when a solver is made.  A loss that does not take the
shape of the starting point is found out by gradient descent in the first step, not before
(`Reachable.step_of_mismatched`), and the normal equations are refused with a shape error instead of a
configuration error (`run_create_of_mismatched`).
-/

namespace OperatorSplitting

open Eval

variable {K R W : Type} [Scalar K R W] [RealArithmetic R] {fails : Error → Prop} {shape : Shape}

/-! ### The x-update -/

/-- The operator of the coupling has no closures and takes signals of a shape, and the variables have
its output shape. -/
structure Coupling.FitsOn (shape : Shape) (c : Coupling K R) : Prop where
  operator : c.operator.IsPlain
  input : c.operator.input = shape
  z_shape : c.z.shape = c.operator.output
  u_shape : c.u.shape = c.operator.output

omit [RealArithmetic R] in
theorem Coupling.FitsOn.endsIn_mismatch {c : Coupling K R} (h : c.FitsOn shape) {x : Signal K}
    (hx : x.shape = shape) :
    EndsIn fails (c.mismatch x : Eval K W _) fun r => r.shape = c.operator.output := by
  refine (h.operator.endsIn_apply (hx.trans h.input.symm)).bind fun image himage => ?_
  refine (EndsIn.zipMap _ _ (himage.trans h.z_shape.symm)).bind fun r hr => ?_
  have hrshape := hr.trans himage
  exact (EndsIn.zipMap _ _ (hrshape.trans h.u_shape.symm)).mono fun d hd => hd.trans hrshape

namespace XUpdate

variable {cs : List (Coupling K R)} {x : Signal K}

theorem endsIn_addPenalties (hcs : ∀ c ∈ cs, c.FitsOn shape) (hx : x.shape = shape) (total : R) :
    EndsIn fails (addPenalties x cs total : Eval K W _) fun _ => True := by
  induction cs generalizing total with
  | nil => exact .pure trivial
  | cons c cs ih =>
    obtain ⟨hc, hcs⟩ := List.forall_mem_cons.mp hcs
    exact (hc.endsIn_mismatch hx).bind fun r _ => ih hcs _

omit [RealArithmetic R] in
theorem endsIn_addGradients (hcs : ∀ c ∈ cs, c.FitsOn shape) (hx : x.shape = shape) {g : Signal K}
    (hg : g.shape = shape) :
    EndsIn fails (addGradients x cs g : Eval K W _) fun g' => g'.shape = shape := by
  induction cs generalizing g with
  | nil => exact .pure hg
  | cons c cs ih =>
    obtain ⟨hc, hcs⟩ := List.forall_mem_cons.mp hcs
    refine (hc.endsIn_mismatch hx).bind fun r hr => (hc.operator.endsIn_adjoint hr).bind
      fun back hback => ?_
    have hsame : g.shape = back.shape := hg.trans (hback.trans hc.input).symm
    exact (EndsIn.zipMap _ _ hsame).bind fun g' hg' => ih hcs (hg'.trans hg)

/-- The smooth functional takes signals of a shape, and so do the couplings. -/
structure FitsOn (shape : Shape) (p : XUpdate K R W) : Prop where
  f : p.f.Takes shape
  couplings : ∀ c ∈ p.couplings, c.FitsOn shape

variable {p : XUpdate K R W}

theorem FitsOn.endsIn_objective (h : p.FitsOn shape) (hx : x.shape = shape) :
    EndsIn (fun e => ¬e.IsShapeMismatch) (p.objective x) fun _ => True := by
  have hf : p.f.Takes x.shape := hx ▸ h.f
  exact hf.endsIn_value.bind fun value _ => endsIn_addPenalties h.couplings hx value

theorem FitsOn.endsIn_gradient (h : p.FitsOn shape) (hx : x.shape = shape) :
    EndsIn (fun e => ¬e.IsShapeMismatch) (p.gradient x) fun g => g.shape = shape := by
  have hf : p.f.Takes x.shape := hx ▸ h.f
  exact hf.endsIn_grad.bind fun g hg => endsIn_addGradients h.couplings hx (hg.trans hx)

end XUpdate

namespace Descent

variable {p : XUpdate K R W} {x g : Signal K}

theorem endsIn_search (h : p.FitsOn shape) (hx : x.shape = shape) (hg : g.shape = shape)
    (phi gradientSqr : R) (tries : ℕ) (t : R) :
    EndsIn (fun e => ¬e.IsShapeMismatch) (search p x g phi gradientSqr tries t) fun found =>
      ∀ q ∈ found, q.1.shape = shape := by
  induction tries generalizing t with
  | zero => exact .pure (by simp)
  | succ tries ih =>
    refine (EndsIn.zipMap _ _ (hx.trans hg.symm)).bind fun candidate hcandidate => ?_
    have hshape := hcandidate.trans hx
    refine (h.endsIn_objective hshape).bind fun value _ => EndsIn.ite (.pure ?_) (ih _)
    intro q hq
    cases Option.mem_some_iff.mp hq
    exact hshape

theorem endsIn_step (h : p.FitsOn shape) (hx : x.shape = shape) (stepSize : R) :
    EndsIn (fun e => ¬e.IsShapeMismatch) (step p x stepSize) fun found =>
      ∀ q ∈ found, q.1.shape = shape := by
  refine (h.endsIn_gradient hx).bind fun g hg => EndsIn.ite (.pure (by simp)) ?_
  refine (h.endsIn_objective hx).bind fun phi _ =>
    (endsIn_search h hx hg phi _ _ stepSize).bind fun found hfound => ?_
  exact EndsIn.ite ((EndsIn.report _).bind fun _ _ => .pure hfound) (.pure hfound)

theorem endsIn_run (h : p.FitsOn shape) (hx : x.shape = shape) (steps : ℕ) (stepSize : R)
    (t : Trace K W) :
    Except.EndsIn (fun e => ¬e.IsShapeMismatch) (fun x' => x'.shape = shape)
      (run p steps x stepSize t).1.1 := by
  induction steps generalizing x stepSize t with
  | zero => exact hx
  | succ steps ih =>
    have hstep := endsIn_step h hx stepSize t
    rw [run_succ]
    rcases hrun : (step p x stepSize).run t with ⟨r, t'⟩
    rw [hrun] at hstep
    rcases r with e | (_ | ⟨next, size⟩)
    · exact hstep
    · exact hx
    · exact ih (hstep (next, size) rfl) (size + size) t'

end Descent

variable [RealArithmetic W] [Widening R W]

/-! ### Linear solves -/

/-- An operator without closures that keeps a shape. -/
structure LinearOperator.KeepsShape (shape : Shape) (a : LinearOperator K) : Prop where
  plain : a.IsPlain
  input : a.input = shape
  output : a.output = shape

omit [RealArithmetic R] [RealArithmetic W] [Widening R W] [Scalar K R W] in
theorem LinearOperator.IsPlain.keepsShape_gram {a : LinearOperator K} (h : a.IsPlain)
    (hinput : a.input = shape) (s : K) : (multiple s a.gramOperator).KeepsShape shape :=
  ⟨⟨h.gramOperator.wellShaped, h.gramOperator.closureFree, h.gramOperator.roomy⟩, hinput, hinput⟩

/-- All signals of a linear solve have a shape. -/
structure CgState.FitsOn (shape : Shape) (s : CgState K R) : Prop where
  x_shape : s.x.shape = shape
  residual_shape : s.residual.shape = shape
  direction_shape : s.direction.shape = shape

namespace CgState

variable {a : LinearOperator K} {s : CgState K R}

omit [RealArithmetic W] [Widening R W] in
theorem endsIn_step (ha : a.KeepsShape shape) (hs : s.FitsOn shape) :
    EndsIn (fun e => ¬e.IsShapeMismatch) (s.step a : Eval K W _) (FitsOn shape) := by
  refine (ha.plain.endsIn_apply (hs.direction_shape.trans ha.input.symm)).bind fun image himage => ?_
  have hshape := himage.trans ha.output
  have hdot : Except.EndsIn (fun e => ¬e.IsShapeMismatch) (fun _ : K => True)
      (s.direction.vdot image) := by
    rw [Signal.vdot, if_pos (hs.direction_shape.trans hshape.symm)]
    trivial
  refine (EndsIn.liftExcept hdot).bind fun d _ => EndsIn.ite (.throw id) ?_
  refine (EndsIn.zipMap _ _ (hs.x_shape.trans hs.direction_shape.symm)).bind fun x hx => ?_
  refine (EndsIn.zipMap _ _ (hs.residual_shape.trans hshape.symm)).bind fun r hr => ?_
  have hrshape := hr.trans hs.residual_shape
  refine (EndsIn.zipMap _ _ (hrshape.trans
    ((Signal.shape_map _ _).trans hs.direction_shape).symm)).bind fun p hp => .pure ?_
  exact ⟨hx.trans hs.x_shape, hrshape, hp.trans hrshape⟩

theorem endsIn_iterate (ha : a.KeepsShape shape) (threshold : W) (n : ℕ) (hs : s.FitsOn shape) :
    EndsIn (fun e => ¬e.IsShapeMismatch) (s.iterate a threshold n : Eval K W _)
      (FitsOn shape) := by
  induction n generalizing s with
  | zero => exact .pure hs
  | succ n ih =>
    unfold iterate
    exact EndsIn.ite ((endsIn_step ha hs).bind fun s' hs' => ih hs') (.pure hs)

end CgState

theorem endsIn_conjugateGradient {a : LinearOperator K} (ha : a.KeepsShape shape) {b x : Signal K}
    (hb : b.shape = shape) (hx : x.shape = shape) (options : CgOptions W) :
    EndsIn (fun e => ¬e.IsShapeMismatch) (conjugateGradient a b x options : Eval K W _) fun r =>
      r.1.shape = shape := by
  have hstart : EndsIn (fun e => ¬e.IsShapeMismatch) (CgState.start a b x : Eval K W (CgState K R))
      (CgState.FitsOn shape) := by
    refine (ha.plain.endsIn_apply (hx.trans ha.input.symm)).bind fun image himage => ?_
    refine (EndsIn.zipMap _ _ (hb.trans (himage.trans ha.output).symm)).bind fun r hr => ?_
    exact .pure ⟨hx, hr.trans hb, hr.trans hb⟩
  unfold conjugateGradient
  rw [if_neg (not_ne_iff.mpr (ha.input.trans ha.output.symm)),
    if_neg (not_ne_iff.mpr (hb.trans ha.output.symm))]
  refine hstart.bind fun s hs => (CgState.endsIn_iterate ha _ _ hs).bind fun s' hs' => ?_
  exact .pure hs'.x_shape

namespace NormalEquations

/-- The operator of the equations keeps a shape, and the right-hand side has it. -/
structure FitsOn (shape : Shape) (n : NormalEquations K) : Prop where
  lhs : n.lhs.KeepsShape shape
  rhs_shape : n.rhsBase.shape = shape

variable {cs : List (Coupling K R)} {operators : List (LinearOperator K × R)}

omit [RealArithmetic R] [RealArithmetic W] [Widening R W] in
theorem endsIn_addCouplings (hcs : ∀ c ∈ cs, c.FitsOn shape) {rhs : Signal K}
    (hrhs : rhs.shape = shape) :
    EndsIn fails (addCouplings cs rhs : Eval K W _) fun rhs' => rhs'.shape = shape := by
  induction cs generalizing rhs with
  | nil => exact .pure hrhs
  | cons c cs ih =>
    obtain ⟨hc, hcs⟩ := List.forall_mem_cons.mp hcs
    refine (EndsIn.zipMap _ _ (hc.z_shape.trans hc.u_shape.symm)).bind fun target ht => ?_
    refine (hc.operator.endsIn_adjoint (ht.trans hc.z_shape)).bind fun back hback => ?_
    have hsame : rhs.shape = back.shape := hrhs.trans (hback.trans hc.input).symm
    exact (EndsIn.zipMap _ _ hsame).bind fun rhs' hrhs' => ih hcs (hrhs'.trans hrhs)

theorem FitsOn.endsIn_solve {n : NormalEquations K} (hn : n.FitsOn shape) (options : CgOptions W)
    (hcs : ∀ c ∈ cs, c.FitsOn shape) {x : Signal K} (hx : x.shape = shape) :
    EndsIn (fun e => ¬e.IsShapeMismatch) (n.solve options cs x) fun report =>
      report.x.shape = shape := by
  refine (endsIn_addCouplings hcs hn.rhs_shape).bind fun rhs hrhs =>
    (endsIn_conjugateGradient hn.lhs hrhs hx options).bind fun ⟨solution, info⟩ hsolved => ?_
  exact EndsIn.ite ((EndsIn.report _).bind fun _ _ => .pure hsolved) (.pure hsolved)

omit [RealArithmetic R] [RealArithmetic W] [Widening R W] in
theorem exists_addGrams_keepsShape {lhs : LinearOperator K} (hlhs : lhs.KeepsShape shape)
    (h : ∀ p ∈ operators, p.1.IsPlain ∧ p.1.input = shape) :
    ∃ lhs', addGrams operators lhs = .ok lhs' ∧ lhs'.KeepsShape shape := by
  induction operators generalizing lhs with
  | nil => exact ⟨lhs, rfl, hlhs⟩
  | cons p operators ih =>
    obtain ⟨⟨hp, hinput⟩, hrest⟩ := List.forall_mem_cons.mp h
    have hgram := hp.keepsShape_gram hinput (Scalar.ofReal p.2)
    have hin := hlhs.input.trans hgram.input.symm
    have hout := hlhs.output.trans hgram.output.symm
    have hadd : lhs.add (.multiple (Scalar.ofReal p.2) p.1.gramOperator) =
        .ok (.sum lhs (.multiple (Scalar.ofReal p.2) p.1.gramOperator)) :=
      LinearOperator.add_eq_ok_iff.mpr ⟨hin, hout, rfl⟩
    have hsum : (LinearOperator.sum lhs
        (.multiple (Scalar.ofReal p.2) p.1.gramOperator)).KeepsShape shape :=
      ⟨⟨⟨hlhs.plain.wellShaped, hgram.plain.wellShaped, hin, hout⟩,
        ⟨hlhs.plain.closureFree, hgram.plain.closureFree⟩, ⟨hlhs.plain.roomy, hgram.plain.roomy⟩⟩,
        hlhs.input, hlhs.output⟩
    obtain ⟨lhs', hlhs', hkeeps⟩ := ih hsum hrest
    exact ⟨lhs', Except.bind_eq_ok_iff.mpr ⟨_, hadd, hlhs'⟩, hkeeps⟩

omit [RealArithmetic W] [Widening R W] in
/-- The equations of a loss that takes a shape can be set up. -/
theorem endsIn_ofLoss {l : SquaredLoss K R} (hl : l.Takes shape)
    (h : ∀ p ∈ operators, p.1.IsPlain ∧ p.1.input = shape) :
    EndsIn fails (ofLoss l operators : Eval K W _) (FitsOn shape) := by
  obtain ⟨lhs, hlhs, hkeeps⟩ := exists_addGrams_keepsShape
    (hl.operator.keepsShape_gram hl.input (Scalar.ofReal (l.scale + l.scale))) h
  have hsum : Except.EndsIn fails (LinearOperator.KeepsShape shape) (addGrams operators
      (.multiple (Scalar.ofReal (l.scale + l.scale)) l.operator.gramOperator)) :=
    .of_ok hlhs hkeeps
  refine (EndsIn.liftExcept hsum).bind fun lhs hkeeps => ?_
  refine (hl.operator.endsIn_adjoint hl.observation).bind fun pulled hpulled => ?_
  refine (EndsIn.report _).bind fun _ _ => .pure ⟨hkeeps, ?_⟩
  exact (Signal.shape_map _ pulled).trans (hpulled.trans hl.input)

end NormalEquations

/-! ### Strategies -/

namespace Strategy

/-- The strategy is one of the library, and its equations keep a shape if they have been set up. -/
def FitsOn (shape : Shape) : Strategy K R W → Prop
  | .descent _ _ => True
  | .leastSquares _ equations => ∀ n ∈ equations, n.FitsOn shape
  | .external _ _ => False

variable {s : Strategy K R W} {f : Functional K R W} {operators : List (LinearOperator K × R)}

omit [RealArithmetic W] [Widening R W] in
/-- A strategy refuses what it cannot solve with a configuration error, and fails in no other way. -/
theorem endsIn_setup (hs : s.IsBuiltIn) (hf : f.Takes shape)
    (h : ∀ p ∈ operators, p.1.IsPlain ∧ p.1.input = shape) :
    EndsIn Error.IsConfiguration (s.setup f operators) (FitsOn shape) := by
  cases s with
  | descent steps stepSize =>
    exact EndsIn.ite (.throw trivial) ((EndsIn.report _).bind fun _ _ => .pure trivial)
  | leastSquares options equations =>
    unfold setup
    cases hl : f.asSquaredLoss? with
    | none => exact .throw trivial
    | some l =>
      refine (NormalEquations.endsIn_ofLoss (hf.asSquaredLoss? hl) h).bind fun n hn => .pure ?_
      intro n' hn'
      cases Option.mem_some_iff.mp hn'
      exact hn
  | external e solves => exact hs.elim

/-- An x-update of the shape is solved, or it fails for another reason than its shapes. -/
theorem FitsOn.endsIn_solve (hs : s.FitsOn shape) {p : XUpdate K R W} (hp : p.FitsOn shape)
    {x : Signal K} (hx : x.shape = shape) (t : Trace K W) :
    Except.EndsIn (fun e => ¬e.IsShapeMismatch) (fun report => report.x.shape = shape)
      (s.solve p x t).1.1 := by
  cases s with
  | descent steps stepSize => exact (Descent.endsIn_run hp hx steps stepSize t).map fun _ h => h
  | leastSquares options equations =>
    cases equations with
    | none => exact id
    | some n => exact (hs n rfl).endsIn_solve options hp.couplings hx t
  | external e solves => exact hs.elim

/-- A solve leaves the equations as they are. -/
theorem FitsOn.solve (hs : s.FitsOn shape) (p : XUpdate K R W) (x : Signal K) (t : Trace K W) :
    (s.solve p x t).1.2.FitsOn shape := by
  cases s with
  | descent steps stepSize => exact trivial
  | leastSquares options equations =>
    cases equations with
    | none => exact hs
    | some n => exact hs
  | external e solves => exact hs.elim

/-- Gradient descent fails where the gradient does. -/
theorem solve_of_gradient_error {p : XUpdate K R W} {x : Signal K} {t t' : Trace K W} {e : Error}
    (h : (p.gradient x).run t = (.error e, t')) (n : ℕ) (size : R) :
    ((Strategy.descent (n + 1) size).solve p x t).1.1 = .error e := by
  have hrun : Descent.run p (n + 1) x size t = ((.error e, size), t') := by
    rw [Descent.run_succ, Descent.step, run_bind, h]
  show (Descent.run p (n + 1) x size t).1.1.map _ = _
  rw [hrun]
  rfl

end Strategy

/-! ### Problems -/

/-- The penalties of the library that take a shape. -/
theorem Functional.Takes.endsOn {g : Functional K R W}
    (h : g.Takes shape) : g.EndsOn (fun e => ¬e.IsShapeMismatch) shape where
  value hx := Takes.endsIn_value (hx ▸ h)
  prox step hv := Takes.endsIn_prox (hv ▸ h) step

/-- No operator has closures, the smooth functional takes the shape of the starting point, and every
penalty takes the output shape of its operator. -/
structure Problem.Fits (p : Problem K R W) : Prop where
  f : p.f.Takes p.start.shape
  operators : ∀ c ∈ p.operators, c.IsPlain
  penalties : ∀ q ∈ p.penalties.zip p.operators, q.1.Takes q.2.output

namespace Solver

variable {p : Problem K R W} {config : Config W} {strategy : Strategy K R W} {s : Solver K R W}

theorem endsIn_refuse (fault : Option ConfigurationFault) :
    Except.EndsIn Error.IsConfiguration (fun _ => fault = none) (refuse fault) := by
  cases fault with
  | none => exact rfl
  | some fault => exact trivial

omit [Widening R W] in
/-- A problem whose shapes fit is accepted or refused with a configuration error. -/
theorem endsIn_create (config : Config W) (hp : p.Fits) (hstrategy : strategy.IsBuiltIn) :
    EndsIn Error.IsConfiguration (create p config strategy) fun s =>
      p.fault? = none ∧ s.strategy.FitsOn p.start.shape := by
  refine (EndsIn.liftExcept (endsIn_refuse _)).bind fun _ _ => ?_
  refine (EndsIn.liftExcept (endsIn_refuse _)).bind fun _ hfault => ?_
  have hoperators : ∀ c ∈ p.operators, c.IsPlain ∧ c.input = p.start.shape :=
    fun c hc => ⟨hp.operators c hc, inputs_of_fault? hfault c hc⟩
  have hweighted : ∀ q ∈ p.operators.zip p.weights, q.1.IsPlain ∧ q.1.input = p.start.shape :=
    fun q hq => hoperators q.1 (List.of_mem_zip hq).1
  refine (Strategy.endsIn_setup hstrategy hp.f hweighted).bind fun strategy hfits => ?_
  exact (Problem.endsIn_terms _ _ hoperators).bind fun terms _ => .pure ⟨hfault, hfits⟩

/-- Every reachable solver comes from an accepted problem, and its strategy fits. -/
theorem Reachable.fitsOn (hp : p.Fits) (hstrategy : strategy.IsBuiltIn)
    (h : s.Reachable p config strategy) :
    p.fault? = none ∧ s.strategy.FitsOn p.start.shape := by
  refine h.invariant (P := fun s => p.fault? = none ∧ s.strategy.FitsOn p.start.shape)
    (fun {s t t'} hcreate => ?_) (fun {s s' t t' result} hs hstep => ⟨hs.1, ?_⟩) fun hs => hs
  · have hmade := endsIn_create config hp hstrategy t
    rw [hcreate] at hmade
    exact hmade
  · rcases strategy_of_step hstep with hsame | hsolved
    · exact hsame ▸ hs.2
    · exact hsolved ▸ hs.2.solve s.xUpdate s.x t

/-- The x-update of a sound solver. -/
theorem Sound.xUpdate_fitsOn (hs : s.Sound p config strategy) (hp : p.Fits)
    (hfault : p.fault? = none) : s.xUpdate.FitsOn p.start.shape where
  f := (congrArg (Functional.Takes p.start.shape) hs.f_eq).mpr hp.f
  couplings := by
    intro c hc
    obtain ⟨t, ht, rfl⟩ := List.mem_map.mp hc
    have hfits := hs.fitsOn hfault hp.operators (fun q hq => (hp.penalties q hq).endsOn) t ht
    exact ⟨hfits.operator, hfits.input, hfits.z_shape, hfits.u_shape⟩

/-- No phase of a step meets shapes that do not fit. -/
theorem Reachable.endsIn_finished (hp : p.Fits) (hstrategy : strategy.IsBuiltIn)
    (h : s.Reachable p config strategy) (t : Trace K W) :
    Except.EndsIn (fun e => ¬e.IsShapeMismatch) (fun _ => True) (s.finished t).1 := by
  have hs := h.sound fun c hc => (hp.operators c hc).wellShaped
  obtain ⟨hfault, hfits⟩ := h.fitsOn hp hstrategy
  have hterms := hs.fitsOn hfault hp.operators fun q hq => (hp.penalties q hq).endsOn
  have hsolved : Except.EndsIn (fun e => ¬e.IsShapeMismatch)
      (fun report => report.x.shape = p.start.shape) (s.solved t).1.1 :=
    hfits.endsIn_solve (hs.xUpdate_fitsOn hp hfault) (hs.x_shape hstrategy) t
  unfold finished
  rcases hrun : s.solved t with ⟨⟨e | report, next⟩, t₁⟩ <;> rw [hrun] at hsolved
  · exact hsolved
  · have hreport : report.x.shape = p.start.shape := hsolved
    have hf : s.f.Takes report.x.shape := by
      rw [hreport, hs.f_eq]
      exact hp.f
    exact EndsIn.ite (Iterate.endsIn_couple hterms hreport hf.endsIn_value) (.throw id) t₁

theorem Reachable.step_error (hp : p.Fits) (hstrategy : strategy.IsBuiltIn)
    (h : s.Reachable p config strategy) {s' : Solver K R W} {t t' : Trace K W} {e : Error}
    (hstep : s.step t = ((.error e, s'), t')) : ¬e.IsShapeMismatch := by
  rcases error_of_step hstep with rfl | hfinished
  · exact id
  · have hends := h.endsIn_finished hp hstrategy t
    rw [hfinished] at hends
    exact hends

/-- An error of a run is the error of one of its steps. -/
theorem Reachable.exists_step_error {n : ℕ} (h : s.Reachable p config strategy)
    {s' : Solver K R W} {t t' : Trace K W} {e : Error}
    (hsolve : solveWithin n s t = ((.error e, s'), t')) :
    ∃ (s₁ : Solver K R W) (t₁ : Trace K W), s₁.Reachable p config strategy ∧
      s₁.step t₁ = ((.error e, s'), t') := by
  induction n generalizing s t with
  | zero => cases hsolve
  | succ n ih =>
    cases hstate : s.state.isTerminal with
    | true =>
      rw [solveWithin_of_isTerminal hstate] at hsolve
      cases hsolve
    | false =>
      rw [solveWithin_succ hstate] at hsolve
      rcases hstep : s.step t with ⟨⟨e' | u, s₁⟩, t₁⟩
      · rw [hstep] at hsolve
        cases hsolve
        exact ⟨s, t, h, hstep⟩
      · rw [hstep] at hsolve
        exact ih (h.step hstep) hsolve

/-- A problem whose shapes fit is refused only with a configuration error.  If it is accepted, then no
step and no solve fails because of shapes, wherever the run stands. -/
theorem no_shape_mismatch (hp : p.Fits) (hstrategy : strategy.IsBuiltIn) :
    (∀ t e t', (create p config strategy).run t = (.error e, t') → e.IsConfiguration) ∧
    ∀ s : Solver K R W, s.Reachable p config strategy →
      (∀ t e s' t', s.step t = ((.error e, s'), t') → ¬e.IsShapeMismatch) ∧
        ∀ t e s' t', s.solve t = ((.error e, s'), t') → ¬e.IsShapeMismatch := by
  refine ⟨fun t e t' hcreate => ?_, fun s h =>
    ⟨fun t e s' t' hstep => h.step_error hp hstrategy hstep, fun t e s' t' hsolve => ?_⟩⟩
  · have hmade := endsIn_create config hp hstrategy t
    rw [hcreate] at hmade
    exact hmade
  · unfold solve at hsolve
    split at hsolve
    · rw [solveWithin_of_isTerminal rfl] at hsolve
      cases hsolve
    · obtain ⟨s₁, t₁, hreachable, hstep⟩ := h.exists_step_error hsolve
      exact hreachable.step_error hp hstrategy hstep

end Solver

noncomputable section

namespace Solver

/-- A problem whose shapes fit: the mixed norm of a signal at a small distance from an observation. -/
def fittingProblem : Problem ℝ ℝ ℝ where
  f := .loss ⟨.ofArray #[1], .leaf (.identity (.vector 1)), RealArithmetic.half,
    some (.ofArray #[1])⟩
  penalties := [.l21 0]
  operators := [.leaf (.identity (.vector 1))]
  weights := [1]
  start := .ofArray #[0]

theorem fits_fittingProblem : fittingProblem.Fits where
  f := SquaredLoss.takes_of_ofObservation (y := .ofArray #[(1 : ℝ)]) (.identity (.vector 1)) rfl
  operators := List.forall_mem_singleton.mpr (.identity (.vector 1))
  penalties := List.forall_mem_singleton.mpr (by
    show L21.Takes (.vector 1)
    unfold L21.Takes Shape.vector
    decide)

theorem fault?_fittingProblem : fittingProblem.fault? = none := by
  have hinput : (LinearOperator.leaf (.identity (.vector 1)) : LinearOperator ℝ).input =
      (Signal.ofArray #[(0 : ℝ)]).shape := rfl
  simp [Problem.fault?, fittingProblem, Problem.operatorFault?, Problem.weightFault?,
    Problem.isPositive_iff, Functional.isSmooth, Functional.hasProx, hinput]

theorem exists_create_fittingProblem : ∃ s t,
    (create fittingProblem .default (.ofSteps 20)).run .empty = (.ok s, t) :=
  ⟨_, _, run_create_eq_ok_iff.mpr ⟨rfl, fault?_fittingProblem, _, _, rfl, _, rfl, rfl⟩⟩

theorem no_shape_mismatch_fittingProblem : ∃ s t,
    (create fittingProblem .default (.ofSteps 20)).run .empty = (.ok s, t) ∧
      (∀ t e s' t', s.step t = ((.error e, s'), t') → ¬e.IsShapeMismatch) ∧
      ∀ t e s' t', s.solve t = ((.error e, s'), t') → ¬e.IsShapeMismatch := by
  have hbuiltIn : (Strategy.ofSteps 20 : Strategy ℝ ℝ ℝ).IsBuiltIn := trivial
  obtain ⟨s, t, hcreate⟩ := exists_create_fittingProblem
  have hmade : s.Reachable fittingProblem .default (.ofSteps 20) := .create hcreate
  exact ⟨s, t, hcreate, (no_shape_mismatch fits_fittingProblem hbuiltIn).2 s hmade⟩

end Solver

end

/-! ### Losses that do not take the shape of the starting point -/

namespace Solver

variable {p : Problem K R W} {config : Config W} {s : Solver K R W}

/-- Gradient descent stays gradient descent, and takes at least one step. -/
theorem Reachable.exists_descent {n : ℕ} {size : R}
    (h : s.Reachable p config (.descent n size)) :
    n ≠ 0 ∧ ∃ size', s.strategy = .descent n size' := by
  refine h.invariant (P := fun s => n ≠ 0 ∧ ∃ size', s.strategy = .descent n size')
    (fun {s t t'} hcreate => ?_) (fun {s s' t t' result} hs hstep => ⟨hs.1, ?_⟩) fun hs => hs
  · obtain ⟨-, -, strategy', t₁, hsetup, ts, -, rfl⟩ := run_create_eq_ok_iff.mp hcreate
    unfold Strategy.setup at hsetup
    dsimp only at hsetup
    by_cases hn : n = 0
    · rw [if_pos hn] at hsetup
      cases hsetup
    · rw [if_neg hn] at hsetup
      cases hsetup
      exact ⟨hn, size, rfl⟩
  · obtain ⟨-, size', hsize⟩ := hs
    rcases strategy_of_step hstep with hsame | hsolved
    · exact ⟨size', hsame.trans hsize⟩
    · rw [solved, hsize] at hsolved
      exact ⟨_, hsolved⟩

/-- Gradient descent finds out in a step, not before, that a loss does not take the shape of the
starting point: every step fails. -/
theorem Reachable.step_of_mismatched {n : ℕ} {size : R} {l : SquaredLoss K R}
    (hp : ∀ c ∈ p.operators, c.WellShaped) (hf : p.f = .loss l)
    (hinput : l.operator.input ≠ p.start.shape) (h : s.Reachable p config (.descent n size))
    (hrunning : s.state.isTerminal = false) (t : Trace K W) :
    ∃ s' t', s.step t = ((.error (.shapeMismatch "linear operator input" l.operator.input
      p.start.shape), s'), t') := by
  obtain ⟨hn, size', hstrategy⟩ := h.exists_descent
  obtain ⟨m, rfl⟩ := Nat.exists_eq_succ_of_ne_zero hn
  have hs := h.sound hp
  have hx := hs.x_shape trivial
  have happly := LinearOperator.run_apply_of_ne (W := W) (hx ▸ hinput.symm) t
  rw [hx] at happly
  have hgradient : (s.xUpdate.gradient s.x).run t =
      (.error (.shapeMismatch "linear operator input" l.operator.input p.start.shape), t) := by
    unfold XUpdate.gradient
    rw [show s.xUpdate.f = .loss l from hs.f_eq.trans hf, Functional.grad, SquaredLoss.grad,
      SquaredLoss.residual]
    simp only [run_bind, happly]
  have hsolved : (s.solved t).1.1 =
      .error (.shapeMismatch "linear operator input" l.operator.input p.start.shape) := by
    rw [solved, hstrategy]
    exact Strategy.solve_of_gradient_error hgradient m size'
  obtain ⟨timing, hstep⟩ := step_running hrunning t
  rw [hstep, finished]
  rcases hcase : s.solved t with ⟨⟨e | report, next⟩, t₁⟩ <;> rw [hcase] at hsolved
  · cases hsolved
    exact ⟨_, _, rfl⟩
  · cases hsolved

omit [Widening R W] in
/-- The normal equations of such a loss and a first operator are refused with a shape error. -/
theorem run_create_of_mismatched {l : SquaredLoss K R} {options : CgOptions W}
    {equations : Option (NormalEquations K)} {c : LinearOperator K} {cs : List (LinearOperator K)}
    (hconfig : config.fault? = none) (hfault : p.fault? = none) (hf : p.f = .loss l)
    (hinput : l.operator.input ≠ p.start.shape) (hoperators : p.operators = c :: cs)
    (t : Trace K W) :
    (create p config (.leastSquares options equations)).run t =
      (.error (.shapeMismatch "operator sum input" l.operator.input p.start.shape), t) := by
  have hc : c.input = p.start.shape :=
    inputs_of_fault? hfault c (hoperators ▸ List.mem_cons_self)
  obtain ⟨weight, weights, hweights⟩ : ∃ weight weights, p.weights = weight :: weights := by
    obtain ⟨hlength, hlength'⟩ := length_of_fault? hfault
    rw [hlength, hoperators] at hlength'
    exact List.exists_cons_of_length_eq_add_one hlength'.symm
  have hadd : (LinearOperator.multiple (Scalar.ofReal (l.scale + l.scale))
      l.operator.gramOperator).add (.multiple (Scalar.ofReal weight) c.gramOperator) =
      .error (.shapeMismatch "operator sum input" l.operator.input p.start.shape) := by
    unfold LinearOperator.add
    rw [← hc] at hinput ⊢
    exact if_pos hinput
  unfold create
  rw [hconfig, hfault, hf, hoperators, hweights]
  simp only [Strategy.setup, Functional.asSquaredLoss?, NormalEquations.ofLoss, List.zip_cons_cons,
    NormalEquations.addGrams, hadd]
  rfl

end Solver

noncomputable section

namespace Solver

/-- The squared distance of signals of length three from the origin. -/
def longLoss : SquaredLoss ℝ ℝ :=
  ⟨.zeros (.vector 3), .leaf (.identity (.vector 3)), RealArithmetic.half,
    some (.replicate (.vector 3) 1)⟩

/-- A problem that starts at a signal of length two. -/
def mismatchedProblem : Problem ℝ ℝ ℝ where
  f := .loss longLoss
  penalties := [.l1]
  operators := [.leaf (.identity (.vector 2))]
  weights := [1]
  start := .zeros (.vector 2)

theorem fault?_mismatchedProblem : mismatchedProblem.fault? = none := by
  simp [Problem.fault?, mismatchedProblem, Problem.operatorFault?, Problem.weightFault?,
    Problem.isPositive_iff, Functional.isSmooth, Functional.hasProx, LinearOperator.input,
    Leaf.input, Signal.zeros]

/-- Making a solver does not look at the shape of the loss: gradient descent fails in the first step
because of it, and the normal equations are refused with an error that is no configuration error. -/
theorem exists_late_shape_mismatch :
    SquaredLoss.ofObservation (.zeros (.vector 3)) (.leaf (.identity (.vector 3))) =
      .ok longLoss ∧
    (∃ s s' t t', (create mismatchedProblem .default (.ofSteps 20)).run .empty = (.ok s, t) ∧
      s.step t =
        ((.error (.shapeMismatch "linear operator input" (.vector 3) (.vector 2)), s'), t')) ∧
    ∃ t, (create mismatchedProblem .default (.ofOptions .default)).run .empty =
      (.error (.shapeMismatch "operator sum input" (.vector 3) (.vector 2)), t) := by
  have hconfig : (Config.default : Config ℝ).fault? = none := rfl
  have hinput : longLoss.operator.input ≠ mismatchedProblem.start.shape := by
    show Shape.vector 3 ≠ Shape.vector 2
    decide
  refine ⟨rfl, ?_, _, run_create_of_mismatched hconfig fault?_mismatchedProblem rfl hinput rfl _⟩
  obtain ⟨s, t, hcreate, hrunning⟩ : ∃ s t,
      (create mismatchedProblem .default (.ofSteps 20)).run .empty = (.ok s, t) ∧
        s.state.isTerminal = false :=
    ⟨_, _, run_create_eq_ok_iff.mpr ⟨hconfig, fault?_mismatchedProblem, _, _, rfl, _, rfl, rfl⟩, rfl⟩
  have hmade : s.Reachable mismatchedProblem .default (.ofSteps 20) := .create hcreate
  obtain ⟨s', t', hstep⟩ := hmade.step_of_mismatched (List.forall_mem_singleton.mpr trivial) rfl
    hinput hrunning t
  exact ⟨s, s', t, t', hcreate, hstep⟩

end Solver

end

end OperatorSplitting
