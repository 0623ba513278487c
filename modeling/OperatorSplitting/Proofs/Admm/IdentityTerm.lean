import Mathlib
import OperatorSplitting.Proofs.Admm.Orbit
import OperatorSplitting.Proofs.Admm.Reachable

/-!
# One term with the identity

Where the only operator is the identity, an iteration is made of array operations alone.  This module
says what its phases compute: a try of a line search, a gradient step, the objective and the gradient of
the x-update, and the phases after it (`Iterate.run_couple_identity`).

With these an iteration can be followed on paper.  The example is half the squared distance of a number
from `b` plus the modulus of the number, where `b` is one at least.  One gradient step solves its x-update
exactly, and the split variable halves its distance from the minimizer `b - 1` (`Solver.orbit_number`).
-/

namespace OperatorSplitting

open Eval

section

variable {K R W : Type} [RealArithmetic R] [Scalar K R W] {t t' t₁ t₂ : Trace K W}

theorem Eval.ok_bind {α β : Type} (a : α) (m : α → Eval K W β) :
    (liftM (.ok a : Except Error α) >>= m : Eval K W β) = m a := rfl

/-! ### Gradient steps -/

namespace Descent

variable {p : XUpdate K R W} {x g y : Signal K} {phi value size : R}

/-- A try of a line search: the candidate is accepted, or the search goes on with half the step size. -/
theorem run_search_succ (hy : x.addScaled (-(Scalar.ofReal size : K)) g = .ok y)
    (hvalue : (p.objective y).run t = (.ok value, t')) (phi gradientSqr : R) (tries : ℕ) :
    (search p x g phi gradientSqr (tries + 1) size).run t =
      if RealArithmetic.le value (phi - RealArithmetic.half * size * gradientSqr) then
        (.ok (some (y, size)), t')
      else (search p x g phi gradientSqr tries (size * RealArithmetic.half)).run t' := by
  rw [search, hy, ok_bind, run_bind, hvalue]
  dsimp only
  split <;> rfl

/-- Where the gradient vanishes no step is taken. -/
theorem run_step_of_zero (hg : (p.gradient x).run t = (.ok g, t'))
    (hzero : RealArithmetic.beq (g.normSqr : R) 0 = true) :
    (step p x size).run t = (.ok none, t') := by
  rw [step, run_bind, hg]
  dsimp only
  rw [if_pos hzero]
  rfl

/-- Elsewhere the step is the one that the line search finds. -/
theorem run_step_of_search (hg : (p.gradient x).run t = (.ok g, t₁))
    (hnonzero : ¬RealArithmetic.beq (g.normSqr : R) 0 = true)
    (hphi : (p.objective x).run t₁ = (.ok phi, t₂))
    (hfound : (search p x g phi g.normSqr maxTries size).run t₂ = (.ok (some (y, value)), t')) :
    (step p x size).run t = (.ok (some (y, value)), t') := by
  rw [step, run_bind, hg]
  dsimp only
  rw [if_neg hnonzero, run_bind, hphi]
  dsimp only
  rw [run_bind, hfound]
  rfl

/-- A solve of one gradient step. -/
theorem solve_one [RealArithmetic W] [Widening R W] (p : XUpdate K R W) (x : Signal K) (size : R)
    (t : Trace K W) : (Strategy.descent 1 size).solve p x t =
      match (step p x size).run t with
      | (.error e, t) => ((.error e, .descent 1 size), t)
      | (.ok none, t) => ((.ok ⟨x, none⟩, .descent 1 size), t)
      | (.ok (some (y, accepted)), t) => ((.ok ⟨y, none⟩, .descent 1 (accepted + accepted)), t) := by
  show (((run p 1 x size t).1.1.map _, Strategy.descent 1 (run p 1 x size t).1.2),
    (run p 1 x size t).2) = _
  rw [run_succ]
  rcases (step p x size).run t with ⟨e | (_ | ⟨y, accepted⟩), t'⟩ <;> rfl

end Descent

/-! ### The x-update -/

variable {f : Functional K R W} {x z u d r g e : Signal K} {s : Shape} {weight : R}

omit [RealArithmetic R] in
theorem LinearOperator.apply_identity (hx : x.shape = s) :
    (LinearOperator.leaf (.identity s)).apply x = (pure x : Eval K W _) := if_pos hx

omit [RealArithmetic R] in
theorem LinearOperator.adjoint_identity (hx : x.shape = s) :
    (LinearOperator.leaf (.identity s)).adjoint x = (pure x : Eval K W _) := if_pos hx

omit [RealArithmetic R] in
theorem Coupling.run_mismatch_identity (hx : x.shape = s) (hd : x.sub z = .ok d)
    (hr : d.add u = .ok r) (t : Trace K W) :
    ((⟨.leaf (.identity s), weight, z, u⟩ : Coupling K R).mismatch x : Eval K W _).run t =
      (.ok r, t) := by
  rw [mismatch, LinearOperator.apply_identity hx, pure_bind, hd, ok_bind, hr]
  rfl

namespace XUpdate

/-- The objective of an x-update with one coupling. -/
theorem run_objective_one {c : Coupling K R} {a : R} (hvalue : (f.value x).run t = (.ok a, t₁))
    (hr : (c.mismatch x : Eval K W _).run t₁ = (.ok r, t₂)) :
    (objective ⟨f, [c]⟩ x).run t = (.ok (a + c.weight * r.normSqr / (1 + 1)), t₂) := by
  rw [objective, run_bind, hvalue]
  dsimp only
  rw [addPenalties, run_bind, hr]
  rfl

/-- The gradient of an x-update whose only coupling is that of the identity. -/
theorem run_gradient_identity (hg : (f.grad x).run t = (.ok g, t₁))
    (hr : ((⟨.leaf (.identity s), weight, z, u⟩ : Coupling K R).mismatch x : Eval K W _).run t₁ =
      (.ok r, t₂)) (hshape : r.shape = s) (he : g.addScaled (Scalar.ofReal weight) r = .ok e) :
    (gradient ⟨f, [⟨.leaf (.identity s), weight, z, u⟩]⟩ x).run t = (.ok e, t₂) := by
  rw [gradient, run_bind, hg]
  dsimp only
  rw [addGradients, run_bind, hr]
  dsimp only
  rw [LinearOperator.adjoint_identity hshape, pure_bind, he]
  rfl

end XUpdate

/-! ### The phases after it -/

variable [RealArithmetic W] [Widening R W]

/-- The new variables of a term with the identity, and the residuals: that of the constraint, and the
weighted change of the split variable. -/
theorem Iterate.run_couple_identity {penalty : Functional K R W} {z' u' v gap change : Signal K}
    {info : Option (CgReport W)} {value : Option W} (hx : x.shape = s) (hv : x.add u = .ok v)
    (hz : (penalty.prox v (1 / weight)).run t = (.ok z', t₁)) (hgap : x.sub z' = .ok gap)
    (hu : u.add gap = .ok u') (hchange : z'.sub z = .ok change) (hshape : change.shape = s)
    (hvalue : (Solver.objective f x
      [⟨⟨penalty, .leaf (.identity s), weight, z, u⟩, x, z', u'⟩]).run t₁ = (.ok value, t₂)) :
    (couple f [⟨penalty, .leaf (.identity s), weight, z, u⟩] ⟨x, info⟩).run t =
      (.ok ⟨⟨x, info⟩, [⟨⟨penalty, .leaf (.identity s), weight, z, u⟩, x, z', u'⟩], ⟨value,
        RealArithmetic.sqrt (0 + Widening.widen (gap.normSqr : R)), RealArithmetic.sqrt
          (0 + Widening.widen ((change.scaled (Scalar.ofReal weight)).normSqr : R))⟩⟩, t₂) := by
  let term : Term K R W := ⟨penalty, .leaf (.identity s), weight, z, u⟩
  have himages : (Solver.images x [term] : Eval K W _).run t = (.ok [(term, x)], t) := by
    rw [Solver.images, LinearOperator.apply_identity hx]
    rfl
  have hsplits : (Solver.splitUpdates [(term, x)]).run t = (.ok [(term, x, z')], t₁) := by
    rw [Solver.splitUpdates, hv, ok_bind, run_bind, hz]
    rfl
  have hduals : Solver.dualUpdates [(term, x, z')] = .ok [⟨term, x, z', u'⟩] := by
    rw [Solver.dualUpdates, hgap]
    show (u.add gap >>= fun u => _) = _
    rw [hu]
    rfl
  have hresiduals : (Solver.addResiduals [⟨term, x, z', u'⟩] 0 0 : Eval K W _).run t₂ =
      (.ok (0 + Widening.widen (gap.normSqr : R),
        0 + Widening.widen ((change.scaled (Scalar.ofReal weight)).normSqr : R)), t₂) := by
    rw [Solver.addResiduals, hgap, ok_bind]
    dsimp only
    rw [hchange, ok_bind, LinearOperator.adjoint_identity hshape, pure_bind]
    rfl
  rw [couple, run_bind, run_bind, himages]
  dsimp only
  rw [hsplits]
  dsimp only
  rw [hduals, ok_bind, run_bind, Solver.diagnostics, run_bind, hvalue]
  dsimp only
  rw [run_bind, hresiduals]
  rfl

end

/-! ### A problem of one number -/

noncomputable section

namespace Solver

open Signal

/-- Half the squared distance from `b`. -/
def distanceTo (b : ℝ) : SquaredLoss ℝ ℝ where
  observation := single b
  operator := .leaf (.identity (.vector 1))
  scale := RealArithmetic.half
  diagonal? := some (.replicate (.vector 1) 1)

/-- Half the squared distance from `b` plus the modulus, from a starting point. -/
def numberProblem (b a : ℝ) : Problem ℝ ℝ ℝ where
  f := .loss (distanceTo b)
  penalties := [.l1]
  operators := [.leaf (.identity (.vector 1))]
  weights := [1]
  start := single a

/-- The modulus, with its split and its dual variable. -/
def modulusTerm (z u : ℝ) : Term ℝ ℝ ℝ where
  penalty := .l1
  operator := .leaf (.identity (.vector 1))
  weight := 1
  z := single z
  u := single u

/-- The solver that the problem makes. -/
def numberSolver (b : ℝ) (config : Config ℝ) (a : ℝ) : Solver ℝ ℝ ℝ where
  f := .loss (distanceTo b)
  terms := [modulusTerm a 0]
  config := config
  strategy := .descent 1 1
  x := single a
  iteration := 0
  state := .initialized
  history := .empty
  timing := Timing.empty.mark "setup"

theorem isConvex_numberProblem (names : Naming ℝ) (b a : ℝ) :
    (numberProblem b a).IsConvex names where
  f := ⟨⟨trivial, trivial, trivial⟩, rfl, by
    show (0 : ℝ) < RealArithmetic.half
    rw [RealArithmetic.half_eq]
    norm_num⟩
  penalties := List.forall_mem_singleton.mpr trivial
  operators := List.forall_mem_singleton.mpr ⟨trivial, trivial, trivial⟩

theorem run_create_number {config : Config ℝ} (hconfig : config.fault? = none) (b a : ℝ) :
    ∃ t, (create (numberProblem b a) config (.ofSteps 1)).run .empty =
      (.ok (numberSolver b config a), t) := by
  have hfault : (numberProblem b a).fault? = none := by
    simp [Problem.fault?, numberProblem, Problem.operatorFault?, Problem.weightFault?,
      Functional.isSmooth, Functional.hasProx, Problem.isPositive_iff, LinearOperator.input,
      Leaf.input]
    rfl
  have hsolver : numberSolver b config a = { numberSolver b config a with
      terms := [{ modulusTerm a 0 with u := .zeros (.vector 1) }] } := by
    rw [zeros_vector_one]
    rfl
  unfold create
  rw [hfault, hconfig, hsolver]
  exact ⟨_, rfl⟩

/-! ### Its x-update -/

variable {a b z u x : ℝ}

theorem run_residual_distanceTo (b x : ℝ) (t : Trace ℝ ℝ) :
    ((distanceTo b).residual (single x) : Eval ℝ ℝ _).run t = (.ok (single (x - b)), t) := by
  have happly : (distanceTo b).operator.apply (single x) = (pure (single x) : Eval ℝ ℝ _) :=
    LinearOperator.apply_identity rfl
  have hsub : (single x).sub (distanceTo b).observation = .ok (single (x - b)) :=
    zipMap_single _ _ _ _
  rw [SquaredLoss.residual, happly, pure_bind, hsub]
  rfl

theorem run_value_distanceTo (b x : ℝ) (t : Trace ℝ ℝ) :
    ((Functional.loss (distanceTo b)).value (single x)).run t =
      (.ok (RealArithmetic.half * ((x - b) * (x - b))), t) := by
  rw [Functional.value, SquaredLoss.value, run_bind, run_residual_distanceTo, ← normSqr_single]
  rfl

theorem run_grad_distanceTo (b x : ℝ) (t : Trace ℝ ℝ) :
    ((Functional.loss (distanceTo b)).grad (single x)).run t = (.ok (single (x - b)), t) := by
  have hscaled : (single (x - b)).scaled
      (Scalar.ofReal ((distanceTo b).scale + (distanceTo b).scale) : ℝ) = single (x - b) := by
    rw [scaled, map_single]
    show single ((x - b) * (RealArithmetic.half + RealArithmetic.half)) = _
    rw [RealArithmetic.half_eq, add_halves, mul_one]
  have hadjoint : (distanceTo b).operator.adjoint (single (x - b)) =
      (pure (single (x - b)) : Eval ℝ ℝ _) := LinearOperator.adjoint_identity rfl
  rw [Functional.grad, SquaredLoss.grad, run_bind, run_residual_distanceTo]
  dsimp only
  rw [hadjoint, pure_bind, hscaled]
  rfl

theorem run_mismatch_modulusTerm (x z u : ℝ) (t : Trace ℝ ℝ) :
    ((modulusTerm z u).coupling.mismatch (single x) : Eval ℝ ℝ _).run t =
      (.ok (single (x - z + u)), t) :=
  Coupling.run_mismatch_identity rfl (zipMap_single _ _ _ _) (zipMap_single _ _ _ _) t

/-- The x-update at some variables. -/
def numberUpdate (b z u : ℝ) : XUpdate ℝ ℝ ℝ :=
  ⟨.loss (distanceTo b), [(modulusTerm z u).coupling]⟩

theorem run_objective_number (b x z u : ℝ) (t : Trace ℝ ℝ) :
    ((numberUpdate b z u).objective (single x)).run t =
      (.ok (1 / 2 * (x - b) ^ 2 + 1 / 2 * (x - z + u) ^ 2), t) := by
  have hsum : RealArithmetic.half * ((x - b) * (x - b)) + (modulusTerm z u).coupling.weight *
      (single (x - z + u)).normSqr / (1 + 1) =
        1 / 2 * (x - b) ^ 2 + 1 / 2 * (x - z + u) ^ 2 := by
    rw [normSqr_single, RealArithmetic.half_eq]
    show _ + 1 * _ / (1 + 1) = _
    ring
  rw [numberUpdate, XUpdate.run_objective_one (run_value_distanceTo b x t)
    (run_mismatch_modulusTerm x z u t), hsum]

theorem run_gradient_number (b x z u : ℝ) (t : Trace ℝ ℝ) :
    ((numberUpdate b z u).gradient (single x)).run t = (.ok (single (2 * x - b - z + u)), t) := by
  have hsum : (single (x - b)).addScaled (Scalar.ofReal (1 : ℝ)) (single (x - z + u)) =
      .ok (single (2 * x - b - z + u)) := by
    rw [addScaled, zipMap_single]
    congr 2
    show x - b + 1 * _ = _
    ring
  exact XUpdate.run_gradient_identity (run_grad_distanceTo b x t) (run_mismatch_modulusTerm x z u t)
    rfl hsum

/-- A candidate of the line search. -/
theorem addScaled_number (x g size : ℝ) :
    (single x).addScaled (-(Scalar.ofReal size : ℝ)) (single g) = .ok (single (x - size * g)) := by
  rw [addScaled, zipMap_single, neg_mul, ← sub_eq_add_neg]
  rfl

/-- The objective along the gradient. -/
theorem objective_along_gradient (b x z u size : ℝ) :
    1 / 2 * (x - size * (2 * x - b - z + u) - b) ^ 2 +
        1 / 2 * (x - size * (2 * x - b - z + u) - z + u) ^ 2 =
      1 / 2 * (x - b) ^ 2 + 1 / 2 * (x - z + u) ^ 2 -
        size * (1 - size) * ((2 * x - b - z + u) * (2 * x - b - z + u)) := by
  ring

/-- The first try of the line search steps over the minimizer, the second one meets it. -/
theorem run_search_number (hg : 2 * x - b - z + u ≠ 0) (t : Trace ℝ ℝ) :
    (Descent.search (numberUpdate b z u) (single x) (single (2 * x - b - z + u))
      (1 / 2 * (x - b) ^ 2 + 1 / 2 * (x - z + u) ^ 2) (single (2 * x - b - z + u)).normSqr
      Descent.maxTries 1 : Eval ℝ ℝ _).run t =
        (.ok (some (single ((b + z - u) / 2), 1 / 2)), t) := by
  have hsqr : 0 < (2 * x - b - z + u) * (2 * x - b - z + u) := mul_self_pos.mpr hg
  have hhalf : (1 : ℝ) * RealArithmetic.half = 1 / 2 := by rw [RealArithmetic.half_eq, one_mul]
  have hnext : x - 1 / 2 * (2 * x - b - z + u) = (b + z - u) / 2 := by ring
  rw [Descent.maxTries, Descent.run_search_succ (addScaled_number x _ 1)
    (run_objective_number b _ z u t), if_neg, hhalf,
    Descent.run_search_succ (addScaled_number x _ (1 / 2)) (run_objective_number b _ z u t), if_pos,
    hnext]
  · rw [objective_along_gradient, normSqr_single, RealArithmetic.half_eq]
    exact decide_eq_true (by linarith)
  · rw [objective_along_gradient, normSqr_single, RealArithmetic.half_eq]
    exact mt of_decide_eq_true (not_le.mpr (by linarith))

/-- One gradient step minimizes exactly, from any point: the line search halves its step size once, and
the accepted step doubles it again. -/
theorem solve_number (b x z u : ℝ) (t : Trace ℝ ℝ) :
    (Strategy.descent 1 1).solve (numberUpdate b z u) (single x) t =
      ((.ok ⟨single ((b + z - u) / 2), none⟩, .descent 1 1), t) := by
  rw [Descent.solve_one]
  by_cases hg : 2 * x - b - z + u = 0
  · have hx : x = (b + z - u) / 2 := by linarith
    have hzero : RealArithmetic.beq ((single (2 * x - b - z + u)).normSqr : ℝ) 0 = true := by
      rw [hg, normSqr_single, mul_zero]
      exact decide_eq_true rfl
    rw [Descent.run_step_of_zero (run_gradient_number b x z u t) hzero, ← hx]
  · have hnonzero : ¬RealArithmetic.beq ((single (2 * x - b - z + u)).normSqr : ℝ) 0 = true := by
      rw [normSqr_single]
      exact mt of_decide_eq_true (mul_self_ne_zero.mpr hg)
    rw [Descent.run_step_of_search (run_gradient_number b x z u t) hnonzero
      (run_objective_number b x z u t) (run_search_number hg t)]
    dsimp only
    rw [add_halves]

/-! ### Its phases after the x-update -/

/-- What an iteration computes from a solution of the x-update that the proximal map shrinks by one. -/
def numberResult (b x z u : ℝ) : StepResult ℝ ℝ ℝ where
  report := ⟨single x, none⟩
  updates := [⟨modulusTerm z u, single x, single (x + u - 1), single 1⟩]
  diagnostics :=
    ⟨some (RealArithmetic.half * ((x - b) * (x - b)) + |x|), |1 - u|, |x + u - 1 - z|⟩

theorem shrink_of_one_le {v : ℝ} (hv : 1 ≤ v) : shrink v (1 : ℝ) = v - 1 := by
  have habs : |v| = v := abs_of_nonneg (zero_le_one.trans hv)
  unfold shrink
  show (if RealArithmetic.le |v| 1 then 0 else v * ((|v| - 1) / |v|)) = v - 1
  rw [habs]
  split
  · next hle => linarith [of_decide_eq_true hle]
  · field_simp

theorem run_objective_modulusTerm (b x z u : ℝ) (z' u' : Signal ℝ) (t : Trace ℝ ℝ) :
    (Solver.objective (.loss (distanceTo b)) (single x) [⟨modulusTerm z u, single x, z', u'⟩]).run t =
      (.ok (some (RealArithmetic.half * ((x - b) * (x - b)) + |x|)), t) := by
  have hmodulus : L1.value (single x) = |x| := by
    simp [L1.value, single, sumEntries, Signal.entries, Scalar.modulus]
  have hvalues (a : ℝ) : (Solver.addValues [⟨modulusTerm z u, single x, z', u'⟩] a :
      Eval ℝ ℝ ℝ).run t = (.ok (a + |x|), t) := by
    rw [← hmodulus]
    rfl
  have heval : ((Functional.loss (distanceTo b) : Functional ℝ ℝ ℝ).hasEval &&
      [(⟨modulusTerm z u, single x, z', u'⟩ : TermUpdate ℝ ℝ ℝ)].all fun t =>
        t.before.penalty.hasEval) = true := rfl
  rw [Solver.objective, if_pos heval, run_bind, run_value_distanceTo]
  dsimp only
  rw [run_bind, hvalues]
  rfl

/-- The dual variable becomes one. -/
theorem run_couple_number (h : 1 ≤ x + u) (b z : ℝ) (t : Trace ℝ ℝ) :
    (Iterate.couple (.loss (distanceTo b)) [modulusTerm z u] ⟨single x, none⟩).run t =
      (.ok (numberResult b x z u), t) := by
  have hz : ((Functional.l1 : Functional ℝ ℝ ℝ).prox (single (x + u)) (1 / 1)).run t =
      (.ok (single (x + u - 1)), t) := by
    have hshrunk : L1.prox (single (x + u)) (1 / 1 : ℝ) = single (x + u - 1) := by
      rw [L1.prox, map_single, one_div_one, shrink_of_one_le h]
    rw [← hshrunk]
    rfl
  have hgap : (single x).sub (single (x + u - 1)) = .ok (single (1 - u)) := by
    rw [sub, zipMap_single]
    congr 2
    ring
  have hu : (single u).add (single (1 - u)) = .ok (single 1) := by
    rw [add, zipMap_single, add_sub_cancel]
  have hnorm (r : ℝ) : √(0 + (single r).normSqr) = |r| := by
    rw [zero_add, normSqr_single, Real.sqrt_mul_self_eq_abs]
  have hscaled : (single (x + u - 1 - z)).scaled (Scalar.ofReal (1 : ℝ)) =
      single (x + u - 1 - z) := by
    rw [scaled, map_single]
    exact congrArg single (mul_one _)
  rw [modulusTerm, Iterate.run_couple_identity (s := .vector 1) rfl (zipMap_single _ _ _ _) hz hgap hu
    (zipMap_single _ _ _ _) rfl (run_objective_modulusTerm b x z u _ _ t)]
  show (Except.ok (⟨_, _, _, √(0 + (single (1 - u)).normSqr),
    √(0 + ((single (x + u - 1 - z)).scaled (Scalar.ofReal (1 : ℝ))).normSqr)⟩ :
      StepResult ℝ ℝ ℝ), t) = _
  rw [hscaled, hnorm, hnorm]
  rfl

/-- An iteration. -/
theorem update_number (h : 2 ≤ b + z + u) (x : ℝ) (t : Trace ℝ ℝ)
    (result : Option (StepResult ℝ ℝ ℝ)) (number : ℕ) :
    Iterate.update (.loss (distanceTo b)) number
      ⟨[modulusTerm z u], single x, .descent 1 1, t, result⟩ =
        .ok ⟨[modulusTerm ((b + z + u) / 2 - 1) 1], single ((b + z - u) / 2), .descent 1 1, t,
          some (numberResult b ((b + z - u) / 2) z u)⟩ := by
  have hsum : (b + z - u) / 2 + u = (b + z + u) / 2 := by ring
  have hle : 1 ≤ (b + z - u) / 2 + u := by linarith
  have hupdate := Iterate.update_of_couple
    (q := ⟨[modulusTerm z u], single x, .descent 1 1, t, result⟩)
    (r := numberResult b ((b + z - u) / 2) z u) (solve_number b x z u t) (allFinite_eq_true _)
    (run_couple_number hle b z t) number
  rw [← hsum]
  exact hupdate

/-- The split variable after some iterations: each of them halves its distance from `b - 1`. -/
def numberSplit (b a : ℝ) (k : ℕ) : ℝ := b - 1 + (a - b) * RealArithmetic.half ^ k

theorem numberSplit_succ (b a : ℝ) (k : ℕ) :
    numberSplit b a (k + 1) = (b + numberSplit b a k - 1) / 2 := by
  rw [numberSplit, numberSplit, pow_succ, RealArithmetic.half_eq]
  ring

theorem one_sub_le_numberSplit (hb : 1 ≤ b) (ha : 2 ≤ b + a) (k : ℕ) :
    1 - b ≤ numberSplit b a k := by
  have hpos : (0 : ℝ) ≤ RealArithmetic.half ^ k := by
    rw [RealArithmetic.half_eq]
    positivity
  have hone : RealArithmetic.half ^ k ≤ (1 : ℝ) := by
    rw [RealArithmetic.half_eq]
    exact pow_le_one₀ one_half_pos.le one_half_lt_one.le
  have hdistance : (2 - b - b) * RealArithmetic.half ^ k ≤ (a - b) * RealArithmetic.half ^ k :=
    mul_le_mul_of_nonneg_right (by linarith) hpos
  have hnonpos : 2 - b - b ≤ 0 := by linarith
  have hlower := mul_le_mul_of_nonpos_left hone hnonpos
  rw [numberSplit]
  linarith

/-- The iterates in closed form.  From the second one on the constraint holds. -/
theorem orbit_number (config : Config ℝ) (hb : 1 ≤ b) (ha : 2 ≤ b + a) (t : Trace ℝ ℝ) :
    (numberSolver b config a).orbit t 1 = .ok ⟨[modulusTerm (numberSplit b a 1) 1],
      single ((b + a) / 2), .descent 1 1, t, some (numberResult b ((b + a) / 2) a 0)⟩ ∧
    ∀ k, (numberSolver b config a).orbit t (k + 2) =
      .ok ⟨[modulusTerm (numberSplit b a (k + 2)) 1], single (numberSplit b a (k + 2)),
        .descent 1 1, t, some (numberResult b (numberSplit b a (k + 2)) (numberSplit b a (k + 1)) 1)⟩ := by
  have hnext (x : ℝ) (k number : ℕ) (result : Option (StepResult ℝ ℝ ℝ)) :
      Iterate.update (.loss (distanceTo b)) number
        ⟨[modulusTerm (numberSplit b a k) 1], single x, .descent 1 1, t, result⟩ =
          .ok ⟨[modulusTerm (numberSplit b a (k + 1)) 1], single (numberSplit b a (k + 1)),
            .descent 1 1, t,
            some (numberResult b (numberSplit b a (k + 1)) (numberSplit b a k) 1)⟩ := by
    have hle : 2 ≤ b + numberSplit b a k + 1 := by linarith [one_sub_le_numberSplit hb ha k]
    have hz : (b + numberSplit b a k + 1) / 2 - 1 = (b + numberSplit b a k - 1) / 2 := by ring
    rw [update_number hle, hz, numberSplit_succ]
  have hfirst : (numberSolver b config a).orbit t 1 = .ok ⟨[modulusTerm (numberSplit b a 1) 1],
      single ((b + a) / 2), .descent 1 1, t, some (numberResult b ((b + a) / 2) a 0)⟩ := by
    have hsplit : (b + a + 0) / 2 - 1 = numberSplit b a 1 := by
      rw [numberSplit, pow_one, RealArithmetic.half_eq]
      ring
    have hupdate := update_number (b := b) (z := a) (u := 0) (by linarith) a t none 1
    rw [hsplit, sub_zero] at hupdate
    exact hupdate
  refine ⟨hfirst, fun k => ?_⟩
  induction k with
  | zero =>
    show ((numberSolver b config a).orbit t 1 >>= fun q => q.update (.loss (distanceTo b)) 2) = _
    rw [hfirst]
    exact hnext _ 1 2 _
  | succ k ih =>
    show ((numberSolver b config a).orbit t (k + 2) >>= fun q =>
      q.update (.loss (distanceTo b)) (k + 3)) = _
    rw [ih]
    exact hnext _ (k + 2) (k + 3) _

/-! ### Its steps -/

/-- The variables of a solver of the problem, whose x-updates are single gradient steps. -/
structure IsAt (b : ℝ) (s : Solver ℝ ℝ ℝ) (x z u : ℝ) : Prop where
  f : s.f = .loss (distanceTo b)
  terms : s.terms = [modulusTerm z u]
  x : s.x = single x
  strategy : s.strategy = .descent 1 1

theorem isAt_numberSolver (b : ℝ) (config : Config ℝ) (a : ℝ) :
    IsAt b (numberSolver b config a) a a 0 :=
  ⟨rfl, rfl, rfl, rfl⟩

/-- A step takes the results of the iteration over, and solves its x-update exactly. -/
theorem IsAt.step {s : Solver ℝ ℝ ℝ} (hs : IsAt b s x z u) (hstate : s.state.isTerminal = false)
    (h : 2 ≤ b + z + u) (t : Trace ℝ ℝ) : ∃ s', s.step t = ((.ok (), s'), t) ∧
      IsAt b s' ((b + z - u) / 2) ((b + z + u) / 2 - 1) 1 ∧
      s'.state = nextState s.config (s.iteration + 1)
        (numberResult b ((b + z - u) / 2) z u).diagnostics ∧
      (s.config.record = .default → statistics (s.iteration + 1)
        (numberResult b ((b + z - u) / 2) z u) ∈ s'.history.records) ∧
      s'.iteration = s.iteration + 1 ∧ s'.config = s.config ∧
      (s.xUpdate.gradient s'.x : Eval ℝ ℝ _).outcome = .ok (single 0) := by
  let result := numberResult b ((b + z - u) / 2) z u
  have hpoint : s.point t = ⟨[modulusTerm z u], single x, .descent 1 1, t, none⟩ := by
    rw [point, hs.terms, hs.x, hs.strategy]
  obtain ⟨r, strategy, timing, trace, hq, hstep⟩ := step_of_update hstate
    ((hpoint ▸ hs.f ▸ update_number h x t none (s.iteration + 1) :
      (s.point t).update s.f (s.iteration + 1) = _))
  obtain ⟨hterms, hx, rfl, rfl, hr⟩ := Iterate.mk.inj hq
  obtain rfl : result = r := Option.some.inj hr
  refine ⟨_, hstep, ⟨hs.f, hterms.symm, hx.symm, rfl⟩, rfl, fun hrecord => ?_, rfl, rfl, ?_⟩
  · have hrecorded : ((s.iteration + 1) % s.config.record.period = 0 ||
        (nextState s.config (s.iteration + 1) result.diagnostics).isTerminal) = true := by
      rw [hrecord, RecordOptions.default, Nat.mod_one]
      rfl
    have hhistory : (commit { s with state := .running, strategy := .descent 1 1, timing := timing }
        result).history = s.history.push (statistics (s.iteration + 1) result) := if_pos hrecorded
    rw [hhistory, History.records_push]
    exact List.mem_append_right _ (List.mem_singleton_self _)
  · have hzero : 2 * ((b + z - u) / 2) - b - z + u = 0 := by ring
    have hupdate : s.xUpdate = numberUpdate b z u := by
      rw [xUpdate, hs.f, hs.terms]
      rfl
    rw [hupdate, ← hzero]
    exact congrArg Prod.fst (run_gradient_number b _ z u .empty)

/-- The first two steps.  After the second one the constraint holds. -/
theorem exists_two_steps (hb : 1 ≤ b) (ha : 2 ≤ b + a) (t : Trace ℝ ℝ) : ∃ s s' : Solver ℝ ℝ ℝ,
    (numberSolver b .default a).step t = ((.ok (), s), t) ∧
    IsAt b s ((b + a) / 2) (numberSplit b a 1) 1 ∧ s.iteration = 1 ∧
    ((numberSolver b .default a).xUpdate.gradient s.x : Eval ℝ ℝ _).outcome = .ok (single 0) ∧
    s.step t = ((.ok (), s'), t) ∧ IsAt b s' (numberSplit b a 2) (numberSplit b a 2) 1 ∧
    s'.iteration = 2 ∧ (s.xUpdate.gradient s'.x : Eval ℝ ℝ _).outcome = .ok (single 0) ∧
    statistics 2 (numberResult b (numberSplit b a 2) (numberSplit b a 1) 1) ∈
      s'.history.records := by
  have hx : (b + a - 0) / 2 = (b + a) / 2 := by rw [sub_zero]
  have hz : (b + a + 0) / 2 - 1 = numberSplit b a 1 := by
    rw [numberSplit, pow_one, RealArithmetic.half_eq]
    ring
  have hx' : (b + numberSplit b a 1 - 1) / 2 = numberSplit b a 2 := (numberSplit_succ b a 1).symm
  have hz' : (b + numberSplit b a 1 + 1) / 2 - 1 = numberSplit b a 2 := by
    rw [← hx']
    ring
  obtain ⟨s, hstep, hs, hstate, -, hiteration, hconfig, hgradient⟩ :=
    (isAt_numberSolver b .default a).step rfl (by linarith) t
  rw [hx, hz] at hs
  have hrunning : s.state.isTerminal = false := by
    rw [hstate]
    rfl
  have hle : 2 ≤ b + numberSplit b a 1 + 1 := by linarith [one_sub_le_numberSplit hb ha 1]
  obtain ⟨s', hstep', hs', -, hrow, hiteration', -, hgradient'⟩ := hs.step hrunning hle t
  rw [hx', hz'] at hs'
  rw [hiteration, hx'] at hrow
  rw [hiteration] at hiteration'
  exact ⟨s, s', hstep, hs, hiteration, hgradient, hstep', hs', hiteration', hgradient',
    hrow (congrArg Config.record hconfig)⟩

end Solver

end

end OperatorSplitting
