import Mathlib
import OperatorSplitting.Proofs.Linear.Adjointness

/-!
# Operators between vectors

The solvers see an operator through `apply` and `adjoint` alone.  For an expression over linear
primitive operators this module says what they need to know of the two: the shapes of the results,
that having a result is decided by the shape of the argument, and that the real inner product of
vectors moves from one side to the other.
-/

namespace OperatorSplitting

open Eval

variable {K : Type} [ExactScalar K] {names : Naming K}

namespace LinearOperator

/-- An expression whose shapes fit together over linear primitive operators, with the closures that
their numbers stand for. -/
structure IsLinear (names : Naming K) (a : LinearOperator K) : Prop where
  wellShaped : a.WellShaped
  named : a.Named names
  leaves : a.AllLeaves Leaf.IsLinear

theorem outcome_apply_eq_ok_iff {a : LinearOperator K} {x u : Signal K} :
    (a.apply x : Eval K ℝ _).outcome = .ok u ↔
      x.shape = a.input ∧ a.outcomeMap .forward x = .ok u := by
  unfold apply evalChecked
  by_cases hx : x.shape = a.input
  · rw [if_pos hx]
    exact ⟨fun h => ⟨hx, h⟩, fun h => h.2⟩
  · rw [if_neg hx]
    constructor
    · intro h
      cases h
    · intro h
      exact absurd h.1 hx

theorem outcome_adjoint_eq_ok_iff {a : LinearOperator K} {y v : Signal K} :
    (a.adjoint y : Eval K ℝ _).outcome = .ok v ↔
      y.shape = a.output ∧ a.outcomeMap .adjoint y = .ok v := by
  unfold adjoint
  by_cases hy : y.shape = a.output
  · rw [if_pos hy]
    exact ⟨fun h => ⟨hy, h⟩, fun h => h.2⟩
  · rw [if_neg hy]
    constructor
    · intro h
      cases h
    · intro h
      exact absurd h.1 hy

namespace IsLinear

variable {a : LinearOperator K} {x x' y u v : Signal K}

theorem adjointMaps (h : a.IsLinear names) :
    AdjointMaps (a.outcomeMap .forward) (a.outcomeMap .adjoint) a.input a.output :=
  LinearOperator.adjointMaps h.wellShaped h.named h.leaves

theorem shape_apply (h : a.IsLinear names) (hu : (a.apply x : Eval K ℝ _).outcome = .ok u) :
    x.shape = a.input ∧ u.shape = a.output := by
  obtain ⟨hx, hu⟩ := outcome_apply_eq_ok_iff.mp hu
  exact ⟨hx, h.adjointMaps.forward.shape_eq hx hu⟩

theorem shape_adjoint (h : a.IsLinear names) (hv : (a.adjoint y : Eval K ℝ _).outcome = .ok v) :
    y.shape = a.output ∧ v.shape = a.input := by
  obtain ⟨hy, hv⟩ := outcome_adjoint_eq_ok_iff.mp hv
  exact ⟨hy, h.adjointMaps.backward.shape_eq hy hv⟩

/-- The operator has a result at every signal of a shape, or at none. -/
theorem apply_uniform (h : a.IsLinear names) (hu : (a.apply x : Eval K ℝ _).outcome = .ok u)
    (hshape : x'.shape = x.shape) : ∃ u', (a.apply x' : Eval K ℝ _).outcome = .ok u' := by
  obtain ⟨hx, hu⟩ := outcome_apply_eq_ok_iff.mp hu
  obtain ⟨u', hu'⟩ := h.adjointMaps.forward.uniform hx hu (hshape.trans hx)
  exact ⟨u', outcome_apply_eq_ok_iff.mpr ⟨hshape.trans hx, hu'⟩⟩

theorem inner_adjoint (h : a.IsLinear names) (hu : (a.apply x : Eval K ℝ _).outcome = .ok u)
    (hv : (a.adjoint y : Eval K ℝ _).outcome = .ok v) :
    inner ℝ y.vec u.vec = inner ℝ v.vec x.vec := by
  obtain ⟨hx, hu⟩ := outcome_apply_eq_ok_iff.mp hu
  obtain ⟨hy, hv⟩ := outcome_adjoint_eq_ok_iff.mp hv
  rw [Signal.inner_vec, Signal.inner_vec, h.adjointMaps.pairing_eq hx hy hu hv]

/-- The inner product with a difference of results. -/
theorem inner_adjoint_sub (h : a.IsLinear names) {u' : Signal K}
    (hu : (a.apply x : Eval K ℝ _).outcome = .ok u)
    (hu' : (a.apply x' : Eval K ℝ _).outcome = .ok u')
    (hv : (a.adjoint y : Eval K ℝ _).outcome = .ok v) :
    inner ℝ y.vec (u'.vec - u.vec) = inner ℝ v.vec (x'.vec - x.vec) := by
  rw [inner_sub_right, inner_sub_right, h.inner_adjoint hu hv, h.inner_adjoint hu' hv]

end IsLinear

/-- The image of a signal as a vector; zero where there is none. -/
noncomputable def imageVec (a : LinearOperator K) (x : Signal K) : Vector :=
  match (a.apply x : Eval K ℝ _).outcome with
  | .ok u => u.vec
  | .error _ => 0

theorem imageVec_eq {a : LinearOperator K} {x u : Signal K}
    (h : (a.apply x : Eval K ℝ _).outcome = .ok u) : a.imageVec x = u.vec := by
  rw [imageVec, h]

end LinearOperator

end OperatorSplitting
