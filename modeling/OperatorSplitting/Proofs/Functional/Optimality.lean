import Mathlib
import OperatorSplitting.Proofs.Functional.GroupNorm
import OperatorSplitting.Proofs.Functional.SquaredLoss

/-!
# What proximal maps and gradients compute

The convex functionals of the library are of two kinds.  Penalties are used through their proximal
maps: if `z` is the proximal point of `v` with step `t`, then `(v - z) / t` is a subgradient at `z`.
Fidelity terms are used through their gradients, which are subgradients.  Both kinds may be multiplied
by positive numbers, any number of times.
-/

namespace OperatorSplitting

open Eval

noncomputable section

namespace Functional

variable {K : Type} [ExactScalar K] {names : Naming K} {f g : Functional K ℝ ℝ}

/-- A norm, the squared norm, the indicator, zero, or a positive multiple of one of them. -/
def IsPenalty : Functional K ℝ ℝ → Prop
  | .zero | .l1 | .l21 _ | .squaredL2 | .nonNegative => True
  | .multiple s f => 0 < s ∧ f.IsPenalty
  | _ => False

/-- A squared loss of a linear operator, the squared norm, zero, or a positive multiple of one of
them. -/
def IsFidelity (names : Naming K) : Functional K ℝ ℝ → Prop
  | .zero | .squaredL2 => True
  | .loss l => l.IsLinear names
  | .multiple s f => 0 < s ∧ f.IsFidelity names
  | _ => False

theorem IsPenalty.named (h : g.IsPenalty) : g.Named names := by
  induction g with
  | multiple s f ih => exact ih h.2
  | loss l => exact absurd h id
  | external e => exact absurd h id
  | _ => exact trivial

theorem IsFidelity.named (h : f.IsFidelity names) : f.Named names := by
  induction f with
  | multiple s f ih => exact ih h.2
  | loss l => exact h.operator.named
  | external e => exact absurd h id
  | _ => exact trivial

omit [ExactScalar K] in
/-- Only positive multiples can be made. -/
theorem scaled_eq_ok_iff {s : ℝ} {f' : Functional K ℝ ℝ} :
    f.scaled s = .ok f' ↔ 0 < s ∧ f' = multiple s f := by
  have hpositive : RealArithmetic.isPositive s = true ↔ 0 < s := by
    simp [RealArithmetic.isPositive, RealArithmetic.lt, RealArithmetic.isFinite]
  unfold scaled
  by_cases hs : 0 < s
  · rw [if_pos (hpositive.mpr hs)]
    exact ⟨fun h => ⟨hs, (Except.ok.inj h).symm⟩, fun h => congrArg Except.ok h.2.symm⟩
  · rw [if_neg (hpositive.not.mpr hs)]
    constructor
    · intro h
      cases h
    · intro h
      exact absurd h.1 hs

omit [ExactScalar K] in
theorem IsPenalty.of_scaled {s : ℝ} {f' : Functional K ℝ ℝ} (hf : f.IsPenalty)
    (h : f.scaled s = .ok f') : f'.IsPenalty := by
  obtain ⟨hs, rfl⟩ := scaled_eq_ok_iff.mp h
  exact ⟨hs, hf⟩

theorem IsFidelity.of_scaled {s : ℝ} {f' : Functional K ℝ ℝ} (hf : f.IsFidelity names)
    (h : f.scaled s = .ok f') : f'.IsFidelity names := by
  obtain ⟨hs, rfl⟩ := scaled_eq_ok_iff.mp h
  exact ⟨hs, hf⟩

/-- Zero is a subgradient of the zero functional. -/
theorem subgradient_zero (x : Signal K) : (zero : Functional K ℝ ℝ).Subgradient 0 x := by
  have hvalue (p : Signal K) : ((zero : Functional K ℝ ℝ).value p : Eval K ℝ ℝ).outcome = .ok 0 :=
    rfl
  refine subgradient_of_value (hvalue x) trivial fun p _ => ⟨0, hvalue p, fun _ => ?_⟩
  rw [inner_zero_left, add_zero]

/-- A proximal point gives a subgradient. -/
theorem subgradient_of_prox (names : Naming K) (hg : g.IsPenalty) {v z : Signal K} {t : ℝ}
    (ht : 0 < t) (h : (g.prox v t : Eval K ℝ _).outcome = .ok z) :
    z.shape = v.shape ∧ g.Subgradient ((1 / t) • (v.vec - z.vec)) z := by
  induction g generalizing t with
  | zero =>
    cases h
    rw [sub_self, smul_zero]
    exact ⟨rfl, subgradient_zero v⟩
  | l1 =>
    cases h
    exact ⟨Signal.shape_map _ v, L1.subgradient_prox ht v⟩
  | l21 axis => exact L21.subgradient_prox ht h
  | squaredL2 =>
    cases h
    exact ⟨Signal.shape_scaled v _, SquaredL2.subgradient_prox ht v⟩
  | nonNegative => exact NonNegative.subgradient_prox ht h
  | prior d => exact absurd hg id
  | loss l => exact absurd hg id
  | external e => exact absurd hg id
  | multiple s f ih =>
    obtain ⟨hs, hf⟩ := hg
    obtain ⟨hshape, hsubgradient⟩ := ih hf (mul_pos hs ht) h
    have hnamed : f.Named names := hf.named
    refine ⟨hshape, ?_⟩
    have hslope : (1 / t) • (v.vec - z.vec) = s • (1 / (s * t)) • (v.vec - z.vec) := by
      rw [smul_smul]
      congr 1
      field_simp
    rw [hslope]
    exact hsubgradient.multiple hnamed hs

/-- A gradient is a subgradient. -/
theorem subgradient_of_grad (hf : f.IsFidelity names) {x g : Signal K}
    (h : (f.grad x : Eval K ℝ _).outcome = .ok g) :
    g.shape = x.shape ∧ f.Subgradient g.vec x := by
  induction f generalizing g with
  | zero =>
    cases h
    rw [Signal.vec_zeros]
    exact ⟨Signal.shape_replicate _ _, subgradient_zero x⟩
  | squaredL2 =>
    cases h
    refine ⟨Signal.shape_scaled x _, ?_⟩
    refine subgradient_of_value rfl trivial fun p _ => ⟨_, rfl, fun _ => ?_⟩
    rw [SquaredL2.vec_grad, SquaredL2.value, SquaredL2.value, Signal.normSqr_eq, Signal.normSqr_eq]
    exact SquaredL2.tangent_le _ _
  | loss l => exact SquaredLoss.subgradient_grad hf h
  | l1 => exact absurd hf id
  | l21 axis => exact absurd hf id
  | nonNegative => exact absurd hf id
  | prior d => exact absurd hf id
  | external e => exact absurd hf id
  | multiple s f ih =>
    obtain ⟨hs, hf⟩ := hf
    rw [outcome_grad_multiple hf.named, Except.map_eq_ok_iff] at h
    obtain ⟨g', hg', rfl⟩ := h
    obtain ⟨hshape, hsubgradient⟩ := ih hf hg'
    refine ⟨(Signal.shape_scaled _ _).trans hshape, ?_⟩
    rw [Signal.vec_scaled]
    exact hsubgradient.multiple hf.named hs

end Functional

end

end OperatorSplitting
