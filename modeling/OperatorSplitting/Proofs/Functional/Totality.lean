import Mathlib
import OperatorSplitting.Proofs.Functional.Optimality
import OperatorSplitting.Proofs.Functional.Shapes

/-!
# Functionals that never fail

The functionals of the library check little: the indicator refuses complex elements, and the mixed
norm needs groups and room for their norms.  Where these conditions hold for a shape, a penalty has a
value and a proximal map at every signal of that shape (`IsPenaltyOn`), and so has a squared loss a
value whose operator takes signals of that shape (`IsLeastSquaresOn`).
-/

namespace OperatorSplitting

open Eval

noncomputable section

variable {K : Type} [ExactScalar K]

/-! ### The mixed norm -/

namespace L21

variable {axis : ℕ} {x v : Signal K} {t : ℝ}

/-- The signals of a shape have groups whose norms can be kept, and an array of the shape can be kept
itself. -/
def HasRoom (axis : ℕ) (s : Shape) : Prop :=
  CanGroup axis s ∧ ∀ dims, s = .flat dims → Storable dims

theorem exists_value (h : CanGroup axis x.shape) : ∃ a, value axis x = .ok a :=
  ⟨_, value_eq_ok_iff.mpr ⟨h, rfl⟩⟩

theorem exists_prox (h : HasRoom axis v.shape) :
    ∃ z, prox axis v t = .ok z ∧ z.shape = v.shape := by
  have hnorms : groupNorms axis v = .ok (.ofFn (groupDims axis v.shape) (groupNorm axis v)) :=
    groupNorms_eq_ok_iff.mpr ⟨h.1, rfl⟩
  obtain ⟨z, hz⟩ : ∃ z, prox axis v t = .ok z := by
    cases v with
    | flat a =>
      obtain ⟨r, hr, -⟩ := exists_scaleBlock
        ((Tensor.ofFn (a.dims.set axis 1) (groupNorm axis (.flat a))).map (factor t)) a
        (.inr ⟨stretches_set_one a.dims axis, h.2 a.dims rfl⟩)
      exact ⟨.flat r, Except.bind_eq_ok_iff.mpr ⟨_, hnorms, Except.map_eq_ok_iff.mpr ⟨r, hr, rfl⟩⟩⟩
    | blocked as =>
      cases as with
      | nil => exact absurd h.1 id
      | cons a as =>
        obtain ⟨rs, hrs, -⟩ := exists_scaleBlocks
          ((Tensor.ofFn a.dims (groupNorm axis (.blocked (a :: as)))).map (factor t)) h.1.dims_eq
        exact ⟨.blocked rs,
          Except.bind_eq_ok_iff.mpr ⟨_, hnorms, Except.map_eq_ok_iff.mpr ⟨rs, hrs, rfl⟩⟩⟩
  exact ⟨z, hz, (prox_spec hz).2.1⟩

end L21

/-! ### Penalties -/

namespace Functional

variable {g f : Functional K ℝ ℝ}

/-- A penalty that has values and proximal points on a shape: a norm, the squared norm, zero, the
indicator of real signals, the mixed norm with groups that fit the shape, or a multiple of one of
them. -/
def IsPenaltyOn (s : Shape) : Functional K ℝ ℝ → Prop
  | .zero | .l1 | .squaredL2 => True
  | .nonNegative => (Scalar.dtype K).isComplex = false
  | .l21 axis => L21.HasRoom axis s
  | .multiple _ f => f.IsPenaltyOn s
  | _ => False

theorem IsPenaltyOn.of_scaled {s : Shape} {r : ℝ} (hg : g.IsPenaltyOn s)
    (h : g.scaled r = .ok f) : f.IsPenaltyOn s := by
  obtain ⟨-, rfl⟩ := scaled_eq_ok_iff.mp h
  exact hg

theorem IsPenaltyOn.succeeds_value {x : Signal K} (h : g.IsPenaltyOn x.shape) :
    Succeeds (g.value x : Eval K ℝ ℝ) fun _ => True := by
  induction g with
  | zero => exact .pure trivial
  | l1 => exact .pure trivial
  | l21 axis =>
    obtain ⟨a, ha⟩ := L21.exists_value h.1
    exact .liftExcept ⟨a, ha, trivial⟩
  | squaredL2 => exact .pure trivial
  | nonNegative => exact .liftExcept ⟨_, NonNegative.value_eq_ok h x, trivial⟩
  | prior d => exact h.elim
  | loss l => exact h.elim
  | external e => exact h.elim
  | multiple s f ih => exact (ih h).bind fun _ _ => .pure trivial

theorem IsPenaltyOn.succeeds_prox {v : Signal K} (h : g.IsPenaltyOn v.shape) (t : ℝ) :
    Succeeds (g.prox v t : Eval K ℝ _) fun z => z.shape = v.shape := by
  induction g generalizing t with
  | zero => exact .pure rfl
  | l1 => exact .pure (Signal.shape_map _ v)
  | l21 axis => exact .liftExcept (L21.exists_prox h)
  | squaredL2 => exact .pure (Signal.shape_scaled v _)
  | nonNegative =>
    have hreal := NonNegative.requireReal_eq_ok_iff.mpr h
    have hprox : NonNegative.prox v =
        .ok (v.map fun a => Scalar.ofReal (RealArithmetic.max (Scalar.re a) 0)) :=
      Except.bind_eq_ok_iff.mpr ⟨(), hreal, rfl⟩
    exact .liftExcept ⟨_, hprox, Signal.shape_map _ v⟩
  | prior d => exact h.elim
  | loss l => exact h.elim
  | external e => exact h.elim
  | multiple s f ih => exact ih h (s * t)

end Functional

/-! ### Squared losses -/

/-- A loss as the constructors make it, of an operator without closures that takes signals of a
shape. -/
structure SquaredLoss.IsPlainOn (s : Shape) (l : SquaredLoss K ℝ) : Prop where
  operator : l.operator.IsPlain
  input : l.operator.input = s
  observation : l.observation.shape = l.operator.output
  scale : 0 < l.scale

theorem SquaredLoss.isPlainOn_of_ofObservation {y : Signal K} {a : LinearOperator K}
    {l : SquaredLoss K ℝ} (ha : a.IsPlain) (h : ofObservation y a = .ok l) :
    l.IsPlainOn a.input := by
  obtain ⟨-, hobservation, hscale⟩ := isLinear_of_ofObservation ha.isLinear h
  unfold ofObservation at h
  split at h
  · obtain ⟨d, -, rfl⟩ := Except.map_eq_ok_iff.mp h
    exact ⟨ha, rfl, hobservation, hscale⟩
  · cases h

theorem SquaredLoss.IsPlainOn.succeeds_value {l : SquaredLoss K ℝ} {x : Signal K}
    (h : l.IsPlainOn x.shape) : Succeeds (l.value x : Eval K ℝ ℝ) fun _ => True := by
  refine Succeeds.bind (p := fun _ => True) ?_ fun _ _ => .pure trivial
  refine (h.operator.succeeds_apply h.input.symm).bind fun u ⟨_, hu⟩ => ?_
  exact (Signal.succeeds_zipMap _ _ (hu.trans h.observation.symm)).mono fun _ _ => trivial

namespace Functional

variable {f : Functional K ℝ ℝ}

/-- A squared loss on a shape, or a positive multiple of one. -/
def IsLeastSquaresOn (s : Shape) : Functional K ℝ ℝ → Prop
  | .loss l => l.IsPlainOn s
  | .multiple r f => 0 < r ∧ f.IsLeastSquaresOn s
  | _ => False

omit [ExactScalar K] in
theorem IsLeastSquaresOn.of_scaled {g : Functional K ℝ ℝ} {s : Shape} {r : ℝ}
    (hf : f.IsLeastSquaresOn s) (h : f.scaled r = .ok g) : g.IsLeastSquaresOn s := by
  obtain ⟨hr, rfl⟩ := scaled_eq_ok_iff.mp h
  exact ⟨hr, hf⟩

/-- Multiples of a squared loss are recognized as one. -/
theorem IsLeastSquaresOn.exists_loss {s : Shape} (h : f.IsLeastSquaresOn s) :
    ∃ l, f.asSquaredLoss? = some l ∧ l.IsPlainOn s := by
  induction f with
  | loss l => exact ⟨l, rfl, h⟩
  | multiple r f ih =>
    obtain ⟨hr, hf⟩ := h
    obtain ⟨l, hl, hplain⟩ := ih hf
    exact ⟨l.rescaled r, Option.map_eq_some_iff.mpr ⟨l, hl, rfl⟩,
      ⟨hplain.operator, hplain.input, hplain.observation, mul_pos hplain.scale hr⟩⟩
  | _ => exact h.elim

theorem IsLeastSquaresOn.succeeds_value {x : Signal K} (h : f.IsLeastSquaresOn x.shape) :
    Succeeds (f.value x : Eval K ℝ ℝ) fun _ => True := by
  induction f with
  | loss l => exact SquaredLoss.IsPlainOn.succeeds_value h
  | multiple r f ih => exact (ih h.2).bind fun _ _ => .pure trivial
  | _ => exact h.elim

end Functional

end

end OperatorSplitting
