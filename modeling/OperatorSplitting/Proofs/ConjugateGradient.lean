import Mathlib
import OperatorSplitting.ConjugateGradient
import OperatorSplitting.Proofs.Linear.NormalOperator

/-!
# Conjugate gradients on semidefinite operators

Normal operators may be singular, and then a direction without curvature would stop the method.
None is ever met.  The residual and the direction are orthogonal to all signals that the operators
send to zero, and the inner product of both is the squared norm of the residual; every iteration
keeps this (`CgState.Ready`).  A direction without curvature is sent to zero, so it is orthogonal to
itself, and the residual vanishes; but the method iterates only while the residual is above a
threshold that is not negative.

Only the right-hand side has to be orthogonal to the signals that the operators send to zero.
-/

namespace OperatorSplitting

open Eval LinearOperator

noncomputable section

variable {K : Type} [ExactScalar K]

theorem neg_ofReal (r : ℝ) : (-Scalar.ofReal r : K) = Scalar.ofReal (-r) := by
  apply ExactScalar.val_injective
  rw [ExactScalar.val_neg, ExactScalar.val_ofReal, ExactScalar.val_ofReal, Complex.ofReal_neg]

theorem Signal.vec_addScaled_neg {r : ℝ} {x y z : Signal K}
    (h : x.addScaled (-Scalar.ofReal r) y = .ok z) : z.vec = x.vec + -r • y.vec := by
  rw [neg_ofReal] at h
  exact vec_addScaled h

/-- Going to the minimum along a direction makes the residual orthogonal to it, so that by turning the
direction its inner product with the residual stays the squared norm of the residual. -/
theorem inner_turned {direction residual image direction' residual' : Vector} {alpha beta : ℝ}
    (hinner : inner ℝ direction residual = alpha * inner ℝ direction image)
    (hresidual : residual' = residual + -alpha • image)
    (hdirection : direction' = residual' + beta • direction) :
    inner ℝ direction' residual' = ‖residual'‖ ^ 2 := by
  have horthogonal : inner ℝ direction residual' = 0 := by
    rw [hresidual, inner_add_right, real_inner_smul_right, hinner, neg_mul, add_neg_cancel]
  rw [hdirection, inner_add_left, real_inner_self_eq_norm_sq, real_inner_smul_left, horthogonal,
    mul_zero, add_zero]

/-- Exactly the directions without positive curvature are refused. -/
theorem refuses_curvature_iff (curvature : ℝ) :
    (!(RealArithmetic.lt 0 curvature) || !(RealArithmetic.isFinite curvature)) = true ↔
      ¬0 < curvature := by
  simp [RealArithmetic.lt, RealArithmetic.isFinite]

variable {a : LinearOperator K} {operators : List (LinearOperator K × ℝ)}

namespace CgState

/-- An iteration that goes to the minimum along the direction. -/
theorem inner_next {s : CgState K ℝ} {image r p : Signal K} {alpha beta : ℝ}
    (hinner : inner ℝ s.direction.vec s.residual.vec =
      alpha * inner ℝ s.direction.vec image.vec)
    (hr : s.residual.addScaled (-Scalar.ofReal alpha) image = .ok r)
    (hp : r.add (s.direction.scaled (Scalar.ofReal beta)) = .ok p) :
    inner ℝ p.vec r.vec = ‖r.vec‖ ^ 2 := by
  have hdirection : p.vec = r.vec + beta • s.direction.vec := by
    rw [Signal.vec_add hp, Signal.vec_scaled]
  exact inner_turned hinner (Signal.vec_addScaled_neg hr) hdirection

/-- What holds of every iterate: the shapes, the squared norm of the residual, and that residual and
direction are in the range and have this squared norm as their inner product. -/
structure Ready (operators : List (LinearOperator K × ℝ)) (shape : Shape) (s : CgState K ℝ) :
    Prop where
  x_shape : s.x.shape = shape
  residual_shape : s.residual.shape = shape
  direction_shape : s.direction.shape = shape
  residualSqr : s.residualSqr = ‖s.residual.vec‖ ^ 2
  inner_eq : inner ℝ s.direction.vec s.residual.vec = ‖s.residual.vec‖ ^ 2
  residual_range : InRange operators s.residual
  direction_range : InRange operators s.direction

/-- The residual at the starting point of a right-hand side in the range. -/
theorem succeeds_start (ha : a.IsNormal operators) {b x : Signal K} (hb : b.shape = a.input)
    (hx : x.shape = a.input) (hrange : InRange operators b) :
    Succeeds (start a b x : Eval K ℝ (CgState K ℝ)) (Ready operators a.input) := by
  refine (ha.plain.succeeds_apply hx).bind fun u ⟨hu, hushape⟩ => ?_
  have hbu : b.shape = u.shape := hb.trans (ha.square.symm.trans hushape.symm)
  refine (Signal.succeeds_zipMap _ _ hbu).bind fun r hr => .pure ?_
  have hrshape : r.shape = b.shape := Signal.shape_of_zipMap hr
  have hrrange : InRange operators r := hrange.sub (ha.inRange_apply hu) hr
  exact {
    x_shape := hx
    residual_shape := hrshape.trans hb
    direction_shape := hrshape.trans hb
    residualSqr := Signal.normSqr_eq r
    inner_eq := real_inner_self_eq_norm_sq _
    residual_range := hrrange
    direction_range := hrrange }

/-- While the residual does not vanish, the direction has curvature. -/
theorem Ready.energy_pos {s : CgState K ℝ} {shape : Shape} (hs : s.Ready operators shape)
    (hpos : ∀ p ∈ operators, 0 < p.2) (hresidual : 0 < s.residualSqr) :
    0 < energy operators s.direction := by
  -- Without energy the direction, which is in the range, would be orthogonal to itself.
  refine lt_of_le_of_ne (energy_nonneg hpos) fun hzero => ?_
  have hvanishes := vanishes_of_energy hpos hzero.symm
  have hdirection : s.direction.vec = 0 :=
    inner_self_eq_zero.mp (hs.direction_range.inner_eq_zero s.direction rfl hvanishes)
  have hnorm := hs.inner_eq
  rw [hdirection, inner_zero_left, ← hs.residualSqr] at hnorm
  exact hresidual.ne hnorm

/-- The state after going to the minimum along the direction and turning the direction by any
amount.  The new residual is orthogonal to the old direction. -/
theorem Ready.next (ha : a.IsNormal operators) {s : CgState K ℝ} (hs : s.Ready operators a.input)
    {image x r p : Signal K} {alpha beta : ℝ} {k : ℕ}
    (himage : (a.apply s.direction : Eval K ℝ _).outcome = .ok image)
    (halpha : alpha * energy operators s.direction = s.residualSqr)
    (hx : x.shape = a.input) (hr : s.residual.addScaled (-Scalar.ofReal alpha) image = .ok r)
    (hp : r.add (s.direction.scaled (Scalar.ofReal beta)) = .ok p) :
    Ready operators a.input ⟨x, r, p, r.normSqr, k⟩ := by
  have hshape : image.shape = a.input :=
    (ha.plain.isLinear.shape_apply himage).2.trans ha.square
  have hrshape : r.shape = a.input := (Signal.shape_of_zipMap hr).trans hs.residual_shape
  have hpshape : p.shape = a.input := (Signal.shape_of_zipMap hp).trans hrshape
  have hdecrease : inner ℝ s.direction.vec s.residual.vec =
      alpha * inner ℝ s.direction.vec image.vec := by
    rw [ha.inner_apply himage, halpha, hs.inner_eq, hs.residualSqr]
  have hrrange : InRange operators r := by
    rw [neg_ofReal] at hr
    exact hs.residual_range.addScaled (ha.inRange_apply himage) hr
  have hprange : InRange operators p := hrrange.add (hs.direction_range.scaled beta) hp
  exact ⟨hx, hrshape, hpshape, Signal.normSqr_eq r, inner_next hdecrease hr hp, hrrange, hprange⟩

/-- One iteration. -/
theorem Ready.succeeds_step (ha : a.IsNormal operators) (hpos : ∀ p ∈ operators, 0 < p.2)
    {s : CgState K ℝ} (hs : s.Ready operators a.input) (hresidual : 0 < s.residualSqr) :
    Succeeds (s.step a : Eval K ℝ _) (Ready operators a.input) := by
  unfold step
  refine (ha.plain.succeeds_apply hs.direction_shape).bind fun image ⟨himage, himageshape⟩ => ?_
  have hshape : image.shape = a.input := himageshape.trans ha.square
  obtain ⟨d, hd, hval⟩ := Signal.vdot_eq_ok (hs.direction_shape.trans hshape.symm)
  have hcurvature : Scalar.re d = energy operators s.direction := by
    rw [ExactScalar.re_eq, hval, ← Signal.inner_vec, ha.inner_apply himage]
  have hpositive : 0 < Scalar.re d := hcurvature ▸ hs.energy_pos hpos hresidual
  have hdot : Succeeds (liftM (s.direction.vdot image) : Eval K ℝ _) fun d' => d' = d :=
    .liftExcept ⟨d, hd, rfl⟩
  refine hdot.bind fun d' hd' => ?_
  subst hd'
  rw [if_neg (mt (refuses_curvature_iff _).mp (not_not_intro hpositive))]
  have halpha : s.residualSqr / Scalar.re d' * energy operators s.direction =
      s.residualSqr := by
    rw [← hcurvature, div_mul_cancel₀ _ hpositive.ne']
  refine (Signal.succeeds_zipMap _ _ (hs.x_shape.trans hs.direction_shape.symm)).bind fun x hx => ?_
  refine (Signal.succeeds_zipMap _ _ (hs.residual_shape.trans hshape.symm)).bind fun r hr => ?_
  have hrshape : r.shape = a.input := (Signal.shape_of_zipMap hr).trans hs.residual_shape
  have hturned : (s.direction.scaled (Scalar.ofReal (r.normSqr / s.residualSqr))).shape = a.input :=
    (Signal.shape_scaled _ _).trans hs.direction_shape
  refine (Signal.succeeds_zipMap _ _ (hrshape.trans hturned.symm)).bind fun p hp => .pure ?_
  exact hs.next ha himage halpha ((Signal.shape_of_zipMap hx).trans hs.x_shape) hr hp

omit [ExactScalar K] in
/-- A residual above a threshold that is not negative does not vanish. -/
theorem residualSqr_pos {s : CgState K ℝ} {threshold : ℝ} (hthreshold : 0 ≤ threshold)
    (h : RealArithmetic.lt threshold s.residualNorm = true) : 0 < s.residualSqr := by
  have hlt : threshold < √s.residualSqr := of_decide_eq_true h
  exact Real.sqrt_pos.mp (hthreshold.trans_lt hlt)

/-- All iterations. -/
theorem Ready.succeeds_iterate (ha : a.IsNormal operators) (hpos : ∀ p ∈ operators, 0 < p.2)
    {threshold : ℝ} (hthreshold : 0 ≤ threshold) (n : ℕ) {s : CgState K ℝ}
    (hs : s.Ready operators a.input) :
    Succeeds (s.iterate a threshold n : Eval K ℝ _) (Ready operators a.input) := by
  induction n generalizing s with
  | zero => exact .pure hs
  | succ n ih =>
    unfold iterate
    by_cases h : RealArithmetic.lt threshold s.residualNorm = true
    · rw [if_pos h]
      exact (hs.succeeds_step ha hpos (residualSqr_pos hthreshold h)).bind fun s' hs' => ih hs'
    · rw [if_neg h]
      exact .pure hs

end CgState

theorem CgOptions.threshold_nonneg {options : CgOptions ℝ} (h : 0 ≤ options.atol) (b : Signal K) :
    0 ≤ options.threshold b := h.trans (le_max_right _ _)

/-- A linear solve with a normal operator and a right-hand side in its range never fails, whatever
the ranks of the operators are, from any starting point and with any number of iterations. -/
theorem succeeds_conjugateGradient (ha : a.IsNormal operators) (hpos : ∀ p ∈ operators, 0 < p.2)
    {b x : Signal K} (hb : b.shape = a.input) (hx : x.shape = a.input)
    (hrange : InRange operators b) {options : CgOptions ℝ} (hatol : 0 ≤ options.atol) :
    Succeeds (conjugateGradient a b x options : Eval K ℝ _) fun r => r.1.shape = a.input := by
  unfold conjugateGradient
  rw [if_neg (not_ne_iff.mpr ha.square.symm), if_neg (not_ne_iff.mpr (hb.trans ha.square.symm))]
  refine (CgState.succeeds_start ha hb hx hrange).bind fun s hs => ?_
  refine (hs.succeeds_iterate ha hpos (options.threshold_nonneg hatol b) _).bind fun s' hs' => ?_
  exact .pure hs'.x_shape

end

end OperatorSplitting
