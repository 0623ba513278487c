import Mathlib
import OperatorSplitting.Proofs.Correspondence
import OperatorSplitting.Proofs.ConjugateGradient
import OperatorSplitting.Proofs.Admm.Evaluation

/-!
# Equations multiplied by a number

Multiply both sides of linear equations by a positive number.  Conjugate gradients then go through the
same iterates: residuals and directions are multiplied by the number, images of directions by its
square, and the step lengths are divided by it (`CgState.IsMultiple`).  The stopping rule sees no
difference if its threshold is multiplied, too.  Hence the same solution is reported, after the same
iterations, with a residual that is multiplied (`NormalEquations.IsMultiple.alike_solve`).

For the number one the equations are the same as far as evaluation can tell, however their operators are
written.
-/

namespace OperatorSplitting

open Eval

noncomputable section

variable {K : Type} [ExactScalar K] {names : Naming K} {c : ℝ}

/-! ### Multiples of signals -/

namespace Signal

/-- The second signal is a multiple of the first one. -/
structure IsMultiple (c : ℝ) (x x' : Signal K) : Prop where
  shape : x'.shape = x.shape
  vec : x'.vec = c • x.vec

variable {x x' y y' : Signal K}

theorem isMultiple_one : IsMultiple 1 x x' ↔ x = x' := by
  constructor
  · intro h
    exact vec_injective h.shape.symm (by rw [h.vec, one_smul])
  · rintro rfl
    exact ⟨rfl, (one_smul ℝ _).symm⟩

theorem isMultiple_scaled (x : Signal K) (c r : ℝ) :
    IsMultiple c (x.scaled (Scalar.ofReal r)) (x.scaled (Scalar.ofReal (c * r))) := by
  refine ⟨(shape_scaled _ _).trans (shape_scaled _ _).symm, ?_⟩
  rw [vec_scaled, vec_scaled, mul_smul]

theorem IsMultiple.normSqr (h : IsMultiple c x x') : x'.normSqr = c ^ 2 * x.normSqr := by
  rw [normSqr_eq, normSqr_eq, h.vec, norm_smul, mul_pow, Real.norm_eq_abs, sq_abs]

/-- Elementwise combinations of multiples fail for the same shapes. -/
theorem corresponds_zipMap {place place' : String} {f f' : K → K → K} {d : ℝ}
    (hx : x'.shape = x.shape) (hy : y'.shape = y.shape)
    (hvec : ∀ z z', zipMap place f x y = .ok z → zipMap place' f' x' y' = .ok z' →
      z'.vec = d • z.vec) :
    Corresponds (IsMultiple d) (zipMap place f x y) (zipMap place' f' x' y') := by
  have hiff : x.shape = y.shape ↔ x'.shape = y'.shape := by rw [hx, hy]
  refine .of_isOk (fun z hz => ?_) fun z' hz' => ?_
  · obtain ⟨z', hz', hshape, -⟩ : ∃ z', zipMap place' f' x' y' = .ok z' ∧ z'.shape = x'.shape ∧ _ :=
      zipMap_eq_ok (hiff.mp (shape_eq_of_zipMap hz))
    refine ⟨z', hz', ?_, hvec z z' hz hz'⟩
    rw [hshape, hx, (zipMap_spec hz).2.1]
  · obtain ⟨z, hz, -⟩ : ∃ z, zipMap place f x y = .ok z ∧ z.shape = x.shape ∧ _ :=
      zipMap_eq_ok (hiff.mpr (shape_eq_of_zipMap hz'))
    exact ⟨z, hz⟩

theorem IsMultiple.add (hx : IsMultiple c x x') (hy : IsMultiple c y y') :
    Corresponds (IsMultiple c) (x.add y) (x'.add y') := by
  refine corresponds_zipMap hx.shape hy.shape fun z z' hz hz' => ?_
  rw [vec_add hz, vec_add hz', hx.vec, hy.vec, smul_add]

theorem IsMultiple.sub (hx : IsMultiple c x x') (hy : IsMultiple c y y') :
    Corresponds (IsMultiple c) (x.sub y) (x'.sub y') := by
  refine corresponds_zipMap hx.shape hy.shape fun z z' hz hz' => ?_
  rw [vec_sub hz, vec_sub hz', hx.vec, hy.vec, smul_sub]

/-- The factor may make up for a multiple that is too large. -/
theorem IsMultiple.addScaled {d r r' : ℝ} (hx : IsMultiple c x x') (hy : IsMultiple d y y')
    (hr : r' * d = c * r) : Corresponds (IsMultiple c) (x.addScaled (Scalar.ofReal r) y)
      (x'.addScaled (Scalar.ofReal r') y') := by
  refine corresponds_zipMap hx.shape hy.shape fun z z' hz hz' => ?_
  rw [vec_addScaled hz, vec_addScaled hz', hx.vec, hy.vec, smul_add, smul_smul, smul_smul, hr]

theorem IsMultiple.scaled {r : ℝ} (hx : IsMultiple c x x') :
    IsMultiple c (x.scaled (Scalar.ofReal r)) (x'.scaled (Scalar.ofReal r)) := by
  refine ⟨?_, ?_⟩
  · rw [shape_scaled, shape_scaled, hx.shape]
  · rw [vec_scaled, vec_scaled, hx.vec, smul_comm]

theorem IsMultiple.vdot {d : ℝ} (hx : IsMultiple c x x') (hy : IsMultiple d y y') :
    Corresponds (fun v v' => Scalar.re v' = c * d * Scalar.re v) (x.vdot y) (x'.vdot y') := by
  by_cases hshape : x.shape = y.shape
  · obtain ⟨v, hv, hval⟩ := vdot_eq_ok hshape
    obtain ⟨v', hv', hval'⟩ := vdot_eq_ok (hx.shape.trans (hshape.trans hy.shape.symm))
    rw [hv, hv']
    refine .ok ?_
    rw [ExactScalar.re_eq, ExactScalar.re_eq, hval, hval', ← inner_vec, ← inner_vec, hx.vec, hy.vec,
      real_inner_smul_left, real_inner_smul_right, mul_assoc]
  · have hshape' : ¬x'.shape = y'.shape := by rwa [hx.shape, hy.shape]
    rw [Signal.vdot, Signal.vdot, if_neg hshape, if_neg hshape']
    exact .error

end Signal

open Signal

/-- The second operator is a multiple of the first one, as far as evaluation can tell. -/
structure LinearOperator.IsMultiple (names : Naming K) (c : ℝ) (a a' : LinearOperator K) : Prop where
  input : a'.input = a.input
  output : a'.output = a.output
  apply : ∀ x, Alike names (Signal.IsMultiple c) (a.apply x : Eval K ℝ _) (a'.apply x)
  apply_multiple : ∀ x x' : Signal K, x.IsMultiple c x' →
    Alike names (Signal.IsMultiple (c * c)) (a.apply x : Eval K ℝ _) (a'.apply x')

/-! ### Conjugate gradients -/

namespace CgState

/-- The state of a solve of equations multiplied by a number, beside that of the equations. -/
structure IsMultiple (c : ℝ) (s s' : CgState K ℝ) : Prop where
  x : s.x = s'.x
  residual : s.residual.IsMultiple c s'.residual
  direction : s.direction.IsMultiple c s'.direction
  residualSqr : s'.residualSqr = c ^ 2 * s.residualSqr
  iteration : s.iteration = s'.iteration

variable {a a' : LinearOperator K} {s s' : CgState K ℝ}

theorem IsMultiple.residualNorm (hc : 0 < c) (h : s.IsMultiple c s') :
    (s'.residualNorm : ℝ) = c * s.residualNorm := by
  show √s'.residualSqr = c * √s.residualSqr
  rw [h.residualSqr, Real.sqrt_mul (sq_nonneg c), Real.sqrt_sq hc.le]

theorem alike_start {b b' x : Signal K}
    (happly : Alike names (Signal.IsMultiple c) (a.apply x) (a'.apply x))
    (hb : b.IsMultiple c b') :
    Alike names (IsMultiple c) (start a b x : Eval K ℝ (CgState K ℝ)) (start a' b' x) :=
  happly.bind fun _ _ hu => (Alike.liftExcept (hb.sub hu)).bind fun _ _ hr =>
    .pure ⟨rfl, hr, hr, hr.normSqr, rfl⟩

/-- One iteration.  The curvature is multiplied by the third power, and the step length divided by the
number. -/
theorem IsMultiple.alike_step (hc : 0 < c) (h : s.IsMultiple c s')
    (happly : ∀ x x', x.IsMultiple c x' →
      Alike names (Signal.IsMultiple (c * c)) (a.apply x) (a'.apply x')) :
    Alike names (IsMultiple c) (s.step a : Eval K ℝ _) (s'.step a') := by
  unfold step
  refine (happly _ _ h.direction).bind fun image image' himage => ?_
  refine (Alike.liftExcept (h.direction.vdot himage)).bind fun v v' hv => ?_
  have hcube : 0 < c * (c * c) := mul_pos hc (mul_pos hc hc)
  have hrefuse : (!(RealArithmetic.lt 0 (Scalar.re v)) ||
        !(RealArithmetic.isFinite (Scalar.re v : ℝ))) = true ↔
      (!(RealArithmetic.lt 0 (Scalar.re v')) || !(RealArithmetic.isFinite (Scalar.re v' : ℝ))) =
        true := by
    rw [refuses_curvature_iff, refuses_curvature_iff, hv, mul_pos_iff_of_pos_left hcube]
  refine .ite hrefuse (.throw _ _) ?_
  have halpha : s'.residualSqr / Scalar.re v' * c = 1 * (s.residualSqr / Scalar.re v) := by
    rw [h.residualSqr, hv]
    field_simp
  have hx : s.x.IsMultiple 1 s'.x := isMultiple_one.mpr h.x
  refine (Alike.liftExcept (hx.addScaled h.direction halpha)).bind fun x x' hx' => ?_
  have hnegated : -(s'.residualSqr / Scalar.re v') * (c * c) =
      c * -(s.residualSqr / Scalar.re v) := by
    rw [one_mul] at halpha
    rw [← halpha]
    ring
  rw [neg_ofReal, neg_ofReal]
  refine (Alike.liftExcept (h.residual.addScaled himage hnegated)).bind fun r r' hr => ?_
  have hbeta : (r'.normSqr : ℝ) / s'.residualSqr = r.normSqr / s.residualSqr := by
    rw [hr.normSqr, h.residualSqr, mul_div_mul_left _ _ (pow_pos hc 2).ne']
  dsimp only
  rw [hbeta]
  refine (Alike.liftExcept (hr.add h.direction.scaled)).bind fun p p' hp => .pure ?_
  exact ⟨isMultiple_one.mp hx', hr, hp, hr.normSqr, congrArg (· + 1) h.iteration⟩

theorem IsMultiple.alike_iterate (hc : 0 < c)
    (happly : ∀ x x', x.IsMultiple c x' →
      Alike names (Signal.IsMultiple (c * c)) (a.apply x) (a'.apply x'))
    {threshold : ℝ} (n : ℕ) (h : s.IsMultiple c s') :
    Alike names (IsMultiple c) (s.iterate a threshold n : Eval K ℝ _)
      (s'.iterate a' (c * threshold) n) := by
  induction n generalizing s s' with
  | zero => exact .pure h
  | succ n ih =>
    have hgo : RealArithmetic.lt threshold (s.residualNorm : ℝ) = true ↔
        RealArithmetic.lt (c * threshold) (s'.residualNorm : ℝ) = true := by
      rw [h.residualNorm hc]
      simp [RealArithmetic.lt, hc]
    unfold iterate
    exact .ite hgo ((h.alike_step hc happly).bind fun _ _ hnext => ih hnext) (.pure h)

end CgState

/-- The report of a linear solve with its residual multiplied by a number. -/
def CgReport.rescaled (c : ℝ) (r : CgReport ℝ) : CgReport ℝ := { r with residual := c * r.residual }

/-- The report of an x-update with the residual of its linear solve multiplied by a number. -/
def SubproblemReport.rescaled (c : ℝ) (r : SubproblemReport K ℝ) : SubproblemReport K ℝ :=
  ⟨r.x, r.linearSolve.map (·.rescaled c)⟩

omit [ExactScalar K] in
theorem SubproblemReport.rescaled_one (r : SubproblemReport K ℝ) : r.rescaled 1 = r := by
  obtain ⟨x, report⟩ := r
  cases report with
  | none => rfl
  | some info =>
    show (⟨x, some { info with residual := 1 * info.residual }⟩ : SubproblemReport K ℝ) = _
    rw [one_mul]

theorem alike_conjugateGradient (hc : 0 < c) {a a' : LinearOperator K} (ha : a.IsMultiple names c a')
    {b b' x : Signal K} {options : CgOptions ℝ} (hb : b.IsMultiple c b')
    (hthreshold : options.threshold b' = c * options.threshold b) :
    Alike names (fun r r' => r'.1 = r.1 ∧ r'.2 = r.2.rescaled c)
      (conjugateGradient a b x options : Eval K ℝ _) (conjugateGradient a' b' x options) := by
  unfold conjugateGradient
  refine .ite (by rw [ha.input, ha.output]) (.throw _ _)
    (.ite (by rw [hb.shape, ha.output]) (.throw _ _) ?_)
  rw [hthreshold]
  refine (CgState.alike_start (ha.apply x) hb).bind fun s s' hs => ?_
  refine (hs.alike_iterate hc ha.apply_multiple options.maxIter).bind fun s s' hs => .pure ⟨hs.x.symm, ?_⟩
  have hconverged : RealArithmetic.le (s'.residualNorm : ℝ) (c * options.threshold b) =
      RealArithmetic.le s.residualNorm (options.threshold b) := by
    rw [hs.residualNorm hc]
    simp [RealArithmetic.le, hc]
  rw [CgReport.rescaled, hconverged, hs.residualNorm hc, hs.iteration]

/-! ### Normal equations -/

/-- The second equations are the first ones multiplied by a number, as far as evaluation can tell. -/
structure NormalEquations.IsMultiple (names : Naming K) (c : ℝ) (n n' : NormalEquations K) : Prop
    where
  lhs : n.lhs.IsMultiple names c n'.lhs
  rhsBase : n.rhsBase.IsMultiple c n'.rhsBase

/-- A relative tolerance follows the right-hand side. -/
theorem CgOptions.threshold_of_isMultiple {options : CgOptions ℝ} {b b' : Signal K} (hc : 0 < c)
    (hatol : c = 1 ∨ options.atol = 0) (hb : b.IsMultiple c b') :
    options.threshold b' = c * options.threshold b := by
  have hnorm : (b'.norm : ℝ) = c * b.norm := by
    show √b'.normSqr = c * √b.normSqr
    rw [hb.normSqr, Real.sqrt_mul (sq_nonneg c), Real.sqrt_sq hc.le]
  show max (options.tol * b'.norm) options.atol = c * max (options.tol * b.norm) options.atol
  rw [hnorm, mul_max_of_nonneg _ _ hc.le, mul_left_comm]
  rcases hatol with rfl | hzero
  · rw [one_mul, one_mul]
  · rw [hzero, mul_zero]

/-- The solution is the same, and the residual is multiplied. -/
theorem NormalEquations.IsMultiple.alike_solve {n n' : NormalEquations K} (hc : 0 < c)
    (h : n.IsMultiple names c n') {options : CgOptions ℝ} (hatol : c = 1 ∨ options.atol = 0)
    {cs cs' : List (Coupling K ℝ)} {x : Signal K}
    (hcouplings : Alike names (Signal.IsMultiple c) (addCouplings cs n.rhsBase : Eval K ℝ _)
      (addCouplings cs' n'.rhsBase)) :
    Alike names (fun r r' => r' = r.rescaled c) (n.solve options cs x) (n'.solve options cs' x) := by
  unfold NormalEquations.solve
  refine hcouplings.bind fun b b' hb => ?_
  have hthreshold := CgOptions.threshold_of_isMultiple hc hatol hb
  refine (alike_conjugateGradient hc h.lhs hb hthreshold).bind ?_
  rintro ⟨solution, info⟩ ⟨solution', info'⟩ ⟨hsolution, hinfo⟩
  dsimp only at hsolution hinfo
  subst hsolution hinfo
  exact .ite Iff.rfl ((Alike.report _ _).bind fun _ _ _ => .pure rfl) (.pure rfl)

/-! ### Assembled operators -/

namespace NormalEquations

/-- The operator with the weighted Gram operators of some operators added. -/
def withGrams : List (LinearOperator K × ℝ) → LinearOperator K → LinearOperator K
  | [], lhs => lhs
  | p :: ps, lhs => withGrams ps (.sum lhs (.multiple (Scalar.ofReal p.2) p.1.gramOperator))

/-- Add the results of weighted Gram operators to a signal. -/
def sumGrams (x : Signal K) : List (LinearOperator K × ℝ) → Signal K → Eval K ℝ (Signal K)
  | [], u => return u
  | p :: ps, u => do
    let v ← (LinearOperator.multiple (Scalar.ofReal p.2) p.1.gramOperator).eval .forward x
    let u ← u.add v
    sumGrams x ps u

variable {ps : List (LinearOperator K × ℝ)} {lhs lhs' : LinearOperator K}

@[simp] theorem input_withGrams (ps : List (LinearOperator K × ℝ)) (lhs : LinearOperator K) :
    (withGrams ps lhs).input = lhs.input := by
  induction ps generalizing lhs with
  | nil => rfl
  | cons p ps ih =>
    rw [withGrams, ih]
    rfl

@[simp] theorem output_withGrams (ps : List (LinearOperator K × ℝ)) (lhs : LinearOperator K) :
    (withGrams ps lhs).output = lhs.output := by
  induction ps generalizing lhs with
  | nil => rfl
  | cons p ps ih =>
    rw [withGrams, ih]
    rfl

/-- Gram operators can be added if all of them take the signals that the operator takes and gives. -/
theorem addGrams_eq_ok_iff : addGrams ps lhs = .ok lhs' ↔
    (∀ p ∈ ps, lhs.input = p.1.input ∧ lhs.output = p.1.input) ∧ lhs' = withGrams ps lhs := by
  induction ps generalizing lhs with
  | nil =>
    constructor
    · intro h
      cases h
      exact ⟨List.forall_mem_nil _, rfl⟩
    · rintro ⟨-, rfl⟩
      rfl
  | cons p ps ih =>
    have hgram : (LinearOperator.multiple (Scalar.ofReal p.2 : K) p.1.gramOperator).input =
        p.1.input ∧ (LinearOperator.multiple (Scalar.ofReal p.2 : K) p.1.gramOperator).output =
        p.1.input := ⟨rfl, rfl⟩
    rw [addGrams, Except.bind_eq_ok_iff, List.forall_mem_cons]
    constructor
    · rintro ⟨sum, hsum, h⟩
      obtain ⟨hinput, houtput, rfl⟩ := LinearOperator.add_eq_ok_iff.mp hsum
      obtain ⟨hrest, rfl⟩ := ih.mp h
      exact ⟨⟨⟨hinput.trans hgram.1, houtput.trans hgram.2⟩, hrest⟩, rfl⟩
    · rintro ⟨⟨⟨hinput, houtput⟩, hrest⟩, rfl⟩
      exact ⟨_, LinearOperator.add_eq_ok_iff.mpr
        ⟨hinput.trans hgram.1.symm, houtput.trans hgram.2.symm, rfl⟩, ih.mpr ⟨hrest, rfl⟩⟩

theorem eval_withGrams (ps : List (LinearOperator K × ℝ)) (lhs : LinearOperator K) (x : Signal K) :
    (withGrams ps lhs).eval .forward x = (do
      let u ← lhs.eval .forward x
      sumGrams x ps u : Eval K ℝ _) := by
  induction ps generalizing lhs with
  | nil => simp only [withGrams, sumGrams, bind_pure]
  | cons p ps ih =>
    rw [withGrams, ih]
    simp only [LinearOperator.eval, sumGrams, bind_assoc]

/-- The operator is evaluated after a check of the shape. -/
theorem apply_withGrams (ps : List (LinearOperator K × ℝ)) (lhs : LinearOperator K) (x : Signal K) :
    (withGrams ps lhs).apply x = (if x.shape = lhs.input then do
      let u ← lhs.eval .forward x
      sumGrams x ps u
    else throw (.shapeMismatch "linear operator input" lhs.input x.shape) : Eval K ℝ _) := by
  rw [LinearOperator.apply, LinearOperator.evalChecked, eval_withGrams, input_withGrams]

/-- Equations that are set up beside other ones. -/
theorem alike_ofLoss {l l' : SquaredLoss K ℝ} {ps ps' : List (LinearOperator K × ℝ)}
    (hl : l.operator.Named names) (hoperator : l'.operator = l.operator)
    (hobservation : l'.observation = l.observation) (hscale : l'.scale = c * l.scale)
    (hgrams : Corresponds (LinearOperator.IsMultiple names c)
      (addGrams ps (.multiple (Scalar.ofReal (l.scale + l.scale)) l.operator.gramOperator))
      (addGrams ps' (.multiple (Scalar.ofReal (l'.scale + l'.scale)) l'.operator.gramOperator))) :
    Alike names (IsMultiple names c) (ofLoss l ps : Eval K ℝ _) (ofLoss l' ps') := by
  unfold ofLoss
  refine (Alike.liftExcept hgrams).bind fun lhs lhs' hlhs => ?_
  rw [hoperator, hobservation]
  refine (LinearOperator.steady_adjoint hl l.observation).alike.bind ?_
  rintro pulled _ rfl
  have hbase : (pulled.scaled (Scalar.ofReal (l.scale + l.scale))).IsMultiple c
      (pulled.scaled (Scalar.ofReal (l'.scale + l'.scale))) := by
    rw [hscale, ← mul_add]
    exact isMultiple_scaled pulled c _
  exact (Alike.report _ _).bind fun _ _ _ => .pure ⟨hlhs, hbase⟩

end NormalEquations

end

end OperatorSplitting
