import Mathlib
import OperatorSplitting.Proofs.Admm.Evaluation
import OperatorSplitting.Proofs.ConjugateGradient

/-!
# The residual of conjugate gradients

The method never evaluates `b - A x` again: it keeps the residual beside the iterate and changes
both by the same direction and its image.  If the operator is linear, the kept residual stays the
true one, for indefinite operators as well (`CgState.Tracks`).  So the report of a solve is honest:
its residual is the norm of `b - A x` at the returned `x`, and the solve has converged exactly if
that is within the tolerance (`conjugateGradient_report`).

A solve is steady, so that everything is said about outcomes.  What the outcome of one iteration can
be is said once (`CgState.step_eq_ok_iff`).
-/

namespace OperatorSplitting

open Eval LinearOperator

noncomputable section

variable {K : Type} [ExactScalar K] {names : Naming K} {a : LinearOperator K}

/-! ### Outcomes of iterations -/

namespace CgState

variable {s s' : CgState K ℝ} {b x : Signal K}

/-- The state at a starting point is made of an image and the residual there. -/
theorem start_eq_ok_iff (ha : a.Named names) :
    (start a b x : Eval K ℝ (CgState K ℝ)).outcome = .ok s ↔
      ∃ u r, (a.apply x : Eval K ℝ _).outcome = .ok u ∧ b.sub u = .ok r ∧
        s = ⟨x, r, r, r.normSqr, 0⟩ := by
  unfold start
  rw [(steady_apply ha x).outcome_bind_eq_ok_iff fun u _ =>
    (Steady.liftExcept _).bind fun _ _ => .pure _]
  simp only [outcome_liftExcept_bind, Except.bind_eq_ok_iff, outcome_pure, Except.ok.injEq,
    exists_and_left, eq_comm (a := s)]

/-- The outcome of an iteration: the image of the direction, a positive curvature, and the new
iterate, residual and direction. -/
theorem step_eq_ok_iff (ha : a.Named names) :
    (s.step a : Eval K ℝ _).outcome = .ok s' ↔
      ∃ image c x r d, (a.apply s.direction : Eval K ℝ _).outcome = .ok image ∧
        s.direction.vdot image = .ok c ∧ 0 < Scalar.re c ∧
        s.x.addScaled (Scalar.ofReal (s.residualSqr / Scalar.re c)) s.direction = .ok x ∧
        s.residual.addScaled (-Scalar.ofReal (s.residualSqr / Scalar.re c)) image = .ok r ∧
        r.add (s.direction.scaled (Scalar.ofReal (r.normSqr / s.residualSqr))) = .ok d ∧
        s' = ⟨x, r, d, r.normSqr, s.iteration + 1⟩ := by
  unfold step
  rw [(steady_apply ha _).outcome_bind_eq_ok_iff fun image _ => ?steady]
  case steady =>
    refine (Steady.liftExcept _).bind fun c _ => Steady.ite (.throw _) ?_
    exact (Steady.liftExcept _).bind fun _ _ => (Steady.liftExcept _).bind fun _ _ =>
      (Steady.liftExcept _).bind fun _ _ => .pure _
  refine exists_congr fun image => ?_
  rw [outcome_liftExcept_bind, Except.bind_eq_ok_iff]
  constructor
  · rintro ⟨himage, c, hc, h⟩
    by_cases hpositive : 0 < Scalar.re c
    · rw [if_neg (mt (refuses_curvature_iff _).mp (not_not_intro hpositive))] at h
      simp only [outcome_liftExcept_bind, Except.bind_eq_ok_iff, outcome_pure, Except.ok.injEq] at h
      obtain ⟨x, hx, r, hr, d, hd, rfl⟩ := h
      exact ⟨c, x, r, d, himage, hc, hpositive, hx, hr, hd, rfl⟩
    · rw [if_pos ((refuses_curvature_iff _).mpr hpositive)] at h
      cases h
  · rintro ⟨c, x, r, d, himage, hc, hpositive, hx, hr, hd, rfl⟩
    refine ⟨himage, c, hc, ?_⟩
    rw [if_neg (mt (refuses_curvature_iff _).mp (not_not_intro hpositive))]
    simp only [outcome_liftExcept_bind, Except.bind_eq_ok_iff, outcome_pure, Except.ok.injEq]
    exact ⟨x, hx, r, hr, d, hd, rfl⟩

/-- Iterating stops below the threshold, or goes on after one iteration. -/
theorem iterate_succ_eq_ok_iff (ha : a.Named names) {threshold : ℝ} {n : ℕ} :
    (s.iterate a threshold (n + 1) : Eval K ℝ _).outcome = .ok s' ↔
      (s.residualNorm ≤ threshold ∧ s = s') ∨ (threshold < s.residualNorm ∧
        ∃ s₁, (s.step a : Eval K ℝ _).outcome = .ok s₁ ∧
          (s₁.iterate a threshold n : Eval K ℝ _).outcome = .ok s') := by
  rw [iterate]
  rcases le_or_gt s.residualNorm threshold with h | h
  · have hnot : RealArithmetic.lt threshold (s.residualNorm : ℝ) ≠ true := by
      simpa [RealArithmetic.lt] using h
    rw [if_neg hnot]
    simp [h, not_lt.mpr h]
  · have hlt : RealArithmetic.lt threshold (s.residualNorm : ℝ) = true := by
      simpa [RealArithmetic.lt] using h
    rw [if_pos hlt, (steady_step ha s).outcome_bind_eq_ok_iff fun s₁ _ =>
      steady_iterate ha threshold n s₁]
    simp [h, not_le.mpr h]

/-- What iterations above the threshold preserve holds at the end.  The end is within the number of
iterations, and it is reached before only at or below the threshold. -/
theorem iterate_preserves (ha : a.Named names) {P : CgState K ℝ → Prop} {threshold : ℝ}
    (hstep : ∀ {s s' : CgState K ℝ}, P s → threshold < s.residualNorm →
      (s.step a : Eval K ℝ _).outcome = .ok s' → P s' ∧ s'.iteration = s.iteration + 1)
    {n : ℕ} (hs : P s) (h : (s.iterate a threshold n : Eval K ℝ _).outcome = .ok s') :
    P s' ∧ s'.iteration ≤ s.iteration + n ∧
      (threshold < s'.residualNorm → s'.iteration = s.iteration + n) := by
  induction n generalizing s with
  | zero =>
    cases h
    exact ⟨hs, le_rfl, fun _ => rfl⟩
  | succ n ih =>
    rcases (iterate_succ_eq_ok_iff ha).mp h with ⟨hle, rfl⟩ | ⟨hlt, s₁, hs₁, hrest⟩
    · exact ⟨hs, Nat.le_add_right _ _, fun hlt => absurd hle (not_le.mpr hlt)⟩
    · obtain ⟨hP, hcount⟩ := hstep hs hlt hs₁
      obtain ⟨hend, hle, hfull⟩ := ih hP hrest
      exact ⟨hend, by omega, fun hlt => by rw [hfull hlt]; omega⟩

/-- If every iteration above the threshold has an outcome, iterating has one. -/
theorem exists_iterate (ha : a.Named names) {P : CgState K ℝ → Prop} {threshold : ℝ}
    (hstep : ∀ {s : CgState K ℝ}, P s → threshold < s.residualNorm →
      ∃ s', (s.step a : Eval K ℝ _).outcome = .ok s' ∧ P s') (n : ℕ) (hs : P s) :
    ∃ s', (s.iterate a threshold n : Eval K ℝ _).outcome = .ok s' := by
  induction n generalizing s with
  | zero => exact ⟨s, rfl⟩
  | succ n ih =>
    rcases le_or_gt s.residualNorm threshold with hle | hlt
    · exact ⟨s, (iterate_succ_eq_ok_iff ha).mpr (.inl ⟨hle, rfl⟩)⟩
    · obtain ⟨s₁, hs₁, hP⟩ := hstep hs hlt
      obtain ⟨s', hs'⟩ := ih hP
      exact ⟨s', (iterate_succ_eq_ok_iff ha).mpr (.inr ⟨hlt, s₁, hs₁, hs'⟩)⟩

end CgState

/-- A solve is a starting state, its iterations, and the report of where they end. -/
theorem conjugateGradient_eq_ok_iff (ha : a.Named names) (hsquare : a.input = a.output)
    {b x x' : Signal K} (hb : b.shape = a.input) {options : CgOptions ℝ} {info : CgReport ℝ} :
    (conjugateGradient a b x options : Eval K ℝ _).outcome = .ok (x', info) ↔
      ∃ s₀ s : CgState K ℝ, (CgState.start a b x : Eval K ℝ _).outcome = .ok s₀ ∧
        (s₀.iterate a (options.threshold b) options.maxIter : Eval K ℝ _).outcome = .ok s ∧
        s.x = x' ∧ info =
          ⟨s.iteration, s.residualNorm, decide (s.residualNorm ≤ options.threshold b)⟩ := by
  unfold conjugateGradient
  rw [if_neg (not_ne_iff.mpr hsquare), if_neg (not_ne_iff.mpr (hb.trans hsquare)),
    (CgState.steady_start ha b x).outcome_bind_eq_ok_iff fun s₀ _ =>
      (CgState.steady_iterate ha _ _ s₀).bind fun s _ => .pure _]
  refine exists_congr fun s₀ => ?_
  rw [(CgState.steady_iterate ha _ _ s₀).outcome_bind_eq_ok_iff fun s _ => .pure _,
    ← exists_and_left]
  refine exists_congr fun s => and_congr_right fun _ => and_congr_right fun _ => ?_
  rw [outcome_pure, Except.ok.injEq, Prod.mk.injEq, eq_comm (a := info)]
  rfl

/-- A starting point of another shape is refused. -/
theorem run_conjugateGradient_of_ne (hsquare : a.input = a.output) {b x : Signal K}
    (hb : b.shape = a.input) (hx : x.shape ≠ a.input) (options : CgOptions ℝ) (t : Trace K ℝ) :
    (conjugateGradient a b x options).run t =
      (.error (.shapeMismatch "linear operator input" a.input x.shape), t) := by
  have happly : (a.apply x : Eval K ℝ _).run t =
      (.error (.shapeMismatch "linear operator input" a.input x.shape), t) :=
    LinearOperator.run_apply_of_ne hx t
  unfold conjugateGradient CgState.start
  rw [if_neg (not_ne_iff.mpr hsquare), if_neg (not_ne_iff.mpr (hb.trans hsquare))]
  simp only [run_bind, happly]

/-! ### Operators that act linearly -/

/-- Wherever the operator has results it sends a signal plus a real multiple of another one to the
same combination of the two images; its closures are the ones that their numbers stand for. -/
structure LinearOperator.ActsLinearly (names : Naming K) (a : LinearOperator K) : Prop where
  named : a.Named names
  combination : ∀ {x d x' u w : Signal K} {r : ℝ}, (a.apply x : Eval K ℝ _).outcome = .ok u →
    (a.apply d : Eval K ℝ _).outcome = .ok w → x.addScaled (Scalar.ofReal r) d = .ok x' →
      ∃ u', (a.apply x' : Eval K ℝ _).outcome = .ok u' ∧ u.addScaled (Scalar.ofReal r) w = .ok u'

/-- Expressions over linear primitive operators act linearly, if these are roomy. -/
theorem LinearOperator.IsLinear.actsLinearly (ha : a.IsLinear names)
    (hroomy : a.AllLeaves Leaf.Roomy) : a.ActsLinearly names where
  named := ha.named
  combination := by
    intro x d x' u w r hu hw hx'
    obtain ⟨hxd, hx'shape, -⟩ := Signal.zipMap_spec hx'
    obtain ⟨u', hu'⟩ := ha.apply_uniform hu hx'shape
    have hushape := (ha.shape_apply hu).2
    have hsame : u.shape = w.shape := hushape.trans (ha.shape_apply hw).2.symm
    obtain ⟨v, hv⟩ := (totalOn ha.wellShaped ha.named ha.leaves hroomy).2 u hushape
    have hadjoint := outcome_adjoint_eq_ok_iff.mpr ⟨hushape, hv⟩
    obtain ⟨u'', hu'', hu''shape⟩ := Signal.exists_addScaled (Scalar.ofReal r) hsame
    have hvec := ha.vec_combination hu hw hu' hadjoint (Signal.vec_addScaled hx')
    have heq : u'' = u' := by
      apply Signal.vec_injective (hu''shape.trans (hushape.trans (ha.shape_apply hu').2.symm))
      rw [Signal.vec_addScaled hu'', hvec]
    exact ⟨u', hu', heq ▸ hu''⟩

/-! ### The true residual -/

/-- The kept residual is the difference of the right-hand side and the image of the iterate, and its
squared norm is kept with it. -/
structure CgState.Tracks (a : LinearOperator K) (b : Signal K) (s : CgState K ℝ) : Prop where
  residual_eq : ∃ u, (a.apply s.x : Eval K ℝ _).outcome = .ok u ∧ b.sub u = .ok s.residual
  residualSqr_eq : s.residualSqr = s.residual.normSqr

namespace CgState

variable {s s' : CgState K ℝ} {b x : Signal K}

theorem tracks_start (ha : a.Named names)
    (h : (start a b x : Eval K ℝ (CgState K ℝ)).outcome = .ok s) :
    s.Tracks a b ∧ s.x = x ∧ s.iteration = 0 := by
  obtain ⟨u, r, hu, hr, rfl⟩ := (start_eq_ok_iff ha).mp h
  exact ⟨⟨⟨u, hu, hr⟩, rfl⟩, rfl, rfl⟩

/-- An iteration changes the image of the iterate by what it takes off the residual. -/
theorem Tracks.step (ha : a.ActsLinearly names) (hs : s.Tracks a b)
    (h : (s.step a : Eval K ℝ _).outcome = .ok s') : s'.Tracks a b := by
  obtain ⟨image, c, x, r, d, himage, -, -, hx, hr, -, rfl⟩ := (step_eq_ok_iff ha.named).mp h
  obtain ⟨u, hu, hresidual⟩ := hs.residual_eq
  obtain ⟨u', hu', hcombined⟩ := ha.combination hu himage hx
  obtain ⟨hbu, hrshape, -⟩ := Signal.zipMap_spec hresidual
  have hu'shape : u'.shape = u.shape := Signal.shape_of_zipMap hcombined
  obtain ⟨r', hr', hr'shape⟩ := Signal.exists_sub (hbu.trans hu'shape.symm)
  have hsame : r' = r := by
    apply Signal.vec_injective (hr'shape.trans ((Signal.shape_of_zipMap hr).trans hrshape).symm)
    rw [Signal.vec_sub hr', Signal.vec_addScaled hcombined, Signal.vec_addScaled_neg hr,
      Signal.vec_sub hresidual, neg_smul, ← sub_eq_add_neg, sub_sub]
  exact ⟨⟨u', hu', hsame ▸ hr'⟩, rfl⟩

theorem iteration_step (ha : a.Named names) (h : (s.step a : Eval K ℝ _).outcome = .ok s') :
    s'.iteration = s.iteration + 1 := by
  obtain ⟨image, c, x, r, d, -, -, -, -, -, -, rfl⟩ := (step_eq_ok_iff ha).mp h
  rfl

theorem shape_step (ha : a.Named names) (h : (s.step a : Eval K ℝ _).outcome = .ok s') :
    s'.x.shape = s.x.shape := by
  obtain ⟨image, c, x, r, d, -, -, -, hx, -, -, rfl⟩ := (step_eq_ok_iff ha).mp h
  exact Signal.shape_of_zipMap hx

theorem Tracks.residualNorm_eq (hs : s.Tracks a b) : (s.residualNorm : ℝ) = s.residual.norm := by
  rw [residualNorm, hs.residualSqr_eq]
  rfl

end CgState

/-- A linear solve reports honestly, whether the operator is definite or not.  If it has a result,
the iterate has the shape of the starting point, the reported residual is the norm of `b - A x` at
it, it has converged exactly if that is within the tolerance, and it is not stopped before its
iterations are used up unless it has converged.  A starting point of another shape is refused. -/
theorem conjugateGradient_report (ha : a.ActsLinearly names) (hsquare : a.input = a.output)
    {b x : Signal K} (hb : b.shape = a.input) (options : CgOptions ℝ) {t : Trace K ℝ}
    (ht : t.Faithful names) :
    (∀ x' info t', (conjugateGradient a b x options).run t = (.ok (x', info), t') →
      x'.shape = x.shape ∧ (∃ u r, ((a.apply x').run t').1 = .ok u ∧ b.sub u = .ok r ∧
        info.residual = r.norm ∧
        (info.converged = true ↔ r.norm ≤ max (options.tol * b.norm) options.atol)) ∧
      info.iterations ≤ options.maxIter ∧
      (info.converged = false → info.iterations = options.maxIter)) ∧
    (x.shape ≠ a.input → (conjugateGradient a b x options).run t =
      (.error (.shapeMismatch "linear operator input" a.input x.shape), t)) := by
  refine ⟨fun x' info t' hrun => ?_, fun hx => ?_⟩
  · obtain ⟨houtcome, ht'⟩ := steady_conjugateGradient ha.named b x options t ht
    rw [hrun] at houtcome ht'
    obtain ⟨s₀, s, hstart, hiterate, rfl, rfl⟩ :=
      (conjugateGradient_eq_ok_iff ha.named hsquare hb).mp houtcome.symm
    obtain ⟨htracks, hx, hzero⟩ := CgState.tracks_start ha.named hstart
    obtain ⟨⟨hs, hshape⟩, hle, hfull⟩ := CgState.iterate_preserves ha.named
      (P := fun s => s.Tracks a b ∧ s.x.shape = x.shape)
      (fun {s s'} hs _ hstep => ⟨⟨hs.1.step ha hstep,
        (CgState.shape_step ha.named hstep).trans hs.2⟩, CgState.iteration_step ha.named hstep⟩)
      ⟨htracks, congrArg Signal.shape hx⟩ hiterate
    obtain ⟨u, hu, hr⟩ := hs.residual_eq
    rw [hzero, Nat.zero_add] at hle hfull
    refine ⟨hshape, ⟨u, s.residual, ?_, hr, hs.residualNorm_eq, ?_⟩, hle, fun hconverged => ?_⟩
    · rw [(steady_apply ha.named s.x t' ht').1]
      exact hu
    · rw [decide_eq_true_iff, hs.residualNorm_eq]
      rfl
    · exact hfull (not_le.mp (of_decide_eq_false hconverged))
  · exact run_conjugateGradient_of_ne hsquare hb hx options t

/-- The reflection of the plane that turns the second axis around.  It is neither positive nor
negative. -/
def reflection : LinearOperator ℝ := .leaf (.matrix ⟨2, 2, #[1, 0, 0, -1], rfl⟩)

theorem actsLinearly_reflection : reflection.ActsLinearly anyNaming := by
  have hroom : Storable [2] := by decide
  exact IsLinear.actsLinearly ⟨trivial, trivial, trivial⟩ ⟨hroom, hroom⟩

theorem apply_reflection (a b : ℝ) :
    (reflection.apply (.pair a b) : Eval ℝ ℝ _).outcome = .ok (.pair a (-b)) := by
  have hroom : Storable [2] := by decide
  have hproduct : (⟨2, 2, #[1, 0, 0, -1], rfl⟩ : DenseMatrix ℝ).mulVec #[a, b] = #[a, -b] := by
    simp [DenseMatrix.mulVec, DenseMatrix.entry, sumBelow, Array.ofFn_succ]
  refine outcome_apply_eq_ok_iff.mpr ⟨rfl, ?_⟩
  show (orMisuse ((⟨2, 2, #[1, 0, 0, -1], rfl⟩ : DenseMatrix ℝ).mulVec? #[a, b]) >>= fun y =>
    Except.ok (Signal.ofArray y)) = _
  rw [DenseMatrix.mulVec?, if_pos ⟨rfl, hroom⟩, hproduct]
  rfl

/-- An iteration from the origin, along a direction of positive curvature. -/
theorem step_reflection :
    (CgState.step reflection ⟨.pair 0 0, .pair 2 1, .pair 2 1, 5, 0⟩ : Eval ℝ ℝ _).outcome =
      .ok ⟨.pair (10 / 3) (5 / 3), .pair (-4 / 3) (8 / 3), .pair (20 / 9) (40 / 9), 80 / 9, 1⟩ := by
  have hsqr : (Signal.pair (-4 / 3) (8 / 3)).normSqr = (80 / 9 : ℝ) := by
    rw [Signal.normSqr_pair]
    norm_num
  have hlength : (5 : ℝ) / Scalar.re (3 : ℝ) = 5 / 3 := rfl
  refine (CgState.step_eq_ok_iff actsLinearly_reflection.named).mpr ⟨.pair 2 (-1), 3,
    .pair (10 / 3) (5 / 3), .pair (-4 / 3) (8 / 3), .pair (20 / 9) (40 / 9), apply_reflection 2 1,
    ?_, three_pos, ?_, ?_, ?_, ?_⟩
  · rw [Signal.vdot_pair]
    norm_num
  · rw [hlength, Signal.addScaled, Signal.zipMap_pair]
    norm_num [Scalar.ofReal]
  · rw [hlength, Signal.addScaled, Signal.zipMap_pair]
    norm_num [Scalar.ofReal]
  · rw [hsqr, Signal.scaled, Signal.map_pair, Signal.add, Signal.zipMap_pair]
    norm_num [Scalar.ofReal]
  · rw [hsqr]

/-- One iteration from the origin, along a direction of positive curvature.  It makes the residual
larger, and the next direction has negative curvature. -/
theorem exists_run_reflection : ∃ t', (conjugateGradient reflection (.pair 2 1) (.pair 0 0)
    ⟨0, 0, 1⟩ : Eval ℝ ℝ _).run .empty =
      (.ok (.pair (10 / 3) (5 / 3), ⟨1, √(80 / 9), false⟩), t') := by
  have hnamed := actsLinearly_reflection.named
  let s₀ : CgState ℝ ℝ := ⟨.pair 0 0, .pair 2 1, .pair 2 1, 5, 0⟩
  let s₁ : CgState ℝ ℝ :=
    ⟨.pair (10 / 3) (5 / 3), .pair (-4 / 3) (8 / 3), .pair (20 / 9) (40 / 9), 80 / 9, 1⟩
  have hstart : (CgState.start reflection (.pair 2 1) (.pair 0 0) :
      Eval ℝ ℝ (CgState ℝ ℝ)).outcome = .ok s₀ := by
    refine (CgState.start_eq_ok_iff hnamed).mpr ⟨_, _, apply_reflection 0 0,
      Signal.zipMap_pair _ _ _ _ _ _, ?_⟩
    norm_num [Signal.normSqr_pair, s₀]
  have hthreshold : (⟨0, 0, 1⟩ : CgOptions ℝ).threshold (Signal.pair 2 1) = 0 := by
    show max (0 * (Signal.pair 2 1).norm) 0 = (0 : ℝ)
    rw [zero_mul, max_self]
  have hiterate : (s₀.iterate reflection 0 1 : Eval ℝ ℝ _).outcome = .ok s₁ :=
    (CgState.iterate_succ_eq_ok_iff hnamed).mpr (.inr ⟨Real.sqrt_pos.mpr (by norm_num [s₀]), s₁,
      step_reflection, rfl⟩)
  have habove : ¬ (s₁.residualNorm : ℝ) ≤ 0 := not_le.mpr (Real.sqrt_pos.mpr (by norm_num [s₁]))
  have houtcome : (conjugateGradient reflection (.pair 2 1) (.pair 0 0) ⟨0, 0, 1⟩ :
      Eval ℝ ℝ _).outcome = .ok (.pair (10 / 3) (5 / 3), ⟨1, √(80 / 9), false⟩) := by
    refine (conjugateGradient_eq_ok_iff hnamed rfl rfl).mpr ⟨s₀, s₁, hstart, ?_, rfl, ?_⟩
    · rw [hthreshold]
      exact hiterate
    · rw [hthreshold, decide_eq_false habove]
      rfl
  exact ⟨_, Prod.ext houtcome rfl⟩

/-- The reported residual is the true one, although the operator is not positive. -/
theorem conjugateGradient_report_reflection : ∃ t' u r,
    (conjugateGradient reflection (.pair 2 1) (.pair 0 0) ⟨0, 0, 1⟩ : Eval ℝ ℝ _).run .empty =
      (.ok (.pair (10 / 3) (5 / 3), ⟨1, √(80 / 9), false⟩), t') ∧
    ((reflection.apply (.pair (10 / 3) (5 / 3))).run t').1 = .ok u ∧
    (Signal.pair 2 1).sub u = .ok r ∧ r.norm = √(80 / 9) ∧
    ¬ r.norm ≤ max (0 * (Signal.pair 2 1).norm) (0 : ℝ) := by
  obtain ⟨t', hrun⟩ := exists_run_reflection
  obtain ⟨-, ⟨u, r, hu, hr, hnorm, hconverged⟩, -, -⟩ := (conjugateGradient_report
    actsLinearly_reflection rfl rfl ⟨0, 0, 1⟩ (Trace.faithful_empty _)).1 _ _ _ hrun
  exact ⟨t', u, r, hrun, hu, hr, hnorm.symm, fun h => Bool.false_ne_true (hconverged.mpr h)⟩

end

end OperatorSplitting
