import Mathlib
import OperatorSplitting.Proofs.Admm.LeastSquares
import OperatorSplitting.Proofs.Admm.Misfit

/-!
# The x-update never gets worse

Whatever strategy of the library solves the x-update, and however early it stops, the objective is at
most what it was before (`Strategy.objective_le_of_solve`).

A gradient step is accepted only where the objective is small enough, and a line search that gives up
leaves the signal as it is.  Conjugate gradients do not look at the objective.  Their residual is the
negative gradient of the misfit, and its inner product with the direction is its squared norm
(`CgState.Descends`); each iteration therefore goes down to the minimum along its direction.

The weights of the couplings need not be positive, as directions without positive curvature are
refused, and nothing is asked of the tolerances of the linear solve.
-/

namespace OperatorSplitting

open Eval LinearOperator Coupling

noncomputable section

variable {K : Type} [ExactScalar K] {names : Naming K}

/-! ### Conjugate gradients -/

namespace CgState

/-- What holds of every iterate of a linear solve for some couplings: the residual is the negative
gradient of their misfit, its inner product with the direction is its squared norm, and the misfit is
at most that of the starting point. -/
structure Descends (cs : List (Coupling K ℝ)) (start : Signal K) (s : CgState K ℝ) : Prop where
  reaches : Reaches (weighted cs) start
  x_shape : s.x.shape = start.shape
  residual_shape : s.residual.shape = start.shape
  direction_shape : s.direction.shape = start.shape
  residualSqr : s.residualSqr = ‖s.residual.vec‖ ^ 2
  inner_eq : inner ℝ s.direction.vec s.residual.vec = s.residualSqr
  gradient : ∀ v : Signal K, v.shape = start.shape →
    inner ℝ v.vec s.residual.vec = -slope cs s.x v
  misfit_le : misfit cs s.x ≤ misfit cs start

variable {cs : List (Coupling K ℝ)} {a : LinearOperator K} {x : Signal K} {s : CgState K ℝ}

/-- The residual at the starting point. -/
theorem ensures_start (ha : a.IsPolar names (weighted cs)) {b : Signal K}
    (hb : ∀ v, Reaches (weighted cs) v → inner ℝ v.vec b.vec = pull cs v)
    (hcs : ∀ c ∈ cs, c.operator.IsLinear names) :
    Ensures (Trace.Faithful names) (start a b x : Eval K ℝ (CgState K ℝ)) (Descends cs x) := by
  have hweighted := isLinear_weighted hcs
  refine (steady_apply ha.linear.named x).ensures.bind fun image himage =>
    (Ensures.liftExcept _).bind fun r hr => .pure ?_
  obtain ⟨hx, hishape⟩ := ha.linear.shape_apply himage
  obtain ⟨hbshape, hrshape, -⟩ := Signal.zipMap_spec hr
  have hshape : r.shape = x.shape :=
    (hrshape.trans hbshape).trans (hishape.trans (ha.square.trans hx.symm))
  have hreaches := ha.reaches himage
  refine ⟨hreaches, rfl, hshape, hshape, Signal.normSqr_eq r, ?_, fun v hv => ?_, le_rfl⟩
  · rw [real_inner_self_eq_norm_sq, Signal.normSqr_eq]
  · have hpull := hb v (hreaches.of_shape hweighted hv)
    rw [Signal.vec_sub hr, inner_sub_right, hpull, ha.inner_apply himage hv, ← slope_add_pull]
    ring

/-- Going to the minimum along the direction and turning the direction by any amount. -/
theorem Descends.next (ha : a.IsPolar names (weighted cs))
    (hcs : ∀ c ∈ cs, c.operator.IsLinear names) (hs : s.Descends cs x) {image y r p : Signal K}
    {alpha beta : ℝ} {k : ℕ} (himage : (a.apply s.direction : Eval K ℝ _).outcome = .ok image)
    (halpha : alpha * polar (weighted cs) s.direction s.direction = s.residualSqr)
    (hnonneg : 0 ≤ alpha) (hy : s.x.addScaled (Scalar.ofReal alpha) s.direction = .ok y)
    (hr : s.residual.addScaled (-Scalar.ofReal alpha) image = .ok r)
    (hp : r.add (s.direction.scaled (Scalar.ofReal beta)) = .ok p) :
    Descends cs x ⟨y, r, p, r.normSqr, k⟩ := by
  have hyshape : y.shape = x.shape := (Signal.shape_of_zipMap hy).trans hs.x_shape
  have hrshape : r.shape = x.shape := (Signal.shape_of_zipMap hr).trans hs.residual_shape
  have hpshape : p.shape = x.shape := (Signal.shape_of_zipMap hp).trans hrshape
  have hreaches : Reaches (weighted cs) s.x :=
    hs.reaches.of_shape (isLinear_weighted hcs) hs.x_shape
  have hdirection := hs.direction_shape.trans hs.x_shape.symm
  have hsame := hyshape.trans hs.x_shape.symm
  have hyvec : y.vec = s.x.vec + alpha • s.direction.vec := Signal.vec_addScaled hy
  have hdecrease : inner ℝ s.direction.vec s.residual.vec =
      alpha * inner ℝ s.direction.vec image.vec := by
    rw [ha.inner_apply himage rfl, halpha, hs.inner_eq]
  refine ⟨hs.reaches, hyshape, hrshape, hpshape, Signal.normSqr_eq r, ?_, fun v hv => ?_, ?_⟩
  · rw [inner_next hdecrease hr hp, Signal.normSqr_eq]
  · have himagev := ha.inner_apply himage (hv.trans hs.direction_shape.symm)
    rw [Signal.vec_addScaled_neg hr, inner_add_right, real_inner_smul_right, hs.gradient v hv, himagev,
      slope_combination hcs hreaches hdirection hsame hyvec]
    ring
  · have hslope : slope cs s.x s.direction = -s.residualSqr := by
      rw [← hs.inner_eq, hs.gradient s.direction hs.direction_shape, neg_neg]
    have hmin : alpha * polar (weighted cs) s.direction s.direction = -slope cs s.x s.direction := by
      rw [hslope, neg_neg, halpha]
    have hsqr : 0 ≤ s.residualSqr := hs.residualSqr ▸ sq_nonneg _
    rw [misfit_of_minimum hcs hreaches hdirection hsame hyvec hmin, hslope, mul_neg, neg_div,
      ← sub_eq_add_neg]
    exact (sub_le_self _ (by positivity)).trans hs.misfit_le

/-- One iteration. -/
theorem Descends.ensures_step (ha : a.IsPolar names (weighted cs))
    (hcs : ∀ c ∈ cs, c.operator.IsLinear names) (hs : s.Descends cs x) :
    Ensures (Trace.Faithful names) (s.step a : Eval K ℝ _) (Descends cs x) := by
  unfold step
  refine (steady_apply ha.linear.named s.direction).ensures.bind fun image himage =>
    (Ensures.liftExcept _).bind fun d hd => ?_
  obtain ⟨hdirection, hishape⟩ := ha.linear.shape_apply himage
  obtain ⟨d', hd', hval⟩ :=
    Signal.vdot_eq_ok (hdirection.trans (ha.square.symm.trans hishape.symm))
  cases hd.symm.trans hd'
  have hcurvature : Scalar.re d = polar (weighted cs) s.direction s.direction := by
    rw [ExactScalar.re_eq, hval, ← Signal.inner_vec, ha.inner_apply himage rfl]
  by_cases hpositive : 0 < Scalar.re d
  · rw [if_neg (mt (refuses_curvature_iff _).mp (not_not_intro hpositive))]
    refine (Ensures.liftExcept _).bind fun y hy => (Ensures.liftExcept _).bind fun r hr =>
      (Ensures.liftExcept _).bind fun p hp => .pure ?_
    have hsqr : 0 ≤ s.residualSqr := hs.residualSqr ▸ sq_nonneg _
    refine hs.next ha hcs himage ?_ (div_nonneg hsqr hpositive.le) hy hr hp
    rw [← hcurvature, div_mul_cancel₀ _ hpositive.ne']
  · rw [if_pos ((refuses_curvature_iff _).mpr hpositive)]
    exact .throw _

/-- All iterations. -/
theorem Descends.ensures_iterate (ha : a.IsPolar names (weighted cs))
    (hcs : ∀ c ∈ cs, c.operator.IsLinear names) (threshold : ℝ) (n : ℕ) (hs : s.Descends cs x) :
    Ensures (Trace.Faithful names) (s.iterate a threshold n : Eval K ℝ _) (Descends cs x) := by
  induction n generalizing s with
  | zero => exact .pure hs
  | succ n ih =>
    unfold iterate
    exact Ensures.ite ((hs.ensures_step ha hcs).bind fun s' hs' => ih hs') (.pure hs)

end CgState

/-- A linear solve for the normal equations of some couplings does not increase their misfit. -/
theorem ensures_misfit_le {cs : List (Coupling K ℝ)} {a : LinearOperator K}
    (ha : a.IsPolar names (weighted cs)) (hcs : ∀ c ∈ cs, c.operator.IsLinear names)
    {b : Signal K} (hb : ∀ v, Reaches (weighted cs) v → inner ℝ v.vec b.vec = pull cs v)
    (x : Signal K) (options : CgOptions ℝ) :
    Ensures (Trace.Faithful names) (conjugateGradient a b x options : Eval K ℝ _) fun r =>
      Reaches (weighted cs) x ∧ r.1.shape = x.shape ∧ misfit cs r.1 ≤ misfit cs x := by
  unfold conjugateGradient
  refine Ensures.ite (.throw _) (Ensures.ite (.throw _) ?_)
  refine (CgState.ensures_start ha hb hcs).bind fun s hs =>
    (hs.ensures_iterate ha hcs _ _).bind fun s' hs' => .pure ?_
  exact ⟨hs'.reaches, hs'.x_shape, hs'.misfit_le⟩

/-- Solving the normal equations does not increase the misfit of the loss and the couplings. -/
theorem NormalEquations.Describes.ensures_solve {l : SquaredLoss K ℝ} {cs : List (Coupling K ℝ)}
    {n : NormalEquations K} (hn : n.Describes names l cs) (hl : l.IsLinear names)
    (hcs : ∀ c ∈ cs, c.operator.IsLinear names) (options : CgOptions ℝ) (x : Signal K) :
    Ensures (Trace.Faithful names) (n.solve options cs x) fun report =>
      (∀ c ∈ cs, c.Shaped) ∧ Reaches (weighted (l.coupling :: cs)) x ∧ report.x.shape = x.shape ∧
        misfit (l.coupling :: cs) report.x ≤ misfit (l.coupling :: cs) x := by
  have hall : ∀ c ∈ l.coupling :: cs, c.operator.IsLinear names :=
    List.forall_mem_cons.mpr ⟨hl.operator, hcs⟩
  have hnamed : ∀ c ∈ cs, c.operator.Named names := fun c hc => (hcs c hc).named
  refine (steady_addCouplings hnamed _).ensures.bind fun rhs hrhs => ?_
  obtain ⟨hshaped, hb⟩ := hn.inner_rhs hl hcs hrhs
  refine (ensures_misfit_le hn.lhs hall hb x options).bind fun ⟨solution, info⟩ hsolved => ?_
  exact Ensures.ite ((Steady.report _).ensures.bind fun _ _ => .pure ⟨hshaped, hsolved⟩)
    (.pure ⟨hshaped, hsolved⟩)

/-! ### Gradient steps -/

variable {p : XUpdate K ℝ ℝ}

namespace XUpdate

theorem exists_mismatch_of_addGradients {cs : List (Coupling K ℝ)}
    (hcs : ∀ c ∈ cs, c.operator.Named names) {x g e : Signal K}
    (h : (addGradients x cs g : Eval K ℝ _).outcome = .ok e) :
    ∀ c ∈ cs, ∃ r, (c.mismatch x : Eval K ℝ _).outcome = .ok r := by
  induction cs generalizing g with
  | nil => exact List.forall_mem_nil _
  | cons c cs ih =>
    obtain ⟨hc, hcs⟩ := List.forall_mem_cons.mp hcs
    obtain ⟨r, -, g', hr, -, -, hrest⟩ := (XUpdate.addGradients_cons_eq_ok_iff hc hcs).mp h
    exact List.forall_mem_cons.mpr ⟨⟨r, hr⟩, ih hcs hrest⟩

/-- Where the objective has a gradient it has a value. -/
theorem exists_objective_of_gradient (hf : p.f.IsFidelity names)
    (hcs : ∀ c ∈ p.couplings, c.operator.Named names) {x e : Signal K}
    (h : (p.gradient x : Eval K ℝ _).outcome = .ok e) : ∃ a, (p.objective x).outcome = .ok a := by
  obtain ⟨g, hg, hgradients⟩ := (outcome_gradient_eq_ok_iff ⟨hf.named, hcs⟩).mp h
  obtain ⟨a, ha, -⟩ := (Functional.subgradient_of_grad hf hg).2.exists_value
  exact ⟨_, outcome_objective ⟨hf.named, hcs⟩ (Functional.extended_eq_coe ha).2
    (exists_mismatch_of_addGradients hcs hgradients)⟩

end XUpdate

namespace Descent

/-- A line search accepts only points where the objective is at most the given value. -/
theorem ensures_search_le (hp : p.Named names) (x g : Signal K) (phi : ℝ) {gradientSqr : ℝ}
    (hsqr : 0 ≤ gradientSqr) (tries : ℕ) {t : ℝ} (ht : 0 < t) :
    Ensures (Trace.Faithful names) (search p x g phi gradientSqr tries t) fun found =>
      ∀ q ∈ found, 0 < q.2 ∧ ∃ b, (p.objective q.1).outcome = .ok b ∧ b ≤ phi := by
  have hhalf : (0 : ℝ) < RealArithmetic.half := by
    unfold RealArithmetic.half
    norm_num
  induction tries generalizing t with
  | zero => exact .pure (by simp)
  | succ tries ih =>
    refine (Ensures.liftExcept _).bind fun candidate _ =>
      (XUpdate.steady_objective hp candidate).ensures.bind fun b hb => ?_
    by_cases haccept : RealArithmetic.le b (phi - RealArithmetic.half * t * gradientSqr) = true
    · rw [if_pos haccept]
      refine .pure fun q hq => ?_
      cases Option.mem_some_iff.mp hq
      have hle : b ≤ phi - RealArithmetic.half * t * gradientSqr := of_decide_eq_true haccept
      exact ⟨ht, b, hb, hle.trans (sub_le_self _ (by positivity))⟩
    · rw [if_neg haccept]
      exact ih (mul_pos ht hhalf)

/-- A gradient step that is taken does not increase the objective, which has a value in any case. -/
theorem ensures_step_le (hf : p.f.IsFidelity names)
    (hcs : ∀ c ∈ p.couplings, c.operator.Named names) (x : Signal K) {t : ℝ} (ht : 0 < t) :
    Ensures (Trace.Faithful names) (step p x t) fun found =>
      ∃ a, (p.objective x).outcome = .ok a ∧
        ∀ q ∈ found, 0 < q.2 ∧ ∃ b, (p.objective q.1).outcome = .ok b ∧ b ≤ a := by
  have hp : p.Named names := ⟨hf.named, hcs⟩
  refine (XUpdate.steady_gradient hp x).ensures.bind fun g hg => Ensures.ite ?_ ?_
  · obtain ⟨a, ha⟩ := XUpdate.exists_objective_of_gradient hf hcs hg
    exact .pure ⟨a, ha, by simp⟩
  · have hsqr : (0 : ℝ) ≤ g.normSqr := Signal.normSqr_eq g ▸ sq_nonneg _
    refine (XUpdate.steady_objective hp x).ensures.bind fun phi hphi =>
      (ensures_search_le hp x g phi hsqr maxTries ht).bind fun found hfound => ?_
    exact Ensures.ite ((Steady.report _).ensures.bind fun _ _ => .pure ⟨phi, hphi, hfound⟩)
      (.pure ⟨phi, hphi, hfound⟩)

/-- All gradient steps.  Only without any step may the objective have no value. -/
theorem objective_le_of_run (hf : p.f.IsFidelity names)
    (hcs : ∀ c ∈ p.couplings, c.operator.Named names) (steps : ℕ) {x x' : Signal K} {stepSize : ℝ}
    (hsize : 0 < stepSize) {t : Trace K ℝ} (ht : t.Faithful names)
    (h : (run p steps x stepSize t).1.1 = .ok x') :
    (steps ≠ 0 → ∃ a, (p.objective x).outcome = .ok a) ∧
      ∀ a, (p.objective x).outcome = .ok a →
        ∃ b, (p.objective x').outcome = .ok b ∧ b ≤ a := by
  induction steps generalizing x stepSize t with
  | zero =>
    cases h
    exact ⟨fun hne => absurd rfl hne, fun a ha => ⟨a, ha, le_rfl⟩⟩
  | succ steps ih =>
    obtain ⟨hkeep, hfound⟩ := ensures_step_le hf hcs x hsize t ht
    rw [run_succ] at h
    rcases hrun : (step p x stepSize).run t with ⟨r, t'⟩
    rw [hrun] at h hkeep hfound
    rcases r with e | (_ | ⟨next, size⟩)
    · cases h
    · cases h
      obtain ⟨a, ha, -⟩ := hfound none rfl
      exact ⟨fun _ => ⟨a, ha⟩, fun a ha => ⟨a, ha, le_rfl⟩⟩
    · obtain ⟨a, ha, hnext⟩ := hfound _ rfl
      obtain ⟨hpos, b, hb, hle⟩ := hnext (next, size) rfl
      refine ⟨fun _ => ⟨a, ha⟩, fun a' ha' => ?_⟩
      cases ha.symm.trans ha'
      obtain ⟨c, hc, hcb⟩ := (ih (add_pos hpos hpos) hkeep h).2 b hb
      exact ⟨c, hc, hcb.trans hle⟩

end Descent

/-! ### Strategies -/

namespace Strategy

/-- A strategy of the library that may solve an x-update: gradient descent with a positive step size,
or conjugate gradients that have been set up for the smooth functional and the weighted operators. -/
inductive PreparedFor (names : Naming K) (p : XUpdate K ℝ ℝ) : Strategy K ℝ ℝ → Prop
  | descent (steps : ℕ) {stepSize : ℝ} : 0 < stepSize → PreparedFor names p (.descent steps stepSize)
  | leastSquares {options : CgOptions ℝ} {equations : Option (NormalEquations K)}
      {s : Strategy K ℝ ℝ} {t t' : Trace K ℝ} : t.Faithful names →
      ((Strategy.leastSquares options equations).setup p.f (weighted p.couplings)).run t =
        (.ok s, t') → PreparedFor names p s

/-- What setting up conjugate gradients leads to. -/
theorem describes_of_setup (hf : p.f.IsFidelity names)
    (hcs : ∀ c ∈ p.couplings, c.operator.IsLinear names) {options : CgOptions ℝ}
    {equations : Option (NormalEquations K)} {s : Strategy K ℝ ℝ} {t t' : Trace K ℝ}
    (ht : t.Faithful names)
    (h : ((Strategy.leastSquares options equations).setup p.f (weighted p.couplings)).run t =
      (.ok s, t')) :
    ∃ l n, p.f.asSquaredLoss? = some l ∧ n.Describes names l p.couplings ∧
      s = .leastSquares options (some n) := by
  unfold setup at h
  cases hl : p.f.asSquaredLoss? with
  | none =>
    rw [hl] at h
    cases h
  | some l =>
    rw [hl] at h
    obtain ⟨hlinear, -⟩ := hf.asSquaredLoss? hl
    have hsetup : Ensures (Trace.Faithful names)
        (do
          let equations ← NormalEquations.ofLoss l (weighted p.couplings)
          return .leastSquares options (some equations) : Eval K ℝ (Strategy K ℝ ℝ))
        fun s => ∃ n, n.Describes names l p.couplings ∧ s = .leastSquares options (some n) :=
      (NormalEquations.ensures_describes hlinear hcs).bind fun n hn => .pure ⟨n, hn, rfl⟩
    obtain ⟨-, n, hn, rfl⟩ := hsetup.of_run h ht
    exact ⟨l, n, rfl, hn, rfl⟩

/-- A solution of the x-update is never worse than the signal from which it was sought, however early
the strategy has stopped.  Only gradient descent without any step does not evaluate the objective. -/
theorem objective_le_of_solve (hf : p.f.IsFidelity names)
    (hcs : ∀ c ∈ p.couplings, c.operator.IsLinear names) {s s' : Strategy K ℝ ℝ}
    (hs : s.PreparedFor names p) {x : Signal K} {t t' : Trace K ℝ} (ht : t.Faithful names)
    {report : SubproblemReport K ℝ} (h : s.solve p x t = ((.ok report, s'), t')) :
    ((∀ stepSize, s ≠ .descent 0 stepSize) → ∃ a, (p.objective x).outcome = .ok a) ∧
      ∀ a, (p.objective x).outcome = .ok a →
        ∃ b, (p.objective report.x).outcome = .ok b ∧ b ≤ a := by
  cases hs with
  | @descent steps stepSize hsize =>
    have hrun : (Descent.run p steps x stepSize t).1.1.map (fun x => ⟨x, none⟩) = .ok report :=
      congrArg (fun r => r.1.1) h
    obtain ⟨x', hx', rfl⟩ := Except.map_eq_ok_iff.mp hrun
    obtain ⟨hvalue, hle⟩ :=
      Descent.objective_le_of_run hf (fun c hc => (hcs c hc).named) steps hsize ht hx'
    refine ⟨fun hne => hvalue fun hzero => hne stepSize ?_, hle⟩
    rw [hzero]
  | leastSquares ht₀ hsetup =>
    obtain ⟨l, n, hl, hn, rfl⟩ := describes_of_setup hf hcs ht₀ hsetup
    have hrun : ((n.solve _ p.couplings x).run t).1 = .ok report := congrArg (fun r => r.1.1) h
    obtain ⟨hlinear, -⟩ := hf.asSquaredLoss? hl
    obtain ⟨-, hpost⟩ := hn.ensures_solve hlinear hcs _ x t ht
    obtain ⟨hshaped, hreaches, hshape, hle⟩ := hpost report hrun
    have hall : ∀ c ∈ l.coupling :: p.couplings, c.operator.IsLinear names :=
      List.forall_mem_cons.mpr ⟨hlinear.operator, hcs⟩
    have hbefore := outcome_objective_of_loss hf hcs hl hreaches hshaped
    have hafter := outcome_objective_of_loss hf hcs hl
      (hreaches.of_shape (isLinear_weighted hall) hshape) hshaped
    refine ⟨fun _ => ⟨_, hbefore⟩, fun a ha => ⟨_, hafter, ?_⟩⟩
    cases hbefore.symm.trans ha
    exact hle

/-- An x-update with singular normal equations: all operators send constant signals to zero. -/
def singularUpdate : XUpdate ℝ ℝ ℝ where
  f := Solver.singularProblem.f
  couplings := [⟨Solver.pairDifference, 1, .ofArray #[1], .ofArray #[0]⟩]

theorem objective_le_of_solve_singularUpdate : ∃ s t,
    ((Strategy.ofOptions .default).setup singularUpdate.f (weighted singularUpdate.couplings)).run
        .empty = (.ok s, t) ∧
      ∃ report s' t', s.solve singularUpdate (.ofArray #[1, 0]) .empty =
          ((.ok report, s'), t') ∧
        ∃ a b, (singularUpdate.objective (.ofArray #[1, 0])).outcome = .ok a ∧
          (singularUpdate.objective report.x).outcome = .ok b ∧ b ≤ a := by
  have hproblem := Solver.isLeastSquares_singularProblem.toHasEquations
  have hoperators : ∀ c ∈ singularUpdate.couplings, c.operator.IsLinear anyNaming :=
    List.forall_mem_singleton.mpr Solver.isPlain_pairDifference.isLinear
  obtain ⟨s, t, hsetup, l, n, hl, hn, hs⟩ := (hproblem.completes_setup
    Solver.fault?_singularProblem .default none).exists_run .empty
  have hjoins : ∀ c ∈ singularUpdate.couplings,
      NormalEquations.Joins [(Solver.pairDifference, (1 : ℝ))] l.operator.input c :=
    List.forall_mem_singleton.mpr
      ⟨Solver.isPlain_pairDifference, hl.input.symm, List.mem_singleton_self _, rfl, rfl⟩
  have hpos : ∀ q ∈ [(Solver.pairDifference, (1 : ℝ))], 0 < q.2 :=
    List.forall_mem_singleton.mpr one_pos
  have hatol : (0 : ℝ) ≤ (CgOptions.default : CgOptions ℝ).atol := le_refl (0 : ℝ)
  obtain ⟨report, t', hsolve, -⟩ :=
    (hn.completes_solve hl.scale hpos hatol hjoins hl.input.symm).exists_run .empty
  have hrun : s.solve singularUpdate (.ofArray #[1, 0]) .empty = ((.ok report, s), t') := by
    rw [hs]
    exact solve_of_run hsolve
  have hf : singularUpdate.f.IsFidelity anyNaming :=
    ⟨Solver.isPlain_pairDifference.isLinear, rfl, by simp [RealArithmetic.half]⟩
  obtain ⟨hvalue, hle⟩ := objective_le_of_solve hf hoperators
    (.leastSquares (Trace.faithful_empty _) hsetup) (Trace.faithful_empty _) hrun
  obtain ⟨a, ha⟩ := hvalue fun stepSize => by
    rw [hs]
    exact nofun
  obtain ⟨b, hb, hba⟩ := hle a ha
  exact ⟨s, t, hsetup, report, s, t', hrun, a, b, ha, hb, hba⟩

end Strategy

end

end OperatorSplitting
