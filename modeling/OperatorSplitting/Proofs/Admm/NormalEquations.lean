import Mathlib
import OperatorSplitting.Proofs.Admm.Descent
import OperatorSplitting.Proofs.Admm.Gradient
import OperatorSplitting.Proofs.ConjugateGradient.Residual

/-!
# The normal equations pose the x-update

Conjugate gradients never see the objective of the x-update.  They are given an operator that is set
up once, as an expression over the operators of the loss and the couplings, and a right-hand side to
which the current variables are added at every solve.  Gradient descent is given the gradient, which
is computed anew at every signal.  Both mean the same problem (`Strategy.setup_poses`): the operator is
the Hermitian form of the loss and the couplings, and its result minus the right-hand side is the
gradient, wherever one of the two can be computed.

So the residual that a linear solve reports is the norm of the gradient at the signal it returns, and
where the residual is zero the objective is least.
-/

namespace OperatorSplitting

open Eval LinearOperator Coupling

noncomputable section

variable {K : Type} [ExactScalar K] {names : Naming K}

/-! ### Operators that evaluate a form are linear -/

/-- The polar form is linear in its second argument. -/
theorem LinearOperator.Reaches.polar_combination {operators : List (LinearOperator K × ℝ)}
    {x x' d v : Signal K} (hoperators : ∀ p ∈ operators, p.1.IsLinear names)
    (h : Reaches operators x) (hd : d.shape = x.shape) (hx' : x'.shape = x.shape) {r : ℝ}
    (heq : x'.vec = x.vec + r • d.vec) :
    polar operators v x' = polar operators v x + r * polar operators v d := by
  rw [polar, polar, polar, ← List.sum_map_mul_left, ← List.sum_map_add]
  congr 1
  refine List.map_congr_left fun p hp => ?_
  rw [h.imageVec_combination hoperators hd hx' heq hp, inner_add_right, real_inner_smul_right]
  ring

theorem LinearOperator.IsForm.actsLinearly {a : LinearOperator K}
    {operators : List (LinearOperator K × ℝ)} (ha : a.IsForm names operators)
    (hoperators : ∀ p ∈ operators, p.1.IsLinear names) : a.ActsLinearly names where
  named := ha.linear.named
  combination := by
    intro x d x' u w r hu hw hx'
    obtain ⟨hxd, hx'shape, -⟩ := Signal.zipMap_spec hx'
    have hreaches := ha.reaches hu
    obtain ⟨u', hu'⟩ := ha.exists_apply (hreaches.of_shape hoperators hx'shape)
    obtain ⟨-, hushape⟩ := ha.linear.shape_apply hu
    obtain ⟨-, hwshape⟩ := ha.linear.shape_apply hw
    obtain ⟨-, hu'shape⟩ := ha.linear.shape_apply hu'
    obtain ⟨s, hs, hsshape⟩ :=
      Signal.exists_addScaled (Scalar.ofReal r) (hushape.trans hwshape.symm)
    have hsame : s = u' := by
      refine Signal.eq_of_inner (hsshape.trans (hushape.trans hu'shape.symm)) fun v hv => ?_
      have hvx : v.shape = x.shape := hv.trans (hsshape.trans (hushape.trans
        (ha.square.trans (ha.linear.shape_apply hu).1.symm)))
      rw [Signal.vec_addScaled hs, inner_add_right, real_inner_smul_right, ha.inner_apply hu hvx,
        ha.inner_apply hw (hvx.trans hxd), ha.inner_apply hu' (hvx.trans hx'shape.symm),
        hreaches.polar_combination hoperators hxd.symm hx'shape (Signal.vec_addScaled hx')]
    exact ⟨u', hu', hsame ▸ hs⟩

/-! ### Setting up -/

namespace NormalEquations

variable {l : SquaredLoss K ℝ} {cs : List (Coupling K ℝ)} {n : NormalEquations K}
  {operators rest : List (LinearOperator K × ℝ)} {lhs lhs' : LinearOperator K}

/-- Adding Gram operators adds forms. -/
theorem isForm_addGrams (hlhs : lhs.IsForm names operators)
    (hrest : ∀ p ∈ rest, p.1.IsLinear names) (h : addGrams rest lhs = .ok lhs') :
    lhs'.IsForm names (operators ++ rest) ∧ lhs'.input = lhs.input := by
  induction rest generalizing operators lhs with
  | nil =>
    cases h
    rw [List.append_nil]
    exact ⟨hlhs, rfl⟩
  | cons p rest ih =>
    obtain ⟨hp, hrest⟩ := List.forall_mem_cons.mp hrest
    obtain ⟨sum, hsum, h⟩ := Except.bind_eq_ok_iff.mp h
    obtain ⟨hinput, -, rfl⟩ := LinearOperator.add_eq_ok_iff.mp hsum
    obtain ⟨hform, hsame⟩ := ih (hlhs.sum (.gram hp p.2) hinput) hrest h
    rw [List.append_assoc] at hform
    exact ⟨hform, hsame⟩

/-- Gram operators of one input shape can be added. -/
theorem exists_addGrams_of_isForm (hlhs : lhs.IsForm names operators)
    (hrest : ∀ p ∈ rest, p.1.IsLinear names ∧ p.1.input = lhs.input) :
    ∃ lhs', addGrams rest lhs = .ok lhs' := by
  induction rest generalizing operators lhs with
  | nil => exact ⟨lhs, rfl⟩
  | cons p rest ih =>
    obtain ⟨⟨hp, hinput⟩, hrest⟩ := List.forall_mem_cons.mp hrest
    have hgram := IsForm.gram hp p.2
    have hadd : lhs.add (.multiple (Scalar.ofReal p.2) p.1.gramOperator) = .ok (.sum lhs
        (.multiple (Scalar.ofReal p.2) p.1.gramOperator)) :=
      add_eq_ok_iff.mpr ⟨hinput.symm, hlhs.square.trans hinput.symm, rfl⟩
    obtain ⟨lhs', hlhs'⟩ := ih (hlhs.sum hgram hinput.symm) hrest
    exact ⟨lhs', Except.bind_eq_ok_iff.mpr ⟨_, hadd, hlhs'⟩⟩

/-- The equations are a sum of Gram operators and what the adjoint makes of the observation. -/
theorem ofLoss_eq_ok_iff (hl : l.operator.Named names) :
    (ofLoss l operators : Eval K ℝ _).outcome = .ok n ↔ ∃ lhs pulled,
      addGrams operators (.multiple (Scalar.ofReal (l.scale + l.scale)) l.operator.gramOperator) =
          .ok lhs ∧
        (l.operator.adjoint l.observation : Eval K ℝ _).outcome = .ok pulled ∧
        n = ⟨lhs, pulled.scaled (Scalar.ofReal (l.scale + l.scale))⟩ := by
  have hreport (lhs : LinearOperator K) (pulled : Signal K) : Steady names (do
      OperatorSplitting.report (.linearSystem lhs.text)
      return ⟨lhs, pulled.scaled (Scalar.ofReal (l.scale + l.scale))⟩ :
        Eval K ℝ (NormalEquations K)) :=
    (Steady.report _).bind fun _ _ => .pure _
  unfold ofLoss
  dsimp only
  rw [outcome_liftExcept_bind, Except.bind_eq_ok_iff]
  refine exists_congr fun lhs => ?_
  rw [exists_and_left]
  refine and_congr_right fun _ => ?_
  rw [(steady_adjoint hl _).outcome_bind_eq_ok_iff fun pulled _ => hreport lhs pulled]
  refine exists_congr fun pulled => and_congr_right fun _ => ?_
  constructor
  · intro h
    cases h
    rfl
  · rintro rfl
    rfl

variable (operators) in
theorem steady_ofLoss (hl : l.operator.Named names) :
    Steady names (ofLoss l operators : Eval K ℝ _) :=
  (Steady.liftExcept _).bind fun _ _ => (steady_adjoint hl _).bind fun _ _ =>
    (Steady.report _).bind fun _ _ => .pure _

/-- The equations stand for a loss and couplings: the operator evaluates their form on the signals
that the operator of the loss takes, and the part of the right-hand side that stays is the weighted
pull of the loss. -/
structure Represents (names : Naming K) (l : SquaredLoss K ℝ) (cs : List (Coupling K ℝ))
    (n : NormalEquations K) : Prop where
  lhs : n.lhs.IsForm names (weighted (l.coupling :: cs))
  input : n.lhs.input = l.operator.input
  rhs : ∃ pulled, (l.operator.adjoint l.observation : Eval K ℝ _).outcome = .ok pulled ∧
    n.rhsBase = pulled.scaled (Scalar.ofReal (l.scale + l.scale))

theorem represents_of_ofLoss (hl : l.IsLinear names) (hcs : ∀ c ∈ cs, c.operator.IsLinear names)
    (h : (ofLoss l (weighted cs) : Eval K ℝ _).outcome = .ok n) : n.Represents names l cs := by
  obtain ⟨lhs, pulled, hlhs, hpulled, rfl⟩ := (ofLoss_eq_ok_iff hl.operator.named).mp h
  obtain ⟨hform, hinput⟩ := isForm_addGrams (.gram hl.operator _) (isLinear_weighted hcs) hlhs
  exact ⟨hform, hinput, pulled, hpulled, rfl⟩

theorem Represents.describes (h : n.Represents names l cs) : n.Describes names l cs :=
  ⟨h.lhs.toIsPolar, h.rhs⟩

/-! ### The right-hand side -/

variable {rhs rhs' x : Signal K}

theorem shape_addCouplings (hcs : ∀ c ∈ cs, c.operator.Named names)
    (h : (addCouplings cs rhs : Eval K ℝ _).outcome = .ok rhs') : rhs'.shape = rhs.shape := by
  induction cs generalizing rhs with
  | nil =>
    cases h
    rfl
  | cons c cs ih =>
    obtain ⟨hc, hcs⟩ := List.forall_mem_cons.mp hcs
    obtain ⟨target, back, next, -, -, hnext, hrest⟩ := (addCouplings_cons_eq_ok_iff hc hcs).mp h
    exact (ih hcs hrest).trans (Signal.shape_of_zipMap hnext)

/-- Where the adjoints have results, the couplings can be added to the right-hand side. -/
theorem exists_addCouplings (hcs : ∀ c ∈ cs, c.operator.IsLinear names)
    (hshaped : ∀ c ∈ cs, c.Shaped) (h : Reaches (weighted cs) x) (hrhs : rhs.shape = x.shape) :
    ∃ rhs', (addCouplings cs rhs : Eval K ℝ _).outcome = .ok rhs' := by
  induction cs generalizing rhs with
  | nil => exact ⟨rhs, rfl⟩
  | cons c cs ih =>
    obtain ⟨hc, hcs⟩ := List.forall_mem_cons.mp hcs
    obtain ⟨hfits, hshaped⟩ := List.forall_mem_cons.mp hshaped
    obtain ⟨⟨image, b, himage, hb⟩, h⟩ := List.forall_mem_cons.mp h
    obtain ⟨target, htarget, htshape⟩ := Signal.exists_sub (hfits.z_shape.trans hfits.u_shape.symm)
    obtain ⟨back, hback⟩ := hc.adjoint_uniform hb
      ((htshape.trans hfits.z_shape).trans (hc.shape_adjoint hb).1.symm)
    have hsame : rhs.shape = back.shape :=
      hrhs.trans ((hc.shape_apply himage).1.trans (hc.shape_adjoint hback).2.symm)
    obtain ⟨next, hnext, hnshape⟩ := Signal.exists_addScaled (Scalar.ofReal c.weight) hsame
    obtain ⟨rhs', hrhs'⟩ := ih hcs hshaped h (hnshape.trans hrhs)
    exact ⟨rhs', (addCouplings_cons_eq_ok_iff hc.named fun c hc => (hcs c hc).named).mpr
      ⟨target, back, next, htarget, hback, hnext, hrhs'⟩⟩

theorem Represents.shape_rhs (h : n.Represents names l cs) (hl : l.IsLinear names)
    (hcs : ∀ c ∈ cs, c.operator.IsLinear names)
    (hrhs : (addCouplings cs n.rhsBase : Eval K ℝ _).outcome = .ok rhs) :
    rhs.shape = l.operator.input := by
  obtain ⟨pulled, hpulled, hbase⟩ := h.rhs
  rw [shape_addCouplings (fun c hc => (hcs c hc).named) hrhs, hbase, Signal.shape_scaled]
  exact (hl.operator.shape_adjoint hpulled).2

/-! ### The gradient -/

variable {p : XUpdate K ℝ ℝ}

/-- Where the operators and their adjoints have results, the gradient is the result of the operator
minus the right-hand side. -/
theorem Represents.exists_gradient (hn : n.Represents names l p.couplings)
    (h : p.IsLeastSquares names l)
    (hrhs : (addCouplings p.couplings n.rhsBase : Eval K ℝ _).outcome = .ok rhs)
    (hx : Reaches (weighted (l.coupling :: p.couplings)) x) :
    ∃ u g, (n.lhs.apply x : Eval K ℝ _).outcome = .ok u ∧ (p.gradient x).outcome = .ok g ∧
      u.sub rhs = .ok g := by
  obtain ⟨u, hu⟩ := hn.lhs.exists_apply hx
  obtain ⟨g, hg⟩ := h.exists_gradient_iff.mpr hx
  obtain ⟨hgshape, -, hslope⟩ := h.inner_gradient hg
  obtain ⟨-, hpull⟩ := hn.describes.inner_rhs h.isLinear h.linear hrhs
  obtain ⟨hxshape, hushape⟩ := hn.lhs.linear.shape_apply hu
  have hux : u.shape = x.shape := hushape.trans (hn.lhs.square.trans hxshape.symm)
  have hsame : u.shape = rhs.shape :=
    hux.trans (hxshape.trans (hn.input.trans (hn.shape_rhs h.isLinear h.linear hrhs).symm))
  obtain ⟨d, hd, hdshape⟩ := Signal.exists_sub hsame
  have hgd : g = d := by
    refine Signal.eq_of_inner (hgshape.trans (hdshape.trans hux).symm) fun v hv => ?_
    have hvx := hv.trans hgshape
    rw [hslope v hvx, Signal.vec_sub hd, inner_sub_right, hn.lhs.inner_apply hu hvx,
      hpull v (hx.of_shape (isLinear_weighted h.all_linear) hvx), ← slope_add_pull,
      add_sub_cancel_right]
  exact ⟨u, g, hu, hg, hgd ▸ hd⟩

/-- There is a gradient exactly where the operator has a result, and then it is that result minus the
right-hand side. -/
theorem Represents.gradient_eq_ok_iff (hn : n.Represents names l p.couplings)
    (h : p.IsLeastSquares names l)
    (hrhs : (addCouplings p.couplings n.rhsBase : Eval K ℝ _).outcome = .ok rhs) {g : Signal K} :
    (p.gradient x).outcome = .ok g ↔
      ∃ u, (n.lhs.apply x : Eval K ℝ _).outcome = .ok u ∧ u.sub rhs = .ok g := by
  constructor
  · intro hg
    obtain ⟨u, g', hu, hg', hsub⟩ := hn.exists_gradient h hrhs (h.inner_gradient hg).2.1
    cases hg.symm.trans hg'
    exact ⟨u, hu, hsub⟩
  · rintro ⟨u, hu, hsub⟩
    obtain ⟨u', g', hu', hg', hsub'⟩ := hn.exists_gradient h hrhs (hn.lhs.reaches hu)
    cases hu.symm.trans hu'
    cases hsub.symm.trans hsub'
    exact hg'

/-! ### Solving -/

/-- A solve reports the norm of the true residual of the equations for the current couplings. -/
theorem Represents.ensures_solve (hn : n.Represents names l cs) (hl : l.IsLinear names)
    (hcs : ∀ c ∈ cs, c.operator.IsLinear names) (options : CgOptions ℝ) (x : Signal K) :
    Ensures (Trace.Faithful names) (n.solve options cs x) fun report =>
      ∃ rhs info u r, (addCouplings cs n.rhsBase : Eval K ℝ _).outcome = .ok rhs ∧
        report.linearSolve = some info ∧ (n.lhs.apply report.x : Eval K ℝ _).outcome = .ok u ∧
        rhs.sub u = .ok r ∧ info.residual = r.norm := by
  have hall : ∀ c ∈ l.coupling :: cs, c.operator.IsLinear names :=
    List.forall_mem_cons.mpr ⟨hl.operator, hcs⟩
  have hlhs := hn.lhs.linear.named
  refine (steady_addCouplings (fun c hc => (hcs c hc).named) _).ensures.bind fun rhs hrhs =>
    (steady_conjugateGradient hlhs rhs x options).ensures.bind fun ⟨solution, info⟩ hsolved => ?_
  have hkeep := (steady_conjugateGradient hlhs rhs x options .empty (Trace.faithful_empty names)).2
  obtain ⟨-, ⟨u, r, hu, hr, hresidual, -⟩, -, -⟩ :=
    (conjugateGradient_report (hn.lhs.actsLinearly (isLinear_weighted hall)) hn.lhs.square.symm
      ((hn.shape_rhs hl hcs hrhs).trans hn.input.symm) options (Trace.faithful_empty names)).1
      solution info _ (Prod.ext hsolved rfl)
  rw [(steady_apply hlhs solution _ hkeep).1] at hu
  exact Ensures.ite
    ((Steady.report _).ensures.bind fun _ _ => .pure ⟨rhs, info, u, r, hrhs, rfl, hu, hr, hresidual⟩)
    (.pure ⟨rhs, info, u, r, hrhs, rfl, hu, hr, hresidual⟩)

/-! ### The two ways to pose the x-update -/

/-- The equations pose the x-update. -/
structure Poses (names : Naming K) (l : SquaredLoss K ℝ) (p : XUpdate K ℝ ℝ)
    (n : NormalEquations K) : Prop where
  /-- The operator takes the signals of the x-update, and its results are such signals. -/
  input : n.lhs.input = l.operator.input ∧ n.lhs.output = l.operator.input
  /-- The inner product of a signal and a result of the operator. -/
  form : ∀ {v w u : Signal K}, v.shape = w.shape →
    (n.lhs.apply w : Eval K ℝ _).outcome = .ok u →
      inner ℂ v.vec u.vec =
        2 * l.scale * inner ℂ (l.operator.imageVec v) (l.operator.imageVec w) +
          (p.couplings.map fun c => c.weight *
            inner ℂ (c.operator.imageVec v) (c.operator.imageVec w)).sum
  /-- The operator is Hermitian. -/
  hermitian : ∀ {v w v' w' : Signal K}, (n.lhs.apply v : Eval K ℝ _).outcome = .ok v' →
    (n.lhs.apply w : Eval K ℝ _).outcome = .ok w' → inner ℂ v.vec w'.vec = inner ℂ v'.vec w.vec
  /-- Where one of the gradient and the result of the operator exists, both do, and the gradient is
  the result minus the right-hand side for the current couplings. -/
  gradient : ∀ {rhs : Signal K},
    (addCouplings p.couplings n.rhsBase : Eval K ℝ _).outcome = .ok rhs → ∀ {x g : Signal K},
      (p.gradient x).outcome = .ok g ↔
        ∃ u, (n.lhs.apply x : Eval K ℝ _).outcome = .ok u ∧ u.sub rhs = .ok g
  /-- A solve reports the norm of the gradient at the signal that it returns.  If that is zero, the
  objective is least there. -/
  solve : ∀ {options : CgOptions ℝ} {x : Signal K} {report : SubproblemReport K ℝ}
    {s' : Strategy K ℝ ℝ} {t t' : Trace K ℝ}, t.Faithful names →
      (Strategy.leastSquares options (some n)).solve p x t = ((.ok report, s'), t') →
        ∃ info g, report.linearSolve = some info ∧ (p.gradient report.x).outcome = .ok g ∧
          info.residual = g.norm ∧ (info.residual = 0 → p.IsMinimizer report.x)

theorem Represents.poses (hn : n.Represents names l p.couplings) (h : p.IsLeastSquares names l) :
    n.Poses names l p where
  input := ⟨hn.input, hn.lhs.square.trans hn.input⟩
  form := by
    intro v w u hvw hu
    have hform : LinearOperator.form (weighted (l.coupling :: p.couplings)) v w =
        ((l.scale + l.scale : ℝ) : ℂ) * inner ℂ (l.operator.imageVec v) (l.operator.imageVec w) +
          (p.couplings.map fun c => c.weight *
            inner ℂ (c.operator.imageVec v) (c.operator.imageVec w)).sum := by
      rw [LinearOperator.form, weighted, List.map_map]
      exact List.sum_cons
    rw [Signal.inner_complex_vec, hn.lhs.pairing_apply hu hvw, hform, ← two_mul, Complex.ofReal_mul,
      Complex.ofReal_ofNat]
  hermitian := by
    intro v w v' w' hv hw
    rw [Signal.inner_complex_vec, Signal.inner_complex_vec, hn.lhs.hermitian hw hv]
  gradient hrhs := hn.gradient_eq_ok_iff h hrhs
  solve := by
    intro options x report s' t t' ht hrun
    have hresult : ((n.solve options p.couplings x).run t).1 = .ok report :=
      congrArg (fun r => r.1.1) hrun
    obtain ⟨rhs, info, u, r, hrhs, hinfo, hu, hr, hresidual⟩ :=
      (hn.ensures_solve h.isLinear h.linear options x t ht).2 report hresult
    obtain ⟨g, hg, -⟩ := Signal.exists_sub (Signal.zipMap_spec hr).1.symm
    have hgradient := (hn.gradient_eq_ok_iff h hrhs).mpr ⟨u, hu, hg⟩
    have hnorm : info.residual = g.norm := by
      rw [hresidual, Signal.norm_eq, Signal.norm_eq, Signal.vec_sub hr, Signal.vec_sub hg,
        norm_sub_rev]
    refine ⟨info, g, hinfo, hgradient, hnorm, fun hzero => ?_⟩
    rw [hnorm, Signal.norm_eq, norm_eq_zero] at hzero
    exact h.isMinimizer_of_gradient hgradient hzero

end NormalEquations

/-! ### Memory -/

namespace XUpdate.IsLeastSquares

variable {p : XUpdate K ℝ ℝ} {l : SquaredLoss K ℝ} {x : Signal K}

/-- If there is room for what evaluation lays out, the operators and their adjoints have results. -/
theorem reaches (h : p.IsLeastSquares names l)
    (hroomy : ∀ c ∈ l.coupling :: p.couplings, c.operator.AllLeaves Leaf.Roomy)
    (hx : x.shape = l.operator.input) : Reaches (weighted (l.coupling :: p.couplings)) x := by
  refine List.forall_mem_map.mpr fun c hc => ?_
  have hlinear := h.all_linear c hc
  have hinput : c.operator.input = l.operator.input := by
    rcases List.mem_cons.mp hc with rfl | hc
    · rfl
    · exact h.input c hc
  exact hlinear.exists_images (hroomy c hc) (hx.trans hinput.symm)

end XUpdate.IsLeastSquares

namespace NormalEquations

variable {p : XUpdate K ℝ ℝ} {l : SquaredLoss K ℝ} {n : NormalEquations K}

/-- If there is room for what evaluation lays out, the equations can be set up. -/
theorem exists_ofLoss (h : p.IsLeastSquares names l)
    (hroomy : l.operator.AllLeaves Leaf.Roomy) :
    ∃ n, (ofLoss l (weighted p.couplings) : Eval K ℝ _).outcome = .ok n := by
  have hloss := h.isLinear.operator
  have hweighted : ∀ q ∈ weighted p.couplings, q.1.IsLinear names ∧ q.1.input = l.operator.input :=
    List.forall_mem_map.mpr fun c hc => ⟨h.linear c hc, h.input c hc⟩
  obtain ⟨lhs, hlhs⟩ := exists_addGrams_of_isForm (.gram hloss (l.scale + l.scale)) hweighted
  obtain ⟨pulled, hpulled⟩ := (totalOn hloss.wellShaped hloss.named hloss.leaves hroomy).2
    l.observation h.isLinear.observation
  exact ⟨_, (ofLoss_eq_ok_iff hloss.named).mpr ⟨lhs, pulled, hlhs,
    outcome_adjoint_eq_ok_iff.mpr ⟨h.isLinear.observation, hpulled⟩, rfl⟩⟩

/-- If there is room for what evaluation lays out, there is a right-hand side. -/
theorem Represents.exists_rhs (hn : n.Represents names l p.couplings) (h : p.IsLeastSquares names l)
    (hroomy : ∀ c ∈ l.coupling :: p.couplings, c.operator.AllLeaves Leaf.Roomy) :
    ∃ rhs, (addCouplings p.couplings n.rhsBase : Eval K ℝ _).outcome = .ok rhs := by
  obtain ⟨-, hreaches⟩ := List.forall_mem_cons.mp
    (h.reaches hroomy (x := Signal.zeros l.operator.input) (Signal.shape_replicate _ _))
  obtain ⟨pulled, hpulled, hbase⟩ := hn.rhs
  refine exists_addCouplings h.linear h.shaped hreaches ?_
  rw [hbase, Signal.shape_scaled, (h.isLinear.operator.shape_adjoint hpulled).2]
  exact (Signal.shape_replicate _ _).symm

end NormalEquations

/-! ### Strategies -/

namespace Strategy

variable {p : XUpdate K ℝ ℝ} {l : SquaredLoss K ℝ} {t : Trace K ℝ} (options : CgOptions ℝ)
  (equations : Option (NormalEquations K))

/-- Setting up conjugate gradients for least squares is setting up the equations of the loss. -/
theorem run_setup_of_loss (h : p.IsLeastSquares names l) (ht : t.Faithful names) :
    (((Strategy.leastSquares options equations).setup p.f (weighted p.couplings)).run t).1 =
      (NormalEquations.ofLoss l (weighted p.couplings) : Eval K ℝ _).outcome.map fun n =>
        .leastSquares options (some n) := by
  have hsteady := NormalEquations.steady_ofLoss (weighted p.couplings) h.isLinear.operator.named
  rw [← hsteady.outcome_map]
  unfold setup
  rw [h.loss]
  exact ((hsteady.map _) t ht).1

/-- **Both ways to pose the x-update agree.**  After conjugate gradients have been set up for least
squares, their equations pose the x-update.  If there is room for what evaluation lays out, setting up
does not fail, there is a right-hand side, and the operator has results at all signals of the
x-update. -/
theorem setup_poses (h : p.IsLeastSquares names l) (ht : t.Faithful names) :
    (∀ s t', ((Strategy.leastSquares options equations).setup p.f (weighted p.couplings)).run t =
        (.ok s, t') → ∃ n, s = .leastSquares options (some n) ∧ n.Poses names l p) ∧
      ((∀ c ∈ l.coupling :: p.couplings, c.operator.AllLeaves Leaf.Roomy) → ∃ n t' rhs,
        ((Strategy.leastSquares options equations).setup p.f (weighted p.couplings)).run t =
            (.ok (.leastSquares options (some n)), t') ∧
          (NormalEquations.addCouplings p.couplings n.rhsBase : Eval K ℝ _).outcome = .ok rhs ∧
          ∀ x : Signal K, x.shape = l.operator.input →
            ∃ u, (n.lhs.apply x : Eval K ℝ _).outcome = .ok u) := by
  have hsetup := run_setup_of_loss options equations h ht
  refine ⟨fun s t' hrun => ?_, fun hroomy => ?_⟩
  · rw [hrun] at hsetup
    obtain ⟨n, hn, rfl⟩ := Except.map_eq_ok_iff.mp hsetup.symm
    exact ⟨n, rfl, (NormalEquations.represents_of_ofLoss h.isLinear h.linear hn).poses h⟩
  · obtain ⟨n, hn⟩ := NormalEquations.exists_ofLoss h (hroomy l.coupling List.mem_cons_self)
    have hrepresents := NormalEquations.represents_of_ofLoss h.isLinear h.linear hn
    obtain ⟨rhs, hrhs⟩ := hrepresents.exists_rhs h hroomy
    rw [hn] at hsetup
    exact ⟨n, _, rhs, Prod.ext hsetup rfl, hrhs, fun x hx =>
      hrepresents.lhs.exists_apply (h.reaches hroomy hx)⟩

/-- Half the squared distance between the difference of two entries and one. -/
def pairLoss : SquaredLoss ℝ ℝ :=
  ⟨.ofArray #[1], Solver.pairDifference, RealArithmetic.half, none⟩

/-- The singular x-update, with its loss doubled twice. -/
def scaledUpdate : XUpdate ℝ ℝ ℝ :=
  { singularUpdate with
    f := .multiple RealArithmetic.two (.multiple RealArithmetic.two (.loss pairLoss)) }

theorem isPlainOn_pairLoss : pairLoss.IsPlainOn (.vector 2) :=
  SquaredLoss.isPlainOn_of_ofObservation (y := .ofArray #[1]) Solver.isPlain_pairDifference rfl

/-- The loss that the scaled x-update is recognized as. -/
def scaledLoss : SquaredLoss ℝ ℝ :=
  (pairLoss.rescaled RealArithmetic.two).rescaled RealArithmetic.two

theorem isLeastSquares_scaledUpdate : scaledUpdate.IsLeastSquares anyNaming scaledLoss where
  fidelity := ⟨RealArithmetic.two_pos, RealArithmetic.two_pos,
    isPlainOn_pairLoss.operator.isLinear, isPlainOn_pairLoss.observation, isPlainOn_pairLoss.scale⟩
  loss := rfl
  linear := List.forall_mem_singleton.mpr Solver.isPlain_pairDifference.isLinear
  input := List.forall_mem_singleton.mpr rfl
  shaped := List.forall_mem_singleton.mpr ⟨rfl, rfl⟩
  weight_pos := List.forall_mem_singleton.mpr one_pos

/-- The equations of the scaled x-update are singular, and can be solved all the same. -/
theorem setup_poses_scaledUpdate : ∃ n t,
    ((Strategy.ofOptions .default).setup scaledUpdate.f (weighted scaledUpdate.couplings)).run
        .empty = (.ok (.leastSquares .default (some n)), t) ∧
      n.Poses anyNaming scaledLoss scaledUpdate ∧
      ∃ report s' t' info g, (Strategy.leastSquares .default (some n)).solve scaledUpdate
          (.ofArray #[1, 0]) .empty = ((.ok report, s'), t') ∧
        report.linearSolve = some info ∧ (scaledUpdate.gradient report.x).outcome = .ok g ∧
        info.residual = g.norm := by
  have hproblem := isLeastSquares_scaledUpdate
  have hplain : scaledLoss.IsPlainOn (.vector 2) :=
    { isPlainOn_pairLoss with
      scale := mul_pos (mul_pos isPlainOn_pairLoss.scale RealArithmetic.two_pos)
        RealArithmetic.two_pos }
  have hoperators : ∀ q ∈ weighted scaledUpdate.couplings,
      q.1.IsPlain ∧ q.1.input = .vector 2 :=
    List.forall_mem_singleton.mpr ⟨Solver.isPlain_pairDifference, rfl⟩
  obtain ⟨hposes, -⟩ := setup_poses .default none hproblem (Trace.faithful_empty _)
  obtain ⟨n, t, hn, hfits⟩ :=
    (NormalEquations.completes_ofLoss hplain hoperators).exists_run .empty
  have hsetup : ((Strategy.ofOptions .default).setup scaledUpdate.f
      (weighted scaledUpdate.couplings)).run .empty =
        (.ok (.leastSquares .default (some n)), t) :=
    run_bind_eq_ok_iff.mpr ⟨n, t, hn, rfl⟩
  obtain ⟨n', hsame, hn'⟩ := hposes _ _ hsetup
  cases hsame
  have hjoins : ∀ c ∈ scaledUpdate.couplings,
      NormalEquations.Joins (weighted scaledUpdate.couplings) (.vector 2) c :=
    List.forall_mem_singleton.mpr
      ⟨Solver.isPlain_pairDifference, rfl, List.mem_singleton_self _, rfl, rfl⟩
  have hatol : (0 : ℝ) ≤ CgOptions.default.atol := le_refl 0
  obtain ⟨report, t', hsolve, -⟩ := (hfits.completes_solve hplain.scale
    (List.forall_mem_singleton.mpr one_pos) hatol hjoins (x := .ofArray #[1, 0]) rfl).exists_run
      .empty
  have hrun := solve_of_run (p := scaledUpdate) hsolve
  obtain ⟨info, g, hinfo, hg, hresidual, -⟩ := hn'.solve (Trace.faithful_empty _) hrun
  exact ⟨n, t, hsetup, hn', report, _, t', info, g, hrun, hinfo, hg, hresidual⟩

end Strategy

end

end OperatorSplitting
