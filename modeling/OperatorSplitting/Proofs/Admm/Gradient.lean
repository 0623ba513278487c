import Mathlib
import OperatorSplitting.Proofs.Admm.Misfit
import OperatorSplitting.Proofs.Linear.HermitianForm
import OperatorSplitting.Proofs.Linear.NormalOperator

/-!
# The gradient of the x-update

For a squared loss, or a multiple of one, the gradient of the x-update is computed by a loop: the
residual of the loss and the mismatch of every coupling are moved back by the adjoints and added up.
The loop has a result wherever the operators and their adjoints have the results that it asks for
(`exists_gradient_iff`), and this result is the gradient of the misfit: its inner product with a
direction is the slope of the misfit in that direction (`inner_gradient`).  The misfit is convex, so
that a signal at which the gradient vanishes is a minimizer (`isMinimizer_of_gradient`).
-/

namespace OperatorSplitting

open Eval LinearOperator Coupling

noncomputable section

variable {K : Type} [ExactScalar K] {names : Naming K}

/-! ### Images and gaps -/

/-- The inner product of a direction and a result of the adjoint. -/
theorem LinearOperator.IsLinear.inner_imageVec {a : LinearOperator K} (ha : a.IsLinear names)
    {v image y g : Signal K} (himage : (a.apply v : Eval K ℝ _).outcome = .ok image)
    (hg : (a.adjoint y : Eval K ℝ _).outcome = .ok g) :
    inner ℝ v.vec g.vec = inner ℝ (a.imageVec v) y.vec := by
  rw [imageVec_eq himage, Signal.inner_vec, Signal.inner_vec, ha.pairing_adjoint himage hg]

theorem Coupling.slope_cons {c : Coupling K ℝ} {cs : List (Coupling K ℝ)} {x v : Signal K} :
    Coupling.slope (c :: cs) x v =
      c.weight * inner ℝ (c.operator.imageVec v) (c.gap x) + Coupling.slope cs x v :=
  List.sum_cons

/-! ### The loss -/

namespace SquaredLoss

variable {l : SquaredLoss K ℝ} {x v g : Signal K}

/-- The loss has a gradient where its operator has an image and the adjoint a result. -/
theorem exists_grad_iff (hl : l.IsLinear names) :
    (∃ g, (l.grad x : Eval K ℝ _).outcome = .ok g) ↔
      ∃ u b, (l.operator.apply x : Eval K ℝ _).outcome = .ok u ∧
        (l.operator.adjoint u : Eval K ℝ _).outcome = .ok b := by
  have hnamed := hl.operator.named
  constructor
  · rintro ⟨g, hg⟩
    obtain ⟨r, b, hr, hb, -⟩ := (outcome_grad_eq_ok_iff hnamed).mp hg
    obtain ⟨u, hu, hur⟩ := (outcome_residual_eq_ok_iff hnamed).mp hr
    obtain ⟨b', hb'⟩ := hl.operator.adjoint_uniform hb (Signal.shape_of_zipMap hur).symm
    exact ⟨u, b', hu, hb'⟩
  · rintro ⟨u, b, hu, hb⟩
    obtain ⟨r, hr, -⟩ := exists_residual hl hu
    obtain ⟨u', hu', hur⟩ := (outcome_residual_eq_ok_iff hnamed).mp hr
    cases hu.symm.trans hu'
    obtain ⟨b', hb'⟩ := hl.operator.adjoint_uniform hb (Signal.shape_of_zipMap hur)
    exact ⟨_, (outcome_grad_eq_ok_iff hnamed).mpr ⟨r, b', hr, hb', rfl⟩⟩

/-- The gradient of the loss acts on a direction through its image and the gap of the coupling. -/
theorem inner_grad (hl : l.IsLinear names) (hg : (l.grad x : Eval K ℝ _).outcome = .ok g)
    (hv : v.shape = x.shape) : inner ℝ v.vec g.vec =
      l.coupling.weight * inner ℝ (l.operator.imageVec v) (l.coupling.gap x) := by
  have hnamed := hl.operator.named
  obtain ⟨r, b, hr, hb, rfl⟩ := (outcome_grad_eq_ok_iff hnamed).mp hg
  obtain ⟨u, hu, -⟩ := (outcome_residual_eq_ok_iff hnamed).mp hr
  obtain ⟨r', hr', hgap⟩ := exists_residual hl hu
  cases hr.symm.trans hr'
  obtain ⟨image, himage⟩ := hl.operator.apply_uniform hu hv
  rw [Signal.vec_scaled, real_inner_smul_right, hl.operator.inner_imageVec himage hb, hgap]
  rfl

/-- The gradient of a rescaled loss is that multiple of the gradient. -/
theorem outcome_grad_rescaled (hl : l.operator.Named names) (s : ℝ) :
    ((l.rescaled s).grad x : Eval K ℝ _).outcome =
      (l.grad x : Eval K ℝ _).outcome.map (·.scaled (Scalar.ofReal s)) := by
  -- Both are multiples of what the adjoint makes of the residual, which does not see the scale.
  have hpulled : Steady names (do l.operator.adjoint (← l.residual x) : Eval K ℝ _) :=
    (steady_residual hl x).bind fun r _ => steady_adjoint hl r
  have hgrad (r : ℝ) : ((l.rescaled r).grad x : Eval K ℝ _).outcome =
      (do l.operator.adjoint (← l.residual x) : Eval K ℝ _).outcome.map
        (·.scaled (Scalar.ofReal (l.scale * r + l.scale * r))) := by
    rw [← hpulled.outcome_map, bind_assoc]
    rfl
  have hself : l.rescaled 1 = l := by
    rw [rescaled, mul_one]
  have hplain := hgrad 1
  rw [hself] at hplain
  rw [hgrad, hplain]
  cases (do l.operator.adjoint (← l.residual x) : Eval K ℝ _).outcome with
  | error e => rfl
  | ok b =>
    refine congrArg Except.ok (Signal.vec_injective ?_ ?_)
    · rw [Signal.shape_scaled, Signal.shape_scaled, Signal.shape_scaled]
    · rw [Signal.vec_scaled, Signal.vec_scaled, Signal.vec_scaled, smul_smul]
      congr 1
      ring

end SquaredLoss

/-- A fidelity term that is recognized as a squared loss has its gradients. -/
theorem Functional.IsFidelity.outcome_grad {f : Functional K ℝ ℝ} (hf : f.IsFidelity names)
    {l : SquaredLoss K ℝ} (hl : f.asSquaredLoss? = some l) (x : Signal K) :
    (f.grad x : Eval K ℝ _).outcome = (l.grad x : Eval K ℝ _).outcome := by
  induction f generalizing l with
  | loss l' =>
    cases hl
    rfl
  | multiple s f ih =>
    obtain ⟨-, hf⟩ := hf
    obtain ⟨l', hl', rfl⟩ := Option.map_eq_some_iff.mp hl
    rw [outcome_grad_multiple hf.named, ih hf hl',
      SquaredLoss.outcome_grad_rescaled (hf.asSquaredLoss? hl').1.operator.named]
  | external e => exact absurd hf id
  | _ => cases hl

/-! ### The couplings -/

namespace XUpdate

variable {cs : List (Coupling K ℝ)} {c : Coupling K ℝ} {x v g e : Signal K}

/-- What the couplings add acts on a direction as the slope of their misfit. -/
theorem addGradients_spec (hcs : ∀ c ∈ cs, c.operator.IsLinear names)
    (h : (addGradients x cs g : Eval K ℝ _).outcome = .ok e) :
    e.shape = g.shape ∧ Reaches (weighted cs) x ∧ ∀ v : Signal K, v.shape = x.shape →
      inner ℝ v.vec e.vec = inner ℝ v.vec g.vec + slope cs x v := by
  induction cs generalizing g with
  | nil =>
    cases h
    exact ⟨rfl, List.forall_mem_nil _, fun v _ => (add_zero _).symm⟩
  | cons c cs ih =>
    obtain ⟨hc, hcs⟩ := List.forall_mem_cons.mp hcs
    obtain ⟨r, back, g', hr, hback, hg', hrest⟩ :=
      (addGradients_cons_eq_ok_iff hc.named fun c hc => (hcs c hc).named).mp h
    obtain ⟨hshape, hreaches, hinner⟩ := ih hcs hrest
    obtain ⟨image, d, himage, hd, hdr⟩ := (outcome_mismatch_eq_ok_iff hc.named).mp hr
    have hrshape := (Signal.shape_of_zipMap hdr).trans (Signal.shape_of_zipMap hd)
    obtain ⟨b, hb⟩ := hc.adjoint_uniform hback hrshape.symm
    refine ⟨hshape.trans (Signal.shape_of_zipMap hg'),
      List.forall_mem_cons.mpr ⟨⟨image, b, himage, hb⟩, hreaches⟩, fun v hv => ?_⟩
    obtain ⟨w, hw⟩ := hc.apply_uniform himage hv
    rw [hinner v hv, Signal.vec_addScaled hg', inner_add_right, real_inner_smul_right,
      hc.inner_imageVec hw hback, vec_mismatch hc.named hr, slope_cons, add_assoc]

/-- Where the operators and their adjoints have results, the couplings add theirs. -/
theorem exists_addGradients (hcs : ∀ c ∈ cs, c.operator.IsLinear names)
    (hshaped : ∀ c ∈ cs, c.Shaped) (h : Reaches (weighted cs) x) (hg : g.shape = x.shape) :
    ∃ e, (addGradients x cs g : Eval K ℝ _).outcome = .ok e := by
  induction cs generalizing g with
  | nil => exact ⟨g, rfl⟩
  | cons c cs ih =>
    obtain ⟨hc, hcs⟩ := List.forall_mem_cons.mp hcs
    obtain ⟨hfits, hshaped⟩ := List.forall_mem_cons.mp hshaped
    obtain ⟨⟨image, b, himage, hb⟩, h⟩ := List.forall_mem_cons.mp h
    obtain ⟨r, hr⟩ := hfits.exists_mismatch hc himage
    obtain ⟨image', d, himage', hd, hdr⟩ := (outcome_mismatch_eq_ok_iff hc.named).mp hr
    cases himage.symm.trans himage'
    obtain ⟨back, hback⟩ :=
      hc.adjoint_uniform hb ((Signal.shape_of_zipMap hdr).trans (Signal.shape_of_zipMap hd))
    have hsame : g.shape = back.shape :=
      hg.trans ((hc.shape_apply himage).1.trans (hc.shape_adjoint hback).2.symm)
    obtain ⟨g', hg', hg'shape⟩ := Signal.exists_addScaled (Scalar.ofReal c.weight) hsame
    obtain ⟨e, he⟩ := ih hcs hshaped h (hg'shape.trans hg)
    exact ⟨e, (addGradients_cons_eq_ok_iff hc.named fun c hc => (hcs c hc).named).mpr
      ⟨r, back, g', hr, hback, hg', he⟩⟩

/-! ### The problem -/

/-- An x-update of least squares.  The smooth functional is a squared loss or a positive multiple of
one, and is recognized as the loss `l`.  The operators are linear and take the same signals; their
weights are positive, and the variables that belong to them have their output shapes. -/
structure IsLeastSquares (names : Naming K) (l : SquaredLoss K ℝ) (p : XUpdate K ℝ ℝ) : Prop where
  fidelity : p.f.IsFidelity names
  loss : p.f.asSquaredLoss? = some l
  linear : ∀ c ∈ p.couplings, c.operator.IsLinear names
  input : ∀ c ∈ p.couplings, c.operator.input = l.operator.input
  shaped : ∀ c ∈ p.couplings, c.Shaped
  weight_pos : ∀ c ∈ p.couplings, 0 < c.weight

/-- The objective has a value at the signal, and at no signal of the same shape a smaller one. -/
def IsMinimizer (p : XUpdate K ℝ ℝ) (x : Signal K) : Prop :=
  ∃ a, (p.objective x).outcome = .ok a ∧ ∀ x' : Signal K, x'.shape = x.shape →
    ∃ b, (p.objective x').outcome = .ok b ∧ a ≤ b

namespace IsLeastSquares

variable {p : XUpdate K ℝ ℝ} {l : SquaredLoss K ℝ}

theorem isLinear (h : p.IsLeastSquares names l) : l.IsLinear names :=
  (h.fidelity.asSquaredLoss? h.loss).1

theorem all_linear (h : p.IsLeastSquares names l) :
    ∀ c ∈ l.coupling :: p.couplings, c.operator.IsLinear names :=
  List.forall_mem_cons.mpr ⟨h.isLinear.operator, h.linear⟩

theorem all_weight_pos (h : p.IsLeastSquares names l) :
    ∀ q ∈ weighted (l.coupling :: p.couplings), 0 < q.2 := by
  refine List.forall_mem_map.mpr (List.forall_mem_cons.mpr ⟨?_, h.weight_pos⟩)
  exact add_pos h.isLinear.scale h.isLinear.scale

theorem gradient_eq_ok_iff (h : p.IsLeastSquares names l) :
    (p.gradient x).outcome = .ok e ↔ ∃ g, (l.grad x : Eval K ℝ _).outcome = .ok g ∧
      (addGradients x p.couplings g : Eval K ℝ _).outcome = .ok e := by
  rw [outcome_gradient_eq_ok_iff ⟨h.fidelity.named, fun c hc => (h.linear c hc).named⟩,
    h.fidelity.outcome_grad h.loss]

/-- The gradient is the gradient of the misfit of the loss and the couplings. -/
theorem inner_gradient (h : p.IsLeastSquares names l) (he : (p.gradient x).outcome = .ok e) :
    e.shape = x.shape ∧ Reaches (weighted (l.coupling :: p.couplings)) x ∧
      ∀ v : Signal K, v.shape = x.shape →
        inner ℝ v.vec e.vec = slope (l.coupling :: p.couplings) x v := by
  obtain ⟨g, hg, hadd⟩ := h.gradient_eq_ok_iff.mp he
  obtain ⟨hshape, hreaches, hinner⟩ := addGradients_spec h.linear hadd
  refine ⟨hshape.trans (SquaredLoss.subgradient_grad h.isLinear hg).1,
    List.forall_mem_cons.mpr ⟨(SquaredLoss.exists_grad_iff h.isLinear).mp ⟨g, hg⟩, hreaches⟩,
    fun v hv => ?_⟩
  rw [hinner v hv, SquaredLoss.inner_grad h.isLinear hg hv]
  exact slope_cons.symm

/-- There is a gradient exactly where the operators and their adjoints have results. -/
theorem exists_gradient_iff (h : p.IsLeastSquares names l) :
    (∃ e, (p.gradient x).outcome = .ok e) ↔ Reaches (weighted (l.coupling :: p.couplings)) x := by
  constructor
  · rintro ⟨e, he⟩
    exact (h.inner_gradient he).2.1
  · intro hreaches
    obtain ⟨hfirst, hrest⟩ := List.forall_mem_cons.mp hreaches
    obtain ⟨g, hg⟩ := (SquaredLoss.exists_grad_iff h.isLinear).mpr hfirst
    obtain ⟨e, he⟩ := exists_addGradients h.linear h.shaped hrest
      (SquaredLoss.subgradient_grad h.isLinear hg).1
    exact ⟨e, h.gradient_eq_ok_iff.mpr ⟨g, hg, he⟩⟩

/-- Where the gradient vanishes the objective is least. -/
theorem isMinimizer_of_gradient (h : p.IsLeastSquares names l)
    (he : (p.gradient x).outcome = .ok e) (hzero : e.vec = 0) : p.IsMinimizer x := by
  obtain ⟨-, hreaches, hinner⟩ := h.inner_gradient he
  have hvalue {x' : Signal K} (hx' : x'.shape = x.shape) : (p.objective x').outcome =
      .ok (misfit (l.coupling :: p.couplings) x') :=
    outcome_objective_of_loss h.fidelity h.linear h.loss
      (hreaches.of_shape (isLinear_weighted h.all_linear) hx') h.shaped
  refine ⟨_, hvalue rfl, fun x' hx' => ⟨_, hvalue hx', ?_⟩⟩
  obtain ⟨d, hd, hdshape⟩ := Signal.exists_sub hx'
  have hline : x'.vec = x.vec + (1 : ℝ) • d.vec := by
    rw [Signal.vec_sub hd, one_smul, add_sub_cancel]
  have hslope : slope (l.coupling :: p.couplings) x d = 0 := by
    rw [← hinner d (hdshape.trans hx'), hzero, inner_zero_right]
  have hcurved : 0 ≤ polar (weighted (l.coupling :: p.couplings)) d d := by
    rw [polar_self]
    exact energy_nonneg h.all_weight_pos
  rw [misfit_combination h.all_linear hreaches (hdshape.trans hx') hx' hline, hslope]
  linarith

end IsLeastSquares

end XUpdate

end

end OperatorSplitting
