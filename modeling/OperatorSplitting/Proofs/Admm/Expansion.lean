import Mathlib
import OperatorSplitting.Proofs.Admm.NormalEquations

/-!
# The objective of the x-update is a quadratic function

The smooth functional is made of squared losses, the squared norm and zero by positive multiples, and
the couplings add weighted squared distances.  Moving from `x` to `x + h` therefore changes the
objective by a part that is linear in `h` and a part that is quadratic in it.  The linear part is what
the computed gradient says.  The quadratic part, the `curvature`, is made of the images of `h` under
the operators, so that neither the signal `x` nor the observations and the variables of the couplings
enter (`XUpdate.objective_add`).

The values are the ones that are computed, and closures among the operators may have been called
before; for the gradient there has to be room for what the operators and their adjoints lay out.
-/

namespace OperatorSplitting

open Eval LinearOperator Coupling

noncomputable section

variable {K : Type} [ExactScalar K] {names : Naming K}

/-! ### The smooth functional -/

namespace Functional

/-- The quadratic part of a fidelity term, as a function of the step. -/
def curvature : Functional K ℝ ℝ → Signal K → ℝ
  | .squaredL2, h => ‖h.vec‖ ^ 2
  | .loss l, h => l.scale * ‖l.operator.imageVec h‖ ^ 2
  | .multiple s f, h => s * f.curvature h
  | _, _ => 0

/-- The functionals differ in the observations of their losses only. -/
def SameUpToObservations : Functional K ℝ ℝ → Functional K ℝ ℝ → Prop
  | .loss l, .loss l' => l'.operator = l.operator ∧ l'.scale = l.scale
  | .multiple s f, .multiple s' f' => s' = s ∧ f.SameUpToObservations f'
  | f, f' => f' = f

/-- The operators of the losses take signals of a shape and leave room for what evaluation lays
out. -/
def HasRoom (s : Shape) : Functional K ℝ ℝ → Prop
  | .loss l => l.operator.input = s ∧ l.operator.AllLeaves Leaf.Roomy
  | .multiple _ f => f.HasRoom s
  | _ => True

variable {f f' : Functional K ℝ ℝ} {x h w g : Signal K}

theorem IsFidelity.curvature_nonneg (hf : f.IsFidelity names) (h : Signal K) :
    0 ≤ f.curvature h := by
  induction f with
  | squaredL2 => exact sq_nonneg _
  | loss l => exact mul_nonneg hf.scale.le (sq_nonneg _)
  | multiple s f ih => exact mul_nonneg hf.1.le (ih hf.2)
  | _ => exact le_rfl

theorem SameUpToObservations.curvature_eq (hsame : f.SameUpToObservations f') (h : Signal K) :
    f'.curvature h = f.curvature h := by
  induction f generalizing f' with
  | loss l =>
    cases f' with
    | loss l' =>
      obtain ⟨hoperator, hscale⟩ := hsame
      rw [curvature, curvature, hoperator, hscale]
    | _ => cases hsame
  | multiple s f ih =>
    cases f' with
    | multiple s' f' =>
      obtain ⟨hs, hf⟩ := hsame
      rw [curvature, curvature, hs, ih hf]
    | _ => cases hsame
  | _ =>
    cases hsame
    rfl

end Functional

/-- A squared loss between `x` and `x + h`. -/
theorem SquaredLoss.value_add {l : SquaredLoss K ℝ} {x h w g : Signal K} (hl : l.IsLinear names)
    (hw : x.add h = .ok w) (hg : (l.grad x : Eval K ℝ _).outcome = .ok g) :
    ∃ a b, (l.value x : Eval K ℝ ℝ).outcome = .ok a ∧ (l.value w : Eval K ℝ ℝ).outcome = .ok b ∧
      b = a + inner ℝ g.vec h.vec + l.scale * ‖l.operator.imageVec h‖ ^ 2 := by
  obtain ⟨hxh, hwx, -⟩ := Signal.zipMap_spec hw
  obtain ⟨u, v, hu, hv⟩ := (exists_grad_iff hl).mp ⟨g, hg⟩
  obtain ⟨u', hu'⟩ := hl.operator.apply_uniform hu hwx
  obtain ⟨r, hr, hgap⟩ := exists_residual hl hu
  obtain ⟨r', hr', hgap'⟩ := exists_residual hl hu'
  have hreaches : Reaches (weighted [l.coupling]) x :=
    List.forall_mem_singleton.mpr ⟨u, v, hu, hv⟩
  have hline : w.vec = x.vec + (1 : ℝ) • h.vec := by rw [Signal.vec_add hw, one_smul]
  have hmoved : l.coupling.gap w = l.coupling.gap x + (1 : ℝ) • l.operator.imageVec h :=
    gap_combination (List.forall_mem_singleton.mpr hl.operator) hreaches hxh.symm hwx hline
      (List.mem_singleton_self _)
  have hslope : inner ℝ g.vec h.vec =
      (l.scale + l.scale) * inner ℝ (l.coupling.gap x) (l.operator.imageVec h) := by
    rw [real_inner_comm, inner_grad hl hg hxh.symm, real_inner_comm]
    rfl
  refine ⟨l.scale * r.normSqr, l.scale * r'.normSqr, ?_, ?_, ?_⟩
  · rw [outcome_value hl.operator.named, hr]
    rfl
  · rw [outcome_value hl.operator.named, hr']
    rfl
  · rw [Signal.normSqr_eq, Signal.normSqr_eq, hgap, hgap', hmoved, one_smul, norm_add_sq_real,
      hslope]
    ring

namespace Functional

variable {f : Functional K ℝ ℝ} {x h w g : Signal K}

/-- A fidelity term between `x` and `x + h`. -/
theorem IsFidelity.value_add (hf : f.IsFidelity names) (hw : x.add h = .ok w)
    (hg : (f.grad x : Eval K ℝ _).outcome = .ok g) :
    ∃ a b, (f.value x : Eval K ℝ ℝ).outcome = .ok a ∧ (f.value w : Eval K ℝ ℝ).outcome = .ok b ∧
      b = a + inner ℝ g.vec h.vec + f.curvature h := by
  induction f generalizing g with
  | zero =>
    cases hg
    refine ⟨0, 0, rfl, rfl, ?_⟩
    have hflat : (zero : Functional K ℝ ℝ).curvature h = 0 := rfl
    rw [Signal.vec_zeros, inner_zero_left, hflat, add_zero, add_zero]
  | squaredL2 =>
    cases hg
    refine ⟨_, _, rfl, rfl, ?_⟩
    rw [SquaredL2.value, SquaredL2.value, Signal.normSqr_eq, Signal.normSqr_eq, Signal.vec_add hw,
      SquaredL2.vec_grad, norm_add_sq_real, real_inner_smul_left]
    rfl
  | loss l => exact SquaredLoss.value_add hf hw hg
  | multiple s f ih =>
    obtain ⟨-, hf⟩ := hf
    rw [outcome_grad_multiple hf.named] at hg
    obtain ⟨e, he, rfl⟩ := Except.map_eq_ok_iff.mp hg
    obtain ⟨a, b, ha, hb, hab⟩ := ih hf he
    refine ⟨s * a, s * b, ?_, ?_, ?_⟩
    · rw [outcome_value_multiple hf.named, ha]
      rfl
    · rw [outcome_value_multiple hf.named, hb]
      rfl
    · rw [Signal.vec_scaled, real_inner_smul_left, hab, curvature]
      ring
  | l1 => exact absurd hf id
  | l21 axis => exact absurd hf id
  | nonNegative => exact absurd hf id
  | prior d => exact absurd hf id
  | external e => exact absurd hf id

/-- A fidelity term has a gradient where there is room. -/
theorem IsFidelity.exists_grad (hf : f.IsFidelity names) (hroom : f.HasRoom x.shape) :
    ∃ g, (f.grad x : Eval K ℝ _).outcome = .ok g := by
  induction f with
  | zero => exact ⟨_, rfl⟩
  | squaredL2 => exact ⟨_, rfl⟩
  | loss l =>
    exact (SquaredLoss.exists_grad_iff hf).mpr (hf.operator.exists_images hroom.2 hroom.1.symm)
  | multiple s f ih =>
    obtain ⟨g, hg⟩ := ih hf.2 hroom
    exact ⟨_, by rw [outcome_grad_multiple hf.2.named, hg]; rfl⟩
  | l1 => exact absurd hf id
  | l21 axis => exact absurd hf id
  | nonNegative => exact absurd hf id
  | prior d => exact absurd hf id
  | external e => exact absurd hf id

end Functional

/-! ### The x-update -/

namespace XUpdate

/-- The smooth functional is a fidelity term, the operators of the couplings are linear, their
weights are positive, and the variables that belong to them have their output shapes. -/
structure IsQuadratic (names : Naming K) (p : XUpdate K ℝ ℝ) : Prop where
  fidelity : p.f.IsFidelity names
  linear : ∀ c ∈ p.couplings, c.operator.IsLinear names
  shaped : ∀ c ∈ p.couplings, c.Shaped
  weight_pos : ∀ c ∈ p.couplings, 0 < c.weight

/-- The quadratic part of the objective, as a function of the step. -/
def curvature (p : XUpdate K ℝ ℝ) (h : Signal K) : ℝ :=
  p.f.curvature h + RealArithmetic.half * polar (weighted p.couplings) h h

/-- The x-updates have the same operators and weights; the observations and the variables of the
couplings may differ. -/
structure SameOperators (p p' : XUpdate K ℝ ℝ) : Prop where
  f : p.f.SameUpToObservations p'.f
  couplings : weighted p'.couplings = weighted p.couplings

/-- All operators take signals of a shape and leave room for what evaluation lays out. -/
structure HasRoom (p : XUpdate K ℝ ℝ) (s : Shape) : Prop where
  f : p.f.HasRoom s
  couplings : ∀ c ∈ p.couplings, c.operator.input = s ∧ c.operator.AllLeaves Leaf.Roomy

variable {p p' : XUpdate K ℝ ℝ} {x h w g : Signal K}

/-- Every coupling contributes half its weight times the squared image of the step. -/
theorem curvature_eq_sum (p : XUpdate K ℝ ℝ) (h : Signal K) : p.curvature h = p.f.curvature h +
    (p.couplings.map fun c => c.weight / 2 * ‖c.operator.imageVec h‖ ^ 2).sum := by
  rw [curvature, polar, weighted, List.map_map, ← List.sum_map_mul_left]
  congr 2
  refine List.map_congr_left fun c _ => ?_
  rw [Function.comp, real_inner_self_eq_norm_sq, RealArithmetic.half_eq]
  ring

theorem IsQuadratic.curvature_nonneg (hp : p.IsQuadratic names) (h : Signal K) :
    0 ≤ p.curvature h := by
  rw [curvature_eq_sum]
  refine add_nonneg (hp.fidelity.curvature_nonneg h) (List.sum_nonneg ?_)
  refine List.forall_mem_map.mpr fun c hc => ?_
  exact mul_nonneg (half_pos (hp.weight_pos c hc)).le (sq_nonneg _)

theorem SameOperators.curvature_eq (hsame : p.SameOperators p') (h : Signal K) :
    p'.curvature h = p.curvature h := by
  rw [curvature, curvature, hsame.f.curvature_eq, hsame.couplings]

namespace IsQuadratic

theorem named (hp : p.IsQuadratic names) : p.Named names :=
  ⟨hp.fidelity.named, fun c hc => (hp.linear c hc).named⟩

/-- There is a gradient where there is room. -/
theorem exists_gradient (hp : p.IsQuadratic names) (hroom : p.HasRoom x.shape) :
    ∃ e, (p.gradient x).outcome = .ok e := by
  obtain ⟨g, hg⟩ := hp.fidelity.exists_grad hroom.f
  have hreaches : Reaches (weighted p.couplings) x := by
    refine List.forall_mem_map.mpr fun c hc => ?_
    obtain ⟨hinput, hroomy⟩ := hroom.couplings c hc
    exact (hp.linear c hc).exists_images hroomy hinput.symm
  obtain ⟨e, he⟩ := exists_addGradients hp.linear hp.shaped hreaches
    (Functional.subgradient_of_grad hp.fidelity hg).1
  exact ⟨e, (outcome_gradient_eq_ok_iff hp.named).mpr ⟨g, hg, he⟩⟩

/-- The objective at a signal of the shape of `x`, where the smooth functional has a value. -/
theorem outcome_objective (hp : p.IsQuadratic names) {y : Signal K} {a : ℝ}
    (ha : (p.f.value y : Eval K ℝ ℝ).outcome = .ok a) (hreaches : Reaches (weighted p.couplings) x)
    (hy : y.shape = x.shape) : (p.objective y).outcome = .ok (a + misfit p.couplings y) := by
  refine XUpdate.outcome_objective hp.named ha fun c hc => ?_
  obtain ⟨u, -, hu, -⟩ :=
    hreaches.of_shape (isLinear_weighted hp.linear) hy _ (mem_weighted hc)
  exact (hp.shaped c hc).exists_mismatch (hp.linear c hc) hu

/-- The objective between `x` and `x + h`. -/
theorem value_add (hp : p.IsQuadratic names) (hw : x.add h = .ok w) {e : Signal K}
    (he : (p.gradient x).outcome = .ok e) :
    e.shape = x.shape ∧ ∃ a b, (p.objective x).outcome = .ok a ∧ (p.objective w).outcome = .ok b ∧
      b = a + inner ℝ e.vec h.vec + p.curvature h := by
  obtain ⟨hxh, hwx, -⟩ := Signal.zipMap_spec hw
  obtain ⟨g, hg, hadd⟩ := (outcome_gradient_eq_ok_iff hp.named).mp he
  obtain ⟨hshape, hreaches, hinner⟩ := addGradients_spec hp.linear hadd
  obtain ⟨a, b, ha, hb, hab⟩ := hp.fidelity.value_add hw hg
  have hline : w.vec = x.vec + (1 : ℝ) • h.vec := by rw [Signal.vec_add hw, one_smul]
  refine ⟨hshape.trans (Functional.subgradient_of_grad hp.fidelity hg).1, _, _,
    hp.outcome_objective ha hreaches rfl, hp.outcome_objective hb hreaches hwx, ?_⟩
  rw [misfit_combination hp.linear hreaches hxh.symm hwx hline, hab, real_inner_comm h.vec e.vec,
    hinner h hxh.symm, real_inner_comm g.vec h.vec, curvature, RealArithmetic.half_eq]
  ring

end IsQuadratic

/-- **The gradient belongs to the objective.**  The objective at `x + h` is the objective at `x`, and
the real part of the inner product of the gradient at `x` with `h`, and a curvature.  The curvature is
never negative, and it is the same for all `x` and for all x-updates with the same operators and
weights, whatever the observations and the variables of the couplings are.  All parts have values as
soon as there is a gradient, and there is one where there is room for what evaluation lays out;
closures may have been called before each of the evaluations. -/
theorem objective_add (hp : p.IsQuadratic names) :
    (∀ h, 0 ≤ p.curvature h) ∧
    (∀ l, p.f = .loss l → ∀ h, p.curvature h = l.scale * ‖l.operator.imageVec h‖ ^ 2 +
      (p.couplings.map fun c => c.weight / 2 * ‖c.operator.imageVec h‖ ^ 2).sum) ∧
    ∀ p' : XUpdate K ℝ ℝ, p'.IsQuadratic names → p.SameOperators p' →
      ∀ (x h w : Signal K) (t t' t'' : Trace K ℝ), x.add h = .ok w →
        t.Faithful names → t'.Faithful names → t''.Faithful names →
        (p'.HasRoom x.shape → ∃ g, ((p'.gradient x).run t).1 = .ok g) ∧
        ∀ g, ((p'.gradient x).run t).1 = .ok g → ∃ a b d,
          ((p'.objective x).run t').1 = .ok a ∧ ((p'.objective w).run t'').1 = .ok b ∧
          g.vdot h = .ok d ∧ b = a + Scalar.re d + p.curvature h := by
  refine ⟨hp.curvature_nonneg, ?_, fun p' hp' hsame x h w t t' t'' hw ht ht' ht'' => ⟨?_, ?_⟩⟩
  · intro l hl h
    rw [curvature_eq_sum, hl]
    rfl
  · intro hroom
    obtain ⟨g, hg⟩ := hp'.exists_gradient hroom
    exact ⟨g, (steady_gradient hp'.named x t ht).1.trans hg⟩
  · intro g hg
    rw [(steady_gradient hp'.named x t ht).1] at hg
    obtain ⟨hshape, a, b, ha, hb, hab⟩ := hp'.value_add hw hg
    obtain ⟨d, hd, hval⟩ := Signal.vdot_eq_ok (hshape.trans (Signal.shape_eq_of_zipMap hw))
    refine ⟨a, b, d, (steady_objective hp'.named x t' ht').1.trans ha,
      (steady_objective hp'.named w t'' ht'').1.trans hb, hd, ?_⟩
    rw [hab, hsame.curvature_eq, ExactScalar.re_eq, hval, Signal.inner_vec]

open Strategy (scaledUpdate isLeastSquares_scaledUpdate)

theorem objective_add_scaledUpdate :
    scaledUpdate.IsQuadratic anyNaming ∧ ∃ w g a b d,
      (Signal.ofArray #[1, 0] : Signal ℝ).add (.ofArray #[2, 3]) = .ok w ∧
      ((scaledUpdate.gradient (.ofArray #[1, 0])).run .empty).1 = .ok g ∧
      ((scaledUpdate.objective (.ofArray #[1, 0])).run .empty).1 = .ok a ∧
      ((scaledUpdate.objective w).run .empty).1 = .ok b ∧
      g.vdot (.ofArray #[2, 3]) = .ok d ∧
      b = a + Scalar.re d + scaledUpdate.curvature (.ofArray #[2, 3]) := by
  have hleast := isLeastSquares_scaledUpdate
  have hquadratic : scaledUpdate.IsQuadratic anyNaming :=
    ⟨hleast.fidelity, hleast.linear, hleast.shaped, hleast.weight_pos⟩
  have hsame : scaledUpdate.SameOperators scaledUpdate := ⟨⟨rfl, rfl, rfl, rfl⟩, rfl⟩
  have hplain := Solver.isPlain_pairDifference
  have hroom : scaledUpdate.HasRoom (Signal.ofArray #[1, 0] : Signal ℝ).shape :=
    ⟨⟨rfl, hplain.roomy⟩, List.forall_mem_singleton.mpr ⟨rfl, hplain.roomy⟩⟩
  obtain ⟨w, hw, -⟩ : ∃ w, (Signal.ofArray #[1, 0] : Signal ℝ).add (.ofArray #[2, 3]) = .ok w ∧
      w.shape = (Signal.ofArray #[1, 0] : Signal ℝ).shape := Signal.exists_add rfl
  obtain ⟨-, -, hexpansion⟩ := objective_add hquadratic
  have hempty : (Trace.empty : Trace ℝ ℝ).Faithful anyNaming := Trace.faithful_empty _
  obtain ⟨hexists, hvalues⟩ :=
    hexpansion scaledUpdate hquadratic hsame _ _ w .empty .empty .empty hw hempty hempty hempty
  obtain ⟨g, hg⟩ := hexists hroom
  obtain ⟨a, b, d, ha, hb, hd, hab⟩ := hvalues g hg
  exact ⟨hquadratic, w, g, a, b, d, hw, hg, ha, hb, hd, hab⟩

end XUpdate

end

end OperatorSplitting
