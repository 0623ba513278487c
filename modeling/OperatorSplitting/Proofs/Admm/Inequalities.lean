import Mathlib
import OperatorSplitting.Proofs.Admm.Reachable

/-!
# What a step says about vectors

Over exact numbers the results of a step are related by equations and inequalities between vectors.
The new dual variable, times the weight, is a subgradient of the penalty at the new split variable.
The gradient of the x-update and the parts of the dual residual act on directions through the images
of the directions, because adjoints move inner products.
-/

namespace OperatorSplitting

open Eval

noncomputable section

variable {K : Type} [ExactScalar K] {names : Naming K}

/-- The mismatch of a coupling is made of an image and of the variables. -/
theorem Coupling.outcome_mismatch_eq_ok_iff {c : Coupling K ℝ} (hc : c.operator.Named names)
    {x r : Signal K} : (c.mismatch x : Eval K ℝ _).outcome = .ok r ↔
      ∃ image d, (c.operator.apply x : Eval K ℝ _).outcome = .ok image ∧
        image.sub c.z = .ok d ∧ d.add c.u = .ok r := by
  rw [Coupling.mismatch, (LinearOperator.steady_apply hc x).outcome_bind
    fun _ _ => (Steady.liftExcept _).bind fun _ _ => .liftExcept _, Except.bind_eq_ok_iff]
  simp only [outcome_liftExcept_bind, Except.bind_eq_ok_iff, outcome_liftExcept]
  constructor
  · rintro ⟨image, himage, d, hd, hr⟩
    exact ⟨image, d, himage, hd, hr⟩
  · rintro ⟨image, d, himage, hd, hr⟩
    exact ⟨image, himage, d, hd, hr⟩

theorem XUpdate.addGradients_cons_eq_ok_iff {c : Coupling K ℝ} {cs : List (Coupling K ℝ)}
    (hc : c.operator.Named names) (hcs : ∀ c ∈ cs, c.operator.Named names) {x g e : Signal K} :
    (XUpdate.addGradients x (c :: cs) g : Eval K ℝ _).outcome = .ok e ↔
      ∃ r back g', (c.mismatch x : Eval K ℝ _).outcome = .ok r ∧
        (c.operator.adjoint r : Eval K ℝ _).outcome = .ok back ∧
        g.addScaled (Scalar.ofReal c.weight) back = .ok g' ∧
        (XUpdate.addGradients x cs g' : Eval K ℝ _).outcome = .ok e := by
  have hrest (back : Signal K) : Steady names (do
      let g ← g.addScaled (Scalar.ofReal c.weight) back
      XUpdate.addGradients x cs g : Eval K ℝ _) :=
    (Steady.liftExcept _).bind fun g' _ => XUpdate.steady_addGradients hcs x g'
  rw [XUpdate.addGradients, (Coupling.steady_mismatch hc x).outcome_bind_eq_ok_iff
    fun r _ => (LinearOperator.steady_adjoint hc r).bind fun back _ => hrest back]
  refine exists_congr fun r => ?_
  rw [(LinearOperator.steady_adjoint hc r).outcome_bind_eq_ok_iff fun back _ => hrest back]
  simp only [outcome_liftExcept_bind, Except.bind_eq_ok_iff, exists_and_left]

namespace Solver

/-! ### Terms -/

namespace TermUpdate

variable {t : TermUpdate K ℝ ℝ} {x : Signal K}

/-- The mismatch `C x - z + u` of a term at the new `x`, with the variables before the step. -/
def mismatch (t : TermUpdate K ℝ ℝ) : Vector := t.image.vec - t.before.z.vec + t.before.u.vec

/-- The dual variable grows by the image minus the split variable. -/
theorem Follows.vec_u (h : t.Follows x) :
    t.u.vec = t.before.u.vec + (t.image.vec - t.z.vec) := by
  obtain ⟨gap, hgap, hu⟩ := h.dual
  rw [Signal.vec_add hu, Signal.vec_sub hgap]

/-- The new dual variable is a scaled subgradient at the new split variable. -/
theorem Follows.subgradient (h : t.Follows x) (ht : t.before.IsConvex names) :
    t.before.penalty.Subgradient (t.before.weight • t.u.vec) t.z := by
  obtain ⟨v, hv, hz⟩ := h.split
  obtain ⟨-, hsubgradient⟩ :=
    Functional.subgradient_of_prox names ht.penalty (one_div_pos.mpr ht.weight) hz
  have hslope : t.before.weight • t.u.vec = (1 / (1 / t.before.weight)) • (v.vec - t.z.vec) := by
    rw [one_div_one_div, Signal.vec_add hv, h.vec_u]
    congr 1
    abel
  rw [hslope]
  exact hsubgradient

/-- A direction at the new `x` has an image. -/
theorem Follows.exists_image (h : t.Follows x) (ht : t.before.IsConvex names) {w : Signal K}
    (hw : w.shape = x.shape) : ∃ image,
      (t.before.operator.apply w : Eval K ℝ _).outcome = .ok image ∧ image.shape = t.z.shape := by
  obtain ⟨image, himage⟩ := ht.operator.apply_uniform h.image hw
  have hshape := (ht.operator.shape_apply himage).2
  exact ⟨image, himage, hshape.trans (h.isConvex_after ht).z_shape.symm⟩

end TermUpdate

/-! ### The gradient of the x-update -/

theorem outcome_mismatch_eq_ok {c : Coupling K ℝ} (hc : c.operator.Named names)
    {x image r : Signal K} (himage : (c.operator.apply x : Eval K ℝ _).outcome = .ok image)
    (h : (c.mismatch x : Eval K ℝ _).outcome = .ok r) :
    r.vec = image.vec - c.z.vec + c.u.vec := by
  obtain ⟨image', d, himage', hd, hr⟩ := (Coupling.outcome_mismatch_eq_ok_iff hc).mp h
  cases himage.symm.trans himage'
  rw [Signal.vec_add hr, Signal.vec_sub hd]

/-- The gradients of the coupling terms act on a direction through its images. -/
theorem inner_addGradients {us : List (TermUpdate K ℝ ℝ)} {x w g e : Signal K}
    (hfollows : ∀ t ∈ us, t.Follows x) (hconvex : ∀ t ∈ us, t.before.IsConvex names)
    (h : (XUpdate.addGradients x (us.map fun t => t.before.coupling) g : Eval K ℝ _).outcome = .ok e)
    (hw : w.shape = x.shape) :
    inner ℝ e.vec (w.vec - x.vec) = inner ℝ g.vec (w.vec - x.vec) +
      (us.map fun t => t.before.weight *
        inner ℝ t.mismatch (t.before.operator.imageVec w - t.image.vec)).sum := by
  induction us generalizing g with
  | nil =>
    cases h
    simp
  | cons t us ih =>
    obtain ⟨ht, hus⟩ := List.forall_mem_cons.mp hfollows
    obtain ⟨htconvex, husconvex⟩ := List.forall_mem_cons.mp hconvex
    have hnamed : ∀ c ∈ us.map fun t => t.before.coupling, c.operator.Named names := by
      intro c hc
      obtain ⟨u, hu, rfl⟩ := List.mem_map.mp hc
      exact (husconvex u hu).operator.named
    obtain ⟨r, back, g', hr, hback, hg', he⟩ :=
      (XUpdate.addGradients_cons_eq_ok_iff (c := t.before.coupling) htconvex.operator.named
        hnamed).mp h
    obtain ⟨image, himage, -⟩ := ht.exists_image htconvex hw
    have hrvec : r.vec = t.mismatch :=
      outcome_mismatch_eq_ok (c := t.before.coupling) htconvex.operator.named ht.image hr
    have hmove : inner ℝ r.vec (image.vec - t.image.vec) = inner ℝ back.vec (w.vec - x.vec) :=
      htconvex.operator.inner_adjoint_sub ht.image himage hback
    rw [ih hus husconvex he, Signal.vec_addScaled hg', inner_add_left, real_inner_smul_left,
      ← hmove, hrvec, List.map_cons, List.sum_cons, LinearOperator.imageVec_eq himage, add_assoc]
    rfl

theorem outcome_gradient_eq_ok {s : Solver K ℝ ℝ} (hs : s.Named names) {x e : Signal K}
    (h : (s.xUpdate.gradient x : Eval K ℝ _).outcome = .ok e) :
    ∃ g, (s.f.grad x : Eval K ℝ _).outcome = .ok g ∧
      (XUpdate.addGradients x (s.terms.map Term.coupling) g : Eval K ℝ _).outcome = .ok e :=
  (XUpdate.outcome_gradient_eq_ok_iff hs.xUpdate).mp h

/-! ### Residuals -/

/-- The part of the dual residual that a term contributes: the adjoint of the change of the split
variable, times the weight. -/
def TermUpdate.IsDual (t : TermUpdate K ℝ ℝ) (d : Signal K) : Prop :=
  ∃ change back, t.z.sub t.before.z = .ok change ∧
    (t.before.operator.adjoint change : Eval K ℝ _).outcome = .ok back ∧
    d = back.scaled (Scalar.ofReal t.before.weight)

/-- The part of the dual residual acts on a direction through its image. -/
theorem TermUpdate.IsDual.inner_eq {t : TermUpdate K ℝ ℝ} {x w d : Signal K} (hd : t.IsDual d)
    (h : t.Follows x) (ht : t.before.IsConvex names) (hw : w.shape = x.shape) :
    inner ℝ d.vec (w.vec - x.vec) = t.before.weight *
      inner ℝ (t.z.vec - t.before.z.vec) (t.before.operator.imageVec w - t.image.vec) := by
  obtain ⟨change, back, hchange, hback, rfl⟩ := hd
  obtain ⟨image, himage, -⟩ := h.exists_image ht hw
  rw [Signal.vec_scaled, real_inner_smul_left, LinearOperator.imageVec_eq himage,
    ← Signal.vec_sub hchange, ht.operator.inner_adjoint_sub h.image himage hback]

theorem addResiduals_cons_eq_ok {t : TermUpdate K ℝ ℝ} {us : List (TermUpdate K ℝ ℝ)}
    (ht : t.before.Named names) (hus : ∀ t ∈ us, t.before.Named names) {primal dual : ℝ}
    {sums : ℝ × ℝ} (h : (addResiduals (t :: us) primal dual : Eval K ℝ _).outcome = .ok sums) :
    ∃ gap d, t.image.sub t.z = .ok gap ∧ t.IsDual d ∧
      (addResiduals us (primal + gap.normSqr) (dual + d.normSqr) : Eval K ℝ _).outcome =
        .ok sums := by
  rw [addResiduals, outcome_liftExcept_bind, Except.bind_eq_ok_iff] at h
  obtain ⟨gap, hgap, h⟩ := h
  rw [outcome_liftExcept_bind, Except.bind_eq_ok_iff] at h
  obtain ⟨change, hchange, h⟩ := h
  rw [(LinearOperator.steady_adjoint ht.operator change).outcome_bind
    fun back _ => steady_addResiduals hus _ _, Except.bind_eq_ok_iff] at h
  obtain ⟨back, hback, h⟩ := h
  exact ⟨gap, _, hgap, ⟨change, back, hchange, hback, rfl⟩, h⟩

/-- The sums that a step takes the roots of are the squared norms of both residuals. -/
theorem addResiduals_eq_ok {us : List (TermUpdate K ℝ ℝ)} (h : ∀ t ∈ us, t.before.Named names)
    {primal dual : ℝ} {sums : ℝ × ℝ}
    (hsums : (addResiduals us primal dual : Eval K ℝ _).outcome = .ok sums) :
    ∃ ds : List (Signal K), List.Forall₂ TermUpdate.IsDual us ds ∧
      sums.1 = primal + (us.map fun t => ‖t.image.vec - t.z.vec‖ ^ 2).sum ∧
      sums.2 = dual + (ds.map fun d => ‖d.vec‖ ^ 2).sum := by
  induction us generalizing primal dual with
  | nil =>
    cases hsums
    exact ⟨[], .nil, by simp, by simp⟩
  | cons t us ih =>
    obtain ⟨ht, hus⟩ := List.forall_mem_cons.mp h
    obtain ⟨gap, d, hgap, hd, hrest⟩ := addResiduals_cons_eq_ok ht hus hsums
    obtain ⟨ds, hds, hprimal, hdual⟩ := ih hus hrest
    refine ⟨d :: ds, .cons hd hds, ?_, ?_⟩
    · rw [hprimal, Signal.normSqr_eq, Signal.vec_sub hgap, List.map_cons, List.sum_cons, add_assoc]
    · rw [hdual, Signal.normSqr_eq, List.map_cons, List.sum_cons, add_assoc]

/-- The residuals that a step reports. -/
theorem StepResult.Follows.residuals {s : Solver K ℝ ℝ} {r : StepResult K ℝ ℝ} (h : r.Follows s)
    (hs : s.Named names) :
    ∃ ds : List (Signal K), List.Forall₂ TermUpdate.IsDual r.updates ds ∧
      r.diagnostics.primalResidual = √(r.updates.map fun t => ‖t.image.vec - t.z.vec‖ ^ 2).sum ∧
      r.diagnostics.dualResidual = √(ds.map fun d => ‖d.vec‖ ^ 2).sum := by
  have hnamed := named_before hs h.before
  have hd := h.diagnostics
  rw [Solver.diagnostics, (steady_objective hs.f hnamed r.report.x).outcome_bind
    fun _ _ => (steady_addResiduals hnamed 0 0).bind fun _ _ => .pure _,
    Except.bind_eq_ok_iff] at hd
  obtain ⟨value, -, hd⟩ := hd
  rw [(steady_addResiduals hnamed 0 0).outcome_bind fun _ _ => .pure _,
    Except.bind_eq_ok_iff] at hd
  obtain ⟨sums, hsums, hd⟩ := hd
  obtain ⟨ds, hds, hprimal, hdual⟩ := addResiduals_eq_ok hnamed hsums
  refine ⟨ds, hds, ?_, ?_⟩
  · rw [← Except.ok.inj hd, ← zero_add (List.sum _), ← hprimal]
    rfl
  · rw [← Except.ok.inj hd, ← zero_add (List.sum _), ← hdual]
    rfl

end Solver

end

end OperatorSplitting
