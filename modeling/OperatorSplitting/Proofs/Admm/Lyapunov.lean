import Mathlib
import OperatorSplitting.Proofs.Admm.IdentityTerm
import OperatorSplitting.Proofs.Admm.Inequalities

/-!
# The distance to a saddle point

At a saddle point the split variables are the images of `x`, the scaled dual variables are
subgradients of the penalties, and the gradient of the smooth functional cancels the adjoint images of
the scaled dual variables.  The weighted distance of the split and dual variables to those of a saddle
point never grows in a run whose x-updates are solved exactly.

A step that starts from the initial variables and one that starts from the results of a step differ:
only the latter starts from dual variables that are subgradients, and then the distance shrinks at
least by the squared changes.
-/

namespace OperatorSplitting

open Eval

noncomputable section

/-! ### An identity of vectors -/

section Vectors

variable {E : Type*} [NormedAddCommGroup E] [InnerProductSpace ℝ E]

/-- The decrease of two squared distances by one step, up to inner products that monotonicity
bounds. -/
theorem norm_sq_decrease (a b r d : E) :
    ‖a - r‖ ^ 2 + ‖b - d‖ ^ 2 - (‖a‖ ^ 2 + ‖b‖ ^ 2) - ‖r + d‖ ^ 2 =
      2 * inner ℝ a b - 2 * inner ℝ (a + d) (r + b) := by
  rw [norm_sub_sq_real, norm_sub_sq_real, norm_add_sq_real, inner_add_left, inner_add_right,
    inner_add_right, real_inner_comm r d, real_inner_comm d b]
  ring

end Vectors

variable {K : Type} [ExactScalar K] {names : Naming K}

namespace Solver

/-! ### Saddle points -/

/-- The variables of a term at a saddle point, with the image of the dual variable under the
adjoint. -/
structure SaddleTerm (K : Type) where
  z : Signal K
  u : Signal K
  back : Signal K

/-- The split variable is the image of `x`, and the scaled dual variable is a subgradient there. -/
structure SaddleTerm.Holds (x : Signal K) (t : Term K ℝ ℝ) (a : SaddleTerm K) : Prop where
  image : (t.operator.apply x : Eval K ℝ _).outcome = .ok a.z
  back : (t.operator.adjoint a.u : Eval K ℝ _).outcome = .ok a.back
  subgradient : t.penalty.Subgradient (t.weight • a.u.vec) a.z

/-- A saddle point of a functional and some terms: in addition, the gradient of the functional and the
weighted adjoint images cancel. -/
structure IsSaddle (f : Functional K ℝ ℝ) (ts : List (Term K ℝ ℝ)) (x : Signal K)
    (as : List (SaddleTerm K)) : Prop where
  terms : List.Forall₂ (SaddleTerm.Holds x) ts as
  stationary : ∃ g, (f.grad x : Eval K ℝ _).outcome = .ok g ∧
    g.vec + (List.zipWith (fun t a => t.weight • a.back.vec) ts as).sum = 0

/-- The weighted distance of the split and dual variables to those of a saddle point. -/
def lyapunov (ts : List (Term K ℝ ℝ)) (as : List (SaddleTerm K)) : ℝ :=
  (List.zipWith (fun t a =>
    t.weight * (‖t.u.vec - a.u.vec‖ ^ 2 + ‖t.z.vec - a.z.vec‖ ^ 2)) ts as).sum

/-- The weighted squared primal residual and change of the split variables in a step. -/
def progress (us : List (TermUpdate K ℝ ℝ)) : ℝ :=
  (us.map fun t =>
    t.before.weight * (‖t.image.vec - t.z.vec‖ ^ 2 + ‖t.z.vec - t.before.z.vec‖ ^ 2)).sum

/-- A step changes neither the functional nor what a saddle point says of the terms. -/
theorem IsSaddle.after {f : Functional K ℝ ℝ} {us : List (TermUpdate K ℝ ℝ)} {x : Signal K}
    {as : List (SaddleTerm K)} (h : IsSaddle f (us.map (·.before)) x as) :
    IsSaddle f (us.map TermUpdate.after) x as := by
  obtain ⟨hterms, g, hg, hsum⟩ := h
  refine ⟨?_, g, hg, ?_⟩
  · rw [List.forall₂_map_left_iff] at hterms ⊢
    exact hterms.imp fun t a hta => ⟨hta.image, hta.back, hta.subgradient⟩
  · rw [List.zipWith_map_left] at hsum ⊢
    exact hsum

section Step

variable {us : List (TermUpdate K ℝ ℝ)} {as : List (SaddleTerm K)} {x y : Signal K}

/-- The adjoint images of the dual variables act on the direction to the saddle point through its
images. -/
theorem inner_backs (hterms : List.Forall₂ (SaddleTerm.Holds y) (us.map (·.before)) as)
    (hfollows : ∀ t ∈ us, t.Follows x) (hconvex : ∀ t ∈ us, t.before.IsConvex names) :
    inner ℝ (List.zipWith (fun t a => t.weight • a.back.vec) (us.map (·.before)) as).sum
        (y.vec - x.vec) =
      (List.zipWith (fun t a => t.before.weight * inner ℝ a.u.vec (a.z.vec - t.image.vec))
        us as).sum := by
  induction us generalizing as with
  | nil => simp
  | cons t us ih =>
    obtain ⟨a, as, ha, has, rfl⟩ := List.forall₂_cons_left_iff.mp hterms
    obtain ⟨ht, hus⟩ := List.forall_mem_cons.mp hfollows
    obtain ⟨htconvex, husconvex⟩ := List.forall_mem_cons.mp hconvex
    have hmove := htconvex.operator.inner_adjoint_sub ht.image ha.image ha.back
    simp only [List.map_cons, List.zipWith_cons_cons, List.sum_cons]
    rw [inner_add_left, real_inner_smul_left, ih has hus husconvex, hmove]

/-- What the coupling terms and the saddle point say of the direction from `x` to the saddle point. -/
theorem sum_mismatch (hterms : List.Forall₂ (SaddleTerm.Holds y) (us.map (·.before)) as) :
    (us.map fun t => t.before.weight *
        inner ℝ t.mismatch (t.before.operator.imageVec y - t.image.vec)).sum -
      (List.zipWith (fun t a => t.before.weight * inner ℝ a.u.vec (a.z.vec - t.image.vec))
        us as).sum =
      (List.zipWith (fun t a => t.before.weight *
        inner ℝ (t.mismatch - a.u.vec) (a.z.vec - t.image.vec)) us as).sum := by
  induction us generalizing as with
  | nil => simp
  | cons t us ih =>
    obtain ⟨a, as, ha, has, rfl⟩ := List.forall₂_cons_left_iff.mp hterms
    simp only [List.map_cons, List.zipWith_cons_cons, List.sum_cons]
    rw [← ih has, LinearOperator.imageVec_eq ha.image, inner_sub_left]
    ring

/-- If the gradient of the x-update vanishes at `x`, monotonicity of the gradient of the smooth
functional says this of the terms. -/
theorem sum_mismatch_nonneg {f : Functional K ℝ ℝ} (hf : f.IsFidelity names)
    (hsaddle : IsSaddle f (us.map (·.before)) y as) (hfollows : ∀ t ∈ us, t.Follows x)
    (hconvex : ∀ t ∈ us, t.before.IsConvex names) {g e : Signal K}
    (hg : (f.grad x : Eval K ℝ _).outcome = .ok g)
    (hgradients : (XUpdate.addGradients x (us.map fun t => t.before.coupling) g :
      Eval K ℝ _).outcome = .ok e) (he : e.vec = 0) :
    0 ≤ (List.zipWith (fun t a => t.before.weight *
      inner ℝ (t.mismatch - a.u.vec) (a.z.vec - t.image.vec)) us as).sum := by
  obtain ⟨hterms, g', hg', hstationary⟩ := hsaddle
  cases us with
  | nil => simp
  | cons t us =>
    have hshape : y.shape = x.shape := by
      obtain ⟨a, as, ha, -, rfl⟩ := List.forall₂_cons_left_iff.mp hterms
      have hoperator := (hconvex t List.mem_cons_self).operator
      have himage := (hfollows t List.mem_cons_self).image
      exact (hoperator.shape_apply ha.image).1.trans (hoperator.shape_apply himage).1.symm
    have hmonotone := (Functional.subgradient_of_grad hf hg').2.monotone
      (Functional.subgradient_of_grad hf hg).2 hshape
    have hinner := inner_addGradients hfollows hconvex hgradients hshape
    have hbacks := inner_backs hterms hfollows hconvex
    have hg'vec := eq_neg_of_add_eq_zero_left hstationary
    rw [he, inner_zero_left] at hinner
    rw [inner_sub_left, hg'vec, inner_neg_left, hbacks] at hmonotone
    rw [← sum_mismatch hterms]
    have hsame : (List.map (fun t => t.before.weight * inner ℝ t.mismatch
        (t.before.operator.imageVec y - t.image.vec)) (t :: us)).sum =
        -inner ℝ g.vec (y.vec - x.vec) := by
      linear_combination -hinner
    rw [hsame]
    linarith

/-- One term of the distance to the saddle point. -/
theorem SaddleTerm.Holds.decrease {t : TermUpdate K ℝ ℝ} {a : SaddleTerm K}
    (ha : a.Holds y t.before) (h : t.Follows x) (hconvex : t.before.IsConvex names) :
    t.before.weight * (‖t.u.vec - a.u.vec‖ ^ 2 + ‖t.z.vec - a.z.vec‖ ^ 2) +
        t.before.weight * ‖t.image.vec - t.before.z.vec‖ ^ 2 +
        2 * (t.before.weight * inner ℝ (t.mismatch - a.u.vec) (a.z.vec - t.image.vec)) ≤
      t.before.weight * (‖t.before.u.vec - a.u.vec‖ ^ 2 + ‖t.before.z.vec - a.z.vec‖ ^ 2) := by
  have hshape : t.z.shape = a.z.shape :=
    (h.isConvex_after hconvex).z_shape.trans (hconvex.operator.shape_apply ha.image).2.symm
  have hmonotone := (h.subgradient hconvex).monotone ha.subgradient hshape
  rw [← smul_sub, real_inner_smul_left] at hmonotone
  have hidentity := norm_sq_decrease (t.u.vec - a.u.vec) (t.z.vec - a.z.vec)
    (t.image.vec - t.z.vec) (t.z.vec - t.before.z.vec)
  have hu : t.u.vec - a.u.vec - (t.image.vec - t.z.vec) = t.before.u.vec - a.u.vec := by
    rw [h.vec_u]
    abel
  have hz : t.z.vec - a.z.vec - (t.z.vec - t.before.z.vec) = t.before.z.vec - a.z.vec := by abel
  have hmismatch : t.u.vec - a.u.vec + (t.z.vec - t.before.z.vec) = t.mismatch - a.u.vec := by
    rw [h.vec_u, TermUpdate.mismatch]
    abel
  have hpath : t.image.vec - t.z.vec + (t.z.vec - a.z.vec) = -(a.z.vec - t.image.vec) := by abel
  rw [hu, hz, hmismatch, hpath, sub_add_sub_cancel, inner_neg_right] at hidentity
  linear_combination 2 * hmonotone - t.before.weight * hidentity

/-- The distance to a saddle point after a step and before it. -/
theorem lyapunov_after_add_le (hterms : List.Forall₂ (SaddleTerm.Holds y) (us.map (·.before)) as)
    (hfollows : ∀ t ∈ us, t.Follows x) (hconvex : ∀ t ∈ us, t.before.IsConvex names) :
    lyapunov (us.map TermUpdate.after) as +
        (us.map fun t => t.before.weight * ‖t.image.vec - t.before.z.vec‖ ^ 2).sum +
        2 * (List.zipWith (fun t a => t.before.weight *
          inner ℝ (t.mismatch - a.u.vec) (a.z.vec - t.image.vec)) us as).sum ≤
      lyapunov (us.map (·.before)) as := by
  unfold lyapunov
  induction us generalizing as with
  | nil => simp
  | cons t us ih =>
    obtain ⟨a, as, ha, has, rfl⟩ := List.forall₂_cons_left_iff.mp hterms
    obtain ⟨ht, hus⟩ := List.forall_mem_cons.mp hfollows
    obtain ⟨htconvex, husconvex⟩ := List.forall_mem_cons.mp hconvex
    have hterm := ha.decrease ht htconvex
    have hrest := ih has hus husconvex
    simp only [List.map_cons, List.zipWith_cons_cons, List.sum_cons]
    show t.before.weight * (‖t.u.vec - a.u.vec‖ ^ 2 + ‖t.z.vec - a.z.vec‖ ^ 2) + _ + _ + _ ≤ _
    linarith

/-- From dual variables that are scaled subgradients, the change of the split variable and the primal
residual do not point against each other. -/
theorem progress_le (hfollows : ∀ t ∈ us, t.Follows x)
    (hconvex : ∀ t ∈ us, t.before.IsConvex names)
    (hdual : ∀ t ∈ us, t.before.penalty.Subgradient (t.before.weight • t.before.u.vec) t.before.z) :
    progress us ≤ (us.map fun t => t.before.weight * ‖t.image.vec - t.before.z.vec‖ ^ 2).sum := by
  apply List.sum_le_sum
  intro t ht
  have hshape : t.z.shape = t.before.z.shape :=
    ((hfollows t ht).isConvex_after (hconvex t ht)).z_shape.trans (hconvex t ht).z_shape.symm
  have hmonotone := ((hfollows t ht).subgradient (hconvex t ht)).monotone (hdual t ht) hshape
  have hgap : t.u.vec - t.before.u.vec = t.image.vec - t.z.vec := by
    rw [(hfollows t ht).vec_u]
    abel
  have hexpand := norm_add_sq_real (t.image.vec - t.z.vec) (t.z.vec - t.before.z.vec)
  rw [← smul_sub, real_inner_smul_left, hgap] at hmonotone
  rw [sub_add_sub_cancel] at hexpand
  linear_combination 2 * hmonotone - t.before.weight * hexpand

end Step

/-! ### Runs -/

/-- A run whose x-updates are solved exactly: every successful step ends at a point where the gradient
of its x-update vanishes.  Steps may fail, and anything else may be evaluated between them. -/
inductive ExactRun (names : Naming K) : Solver K ℝ ℝ → Trace K ℝ → Solver K ℝ ℝ → Trace K ℝ → Prop
  | refl {s t} : ExactRun names s t s t
  | step {s t s₁ t₁ s₂ t₂ e} : ExactRun names s t s₁ t₁ → s₁.step t₁ = ((.ok (), s₂), t₂) →
      (s₁.xUpdate.gradient s₂.x : Eval K ℝ _).outcome = .ok e → e.vec = 0 →
      ExactRun names s t s₂ t₂
  | failure {s t s₁ t₁ s₂ t₂ error} : ExactRun names s t s₁ t₁ →
      s₁.step t₁ = ((.error error, s₂), t₂) → ExactRun names s t s₂ t₂
  | elsewhere {s t s₁ t₁ t₂} : ExactRun names s t s₁ t₁ → t₂.Faithful names →
      ExactRun names s t s₁ t₂

/-- What a run keeps: the solver is convex, the saddle point is one of its terms, and after the first
step the scaled dual variables are subgradients of the penalties. -/
structure OnRun (names : Naming K) (y : Signal K) (as : List (SaddleTerm K)) (s : Solver K ℝ ℝ)
    (t : Trace K ℝ) : Prop where
  isConvex : s.IsConvex names
  faithful : t.Faithful names
  saddle : IsSaddle s.f s.terms y as
  dual : 1 ≤ s.iteration → ∀ t ∈ s.terms, t.penalty.Subgradient (t.weight • t.u.vec) t.z

section Runs

variable {y : Signal K} {as : List (SaddleTerm K)} {s s' : Solver K ℝ ℝ} {t t' : Trace K ℝ}

/-- A step that fails leaves the iterates as they were. -/
theorem OnRun.failure (h : OnRun names y as s t) {error : Error}
    (hstep : s.step t = ((.error error, s'), t')) :
    OnRun names y as s' t' ∧ s'.terms = s.terms := by
  obtain ⟨hconvex, hfaithful⟩ := h.isConvex.step h.faithful hstep
  obtain ⟨-, -, hcases⟩ := step_cases h.isConvex.named h.faithful hstep
  rcases hcases with ⟨e, state, strategy, timing, -, rfl⟩ | ⟨r, strategy, timing, hok, -⟩
  · exact ⟨⟨hconvex, hfaithful, h.saddle, h.dual⟩, rfl⟩
  · cases hok

/-- A step whose x-update is solved exactly. -/
theorem OnRun.step (h : OnRun names y as s t) (hstep : s.step t = ((.ok (), s'), t')) {e : Signal K}
    (hgradient : (s.xUpdate.gradient s'.x : Eval K ℝ _).outcome = .ok e) (he : e.vec = 0) :
    OnRun names y as s' t' ∧ ∃ us : List (TermUpdate K ℝ ℝ),
      us.map (·.before) = s.terms ∧ us.map TermUpdate.after = s'.terms ∧
      (∀ t ∈ us, t.Follows s'.x) ∧
      lyapunov s'.terms as ≤ lyapunov s.terms as ∧
      (1 ≤ s.iteration → lyapunov s'.terms as ≤ lyapunov s.terms as - progress us) := by
  obtain ⟨hconvex, hfaithful⟩ := h.isConvex.step h.faithful hstep
  obtain ⟨r, strategy', timing, hr, rfl⟩ := follows_of_step h.isConvex.named h.faithful hstep
  have hgradient : (s.xUpdate.gradient r.report.x : Eval K ℝ _).outcome = .ok e := hgradient
  have hbefore := hr.isConvex_before h.isConvex
  have hsaddle : IsSaddle s.f (r.updates.map (·.before)) y as := by
    rw [hr.before]
    exact h.saddle
  obtain ⟨g, hg, hgradients⟩ := outcome_gradient_eq_ok h.isConvex.named hgradient
  rw [← hr.before, List.map_map] at hgradients
  have hgap := sum_mismatch_nonneg h.isConvex.f hsaddle hr.updates hbefore hg hgradients he
  have hdecrease := lyapunov_after_add_le hsaddle.terms hr.updates hbefore
  rw [hr.before] at hdecrease
  refine ⟨⟨hconvex, hfaithful, hsaddle.after, fun _ t ht => ?_⟩, r.updates, hr.before, rfl,
    hr.updates, ?_, fun hiteration => ?_⟩
  · obtain ⟨u, hu, rfl⟩ := List.mem_map.mp ht
    exact (hr.updates u hu).subgradient (hbefore u hu)
  · have hnonneg : 0 ≤ (r.updates.map fun t =>
        t.before.weight * ‖t.image.vec - t.before.z.vec‖ ^ 2).sum := by
      refine List.sum_nonneg fun v hv => ?_
      obtain ⟨u, hu, rfl⟩ := List.mem_map.mp hv
      exact mul_nonneg (hbefore u hu).weight.le (sq_nonneg _)
    show lyapunov (r.updates.map TermUpdate.after) as ≤ _
    linarith
  · have hdual : ∀ t ∈ r.updates,
        t.before.penalty.Subgradient (t.before.weight • t.before.u.vec) t.before.z := by
      intro u hu
      apply h.dual hiteration u.before
      rw [← hr.before]
      exact List.mem_map_of_mem hu
    have hprogress := progress_le hr.updates hbefore hdual
    show lyapunov (r.updates.map TermUpdate.after) as ≤ _
    linarith

/-- Along a run the distance to the saddle point never grows. -/
theorem OnRun.run (h : OnRun names y as s t) (hrun : ExactRun names s t s' t') :
    OnRun names y as s' t' ∧ lyapunov s'.terms as ≤ lyapunov s.terms as := by
  induction hrun with
  | refl => exact ⟨h, le_rfl⟩
  | step _ hstep hgradient he ih =>
    obtain ⟨hon, hgrow⟩ := ih
    obtain ⟨hnext, us, -, -, -, hle, -⟩ := hon.step hstep hgradient he
    exact ⟨hnext, hle.trans hgrow⟩
  | failure _ hstep ih =>
    obtain ⟨hon, hgrow⟩ := ih
    obtain ⟨hnext, hterms⟩ := hon.failure hstep
    exact ⟨hnext, hterms ▸ hgrow⟩
  | elsewhere _ ht ih =>
    obtain ⟨hon, hgrow⟩ := ih
    exact ⟨⟨hon.isConvex, ht, hon.saddle, hon.dual⟩, hgrow⟩

/-- In a run whose x-updates are solved exactly, the distance of the split and dual variables to those
of a saddle point never grows.  Every step after the first shrinks it at least by the weighted squares
of the primal residual and of the change of the split variables. -/
theorem lyapunov_le_of_exactRun {p : Problem K ℝ ℝ} {config : Config ℝ} {strategy : Strategy K ℝ ℝ}
    (hp : p.IsConvex names) (hstrategy : strategy.Keeps names) {s₀ : Solver K ℝ ℝ}
    {t₀ t₁ : Trace K ℝ} (ht₀ : t₀.Faithful names)
    (hcreate : (create p config strategy).run t₀ = (.ok s₀, t₁))
    (hsaddle : IsSaddle s₀.f s₀.terms y as) (hrun : ExactRun names s₀ t₁ s t) :
    (∀ s' t', ExactRun names s t s' t' → lyapunov s'.terms as ≤ lyapunov s.terms as) ∧
      ∀ s' t' e, s.step t = ((.ok (), s'), t') →
        (s.xUpdate.gradient s'.x : Eval K ℝ _).outcome = .ok e → e.vec = 0 → 1 ≤ s.iteration →
        ∃ us : List (TermUpdate K ℝ ℝ), us.map (·.before) = s.terms ∧
          us.map TermUpdate.after = s'.terms ∧ (∀ t ∈ us, t.Follows s'.x) ∧
          lyapunov s'.terms as ≤ lyapunov s.terms as -
            (us.map fun t => t.before.weight *
              (‖t.image.vec - t.z.vec‖ ^ 2 + ‖t.z.vec - t.before.z.vec‖ ^ 2)).sum := by
  obtain ⟨hkeep, hpost⟩ := ensures_create hp config hstrategy t₀ ht₀
  rw [hcreate] at hkeep hpost
  obtain ⟨hconvex, hiteration⟩ := hpost s₀ rfl
  have hstart : OnRun names y as s₀ t₁ := by
    refine ⟨hconvex, hkeep, hsaddle, fun hlater => ?_⟩
    rw [hiteration] at hlater
    exact absurd hlater (Nat.not_succ_le_zero 0)
  have hon := (hstart.run hrun).1
  refine ⟨fun s' t' hrest => (hon.run hrest).2, fun s' t' e hstep hgradient he hiteration => ?_⟩
  obtain ⟨-, us, hbefore, hafter, hfollows, -, hprogress⟩ := hon.step hstep hgradient he
  exact ⟨us, hbefore, hafter, hfollows, hprogress hiteration⟩

end Runs

/-- The saddle point of half the squared distance from `b` plus the modulus. -/
def numberSaddle (b : ℝ) : SaddleTerm ℝ := ⟨.single (b - 1), .single 1, .single 1⟩

theorem isSaddle_number {b : ℝ} (hb : 1 ≤ b) (config : Config ℝ) (a : ℝ) :
    IsSaddle (numberSolver b config a).f (numberSolver b config a).terms (.single (b - 1))
      [numberSaddle b] := by
  have hsubgradient : (Functional.l1 : Functional ℝ ℝ ℝ).Subgradient
      ((1 : ℝ) • (Signal.single 1).vec) (.single (b - 1)) := by
    have hprox : L1.prox (Signal.single b) (1 : ℝ) = .single (b - 1) := by
      rw [L1.prox, Signal.map_single, shrink_of_one_le hb]
    have hgap : (Signal.single b).sub (.single (b - 1)) = .ok (.single (b - (b - 1))) :=
      Signal.zipMap_single _ _ _ _
    have hprox' := L1.subgradient_prox one_pos (Signal.single b)
    rwa [hprox, ← Signal.vec_sub hgap, sub_sub_cancel, one_div_one] at hprox'
  have hcancel : (Signal.single (b - 1 - b)).add (.single 1) = .ok (.single (b - 1 - b + 1)) :=
    Signal.zipMap_single _ _ _ _
  have hzero : b - 1 - b + 1 = 0 := by ring
  refine ⟨.cons ⟨rfl, rfl, hsubgradient⟩ .nil, _,
    congrArg Prod.fst (run_grad_distanceTo b (b - 1) .empty), ?_⟩
  show _ + ((1 : ℝ) • (Signal.single 1).vec + 0) = 0
  rw [one_smul, add_zero, ← Signal.vec_add hcancel, hzero, Signal.vec_single_zero]

theorem lyapunov_number {s : Solver ℝ ℝ ℝ} {b x z u : ℝ} (hs : IsAt b s x z u) :
    lyapunov s.terms [numberSaddle b] = (u - 1) ^ 2 + (z - (b - 1)) ^ 2 := by
  rw [hs.terms, ← Signal.norm_vec_sub_sq_single, ← Signal.norm_vec_sub_sq_single]
  show 1 * (_ + _) + 0 = _
  rw [one_mul, add_zero]
  rfl

theorem progress_number {us : List (TermUpdate ℝ ℝ ℝ)} {x z u z' u' : ℝ}
    (hbefore : us.map (·.before) = [modulusTerm z u])
    (hafter : us.map TermUpdate.after = [modulusTerm z' u'])
    (hfollows : ∀ t ∈ us, t.Follows (.single x)) : progress us = (x - z') ^ 2 + (z' - z) ^ 2 := by
  obtain ⟨update, rfl, hupdate⟩ := List.map_eq_singleton_iff.mp hbefore
  have hz : update.z = .single z' := congrArg Term.z (List.singleton_inj.mp hafter)
  have happly : (modulusTerm z u).operator.apply (.single x) = (pure (.single x) : Eval ℝ ℝ _) :=
    LinearOperator.apply_identity rfl
  have himage := (hfollows update (List.mem_singleton_self _)).image
  rw [hupdate, happly] at himage
  rw [progress, List.map_singleton, List.sum_singleton, hupdate, ← Except.ok.inj himage, hz,
    ← Signal.norm_vec_sub_sq_single, ← Signal.norm_vec_sub_sq_single]
  exact one_mul _

/-- From seven, the squared distance to the saddle point shrinks from twenty-six to four and to one,
where the decrease by one is promised for the second step. -/
theorem lyapunov_le_from_seven : ∃ (s s' : Solver ℝ ℝ ℝ) (t : Trace ℝ ℝ),
    (numberSolver 3 .default 7).step t = ((.ok (), s), t) ∧ s.step t = ((.ok (), s'), t) ∧
    lyapunov (numberSolver 3 .default 7).terms [numberSaddle 3] = 26 ∧
    lyapunov s.terms [numberSaddle 3] = 4 ∧ lyapunov s'.terms [numberSaddle 3] = 1 ∧
    lyapunov s.terms [numberSaddle 3] ≤ lyapunov (numberSolver 3 .default 7).terms [numberSaddle 3] ∧
    lyapunov s'.terms [numberSaddle 3] ≤ lyapunov s.terms [numberSaddle 3] ∧
    ∃ us : List (TermUpdate ℝ ℝ ℝ), us.map (·.before) = s.terms ∧
      us.map TermUpdate.after = s'.terms ∧ (∀ t ∈ us, t.Follows s'.x) ∧
      lyapunov s'.terms [numberSaddle 3] ≤ lyapunov s.terms [numberSaddle 3] -
        (us.map fun t => t.before.weight *
          (‖t.image.vec - t.z.vec‖ ^ 2 + ‖t.z.vec - t.before.z.vec‖ ^ 2)).sum ∧
      progress us = 1 := by
  have hconfig : (Config.default : Config ℝ).fault? = none := rfl
  have hb : (1 : ℝ) ≤ 3 := by norm_num
  have hsplit : numberSplit 3 7 1 = 4 := by norm_num [numberSplit, RealArithmetic.half_eq]
  have hsplit' : numberSplit 3 7 2 = 3 := by norm_num [numberSplit, RealArithmetic.half_eq]
  obtain ⟨t, hcreate⟩ := run_create_number hconfig 3 7
  obtain ⟨s, s', hfirst, hs, hiteration, hgradient, hsecond, hs', -, hgradient', -⟩ :=
    exists_two_steps (b := 3) (a := 7) hb (by norm_num) t
  rw [hsplit] at hs
  rw [hsplit'] at hs'
  have hkeeps : (Strategy.ofSteps 1 : Strategy ℝ ℝ ℝ).Keeps
      fun _ => LinearOperator.identityClosure := trivial
  have hrun : ExactRun (fun _ => LinearOperator.identityClosure) (numberSolver 3 .default 7) t s t :=
    .step .refl hfirst hgradient Signal.vec_single_zero
  obtain ⟨hshrinks, -⟩ := lyapunov_le_of_exactRun (isConvex_numberProblem _ 3 7) hkeeps
    (Trace.faithful_empty _) hcreate (isSaddle_number hb .default 7) .refl
  obtain ⟨hshrinks', hdecrease⟩ := lyapunov_le_of_exactRun (isConvex_numberProblem _ 3 7) hkeeps
    (Trace.faithful_empty _) hcreate (isSaddle_number hb .default 7) hrun
  obtain ⟨us, hbefore, hafter, hfollows, hle⟩ :=
    hdecrease s' t _ hsecond hgradient' Signal.vec_single_zero hiteration.ge
  refine ⟨s, s', t, hfirst, hsecond, ?_, ?_, ?_, hshrinks s t hrun,
    hshrinks' s' t (.step .refl hsecond hgradient' Signal.vec_single_zero),
    us, hbefore, hafter, hfollows, hle, ?_⟩
  · rw [lyapunov_number (isAt_numberSolver 3 .default 7)]
    norm_num
  · rw [lyapunov_number hs]
    norm_num
  · rw [lyapunov_number hs']
    norm_num
  · rw [progress_number (hbefore.trans hs.terms) (hafter.trans hs'.terms) (hs'.x ▸ hfollows)]
    norm_num

end Solver

end

end OperatorSplitting
