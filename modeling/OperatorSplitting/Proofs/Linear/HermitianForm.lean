import Mathlib
import OperatorSplitting.Proofs.Linear.PolarForm

/-!
# Hermitian forms

For complex signals the real inner products of a polar form are the real parts of complex ones.  The
weighted operators `C` have the complex form `Σ w ⟨C v, C x⟩`, which is conjugated when its arguments
are exchanged (`form_symm`).  An expression for the normal operator evaluates this form as well, and
it has a result wherever the operators and their adjoints have the results that it is made of
(`IsForm`).  So it is Hermitian (`IsForm.hermitian`).
-/

namespace OperatorSplitting

open Eval

noncomputable section

variable {K : Type} [ExactScalar K] {names : Naming K}

namespace LinearOperator

variable {a b c : LinearOperator K} {operators rest : List (LinearOperator K × ℝ)}
  {u v w x y g image : Signal K}

/-- The pairing with a result of the adjoint. -/
theorem IsLinear.pairing_adjoint (ha : a.IsLinear names)
    (himage : (a.apply v : Eval K ℝ _).outcome = .ok image)
    (hg : (a.adjoint y : Eval K ℝ _).outcome = .ok g) : v.pairing g = image.pairing y := by
  obtain ⟨hv, himage⟩ := outcome_apply_eq_ok_iff.mp himage
  obtain ⟨hy, hg⟩ := outcome_adjoint_eq_ok_iff.mp hg
  exact ha.adjointMaps.flip.pairing_eq hy hv hg himage

/-! ### The form -/

/-- The weighted complex inner products of the images of two signals, added over all operators. -/
def form (operators : List (LinearOperator K × ℝ)) (v x : Signal K) : ℂ :=
  (operators.map fun p => p.2 * inner ℂ (p.1.imageVec v) (p.1.imageVec x)).sum

theorem form_append : form (operators ++ rest) v x = form operators v x + form rest v x := by
  rw [form, List.map_append, List.sum_append]
  rfl

theorem form_symm : (starRingEnd ℂ) (form operators v x) = form operators x v := by
  rw [form, form, map_list_sum, List.map_map]
  congr 1
  refine List.map_congr_left fun p _ => ?_
  rw [Function.comp, map_mul, Complex.conj_ofReal, inner_conj_symm]

/-! ### Expressions that evaluate the form -/

/-- The expression evaluates the form of weighted operators, and does so at every signal at which the
operators and their adjoints have results. -/
structure IsForm (names : Naming K) (a : LinearOperator K)
    (operators : List (LinearOperator K × ℝ)) : Prop extends IsPolar names a operators where
  exists_apply : ∀ {x : Signal K}, Reaches operators x →
    ∃ u, (a.apply x : Eval K ℝ _).outcome = .ok u
  pairing_apply : ∀ {x u v : Signal K}, (a.apply x : Eval K ℝ _).outcome = .ok u →
    v.shape = x.shape → v.pairing u = form operators v x

/-- A weighted Gram operator puts the image and the adjoint's result there together. -/
theorem apply_gram_eq_ok (hc : c.IsLinear names) (r : ℝ)
    (himage : (c.apply x : Eval K ℝ _).outcome = .ok image)
    (hg : (c.adjoint image : Eval K ℝ _).outcome = .ok g) :
    ((multiple (Scalar.ofReal r) c.gramOperator).apply x : Eval K ℝ _).outcome =
      .ok (g.scaled (Scalar.ofReal r)) := by
  obtain ⟨hx, himage⟩ := outcome_apply_eq_ok_iff.mp himage
  have hgram : c.gramOperator.outcomeMap .forward x = .ok g := by
    rw [LinearOperator.gramOperator,
      (outcomeMap_composition (a := conjTranspose c) hc.named hc.named).1, outcomeMap_conjTranspose]
    exact Except.bind_eq_ok_iff.mpr ⟨image, himage, (outcome_adjoint_eq_ok_iff.mp hg).2⟩
  refine outcome_apply_eq_ok_iff.mpr ⟨hx, ?_⟩
  rw [(outcomeMap_multiple hc.gramOperator.named _).1]
  exact Except.map_eq_ok_iff.mpr ⟨g, hgram, rfl⟩

/-- A sum of operators of the same shapes has a result where both have one. -/
theorem exists_apply_sum (ha : a.IsLinear names) (hb : b.IsLinear names)
    (houtput : a.output = b.output) (hu : (a.apply x : Eval K ℝ _).outcome = .ok u)
    (hv : (b.apply x : Eval K ℝ _).outcome = .ok v) :
    ∃ w, ((sum a b).apply x : Eval K ℝ _).outcome = .ok w := by
  have hsame := (ha.shape_apply hu).2.trans (houtput.trans (hb.shape_apply hv).2.symm)
  obtain ⟨w, hw, -⟩ := Signal.exists_add hsame
  obtain ⟨hx, hu⟩ := outcome_apply_eq_ok_iff.mp hu
  refine ⟨w, outcome_apply_eq_ok_iff.mpr ⟨hx, ?_⟩⟩
  rw [outcomeMap_sum ha.named hb.named]
  exact Except.bind_eq_ok_iff.mpr
    ⟨u, hu, Except.bind_eq_ok_iff.mpr ⟨v, (outcome_apply_eq_ok_iff.mp hv).2, hw⟩⟩

namespace IsForm

/-- A weighted Gram operator. -/
theorem gram (hc : c.IsLinear names) (r : ℝ) :
    (multiple (Scalar.ofReal r) c.gramOperator).IsForm names [(c, r)] where
  toIsPolar := .gram hc r
  exists_apply := by
    intro x hx
    obtain ⟨image, g, himage, hg⟩ := hx (c, r) (List.mem_singleton_self _)
    exact ⟨_, apply_gram_eq_ok hc r himage hg⟩
  pairing_apply := by
    intro x u v hu hv
    obtain ⟨image, g, himage, hg, rfl⟩ := exists_of_apply_gram hc r hu
    obtain ⟨vimage, hvimage⟩ := hc.apply_uniform himage hv
    have hform : form [(c, r)] v x = r * inner ℂ (c.imageVec v) (c.imageVec x) :=
      List.sum_singleton
    rw [hform, imageVec_eq himage, imageVec_eq hvimage, Signal.inner_complex_vec,
      ← hc.pairing_adjoint hvimage hg, Signal.pairing_scaled_right, ExactScalar.val_ofReal, mul_comm]

/-- Forms of two lists of operators are added. -/
theorem sum (ha : a.IsForm names operators) (hb : b.IsForm names rest)
    (hinput : a.input = b.input) :
    (LinearOperator.sum a b).IsForm names (operators ++ rest) where
  toIsPolar := ha.toIsPolar.sum hb.toIsPolar hinput
  exists_apply := by
    intro x hx
    obtain ⟨hfirst, hrest⟩ := List.forall_mem_append.mp hx
    obtain ⟨u, hu⟩ := ha.exists_apply hfirst
    obtain ⟨v, hv⟩ := hb.exists_apply hrest
    have houtput := ha.square.trans (hinput.trans hb.square.symm)
    exact exists_apply_sum ha.linear hb.linear houtput hu hv
  pairing_apply := by
    intro x u v hu hv
    obtain ⟨u₁, u₂, hu₁, hu₂, hsum⟩ := exists_of_apply_sum ha.linear hb.linear hinput hu
    rw [← Signal.inner_complex_vec, hsum, inner_add_right, Signal.inner_complex_vec,
      Signal.inner_complex_vec, ha.pairing_apply hu₁ hv, hb.pairing_apply hu₂ hv, form_append]

/-- The operator is Hermitian. -/
theorem hermitian (ha : a.IsForm names operators)
    (hu : (a.apply x : Eval K ℝ _).outcome = .ok u)
    (hv : (a.apply y : Eval K ℝ _).outcome = .ok v) : y.pairing u = v.pairing x := by
  obtain ⟨hx, -⟩ := ha.linear.shape_apply hu
  obtain ⟨hy, hvshape⟩ := ha.linear.shape_apply hv
  have hsame : v.shape = x.shape := hvshape.trans (ha.square.trans hx.symm)
  rw [ha.pairing_apply hu (hy.trans hx.symm), Signal.pairing_symm hsame,
    ha.pairing_apply hv (hx.trans hy.symm), form_symm]

end IsForm

end LinearOperator

end

end OperatorSplitting
