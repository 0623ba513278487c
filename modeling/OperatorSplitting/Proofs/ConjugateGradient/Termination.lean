import Mathlib
import OperatorSplitting.Proofs.ConjugateGradient.Residual

/-!
# Termination of conjugate gradients

With a positive definite operator on signals of `n` elements a solve needs no more than `n`
iterations, and none of them fails.  The residuals met so far span a space, and the present residual
and the image of the present direction are orthogonal to it (`CgState.Explored`).  So every
iteration adds a dimension to the space (`Explored.step`), and vectors of `n` coordinates have room
for `n` of them only: then the residual vanishes, which is the true one
(`terminates_conjugateGradient`).

The spaces are complex, also for real elements, whose vectors are complex ones.
-/

namespace OperatorSplitting

open Eval LinearOperator Module

noncomputable section

/-! ### Vectors of finitely many coordinates -/

/-- The vectors whose coordinates are zero from the given one on. -/
def leading (n : ℕ) : Submodule ℂ Vector where
  carrier := {v | ∀ k, n ≤ k → v k = 0}
  zero_mem' _ _ := rfl
  add_mem' {v w} hv hw k hk := by
    rw [lp.coeFn_add, Pi.add_apply, hv k hk, hw k hk, add_zero]
  smul_mem' c v hv k hk := by
    rw [lp.coeFn_smul, Pi.smul_apply, hv k hk, smul_zero]

/-- The coordinates that may be different from zero. -/
def leadingCoords (n : ℕ) : leading n →ₗ[ℂ] (Fin n → ℂ) where
  toFun v i := v.1 i
  map_add' _ _ := rfl
  map_smul' _ _ := rfl

theorem leadingCoords_injective (n : ℕ) : Function.Injective (leadingCoords n) := by
  intro v w h
  apply Subtype.ext
  ext k
  rcases Nat.lt_or_ge k n with hk | hk
  · exact congrFun h ⟨k, hk⟩
  · rw [v.2 k hk, w.2 k hk]

instance (n : ℕ) : FiniteDimensional ℂ (leading n) :=
  FiniteDimensional.of_injective (leadingCoords n) (leadingCoords_injective n)

theorem finrank_le_of_le_leading {U : Submodule ℂ Vector} {n : ℕ} (h : U ≤ leading n) :
    finrank ℂ U ≤ n :=
  calc finrank ℂ U ≤ finrank ℂ (leading n) := Submodule.finrank_mono h
    _ ≤ finrank ℂ (Fin n → ℂ) :=
      LinearMap.finrank_le_finrank_of_injective (leadingCoords_injective n)
    _ = n := finrank_fin_fun ℂ

/-- A vector that is orthogonal to a space adds a dimension to it. -/
theorem finrank_sup_span_of_mem_orthogonal {U : Submodule ℂ Vector} [FiniteDimensional ℂ U]
    {v : Vector} (hv : v ∈ Uᗮ) (hzero : v ≠ 0) : finrank ℂ (U ⊔ ℂ ∙ v : Submodule ℂ Vector) =
      finrank ℂ U + 1 := by
  have hortho : U ⟂ ℂ ∙ v := by
    rw [Submodule.isOrtho_comm, Submodule.isOrtho_iff_le, Submodule.span_singleton_le_iff_mem]
    exact hv
  have hsum := Submodule.finrank_sup_add_finrank_inf_eq U (ℂ ∙ v)
  rwa [hortho.disjoint.eq_bot, finrank_bot, add_zero, finrank_span_singleton hzero] at hsum

theorem mem_orthogonal_sup_span_iff {U : Submodule ℂ Vector} {v w : Vector} :
    w ∈ (U ⊔ ℂ ∙ v)ᗮ ↔ w ∈ Uᗮ ∧ inner ℂ v w = 0 := by
  rw [← Submodule.inf_orthogonal, Submodule.mem_inf,
    Submodule.mem_orthogonal_singleton_iff_inner_right]

variable {K : Type} [ExactScalar K] {names : Naming K} {a : LinearOperator K}

theorem Signal.vec_mem_leading (x : Signal K) : x.vec ∈ leading x.size := fun _ hk =>
  Signal.coord_of_size_le hk

/-! ### Positive definite operators -/

/-- The operator has an image of its shape at every signal of its shape, it is Hermitian, and the
inner product of a signal that is not zero and its image is positive; its closures are the ones that
their numbers stand for. -/
structure LinearOperator.IsPositiveDefinite (names : Naming K) (a : LinearOperator K) : Prop where
  named : a.Named names
  square : a.input = a.output
  total : ∀ {x : Signal K}, x.shape = a.input →
    ∃ u, (a.apply x : Eval K ℝ _).outcome = .ok u ∧ u.shape = a.input
  hermitian : ∀ {x y u v : Signal K}, (a.apply x : Eval K ℝ _).outcome = .ok u →
    (a.apply y : Eval K ℝ _).outcome = .ok v → y.pairing u = v.pairing x
  positive : ∀ {x u : Signal K}, (a.apply x : Eval K ℝ _).outcome = .ok u → x.vec ≠ 0 →
    0 < (x.pairing u).re

namespace LinearOperator.IsPositiveDefinite

variable {x y d x' u : Signal K}

theorem shape_apply (ha : a.IsPositiveDefinite names)
    (hu : (a.apply x : Eval K ℝ _).outcome = .ok u) : x.shape = a.input ∧ u.shape = a.input := by
  have hx := (outcome_apply_eq_ok_iff.mp hu).1
  obtain ⟨u', hu', hshape⟩ := ha.total hx
  cases hu.symm.trans hu'
  exact ⟨hx, hshape⟩

theorem inner_imageVec (ha : a.IsPositiveDefinite names) (hx : x.shape = a.input)
    (hy : y.shape = a.input) : inner ℂ y.vec (a.imageVec x) = inner ℂ (a.imageVec y) x.vec := by
  obtain ⟨u, hu, -⟩ := ha.total hx
  obtain ⟨v, hv, -⟩ := ha.total hy
  rw [imageVec_eq hu, imageVec_eq hv, Signal.inner_complex_vec, Signal.inner_complex_vec,
    ha.hermitian hu hv]

/-- Hermitian operators are linear. -/
theorem imageVec_combination (ha : a.IsPositiveDefinite names) (hx : x.shape = a.input)
    (hd : d.shape = a.input) (hx' : x'.shape = a.input) {r : ℝ}
    (h : x'.vec = x.vec + r • d.vec) : a.imageVec x' = a.imageVec x + r • a.imageVec d := by
  obtain ⟨u, hu, hushape⟩ := ha.total hx
  obtain ⟨w, hw, hwshape⟩ := ha.total hd
  obtain ⟨u', hu', hu'shape⟩ := ha.total hx'
  obtain ⟨z, hz, hzshape⟩ := Signal.exists_addScaled (Scalar.ofReal r) (hushape.trans hwshape.symm)
  obtain ⟨e, he, heshape⟩ := Signal.exists_sub (hu'shape.trans (hzshape.trans hushape).symm)
  have hevec : e.vec = a.imageVec x' - (a.imageVec x + r • a.imageVec d) := by
    rw [Signal.vec_sub he, Signal.vec_addScaled hz, imageVec_eq hu, imageVec_eq hw, imageVec_eq hu']
  -- Both sides have the same inner products with all signals, and so with their difference.
  have horthogonal :
      inner ℂ e.vec (a.imageVec x' - (a.imageVec x + r • a.imageVec d)) = 0 := by
    have he : e.shape = a.input := heshape.trans hu'shape
    rw [inner_sub_right, inner_add_right, inner_smul_right_eq_smul, ha.inner_imageVec hx' he,
      ha.inner_imageVec hx he, ha.inner_imageVec hd he, h, inner_add_right,
      inner_smul_right_eq_smul, sub_self]
  rw [← hevec] at horthogonal
  rw [← sub_eq_zero, ← hevec]
  exact inner_self_eq_zero.mp horthogonal

theorem actsLinearly (ha : a.IsPositiveDefinite names) : a.ActsLinearly names where
  named := ha.named
  combination := by
    intro x d x' u w r hu hw hx'
    obtain ⟨hx, hushape⟩ := ha.shape_apply hu
    obtain ⟨hd, hwshape⟩ := ha.shape_apply hw
    have hx'shape : x'.shape = a.input := (Signal.shape_of_zipMap hx').trans hx
    obtain ⟨u', hu', hu'shape⟩ := ha.total hx'shape
    obtain ⟨u'', hu'', hshape⟩ := Signal.exists_addScaled (Scalar.ofReal r)
      (hushape.trans hwshape.symm)
    have hsame : u'' = u' := by
      apply Signal.vec_injective ((hshape.trans hushape).trans hu'shape.symm)
      rw [Signal.vec_addScaled hu'', ← imageVec_eq hu, ← imageVec_eq hw, ← imageVec_eq hu',
        ha.imageVec_combination hx hd hx'shape (Signal.vec_addScaled hx')]
    exact ⟨u', hu', hsame ▸ hu''⟩

/-- Curvatures are real. -/
theorem pairing_eq_re (ha : a.IsPositiveDefinite names)
    (hu : (a.apply x : Eval K ℝ _).outcome = .ok u) : x.pairing u = ((x.pairing u).re : ℂ) := by
  obtain ⟨hx, hushape⟩ := ha.shape_apply hu
  rw [eq_comm, ← Complex.conj_eq_iff_re, ← Signal.pairing_symm (hushape.trans hx.symm)]
  exact (ha.hermitian hu hu).symm

end LinearOperator.IsPositiveDefinite

/-! ### The explored space -/

namespace CgState

variable {U : Submodule ℂ Vector} {s s' : CgState K ℝ} {b x : Signal K}

namespace Tracks

theorem x_shape (hs : s.Tracks a b) : s.x.shape = a.input := by
  obtain ⟨u, hu, -⟩ := hs.residual_eq
  exact (outcome_apply_eq_ok_iff.mp hu).1

theorem residual_shape (hs : s.Tracks a b) : s.residual.shape = b.shape := by
  obtain ⟨u, -, hr⟩ := hs.residual_eq
  exact Signal.shape_of_zipMap hr

theorem residualSqr_eq_norm (hs : s.Tracks a b) : s.residualSqr = ‖s.residual.vec‖ ^ 2 :=
  hs.residualSqr_eq.trans (Signal.normSqr_eq _)

theorem inner_residual_self (hs : s.Tracks a b) :
    inner ℂ s.residual.vec s.residual.vec = (s.residualSqr : ℂ) := by
  rw [inner_self_eq_norm_sq_to_K, hs.residualSqr_eq_norm, Complex.ofReal_pow]
  rfl

theorem residual_ne_zero (hs : s.Tracks a b) (hpos : 0 < s.residualSqr) :
    s.residual.vec ≠ 0 := by
  intro hzero
  rw [hs.residualSqr_eq_norm, hzero, norm_zero, zero_pow two_ne_zero] at hpos
  exact lt_irrefl _ hpos

/-- Where the residual vanishes, the iterate is a solution. -/
theorem outcome_eq (hs : s.Tracks a b) (hnorm : (s.residualNorm : ℝ) ≤ 0) :
    (a.apply s.x : Eval K ℝ _).outcome = .ok b := by
  obtain ⟨u, hu, hr⟩ := hs.residual_eq
  have hzero : s.residual.vec = 0 := by
    have hnonpos : s.residualSqr ≤ 0 := Real.sqrt_eq_zero'.mp
      (le_antisymm hnorm (Real.sqrt_nonneg s.residualSqr))
    rw [hs.residualSqr_eq_norm] at hnonpos
    exact norm_eq_zero.mp (pow_eq_zero_iff two_ne_zero |>.mp (le_antisymm hnonpos (sq_nonneg _)))
  rw [Signal.vec_sub hr, sub_eq_zero] at hzero
  rw [hu, Signal.vec_injective (Signal.zipMap_spec hr).1 hzero]

end Tracks

/-- The space with the present residual. -/
def explore (U : Submodule ℂ Vector) (s : CgState K ℝ) : Submodule ℂ Vector :=
  U ⊔ ℂ ∙ s.residual.vec

/-- The space has as many dimensions as there were iterations.  The present residual and the image of
the present direction are orthogonal to it, and so are the images of all signals that are orthogonal
to it and to the present residual. -/
structure Explored (a : LinearOperator K) (b : Signal K) (U : Submodule ℂ Vector)
    (s : CgState K ℝ) : Prop extends s.Tracks a b where
  direction_shape : s.direction.shape = a.input
  le_leading : U ≤ leading b.size
  finrank_eq : finrank ℂ U = s.iteration
  residual_mem : s.residual.vec ∈ Uᗮ
  turn_mem : s.direction.vec - s.residual.vec ∈ U
  image_mem : a.imageVec s.direction ∈ Uᗮ
  image_mem_of_mem : ∀ w : Signal K, w.shape = a.input → w.vec ∈ (s.explore U)ᗮ →
    a.imageVec w ∈ Uᗮ

namespace Explored

/-- Vectors that are orthogonal to the space see no difference between direction and residual. -/
theorem inner_direction (hs : s.Explored a b U) {v : Vector} (hv : v ∈ Uᗮ) :
    inner ℂ s.direction.vec v = inner ℂ s.residual.vec v := by
  rw [← sub_eq_zero, ← inner_sub_left]
  exact (Submodule.mem_orthogonal _ _).mp hv _ hs.turn_mem

theorem direction_ne_zero (hs : s.Explored a b U) (hpos : 0 < s.residualSqr) :
    s.direction.vec ≠ 0 := by
  intro hzero
  have hinner := hs.inner_direction hs.residual_mem
  rw [hzero, inner_zero_left] at hinner
  exact hs.toTracks.residual_ne_zero hpos (inner_self_eq_zero.mp hinner.symm)

theorem explore_le_leading (hs : s.Explored a b U) : s.explore U ≤ leading b.size := by
  refine sup_le hs.le_leading ((Submodule.span_singleton_le_iff_mem _ _).mpr ?_)
  rw [← Signal.size_eq_of_shape hs.toTracks.residual_shape]
  exact s.residual.vec_mem_leading

theorem finrank_explore (hs : s.Explored a b U) (hpos : 0 < s.residualSqr) :
    finrank ℂ (s.explore U) = s.iteration + 1 := by
  have : FiniteDimensional ℂ U := Submodule.finiteDimensional_of_le hs.le_leading
  rw [← hs.finrank_eq]
  exact finrank_sup_span_of_mem_orthogonal hs.residual_mem (hs.toTracks.residual_ne_zero hpos)

theorem iteration_le (hs : s.Explored a b U) : s.iteration ≤ b.size :=
  hs.finrank_eq ▸ finrank_le_of_le_leading hs.le_leading

/-- While the residual does not vanish, there is room for it. -/
theorem iteration_lt (hs : s.Explored a b U) (hpos : 0 < s.residualSqr) :
    s.iteration < b.size := by
  rw [← Nat.add_one_le_iff, ← hs.finrank_explore hpos]
  exact finrank_le_of_le_leading hs.explore_le_leading

end Explored

/-! ### One iteration -/

/-- An iteration between vectors: the residual loses a multiple of the image of the direction, and
the direction is turned towards what is left of it. -/
structure Turns (a : LinearOperator K) (s s' : CgState K ℝ) (alpha beta : ℝ) : Prop where
  direction_shape : s'.direction.shape = a.input
  residual_vec : s'.residual.vec = s.residual.vec - alpha • a.imageVec s.direction
  direction_vec : s'.direction.vec = s'.residual.vec + beta • s.direction.vec
  alpha_mul : alpha * inner ℂ s.direction.vec (a.imageVec s.direction) = (s.residualSqr : ℂ)
  beta_mul : beta * s.residualSqr = s'.residualSqr

variable {alpha beta : ℝ}

/-- An iteration has an outcome: the direction is not zero, so its curvature is positive. -/
theorem Explored.exists_step (ha : a.IsPositiveDefinite names) (hb : b.shape = a.input)
    (hs : s.Explored a b U) (hpos : 0 < s.residualSqr) :
    ∃ s', (s.step a : Eval K ℝ _).outcome = .ok s' := by
  obtain ⟨image, himage, himageshape⟩ := ha.total hs.direction_shape
  obtain ⟨c, hc, hval⟩ := Signal.vdot_eq_ok (hs.direction_shape.trans himageshape.symm)
  have hpositive : 0 < Scalar.re c := by
    rw [ExactScalar.re_eq, hval]
    exact ha.positive himage (hs.direction_ne_zero hpos)
  have hresidual : s.residual.shape = a.input := hs.toTracks.residual_shape.trans hb
  obtain ⟨x, hx, -⟩ := Signal.exists_addScaled (Scalar.ofReal (s.residualSqr / Scalar.re c))
    (hs.toTracks.x_shape.trans hs.direction_shape.symm)
  obtain ⟨r, hr, hrshape⟩ := Signal.exists_addScaled (-Scalar.ofReal (s.residualSqr / Scalar.re c))
    (hresidual.trans himageshape.symm)
  have hturned := (Signal.shape_scaled s.direction
    (Scalar.ofReal (r.normSqr / s.residualSqr))).trans hs.direction_shape
  obtain ⟨d, hd, -⟩ := Signal.exists_add ((hrshape.trans hresidual).trans hturned.symm)
  exact ⟨_, (step_eq_ok_iff ha.named).mpr
    ⟨image, c, x, r, d, himage, hc, hpositive, hx, hr, hd, rfl⟩⟩

theorem Explored.exists_turns (ha : a.IsPositiveDefinite names) (hb : b.shape = a.input)
    (hs : s.Explored a b U) (hpos : 0 < s.residualSqr)
    (h : (s.step a : Eval K ℝ _).outcome = .ok s') : ∃ alpha beta, Turns a s s' alpha beta := by
  obtain ⟨image, c, x, r, d, himage, hc, hpositive, -, hr, hd, rfl⟩ :=
    (step_eq_ok_iff ha.named).mp h
  obtain ⟨c', hc', hval⟩ := Signal.vdot_eq_ok
    (hs.direction_shape.trans (ha.shape_apply himage).2.symm)
  cases hc.symm.trans hc'
  have hcurvature : inner ℂ s.direction.vec (a.imageVec s.direction) = (Scalar.re c : ℂ) := by
    rw [imageVec_eq himage, Signal.inner_complex_vec, ha.pairing_eq_re himage, ExactScalar.re_eq,
      hval]
  have hrshape : r.shape = a.input :=
    (Signal.shape_of_zipMap hr).trans (hs.toTracks.residual_shape.trans hb)
  refine ⟨s.residualSqr / Scalar.re c, r.normSqr / s.residualSqr, ?_, ?_, ?_, ?_, ?_⟩
  · exact (Signal.shape_of_zipMap hd).trans hrshape
  · rw [imageVec_eq himage, sub_eq_add_neg, ← neg_smul]
    exact Signal.vec_addScaled_neg hr
  · show d.vec = r.vec + _ • s.direction.vec
    rw [Signal.vec_add hd, Signal.vec_scaled]
  · rw [hcurvature, ← Complex.ofReal_mul, div_mul_cancel₀ _ hpositive.ne']
  · exact div_mul_cancel₀ _ hpos.ne'

namespace Turns

theorem alpha_ne_zero (h : Turns a s s' alpha beta) (hpos : 0 < s.residualSqr) :
    (alpha : ℂ) ≠ 0 := by
  intro hzero
  have hproduct := h.alpha_mul
  rw [hzero, zero_mul, eq_comm, Complex.ofReal_eq_zero] at hproduct
  exact hpos.ne' hproduct

/-- The new residual is orthogonal to the old one too. -/
theorem residual_mem (h : Turns a s s' alpha beta) (hs : s.Explored a b U) :
    s'.residual.vec ∈ (s.explore U)ᗮ := by
  refine mem_orthogonal_sup_span_iff.mpr ⟨?_, ?_⟩
  · rw [h.residual_vec]
    exact sub_mem hs.residual_mem (Submodule.smul_of_tower_mem _ _ hs.image_mem)
  · rw [h.residual_vec, inner_sub_right, inner_smul_right_eq_smul, hs.toTracks.inner_residual_self,
      ← hs.inner_direction hs.image_mem, Complex.real_smul, h.alpha_mul, sub_self]

/-- What the old residual has in common with images of vectors that are orthogonal to it. -/
theorem alpha_mul_inner (h : Turns a s s' alpha beta) (ha : a.IsPositiveDefinite names)
    (hs : s.Explored a b U) {w : Signal K} (hw : w.shape = a.input)
    (hmem : w.vec ∈ (s.explore U)ᗮ) :
    alpha * inner ℂ s.residual.vec (a.imageVec w) = -inner ℂ s'.residual.vec w.vec := by
  have hzero := (mem_orthogonal_sup_span_iff.mp hmem).2
  rw [← hs.inner_direction (hs.image_mem_of_mem w hw hmem),
    ha.inner_imageVec hw hs.direction_shape, h.residual_vec, inner_sub_left, hzero,
    inner_smul_left_eq_smul, Complex.real_smul, zero_sub, neg_neg]

/-- The image of the new direction is orthogonal to the old residual too. -/
theorem image_mem (h : Turns a s s' alpha beta) (ha : a.IsPositiveDefinite names)
    (hb : b.shape = a.input) (hs : s.Explored a b U) (hs' : s'.Tracks a b)
    (hpos : 0 < s.residualSqr) : a.imageVec s'.direction ∈ (s.explore U)ᗮ := by
  have hmem := h.residual_mem hs
  have hshape := hs'.residual_shape.trans hb
  rw [ha.imageVec_combination hshape hs.direction_shape h.direction_shape h.direction_vec]
  refine mem_orthogonal_sup_span_iff.mpr ⟨?_, ?_⟩
  · exact add_mem (hs.image_mem_of_mem _ hshape hmem) (Submodule.smul_of_tower_mem _ _ hs.image_mem)
  · have hold : alpha * inner ℂ s.residual.vec (a.imageVec s.direction) =
        (s.residualSqr : ℂ) := by
      rw [← hs.inner_direction hs.image_mem, h.alpha_mul]
    refine (mul_eq_zero.mp ?_).resolve_left (h.alpha_ne_zero hpos)
    rw [inner_add_right, mul_add, h.alpha_mul_inner ha hs hshape hmem, inner_smul_right_eq_smul,
      Complex.real_smul, mul_left_comm, hold, hs'.inner_residual_self, ← h.beta_mul,
      Complex.ofReal_mul, neg_add_cancel]

/-- The images of what is orthogonal to the new residual as well. -/
theorem image_mem_of_mem (h : Turns a s s' alpha beta) (ha : a.IsPositiveDefinite names)
    (hs : s.Explored a b U) (hpos : 0 < s.residualSqr) {w : Signal K} (hw : w.shape = a.input)
    (hmem : w.vec ∈ (s'.explore (s.explore U))ᗮ) : a.imageVec w ∈ (s.explore U)ᗮ := by
  obtain ⟨hold, hzero⟩ := mem_orthogonal_sup_span_iff.mp hmem
  refine mem_orthogonal_sup_span_iff.mpr ⟨hs.image_mem_of_mem w hw hold, ?_⟩
  refine (mul_eq_zero.mp ?_).resolve_left (h.alpha_ne_zero hpos)
  rw [h.alpha_mul_inner ha hs hw hold, hzero, neg_zero]

theorem turn_mem (h : Turns a s s' alpha beta) (hs : s.Explored a b U) :
    s'.direction.vec - s'.residual.vec ∈ s.explore U := by
  have hdirection : s.direction.vec ∈ s.explore U := by
    rw [← sub_add_cancel s.direction.vec s.residual.vec]
    exact add_mem (le_sup_left (a := U) hs.turn_mem)
      (le_sup_right (a := U) (Submodule.mem_span_singleton_self _))
  rw [h.direction_vec, add_sub_cancel_left]
  exact Submodule.smul_of_tower_mem _ _ hdirection

end Turns

/-- An iteration adds the residual to the space. -/
theorem Explored.step (ha : a.IsPositiveDefinite names) (hb : b.shape = a.input)
    (hs : s.Explored a b U) (hpos : 0 < s.residualSqr)
    (h : (s.step a : Eval K ℝ _).outcome = .ok s') : s'.Explored a b (s.explore U) := by
  obtain ⟨alpha, beta, hturns⟩ := hs.exists_turns ha hb hpos h
  have htracks := hs.toTracks.step ha.actsLinearly h
  exact {
    toTracks := htracks
    direction_shape := hturns.direction_shape
    le_leading := hs.explore_le_leading
    finrank_eq := (hs.finrank_explore hpos).trans (iteration_step ha.named h).symm
    residual_mem := hturns.residual_mem hs
    turn_mem := hturns.turn_mem hs
    image_mem := hturns.image_mem ha hb hs htracks hpos
    image_mem_of_mem := fun _ hw hmem => hturns.image_mem_of_mem ha hs hpos hw hmem }

/-- At the starting point nothing is explored. -/
theorem exists_start (ha : a.IsPositiveDefinite names) (hb : b.shape = a.input)
    (hx : x.shape = a.input) : ∃ s : CgState K ℝ,
      (start a b x : Eval K ℝ (CgState K ℝ)).outcome = .ok s ∧ s.Explored a b ⊥ := by
  obtain ⟨u, hu, hushape⟩ := ha.total hx
  obtain ⟨r, hr, hrshape⟩ := Signal.exists_sub (hb.trans hushape.symm)
  have hstart := (start_eq_ok_iff ha.named).mpr ⟨u, r, hu, hr, rfl⟩
  refine ⟨_, hstart, ?_⟩
  exact {
    toTracks := (tracks_start ha.named hstart).1
    direction_shape := hrshape.trans hb
    le_leading := bot_le
    finrank_eq := finrank_bot ℂ Vector
    residual_mem := by simp
    turn_mem := by simp
    image_mem := by simp
    image_mem_of_mem := by simp }

/-- Iterating has an outcome, within as many iterations as there are elements.  It ends at or below
the threshold if it has that many. -/
theorem exists_iterate_explored (ha : a.IsPositiveDefinite names) (hb : b.shape = a.input)
    (hs : s.Explored a b U) (hzero : s.iteration = 0) {threshold : ℝ} (hthreshold : 0 ≤ threshold)
    (n : ℕ) : ∃ s', (s.iterate a threshold n : Eval K ℝ _).outcome = .ok s' ∧ s'.Tracks a b ∧
      s'.iteration ≤ b.size ∧ (b.size ≤ n → s'.residualNorm ≤ threshold) := by
  have hpos : ∀ {s : CgState K ℝ}, threshold < s.residualNorm → 0 < s.residualSqr :=
    fun h => residualSqr_pos hthreshold (decide_eq_true h)
  obtain ⟨s', hs'⟩ := exists_iterate ha.named (P := fun s => ∃ U, s.Explored a b U)
    (fun {s} ⟨U, hs⟩ hlt => by
      obtain ⟨s', hs'⟩ := hs.exists_step ha hb (hpos hlt)
      exact ⟨s', hs', _, hs.step ha hb (hpos hlt) hs'⟩) n ⟨U, hs⟩
  obtain ⟨⟨U', hexplored⟩, -, hfull⟩ := iterate_preserves ha.named
    (P := fun s => ∃ U, s.Explored a b U)
    (fun {s s'} ⟨U, hs⟩ hlt h => ⟨⟨_, hs.step ha hb (hpos hlt) h⟩, iteration_step ha.named h⟩)
    ⟨U, hs⟩ hs'
  refine ⟨s', hs', hexplored.toTracks, hexplored.iteration_le, fun hn => not_lt.mp fun hlt => ?_⟩
  have hroom := hexplored.iteration_lt (hpos hlt)
  rw [hfull hlt, hzero] at hroom
  omega

end CgState

/-- A solve with a positive definite operator on signals of `n` elements is done after at most `n`
iterations, and with `n` iterations it converges; without tolerances its result is a solution.  No
solve is stopped by a curvature, whatever the shapes and the number of iterations are. -/
theorem conjugateGradient_terminates (ha : a.IsPositiveDefinite names) (b x : Signal K)
    (options : CgOptions ℝ) (hatol : 0 ≤ options.atol) {t : Trace K ℝ} (ht : t.Faithful names) :
    (b.shape = a.input → x.shape = a.input →
      ∃ x' info t', (conjugateGradient a b x options).run t = (.ok (x', info), t') ∧
        info.iterations ≤ b.size ∧ (b.size ≤ options.maxIter → info.converged = true ∧
          (options.tol = 0 → options.atol = 0 → ((a.apply x').run t').1 = .ok b))) ∧
    ∀ text k, ((conjugateGradient a b x options).run t).1 ≠
      .error (.numerical (.curvature text k)) := by
  have hsteady := steady_conjugateGradient ha.named b x options t ht
  have hends : b.shape = a.input → x.shape = a.input → ∃ s : CgState K ℝ, s.Tracks a b ∧
      (conjugateGradient a b x options : Eval K ℝ _).outcome = .ok (s.x, ⟨s.iteration,
        s.residualNorm, decide (s.residualNorm ≤ options.threshold b)⟩) ∧
      s.iteration ≤ b.size ∧
      (b.size ≤ options.maxIter → s.residualNorm ≤ options.threshold b) := by
    intro hb hx
    obtain ⟨s₀, hstart, hs₀⟩ := CgState.exists_start ha hb hx
    obtain ⟨s, hs, htracks, hle, hdone⟩ := CgState.exists_iterate_explored ha hb hs₀
      (CgState.tracks_start ha.named hstart).2.2 (options.threshold_nonneg hatol b) options.maxIter
    exact ⟨s, htracks, (conjugateGradient_eq_ok_iff ha.named ha.square hb).mpr
      ⟨s₀, s, hstart, hs, rfl, rfl⟩, hle, hdone⟩
  refine ⟨fun hb hx => ?_, fun text k herror => ?_⟩
  · obtain ⟨s, htracks, houtcome, hle, hdone⟩ := hends hb hx
    refine ⟨_, _, _, Prod.ext (hsteady.1.trans houtcome) rfl, hle, fun hn =>
      ⟨decide_eq_true (hdone hn), fun htol hzero => ?_⟩⟩
    have hthreshold : options.threshold b = 0 := by
      show max (options.tol * b.norm) options.atol = 0
      rw [htol, hzero, zero_mul, max_self]
    rw [(steady_apply ha.named s.x _ hsteady.2).1]
    exact htracks.outcome_eq (hthreshold ▸ hdone hn)
  · by_cases hb : b.shape = a.input
    · by_cases hx : x.shape = a.input
      · obtain ⟨s, -, houtcome, -⟩ := hends hb hx
        rw [hsteady.1, houtcome] at herror
        cases herror
      · rw [run_conjugateGradient_of_ne ha.square hb hx] at herror
        cases herror
    · unfold conjugateGradient at herror
      rw [if_neg (not_ne_iff.mpr ha.square), if_pos (ha.square ▸ hb)] at herror
      cases herror

/-! ### Shifted Gram operators -/

namespace LinearOperator

variable {c : LinearOperator K}

/-- A linear operator that is its own adjoint is positive definite, if the inner products of signals
and their images are positive. -/
theorem IsLinear.isPositiveDefinite (ha : a.IsLinear names) (hroomy : a.AllLeaves Leaf.Roomy)
    (hsquare : a.input = a.output) (hself : a.outcomeMap .adjoint = a.outcomeMap .forward)
    (hpositive : ∀ {x u : Signal K}, (a.apply x : Eval K ℝ _).outcome = .ok u → x.vec ≠ 0 →
      0 < (x.pairing u).re) : a.IsPositiveDefinite names where
  named := ha.named
  square := hsquare
  total := by
    intro x hx
    obtain ⟨u, hu⟩ := (totalOn ha.wellShaped ha.named ha.leaves hroomy).1 x hx
    have happly := outcome_apply_eq_ok_iff.mpr ⟨hx, hu⟩
    exact ⟨u, happly, (ha.shape_apply happly).2.trans hsquare.symm⟩
  hermitian := by
    intro x y u v hu hv
    obtain ⟨hx, hu⟩ := outcome_apply_eq_ok_iff.mp hu
    obtain ⟨hy, hv⟩ := outcome_apply_eq_ok_iff.mp hv
    exact ha.adjointMaps.pairing_eq hx (hy.trans hsquare) hu (hself ▸ hv)
  positive := hpositive

/-- The identity and a multiple of the Gram operator. -/
def shiftedGram (c : LinearOperator K) (w : ℝ) : LinearOperator K :=
  .sum (.leaf (.identity c.input)) (.multiple (Scalar.ofReal w) c.gramOperator)

theorem outcomeMap_shiftedGram (hc : c.Named names) (w : ℝ) :
    (c.shiftedGram w).outcomeMap .adjoint = (c.shiftedGram w).outcomeMap .forward := by
  have hidentity : (leaf (.identity c.input) : LinearOperator K).Named names := trivial
  have hgram : c.gramOperator.Named names := ⟨hc, hc⟩
  have hmultiple : (multiple (Scalar.ofReal w) c.gramOperator).Named names := hgram
  have hconj : Scalar.conj (Scalar.ofReal w : K) = Scalar.ofReal w := by
    apply ExactScalar.val_injective
    rw [ExactScalar.val_conj, ExactScalar.val_ofReal, Complex.conj_ofReal]
  rw [shiftedGram, outcomeMap_sum hidentity hmultiple, outcomeMap_sum hidentity hmultiple,
    (outcomeMap_multiple hgram _).1, (outcomeMap_multiple hgram _).2, hconj, gramOperator,
    (outcomeMap_composition (a := conjTranspose c) hc hc).1,
    (outcomeMap_composition (a := conjTranspose c) hc hc).2]
  rfl

/-- Gram operators have no negative energies, so the identity makes them positive definite. -/
theorem IsLinear.isPositiveDefinite_shiftedGram (hc : c.IsLinear names)
    (hroomy : c.AllLeaves Leaf.Roomy) {w : ℝ} (hw : 0 ≤ w) :
    (c.shiftedGram w).IsPositiveDefinite names := by
  have hidentity : (leaf (.identity c.input) : LinearOperator K).IsLinear names :=
    ⟨trivial, trivial, trivial⟩
  have hpolar := IsPolar.gram hc w
  have hlinear : (c.shiftedGram w).IsLinear names :=
    ⟨⟨hidentity.wellShaped, hpolar.linear.wellShaped, rfl, rfl⟩,
      ⟨hidentity.named, hpolar.linear.named⟩, ⟨hidentity.leaves, hpolar.linear.leaves⟩⟩
  refine hlinear.isPositiveDefinite ⟨trivial, hroomy, hroomy⟩ rfl
    (outcomeMap_shiftedGram hc.named w) fun {x u} hu hx => ?_
  obtain ⟨v, g, hv, hg, hsum⟩ := exists_of_apply_sum hidentity hpolar.linear rfl hu
  have hself : v.vec = x.vec := by
    cases (outcome_apply_eq_ok_iff.mp hv).2
    rfl
  have henergy : inner ℝ x.vec g.vec = w * ‖c.imageVec x‖ ^ 2 := by
    rw [hpolar.inner_apply hg rfl, polar, List.map_singleton, List.sum_singleton,
      real_inner_self_eq_norm_sq]
  rw [← Signal.inner_vec, hsum, hself, inner_add_right, henergy, real_inner_self_eq_norm_sq]
  have hnorm := norm_pos_iff.mpr hx
  positivity

end LinearOperator

/-- Two iterations at most for two unknowns, and no error at the end. -/
theorem conjugateGradient_terminates_shiftedGram : ∃ x' info t',
    (conjugateGradient ((leaf (.identity (.vector 2))).shiftedGram 3) (Signal.ofArray #[1, 2])
      (Signal.ofArray #[0, 5]) ⟨0, 0, 2⟩ : Eval ℝ ℝ _).run .empty = (.ok (x', info), t') ∧
    info.iterations ≤ 2 ∧ info.converged = true ∧
    ((((leaf (.identity (.vector 2))).shiftedGram 3).apply x').run t').1 =
      .ok (Signal.ofArray #[1, 2]) := by
  have hidentity : (leaf (.identity (.vector 2)) : LinearOperator ℝ).IsLinear anyNaming :=
    ⟨trivial, trivial, trivial⟩
  obtain ⟨x', info, t', hrun, hle, hdone⟩ := (conjugateGradient_terminates
    (hidentity.isPositiveDefinite_shiftedGram trivial (w := 3) (by norm_num))
    (Signal.ofArray #[1, 2]) (Signal.ofArray #[0, 5]) ⟨0, 0, 2⟩ le_rfl
    (Trace.faithful_empty _)).1 rfl rfl
  obtain ⟨hconverged, hsolves⟩ := hdone le_rfl
  exact ⟨x', info, t', hrun, hle, hconverged, hsolves rfl rfl⟩

end

end OperatorSplitting
