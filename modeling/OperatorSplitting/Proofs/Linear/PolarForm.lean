import Mathlib
import OperatorSplitting.Proofs.Linear.InnerProduct

/-!
# Polar forms

The normal operator of weighted operators `C` is the sum of all `w Cᴴ C`.  An expression for it acts
on signals through their images: the inner product of `v` and of the result at `x` is the sum of all
`w ⟨C v, C x⟩`, the `polar` form of the operators (`IsPolar`).

Closures may be among the operators, and nothing says that they have results everywhere.  But a result
of the normal operator at `x` is made of images of `x`, so every operator has one, and its adjoint has
a result there (`Reaches`); both then exist at all signals of that shape.  With its adjoint at hand an
operator sends combinations of signals to combinations of their images (`vec_combination`).
-/

namespace OperatorSplitting

open Eval

noncomputable section

variable {K : Type} [ExactScalar K] {names : Naming K}

namespace LinearOperator

namespace IsLinear

variable {a : LinearOperator K} {x x' d u u' w y y' v : Signal K}

/-- The adjoint has a result at every signal of a shape, or at none. -/
theorem adjoint_uniform (h : a.IsLinear names) (hv : (a.adjoint y : Eval K ℝ _).outcome = .ok v)
    (hshape : y'.shape = y.shape) : ∃ v', (a.adjoint y' : Eval K ℝ _).outcome = .ok v' := by
  obtain ⟨hy, hv⟩ := outcome_adjoint_eq_ok_iff.mp hv
  obtain ⟨v', hv'⟩ := h.adjointMaps.backward.uniform hy hv (hshape.trans hy)
  exact ⟨v', outcome_adjoint_eq_ok_iff.mpr ⟨hshape.trans hy, hv'⟩⟩

/-- With room for what evaluation lays out, the operator has an image and its adjoint a result there. -/
theorem exists_images (h : a.IsLinear names) (hroomy : a.AllLeaves Leaf.Roomy)
    (hx : x.shape = a.input) : ∃ u v, (a.apply x : Eval K ℝ _).outcome = .ok u ∧
      (a.adjoint u : Eval K ℝ _).outcome = .ok v := by
  obtain ⟨hforward, hadjoint⟩ := totalOn h.wellShaped h.named h.leaves hroomy
  obtain ⟨u, hu⟩ := hforward x hx
  have hu := outcome_apply_eq_ok_iff.mpr ⟨hx, hu⟩
  have hushape := (h.shape_apply hu).2
  obtain ⟨v, hv⟩ := hadjoint u hushape
  exact ⟨u, v, hu, outcome_adjoint_eq_ok_iff.mpr ⟨hushape, hv⟩⟩

/-- An operator whose adjoint has results sends a combination of two signals to that of their
images. -/
theorem vec_combination (h : a.IsLinear names) {r : ℝ}
    (hu : (a.apply x : Eval K ℝ _).outcome = .ok u)
    (hw : (a.apply d : Eval K ℝ _).outcome = .ok w)
    (hu' : (a.apply x' : Eval K ℝ _).outcome = .ok u')
    (hv : (a.adjoint y : Eval K ℝ _).outcome = .ok v) (hx' : x'.vec = x.vec + r • d.vec) :
    u'.vec = u.vec + r • w.vec := by
  have hushape := (h.shape_apply hu).2
  have hwshape := (h.shape_apply hw).2
  have hu'shape := (h.shape_apply hu').2
  -- The deviation of the image is a signal, and the adjoint moves it onto zero.
  obtain ⟨e₁, he₁, he₁shape⟩ := Signal.exists_sub (hu'shape.trans hushape.symm)
  obtain ⟨e, he, heshape⟩ := Signal.exists_addScaled (Scalar.ofReal (-r))
    ((he₁shape.trans hu'shape).trans hwshape.symm)
  have hevec : e.vec = u'.vec - u.vec + -r • w.vec := by
    rw [Signal.vec_addScaled he, Signal.vec_sub he₁]
  obtain ⟨v', hv'⟩ := h.adjoint_uniform hv
    ((heshape.trans (he₁shape.trans hu'shape)).trans (h.shape_adjoint hv).1.symm)
  have hself : inner ℝ e.vec e.vec = 0 := by
    calc inner ℝ e.vec e.vec
        = inner ℝ e.vec (u'.vec - u.vec + -r • w.vec) := congrArg (inner ℝ e.vec) hevec
      _ = inner ℝ e.vec u'.vec - inner ℝ e.vec u.vec + -r * inner ℝ e.vec w.vec := by
          rw [inner_add_right, inner_sub_right, real_inner_smul_right]
      _ = inner ℝ v'.vec x'.vec - inner ℝ v'.vec x.vec + -r * inner ℝ v'.vec d.vec := by
          rw [h.inner_adjoint hu' hv', h.inner_adjoint hu hv', h.inner_adjoint hw hv']
      _ = 0 := by
          rw [hx', inner_add_right, real_inner_smul_right]
          ring
  have hzero := inner_self_eq_zero.mp hself
  rw [hevec, neg_smul, ← sub_eq_add_neg, sub_sub, sub_eq_zero] at hzero
  exact hzero

end IsLinear

/-! ### The form -/

section Form

variable {operators rest : List (LinearOperator K × ℝ)} {x x' d v : Signal K}

/-- The weighted inner products of the images of two signals, added over all operators. -/
def polar (operators : List (LinearOperator K × ℝ)) (v x : Signal K) : ℝ :=
  (operators.map fun p => p.2 * inner ℝ (p.1.imageVec v) (p.1.imageVec x)).sum

theorem polar_append : polar (operators ++ rest) v x = polar operators v x + polar rest v x := by
  rw [polar, List.map_append, List.sum_append]
  rfl

/-- Every operator has an image at the signal, and its adjoint has a result there. -/
def Reaches (operators : List (LinearOperator K × ℝ)) (x : Signal K) : Prop :=
  ∀ p ∈ operators, ∃ u v, (p.1.apply x : Eval K ℝ _).outcome = .ok u ∧
    (p.1.adjoint u : Eval K ℝ _).outcome = .ok v

theorem Reaches.of_shape (hoperators : ∀ p ∈ operators, p.1.IsLinear names)
    (h : Reaches operators x) (hshape : x'.shape = x.shape) : Reaches operators x' := by
  intro p hp
  obtain ⟨u, v, hu, hv⟩ := h p hp
  obtain ⟨u', hu'⟩ := (hoperators p hp).apply_uniform hu hshape
  have hsame := ((hoperators p hp).shape_apply hu').2.trans ((hoperators p hp).shape_apply hu).2.symm
  obtain ⟨v', hv'⟩ := (hoperators p hp).adjoint_uniform hv hsame
  exact ⟨u', v', hu', hv'⟩

/-- The operators send combinations of signals to combinations of their images. -/
theorem Reaches.imageVec_combination (hoperators : ∀ p ∈ operators, p.1.IsLinear names)
    (h : Reaches operators x) (hd : d.shape = x.shape) (hx' : x'.shape = x.shape) {r : ℝ}
    (heq : x'.vec = x.vec + r • d.vec) {p : LinearOperator K × ℝ} (hp : p ∈ operators) :
    p.1.imageVec x' = p.1.imageVec x + r • p.1.imageVec d := by
  obtain ⟨u, v, hu, hv⟩ := h p hp
  obtain ⟨w, -, hw, -⟩ := h.of_shape hoperators hd p hp
  obtain ⟨u', -, hu', -⟩ := h.of_shape hoperators hx' p hp
  rw [imageVec_eq hu', imageVec_eq hu, imageVec_eq hw]
  exact (hoperators p hp).vec_combination hu hw hu' hv heq

end Form

/-! ### Expressions that evaluate the form -/

/-- The expression evaluates the polar form of weighted operators wherever it has a result. -/
structure IsPolar (names : Naming K) (a : LinearOperator K)
    (operators : List (LinearOperator K × ℝ)) : Prop where
  linear : a.IsLinear names
  square : a.output = a.input
  reaches : ∀ {x u : Signal K}, (a.apply x : Eval K ℝ _).outcome = .ok u → Reaches operators x
  inner_apply : ∀ {x u v : Signal K}, (a.apply x : Eval K ℝ _).outcome = .ok u →
    v.shape = x.shape → inner ℝ v.vec u.vec = polar operators v x

variable {a b c : LinearOperator K} {operators rest : List (LinearOperator K × ℝ)} {x u : Signal K}

theorem IsLinear.gramOperator (h : c.IsLinear names) : c.gramOperator.IsLinear names :=
  ⟨h.wellShaped.gramOperator, ⟨h.named, h.named⟩, ⟨h.leaves, h.leaves⟩⟩

/-- The result of a weighted Gram operator is made of an image and the adjoint's result there. -/
theorem exists_of_apply_gram (hc : c.IsLinear names) (w : ℝ)
    (hu : ((multiple (Scalar.ofReal w) c.gramOperator).apply x : Eval K ℝ _).outcome = .ok u) :
    ∃ image g, (c.apply x : Eval K ℝ _).outcome = .ok image ∧
      (c.adjoint image : Eval K ℝ _).outcome = .ok g ∧ u = g.scaled (Scalar.ofReal w) := by
  have hnamed := hc.named
  obtain ⟨hx, hu⟩ := outcome_apply_eq_ok_iff.mp hu
  rw [(outcomeMap_multiple hc.gramOperator.named _).1, Except.map_eq_ok_iff] at hu
  obtain ⟨g, hg, rfl⟩ := hu
  rw [LinearOperator.gramOperator, (outcomeMap_composition (a := conjTranspose c) hnamed hnamed).1,
    Except.bind_eq_ok_iff, outcomeMap_conjTranspose] at hg
  obtain ⟨image, himage, hg⟩ := hg
  have happly : (c.apply x : Eval K ℝ _).outcome = .ok image :=
    outcome_apply_eq_ok_iff.mpr ⟨hx, himage⟩
  exact ⟨image, g, happly, outcome_adjoint_eq_ok_iff.mpr ⟨(hc.shape_apply happly).2, hg⟩, rfl⟩

/-- The result of a sum is the sum of the results. -/
theorem exists_of_apply_sum (ha : a.IsLinear names) (hb : b.IsLinear names)
    (hinput : a.input = b.input) (hu : ((sum a b).apply x : Eval K ℝ _).outcome = .ok u) :
    ∃ u₁ u₂, (a.apply x : Eval K ℝ _).outcome = .ok u₁ ∧
      (b.apply x : Eval K ℝ _).outcome = .ok u₂ ∧ u.vec = u₁.vec + u₂.vec := by
  obtain ⟨hx, hu⟩ := outcome_apply_eq_ok_iff.mp hu
  rw [outcomeMap_sum ha.named hb.named, Except.bind_eq_ok_iff] at hu
  obtain ⟨u₁, hu₁, hu⟩ := hu
  obtain ⟨u₂, hu₂, hu⟩ := Except.bind_eq_ok_iff.mp hu
  exact ⟨u₁, u₂, outcome_apply_eq_ok_iff.mpr ⟨hx, hu₁⟩,
    outcome_apply_eq_ok_iff.mpr ⟨Eq.trans hx hinput, hu₂⟩, Signal.vec_add hu⟩

namespace IsPolar

/-- A weighted Gram operator. -/
theorem gram (hc : c.IsLinear names) (w : ℝ) :
    (multiple (Scalar.ofReal w) c.gramOperator).IsPolar names [(c, w)] where
  linear := ⟨hc.gramOperator.wellShaped, hc.gramOperator.named, hc.gramOperator.leaves⟩
  square := rfl
  reaches := by
    intro x u hu
    obtain ⟨image, g, himage, hg, -⟩ := exists_of_apply_gram hc w hu
    exact List.forall_mem_singleton.mpr ⟨image, g, himage, hg⟩
  inner_apply := by
    intro x u v hu hv
    obtain ⟨image, g, himage, hg, rfl⟩ := exists_of_apply_gram hc w hu
    obtain ⟨vimage, hvimage⟩ := hc.apply_uniform himage hv
    have hpolar : polar [(c, w)] v x = w * inner ℝ (c.imageVec v) (c.imageVec x) :=
      List.sum_singleton
    rw [hpolar, imageVec_eq himage, imageVec_eq hvimage, Signal.vec_scaled, real_inner_smul_right,
      real_inner_comm, ← hc.inner_adjoint hvimage hg, real_inner_comm]

/-- Forms of two lists of operators are added. -/
theorem sum (ha : a.IsPolar names operators) (hb : b.IsPolar names rest)
    (hinput : a.input = b.input) :
    (LinearOperator.sum a b).IsPolar names (operators ++ rest) where
  linear := ⟨⟨ha.linear.wellShaped, hb.linear.wellShaped, hinput,
      ha.square.trans (hinput.trans hb.square.symm)⟩,
    ⟨ha.linear.named, hb.linear.named⟩, ⟨ha.linear.leaves, hb.linear.leaves⟩⟩
  square := ha.square
  reaches := by
    intro x u hu
    obtain ⟨u₁, u₂, hu₁, hu₂, -⟩ := exists_of_apply_sum ha.linear hb.linear hinput hu
    exact List.forall_mem_append.mpr ⟨ha.reaches hu₁, hb.reaches hu₂⟩
  inner_apply := by
    intro x u v hu hv
    obtain ⟨u₁, u₂, hu₁, hu₂, hsum⟩ := exists_of_apply_sum ha.linear hb.linear hinput hu
    rw [hsum, inner_add_right, ha.inner_apply hu₁ hv, hb.inner_apply hu₂ hv, polar_append]

end IsPolar

end LinearOperator

end

end OperatorSplitting
