import Mathlib
import OperatorSplitting.Proofs.Linear.PolarForm
import OperatorSplitting.Proofs.Linear.ShapeSoundness

/-!
# Normal operators

The normal operator of weighted operators `C` is the sum of all `w Cᴴ C`.  It is positive
semidefinite whatever the ranks of the operators are: the inner product of a signal and its image is
the `energy` of the signal, the weighted sum of the squared norms of its images under the operators.
Where the energy vanishes, so do all these images (`vanishes_of_energy`).  The signals that are
orthogonal to all of these form the range of the normal operator: its own images are in it, and so
are the images of the adjoints `Cᴴ`.
-/

namespace OperatorSplitting

open Eval

noncomputable section

variable {K : Type} [ExactScalar K]

namespace LinearOperator

/-! ### Expressions without closures -/

omit [ExactScalar K] in
theorem AllLeaves.mono {p q : Leaf K → Prop} (hpq : ∀ l, p l → q l) {a : LinearOperator K}
    (h : a.AllLeaves p) : a.AllLeaves q := by
  induction a with
  | leaf l => exact hpq l h
  | sum a b iha ihb | difference a b iha ihb | composition a b iha ihb => exact ⟨iha h.1, ihb h.2⟩
  | multiple s a ih | transpose a ih | conjTranspose a ih | conjugate a ih | negation a ih =>
    exact ih h

/-- An expression whose shapes fit together, over primitive operators that are no closures and have
room for what evaluation lays out. -/
structure IsPlain (a : LinearOperator K) : Prop where
  wellShaped : a.WellShaped
  closureFree : a.ClosureFree
  roomy : a.AllLeaves Leaf.Roomy

/-- Some naming; an expression without closures does not care. -/
def anyNaming : Naming K := fun id => ⟨id, .flat [], .flat [], .ok, none⟩

theorem isLinear_of_closureFree {a : LinearOperator K} (hs : a.WellShaped) (hf : a.ClosureFree) :
    a.IsLinear anyNaming where
  wellShaped := hs
  named := hf.mono fun l hl => by
    cases l with
    | closure c => exact hl.elim
    | _ => trivial
  leaves := hf.mono fun l hl => by
    cases l with
    | closure c => exact hl.elim
    | _ => trivial

namespace IsPlain

variable {a c : LinearOperator K} {x y u v : Signal K}

theorem isLinear (h : a.IsPlain) : a.IsLinear anyNaming :=
  isLinear_of_closureFree h.wellShaped h.closureFree

/-- The operator has an image at every signal of its input shape. -/
theorem succeeds_apply (h : a.IsPlain) (hx : x.shape = a.input) :
    Succeeds (a.apply x : Eval K ℝ _) fun u =>
      (a.apply x : Eval K ℝ _).outcome = .ok u ∧ u.shape = a.output :=
  (LinearOperator.succeeds_apply h.wellShaped h.closureFree h.roomy hx).outcome

/-- The adjoint has an image at every signal of the output shape. -/
theorem succeeds_adjoint (h : a.IsPlain) (hy : y.shape = a.output) :
    Succeeds (a.adjoint y : Eval K ℝ _) fun v =>
      (a.adjoint y : Eval K ℝ _).outcome = .ok v ∧ v.shape = a.input :=
  (LinearOperator.succeeds_adjoint h.wellShaped h.closureFree h.roomy hy).outcome

omit [ExactScalar K] in
theorem identity (s : Shape) : (leaf (.identity s) : LinearOperator K).IsPlain :=
  ⟨trivial, trivial, trivial⟩

omit [ExactScalar K] in
theorem gramOperator (h : c.IsPlain) : c.gramOperator.IsPlain :=
  ⟨h.wellShaped.gramOperator, ⟨h.closureFree, h.closureFree⟩, ⟨h.roomy, h.roomy⟩⟩

end IsPlain

/-! ### Energy -/

/-- An inner product with an image of the adjoint. -/
theorem IsPlain.inner_adjoint {a : LinearOperator K} (h : a.IsPlain) {x y v : Signal K}
    (hx : x.shape = a.input) (hv : (a.adjoint y : Eval K ℝ _).outcome = .ok v) :
    inner ℝ x.vec v.vec = inner ℝ (a.imageVec x) y.vec := by
  obtain ⟨u, -, hu, -⟩ := h.succeeds_apply hx
  rw [imageVec_eq hu, real_inner_comm, ← h.isLinear.inner_adjoint hu hv, real_inner_comm]

section Energy

variable {operators rest : List (LinearOperator K × ℝ)} {x : Signal K}

/-- The weighted squared norms of the images of a signal, added over all operators. -/
def energy (operators : List (LinearOperator K × ℝ)) (x : Signal K) : ℝ :=
  (operators.map fun p => p.2 * ‖p.1.imageVec x‖ ^ 2).sum

/-- All operators send the signal to zero. -/
def Vanishes (operators : List (LinearOperator K × ℝ)) (x : Signal K) : Prop :=
  ∀ p ∈ operators, p.1.imageVec x = 0

theorem polar_self : polar operators x x = energy operators x := by
  unfold polar energy
  simp only [real_inner_self_eq_norm_sq]

/-- Signals that all operators send to zero are orthogonal in the form to all others. -/
theorem polar_eq_zero {n : Signal K} (h : Vanishes operators n) : polar operators n x = 0 := by
  refine List.sum_eq_zero fun r hr => ?_
  obtain ⟨p, hp, rfl⟩ := List.mem_map.mp hr
  rw [h p hp, inner_zero_left, mul_zero]

theorem energy_append : energy (operators ++ rest) x = energy operators x + energy rest x := by
  rw [energy, List.map_append, List.sum_append]
  rfl

theorem energy_nonneg (hpos : ∀ p ∈ operators, 0 < p.2) : 0 ≤ energy operators x := by
  refine List.sum_nonneg fun r hr => ?_
  obtain ⟨p, hp, rfl⟩ := List.mem_map.mp hr
  exact mul_nonneg (hpos p hp).le (sq_nonneg _)

/-- A signal without energy is sent to zero by all operators. -/
theorem vanishes_of_energy (hpos : ∀ p ∈ operators, 0 < p.2) (h : energy operators x = 0) :
    Vanishes operators x := by
  induction operators with
  | nil => exact List.forall_mem_nil _
  | cons p rest ih =>
    obtain ⟨hp, hrest⟩ := List.forall_mem_cons.mp hpos
    have hfirst : 0 ≤ p.2 * ‖p.1.imageVec x‖ ^ 2 := mul_nonneg hp.le (sq_nonneg _)
    have hsum : p.2 * ‖p.1.imageVec x‖ ^ 2 + energy rest x = 0 := h
    have hnonneg : 0 ≤ energy rest x := energy_nonneg hrest
    refine List.forall_mem_cons.mpr ⟨?_, ih hrest (by linarith)⟩
    have hzero : p.2 * ‖p.1.imageVec x‖ ^ 2 = 0 := by linarith
    exact norm_eq_zero.mp (pow_eq_zero_iff two_ne_zero |>.mp
      ((mul_eq_zero.mp hzero).resolve_left hp.ne'))

end Energy

/-! ### Expressions for normal operators -/

/-- The expression evaluates the normal operator of weighted operators: the inner product of a
signal and its image is the energy, and images are orthogonal to the signals that all operators send
to zero. -/
structure IsNormal (a : LinearOperator K) (operators : List (LinearOperator K × ℝ)) : Prop where
  plain : a.IsPlain
  square : a.output = a.input
  inner_apply : ∀ {x u : Signal K}, (a.apply x : Eval K ℝ _).outcome = .ok u →
    inner ℝ x.vec u.vec = energy operators x
  orthogonal_apply : ∀ {n x u : Signal K}, n.shape = a.input → Vanishes operators n →
    (a.apply x : Eval K ℝ _).outcome = .ok u → inner ℝ n.vec u.vec = 0

namespace IsNormal

variable {a b c : LinearOperator K} {operators rest : List (LinearOperator K × ℝ)}

/-- A weighted Gram operator. -/
theorem gram (hc : c.IsPlain) (w : ℝ) :
    (multiple (Scalar.ofReal w) c.gramOperator).IsNormal [(c, w)] :=
  have hpolar := IsPolar.gram hc.isLinear w
  { plain := ⟨hc.gramOperator.wellShaped, hc.gramOperator.closureFree, hc.gramOperator.roomy⟩
    square := rfl
    inner_apply := fun hu => (hpolar.inner_apply hu rfl).trans polar_self
    orthogonal_apply := fun hn hvanishes hu =>
      (hpolar.inner_apply hu (Eq.trans hn (outcome_apply_eq_ok_iff.mp hu).1.symm)).trans
        (polar_eq_zero hvanishes) }

theorem add_eq_ok (ha : a.IsNormal operators) (hb : b.IsNormal rest) (hinput : a.input = b.input) :
    a.add b = .ok (.sum a b) :=
  add_eq_ok_iff.mpr ⟨hinput, ha.square.trans (hinput.trans hb.square.symm), rfl⟩

/-- The normal operators of two lists of operators are added. -/
theorem sum (ha : a.IsNormal operators) (hb : b.IsNormal rest) (hinput : a.input = b.input) :
    (LinearOperator.sum a b).IsNormal (operators ++ rest) where
  plain := ⟨⟨ha.plain.wellShaped, hb.plain.wellShaped, hinput,
      ha.square.trans (hinput.trans hb.square.symm)⟩,
    ⟨ha.plain.closureFree, hb.plain.closureFree⟩, ⟨ha.plain.roomy, hb.plain.roomy⟩⟩
  square := ha.square
  inner_apply := by
    intro x w hw
    obtain ⟨u, v, hu, hv, hsum⟩ := exists_of_apply_sum ha.plain.isLinear hb.plain.isLinear hinput hw
    rw [hsum, inner_add_right, ha.inner_apply hu, hb.inner_apply hv, energy_append]
  orthogonal_apply := by
    intro n x w hn hvanishes hw
    obtain ⟨u, v, hu, hv, hsum⟩ := exists_of_apply_sum ha.plain.isLinear hb.plain.isLinear hinput hw
    obtain ⟨hfirst, hsecond⟩ := List.forall_mem_append.mp hvanishes
    rw [hsum, inner_add_right, ha.orthogonal_apply hn hfirst hu,
      hb.orthogonal_apply (Eq.trans hn hinput) hsecond hv, add_zero]

end IsNormal

/-! ### The range of a normal operator -/

/-- The signal is orthogonal to all signals of its shape that the operators send to zero. -/
structure InRange (operators : List (LinearOperator K × ℝ)) (r : Signal K) : Prop where
  inner_eq_zero : ∀ n : Signal K, n.shape = r.shape → Vanishes operators n →
    inner ℝ n.vec r.vec = 0

section Range

variable {a c : LinearOperator K} {operators : List (LinearOperator K × ℝ)}

/-- Images of the normal operator are in its range. -/
theorem IsNormal.inRange_apply (ha : a.IsNormal operators) {x u : Signal K}
    (hu : (a.apply x : Eval K ℝ _).outcome = .ok u) : InRange operators u where
  inner_eq_zero _ hn hvanishes :=
    have hshape := (ha.plain.isLinear.shape_apply hu).2.trans ha.square
    ha.orthogonal_apply (hn.trans hshape) hvanishes hu

/-- Images of the adjoint of any of the operators are in the range. -/
theorem inRange_adjoint (hc : c.IsPlain) {w : ℝ} (hmem : (c, w) ∈ operators) {y v : Signal K}
    (hv : (c.adjoint y : Eval K ℝ _).outcome = .ok v) : InRange operators v := by
  refine ⟨fun n hn hvanishes => ?_⟩
  have hshape := (hc.isLinear.shape_adjoint hv).2
  rw [hc.inner_adjoint (hn.trans hshape) hv, hvanishes _ hmem, inner_zero_left]

theorem InRange.scaled {x : Signal K} (hx : InRange operators x) (r : ℝ) :
    InRange operators (x.scaled (Scalar.ofReal r)) := by
  refine ⟨fun n hn hvanishes => ?_⟩
  rw [Signal.vec_scaled, real_inner_smul_right,
    hx.inner_eq_zero n (hn.trans (Signal.shape_scaled x _)) hvanishes, mul_zero]

/-- The range is closed under sums with multiples. -/
theorem InRange.of_vec_eq {x y z : Signal K} {r : ℝ} (hx : InRange operators x)
    (hy : InRange operators y) (hxy : x.shape = y.shape) (hz : z.shape = x.shape)
    (h : z.vec = x.vec + r • y.vec) : InRange operators z := by
  refine ⟨fun n hn hvanishes => ?_⟩
  have hzero := hx.inner_eq_zero n (hn.trans hz) hvanishes
  rw [h, inner_add_right, real_inner_smul_right, hzero,
    hy.inner_eq_zero n (hn.trans (hz.trans hxy)) hvanishes, mul_zero, add_zero]

theorem InRange.addScaled {r : ℝ} {x y z : Signal K} (hx : InRange operators x)
    (hy : InRange operators y) (h : x.addScaled (Scalar.ofReal r) y = .ok z) :
    InRange operators z := by
  obtain ⟨hxy, hz, -⟩ := Signal.zipMap_spec h
  exact hx.of_vec_eq hy hxy hz (Signal.vec_addScaled h)

theorem InRange.add {x y z : Signal K} (hx : InRange operators x) (hy : InRange operators y)
    (h : x.add y = .ok z) : InRange operators z := by
  obtain ⟨hxy, hz, -⟩ := Signal.zipMap_spec h
  exact hx.of_vec_eq hy hxy hz (by rw [Signal.vec_add h, one_smul])

theorem InRange.sub {x y z : Signal K} (hx : InRange operators x) (hy : InRange operators y)
    (h : x.sub y = .ok z) : InRange operators z := by
  obtain ⟨hxy, hz, -⟩ := Signal.zipMap_spec h
  exact hx.of_vec_eq hy hxy hz (by rw [Signal.vec_sub h, neg_one_smul, sub_eq_add_neg])

end Range

end LinearOperator

end

end OperatorSplitting
