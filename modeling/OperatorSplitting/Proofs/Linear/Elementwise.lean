import Mathlib
import OperatorSplitting.Proofs.Linear.ShapeSoundness

/-!
# Operators that multiply elementwise

An expression shows factors if all its leaves multiply elementwise and stretch nothing.  The factors
are found by a recursion of their own beside the two directions of evaluation, and the three have to
agree: applying the operator multiplies by the factors, and applying the adjoint multiplies by their
conjugates.  Both directions are carried through one induction, because transposes and adjoints
exchange them; what a direction does to a factor is a ring homomorphism of `ℂ`
(`LinearOperator.Direction.twist`), so that sums, multiples and compositions need no cases.

The ones of an identity are laid out in memory when they are asked for.  Nothing else can go wrong.
-/

namespace OperatorSplitting

open ExactScalar Eval

variable {K R W : Type}

/-! ### Combining factors -/

namespace LinearOperator

/-- Two signals are combined where both are there and have the same shape. -/
theorem combine?_eq_some_iff {place : String} {f : K → K → K} {p : Option (Signal K)}
    {q : Except Error (Option (Signal K))} {d : Signal K} :
    combine? place f p q = .ok (some d) ↔
      ∃ u v, p = some u ∧ q = .ok (some v) ∧ Signal.zipMap place f u v = .ok d := by
  have hoption (r : Except Error (Signal K)) : r.toOption = some d ↔ r = .ok d := by
    cases r <;> simp [Except.toOption]
  cases p with
  | none => simp [combine?]
  | some u =>
    rw [combine?, Except.map_eq_ok_iff]
    constructor
    · rintro ⟨v?, rfl, h⟩
      obtain ⟨v, rfl, h⟩ := Option.bind_eq_some_iff.mp h
      exact ⟨u, v, rfl, rfl, (hoption _).mp h⟩
    · rintro ⟨_, v, ⟨rfl⟩, rfl, h⟩
      exact ⟨some v, rfl, (hoption _).mpr h⟩

theorem exists_combine? {place : String} {f : K → K → K} {q : Except Error (Option (Signal K))}
    (p : Option (Signal K)) (h : ∃ r, q = .ok r) : ∃ r, combine? place f p q = .ok r := by
  obtain ⟨r, rfl⟩ := h
  cases p with
  | none => exact ⟨none, rfl⟩
  | some u => exact ⟨_, rfl⟩

section Shapes

variable [Scalar K R W]

/-- An expression that is recognized as an elementwise multiplication keeps the shape of its signals,
and its factors have that shape. -/
theorem shape_of_diagonalEntries? {a : LinearOperator K} (ha : a.WellShaped) {d : Signal K}
    (h : a.diagonalEntries? = .ok (some d)) : d.shape = a.input ∧ a.output = a.input := by
  induction a generalizing d with
  | leaf l =>
    cases l with
    | identity shape =>
      obtain ⟨u, hu, h⟩ := Except.map_eq_ok_iff.mp h
      cases h
      exact ⟨Signal.shape_of_filled hu, rfl⟩
    | diagonal op =>
      have h : op.diagonalEntries? = some d := Except.ok.inj h
      unfold Diagonal.diagonalEntries? at h
      split at h
      · next hshape =>
        cases h
        exact ⟨hshape.1.symm, hshape.2.trans hshape.1.symm⟩
      · cases h
    | _ => cases h
  | sum a b iha ihb | difference a b iha ihb =>
    obtain ⟨p, hp, h⟩ := Except.bind_eq_ok_iff.mp h
    obtain ⟨u, v, rfl, -, hd⟩ := combine?_eq_some_iff.mp h
    obtain ⟨hu, hout⟩ := iha ha.1 hp
    exact ⟨(Signal.shape_of_zipMap hd).trans hu, hout⟩
  | composition outer inner iho ihi =>
    obtain ⟨p, hp, h⟩ := Except.bind_eq_ok_iff.mp h
    obtain ⟨u, v, rfl, hq, hd⟩ := combine?_eq_some_iff.mp h
    obtain ⟨hu, hout⟩ := iho ha.1 hp
    obtain ⟨hv, -⟩ := ihi ha.2.1 hq
    have huv := Signal.shape_eq_of_zipMap hd
    exact ⟨(Signal.shape_of_zipMap hd).trans (huv.trans hv),
      hout.trans (hu.symm.trans (huv.trans hv))⟩
  | transpose a ih =>
    obtain ⟨hd, hout⟩ := ih ha h
    exact ⟨hd.trans hout.symm, hout.symm⟩
  | conjTranspose a ih =>
    obtain ⟨p, hp, h⟩ := Except.bind_eq_ok_iff.mp h
    obtain ⟨u, rfl, rfl⟩ := Option.map_eq_some_iff.mp (Except.ok.inj h)
    obtain ⟨hd, hout⟩ := ih ha hp
    exact ⟨(Signal.shape_map _ u).trans (hd.trans hout.symm), hout.symm⟩
  | multiple s a ih | conjugate a ih | negation a ih =>
    obtain ⟨p, hp, h⟩ := Except.bind_eq_ok_iff.mp h
    obtain ⟨u, rfl, rfl⟩ := Option.map_eq_some_iff.mp (Except.ok.inj h)
    obtain ⟨hd, hout⟩ := ih ha hp
    exact ⟨(Signal.shape_map _ u).trans hd, hout⟩

end Shapes

end LinearOperator

/-! ### Which expressions show factors -/

namespace Leaf

/-- The operator multiplies elementwise and stretches nothing. -/
def IsElementwise : Leaf K → Prop
  | .identity _ => True
  | .diagonal op => op.input = op.factor.shape ∧ op.output = op.factor.shape
  | _ => False

/-- Memory can hold the ones by which an identity multiplies. -/
def HoldsOnes : Leaf K → Prop
  | .identity shape => shape.Storable
  | _ => True

variable [Scalar K R W]

theorem exists_factors_iff (l : Leaf K) :
    (∃ d, l.diagonalEntries? = .ok (some d)) ↔ l.IsElementwise ∧ l.HoldsOnes := by
  cases l with
  | identity shape =>
    simp only [diagonalEntries?, Except.map_eq_ok_iff, IsElementwise, HoldsOnes, true_and]
    unfold Signal.filled
    by_cases h : shape.Storable <;> simp [h]
  | diagonal op =>
    simp only [diagonalEntries?, Diagonal.diagonalEntries?, IsElementwise, HoldsOnes, and_true]
    by_cases h : op.input = op.factor.shape ∧ op.output = op.factor.shape <;> simp [h]
  | _ => simp [diagonalEntries?, IsElementwise]

/-- Asking for the factors only fails for want of memory. -/
theorem exists_diagonalEntries? {l : Leaf K} (h : l.HoldsOnes) : ∃ r, l.diagonalEntries? = .ok r := by
  cases l with
  | identity shape =>
    exact ⟨_, Except.map_eq_ok_iff.mpr ⟨_, if_pos h, rfl⟩⟩
  | _ => exact ⟨_, rfl⟩

end Leaf

namespace LinearOperator

section Recognition

variable [Scalar K R W]

/-- Asking an expression for its factors only fails for want of memory. -/
theorem exists_diagonalEntries? {a : LinearOperator K} (h : a.AllLeaves Leaf.HoldsOnes) :
    ∃ r, a.diagonalEntries? = .ok r := by
  induction a with
  | leaf l => exact Leaf.exists_diagonalEntries? h
  | sum a b iha ihb | difference a b iha ihb | composition a b iha ihb =>
    obtain ⟨p, hp⟩ := iha h.1
    rw [diagonalEntries?, hp]
    exact exists_combine? p (ihb h.2)
  | transpose a ih => exact ih h
  | multiple s a ih | conjTranspose a ih | conjugate a ih | negation a ih =>
    obtain ⟨p, hp⟩ := ih h
    rw [diagonalEntries?, hp]
    exact ⟨_, rfl⟩

theorem allLeaves_of_diagonalEntries? {a : LinearOperator K} {d : Signal K}
    (h : a.diagonalEntries? = .ok (some d)) :
    a.AllLeaves Leaf.IsElementwise ∧ a.AllLeaves Leaf.HoldsOnes := by
  induction a generalizing d with
  | leaf l => exact l.exists_factors_iff.mp ⟨d, h⟩
  | sum a b iha ihb | difference a b iha ihb | composition a b iha ihb =>
    obtain ⟨p, hp, h⟩ := Except.bind_eq_ok_iff.mp h
    obtain ⟨u, v, rfl, hq, -⟩ := combine?_eq_some_iff.mp h
    exact ⟨⟨(iha hp).1, (ihb hq).1⟩, (iha hp).2, (ihb hq).2⟩
  | transpose a ih => exact ih h
  | multiple s a ih | conjTranspose a ih | conjugate a ih | negation a ih =>
    obtain ⟨p, hp, h⟩ := Except.bind_eq_ok_iff.mp h
    obtain ⟨u, rfl, -⟩ := Option.map_eq_some_iff.mp (Except.ok.inj h)
    exact ih hp

theorem exists_factors {a : LinearOperator K} (ha : a.WellShaped)
    (he : a.AllLeaves Leaf.IsElementwise) (hh : a.AllLeaves Leaf.HoldsOnes) :
    ∃ d, a.diagonalEntries? = .ok (some d) := by
  induction a with
  | leaf l => exact l.exists_factors_iff.mpr ⟨he, hh⟩
  | sum a b iha ihb | difference a b iha ihb =>
    obtain ⟨u, hu⟩ := iha ha.1 he.1 hh.1
    obtain ⟨v, hv⟩ := ihb ha.2.1 he.2 hh.2
    have hshape : u.shape = v.shape :=
      (shape_of_diagonalEntries? ha.1 hu).1.trans
        (ha.2.2.1.trans (shape_of_diagonalEntries? ha.2.1 hv).1.symm)
    obtain ⟨d, hd, -⟩ := Signal.exists_zipMap _ _ hshape
    rw [diagonalEntries?, hu, hv]
    exact ⟨d, combine?_eq_some_iff.mpr ⟨u, v, rfl, rfl, hd⟩⟩
  | composition outer inner iho ihi =>
    obtain ⟨u, hu⟩ := iho ha.1 he.1 hh.1
    obtain ⟨v, hv⟩ := ihi ha.2.1 he.2 hh.2
    obtain ⟨hvshape, hvout⟩ := shape_of_diagonalEntries? ha.2.1 hv
    have hshape : u.shape = v.shape :=
      (shape_of_diagonalEntries? ha.1 hu).1.trans (ha.2.2.trans (hvout.trans hvshape.symm))
    obtain ⟨d, hd, -⟩ := Signal.exists_zipMap _ _ hshape
    rw [diagonalEntries?, hu, hv]
    exact ⟨d, combine?_eq_some_iff.mpr ⟨u, v, rfl, rfl, hd⟩⟩
  | transpose a ih => exact ih ha he hh
  | multiple s a ih | conjTranspose a ih | conjugate a ih | negation a ih =>
    obtain ⟨u, hu⟩ := ih ha he hh
    rw [diagonalEntries?, hu]
    exact ⟨_, rfl⟩

end Recognition

end LinearOperator

/-! ### What a direction does to a factor -/

section Exact

variable [ExactScalar K]

namespace LinearOperator.Direction

/-- An operator multiplies by its factors and its adjoint by their conjugates. -/
noncomputable def twist : Direction → ℂ →+* ℂ
  | .forward => RingHom.id ℂ
  | .adjoint => starRingEnd ℂ

@[simp] theorem twist_conj (dir : Direction) (z : ℂ) :
    dir.flip.twist ((starRingEnd ℂ) z) = dir.twist z := by
  cases dir with
  | forward => exact Complex.conj_conj z
  | adjoint => rfl

@[simp] theorem conj_twist (dir : Direction) (z : ℂ) :
    (starRingEnd ℂ) (dir.flip.twist z) = dir.twist z := by
  cases dir with
  | forward => exact Complex.conj_conj z
  | adjoint => rfl

theorem flip_flip (dir : Direction) : dir.flip.flip = dir := by
  cases dir <;> rfl

end LinearOperator.Direction

namespace Signal

omit [ExactScalar K] in
theorem replicate_eq_map (x : Signal K) (a : K) : replicate x.shape a = x.map fun _ => a := by
  have htensor (t : Tensor K) : Tensor.replicate t.dims a = t.map fun _ => a := by
    simp [Tensor.replicate, Tensor.map, ← t.size_entries, Array.map_const']
  cases x with
  | flat t => exact congrArg Signal.flat (htensor t)
  | blocked ts => simp [replicate, map, shape, htensor]

/-- The elements of `u` are those of `d` times those of `x`. -/
def IsProduct (d x u : Signal K) : Prop :=
  u.shape = x.shape ∧ u.entries = Array.zipWith (· * ·) d.entries x.entries

/-- The coordinates of `u` are those of `x` times the images of those of `d`. -/
structure IsImageProduct (φ : ℂ →+* ℂ) (d x u : Signal K) : Prop where
  shape : u.shape = x.shape
  coord : ∀ k, u.coord k = φ (d.coord k) * x.coord k

namespace IsImageProduct

variable {φ : ℂ →+* ℂ} {d e f x u v w : Signal K}

theorem add (hu : IsImageProduct φ d x u) (hv : IsImageProduct φ e x v) (hf : d.add e = .ok f)
    (hw : u.add v = .ok w) : IsImageProduct φ f x w where
  shape := (shape_add hw).trans hu.shape
  coord k := by rw [coord_add hw, hu.coord, hv.coord, coord_add hf, map_add, add_mul]

theorem sub (hu : IsImageProduct φ d x u) (hv : IsImageProduct φ e x v) (hf : d.sub e = .ok f)
    (hw : u.sub v = .ok w) : IsImageProduct φ f x w where
  shape := (shape_of_zipMap hw).trans hu.shape
  coord k := by rw [coord_sub hw, hu.coord, hv.coord, coord_sub hf, map_sub, sub_mul]

/-- One product after the other multiplies by the product of the factors. -/
theorem comp (hu : IsImageProduct φ e x u) (hw : IsImageProduct φ d u w)
    (hf : ∀ k, f.coord k = d.coord k * e.coord k) : IsImageProduct φ f x w where
  shape := hw.shape.trans hu.shape
  coord k := by rw [hw.coord, hu.coord, hf, map_mul, mul_assoc]

theorem scaled {s t : K} (hu : IsImageProduct φ d x u) (ht : val t = φ (val s)) :
    IsImageProduct φ (d.scaled s) x (u.scaled t) where
  shape := (shape_scaled u t).trans hu.shape
  coord k := by rw [coord_scaled, coord_scaled, hu.coord, map_mul, ht, mul_right_comm]

theorem neg (hu : IsImageProduct φ d x u) : IsImageProduct φ d.neg x u.neg where
  shape := (shape_neg u).trans hu.shape
  coord k := by rw [coord_neg, coord_neg, hu.coord, map_neg, neg_mul]

/-- Conjugating argument and result conjugates what happens to the factors. -/
theorem conj {ψ : ℂ →+* ℂ} (hu : IsImageProduct φ d x.conj u)
    (hψ : ∀ k, (starRingEnd ℂ) (φ (d.coord k)) = ψ (e.coord k)) : IsImageProduct ψ e x u.conj where
  shape := (shape_conj u).trans (hu.shape.trans (shape_conj x))
  coord k := by rw [coord_conj, hu.coord, coord_conj, map_mul, Complex.conj_conj, hψ]

/-- Another factor with the same images does the same. -/
theorem congr_factor {ψ : ℂ →+* ℂ} (hu : IsImageProduct φ d x u)
    (hψ : ∀ k, φ (d.coord k) = ψ (e.coord k)) : IsImageProduct ψ e x u :=
  ⟨hu.shape, fun k => by rw [hu.coord, hψ]⟩

/-- Coordinates determine the elements. -/
theorem isProduct (hu : IsImageProduct φ d x u) (hd : e.shape = x.shape)
    (hφ : ∀ k, φ (d.coord k) = e.coord k) : IsProduct e x u := by
  refine ⟨hu.shape, ?_⟩
  obtain ⟨w, hw, hwshape, hwentries⟩ : ∃ w, zipMap "product" (· * ·) e x = .ok w ∧
      w.shape = e.shape ∧ w.entries = Array.zipWith (· * ·) e.entries x.entries := zipMap_eq_ok hd
  have hcoord (k : ℕ) : u.coord k = w.coord k := by
    rw [hu.coord, hφ]
    exact (coord_zipMap_all (g := fun a b => a * b) val_mul (mul_zero 0) hw k).symm
  rw [ext_coord (hu.shape.trans (hd.symm.trans hwshape.symm)) hcoord, hwentries]

end IsImageProduct

/-- Two results that are products are combined. -/
theorem succeeds_combined {φ : ℂ →+* ℂ} {d e f x : Signal K} {m m' : Eval K ℝ (Signal K)}
    {place : String} {g : K → K → K} (hm : Succeeds m (IsImageProduct φ d x))
    (hm' : Succeeds m' (IsImageProduct φ e x))
    (hg : ∀ u v w, IsImageProduct φ d x u → IsImageProduct φ e x v →
      zipMap place g u v = .ok w → IsImageProduct φ f x w) :
    Succeeds (do
      let u ← m
      let v ← m'
      zipMap place g u v : Eval K ℝ _) (IsImageProduct φ f x) := by
  refine hm.bind fun u hu => hm'.bind fun v hv => ?_
  exact (succeeds_zipMap place g (hu.shape.trans hv.shape.symm)).mono fun w => hg u v w hu hv

end Signal

/-! ### The factors and both directions agree -/

open LinearOperator (Direction)
open Signal (IsImageProduct)

namespace Leaf

/-- Multiplying by ones changes nothing. -/
theorem isImageProduct_ones (φ : ℂ →+* ℂ) (x : Signal K) :
    IsImageProduct φ (Signal.replicate x.shape 1) x x where
  shape := rfl
  coord k := by
    rcases Nat.lt_or_ge k x.size with hk | hk
    · rw [Signal.replicate_eq_map, Signal.coord_map_of_lt _ hk, val_one, map_one, one_mul]
    · rw [Signal.coord_of_size_le hk, mul_zero]

theorem succeeds_product {l : Leaf K} {d : Signal K} (h : l.diagonalEntries? = .ok (some d))
    (dir : Direction) {x : Signal K} (hx : x.shape = d.shape) (hroom : x.shape.Storable) :
    Succeeds ((LinearOperator.leaf l).eval dir x : Eval K ℝ _) (IsImageProduct dir.twist d x) := by
  cases l with
  | identity shape =>
    obtain ⟨u, hu, h⟩ := Except.map_eq_ok_iff.mp h
    cases h
    have hshape : x.shape = shape := hx.trans (Signal.shape_of_filled hu)
    have hones : Signal.filled shape (1 : K) = .ok (.replicate shape 1) := if_pos (hshape ▸ hroom)
    cases hones.symm.trans hu
    rw [← hshape]
    cases dir <;> exact .pure (isImageProduct_ones _ x)
  | diagonal op =>
    have h : op.diagonalEntries? = some d := Except.ok.inj h
    unfold Diagonal.diagonalEntries? at h
    split at h
    · next hop =>
      cases h
      cases dir with
      | forward =>
        obtain ⟨u, hu, hushape⟩ := Signal.exists_zipMap "diagonal" (fun a b : K => a * b) hx
        refine .liftExcept ⟨u, Diagonal.forward_of_zipMap hop.2 hroom hu, hushape, fun k => ?_⟩
        rw [Signal.coord_zipMap_all (g := fun a b => a * b) val_mul (mul_zero 0) hu k, mul_comm]
        rfl
      | adjoint =>
        obtain ⟨u, hu, hushape⟩ :=
          Signal.exists_zipMap "diagonal adjoint" (fun a b : K => a * Scalar.conj b) hx
        refine .liftExcept ⟨u, Diagonal.adjoint_of_zipMap hop.1 hroom hu, hushape, fun k => ?_⟩
        rw [Signal.coord_zipMap_all (g := fun a b => a * (starRingEnd ℂ) b) (by simp) (by simp) hu k,
          mul_comm]
        rfl
    · cases h
  | _ => cases h

end Leaf

namespace LinearOperator

/-- Evaluation in a direction multiplies by what the direction makes of the factors. -/
theorem succeeds_product {a : LinearOperator K} {d : Signal K}
    (h : a.diagonalEntries? = .ok (some d)) (dir : Direction) {x : Signal K}
    (hx : x.shape = d.shape) (hroom : x.shape.Storable) :
    Succeeds (a.eval dir x : Eval K ℝ _) (IsImageProduct dir.twist d x) := by
  induction a generalizing d dir x with
  | leaf l => exact l.succeeds_product h dir hx hroom
  | sum a b iha ihb =>
    obtain ⟨p, hp, h⟩ := Except.bind_eq_ok_iff.mp h
    obtain ⟨u, v, rfl, hq, hd⟩ := combine?_eq_some_iff.mp h
    obtain ⟨huv, hdu, -⟩ := Signal.zipMap_spec hd
    exact Signal.succeeds_combined (iha hp dir (hx.trans hdu) hroom)
      (ihb hq dir (hx.trans (hdu.trans huv)) hroom) fun _ _ _ hy hz hw => hy.add hz hd hw
  | difference a b iha ihb =>
    obtain ⟨p, hp, h⟩ := Except.bind_eq_ok_iff.mp h
    obtain ⟨u, v, rfl, hq, hd⟩ := combine?_eq_some_iff.mp h
    obtain ⟨huv, hdu, -⟩ := Signal.zipMap_spec hd
    exact Signal.succeeds_combined (iha hp dir (hx.trans hdu) hroom)
      (ihb hq dir (hx.trans (hdu.trans huv)) hroom) fun _ _ _ hy hz hw => hy.sub hz hd hw
  | composition outer inner iho ihi =>
    obtain ⟨p, hp, h⟩ := Except.bind_eq_ok_iff.mp h
    obtain ⟨u, v, rfl, hq, hd⟩ := combine?_eq_some_iff.mp h
    obtain ⟨huv, hdu, -⟩ := Signal.zipMap_spec hd
    have hcoord (k : ℕ) : d.coord k = u.coord k * v.coord k :=
      Signal.coord_zipMap_all (g := fun a b => a * b) val_mul (mul_zero 0) hd k
    cases dir with
    | forward =>
      refine (ihi hq .forward (hx.trans (hdu.trans huv)) hroom).bind fun y hy => ?_
      have hyx := hy.shape
      exact (iho hp .forward (hyx.trans (hx.trans hdu)) (hyx ▸ hroom)).mono fun w hw =>
        hy.comp hw hcoord
    | adjoint =>
      -- The adjoint runs from the outside inwards, which exchanges the factors.
      refine (iho hp .adjoint (hx.trans hdu) hroom).bind fun y hy => ?_
      have hyx := hy.shape
      exact (ihi hq .adjoint (hyx.trans (hx.trans (hdu.trans huv))) (hyx ▸ hroom)).mono fun w hw =>
        hy.comp hw fun k => (hcoord k).trans (mul_comm _ _)
  | multiple s a ih =>
    obtain ⟨p, hp, h⟩ := Except.bind_eq_ok_iff.mp h
    obtain ⟨u, rfl, rfl⟩ := Option.map_eq_some_iff.mp (Except.ok.inj h)
    have hxu : x.shape = u.shape := hx.trans (Signal.shape_scaled u s)
    cases dir with
    | forward => exact (ih hp .forward hxu hroom).bind fun y hy => .pure (hy.scaled rfl)
    | adjoint => exact (ih hp .adjoint hxu hroom).bind fun y hy => .pure (hy.scaled (val_conj s))
  | transpose a ih =>
    refine (ih h dir.flip ((Signal.shape_conj x).trans hx)
      ((Signal.shape_conj x).symm ▸ hroom)).bind fun y hy => ?_
    exact .pure (hy.conj fun k => dir.conj_twist _)
  | conjTranspose a ih =>
    obtain ⟨p, hp, h⟩ := Except.bind_eq_ok_iff.mp h
    obtain ⟨u, rfl, rfl⟩ := Option.map_eq_some_iff.mp (Except.ok.inj h)
    refine (ih hp dir.flip (hx.trans (Signal.shape_conj u)) hroom).mono fun y hy => ?_
    refine hy.congr_factor fun k => ?_
    rw [Signal.coord_conj, ← dir.flip.twist_conj, Direction.flip_flip]
  | conjugate a ih =>
    obtain ⟨p, hp, h⟩ := Except.bind_eq_ok_iff.mp h
    obtain ⟨u, rfl, rfl⟩ := Option.map_eq_some_iff.mp (Except.ok.inj h)
    refine (ih hp dir ((Signal.shape_conj x).trans (hx.trans (Signal.shape_conj u)))
      ((Signal.shape_conj x).symm ▸ hroom)).bind fun y hy => ?_
    refine .pure (hy.conj fun k => ?_)
    rw [Signal.coord_conj]
    cases dir <;> rfl
  | negation a ih =>
    obtain ⟨p, hp, h⟩ := Except.bind_eq_ok_iff.mp h
    obtain ⟨u, rfl, rfl⟩ := Option.map_eq_some_iff.mp (Except.ok.inj h)
    exact (ih hp dir (hx.trans (Signal.shape_neg u)) hroom).bind fun y hy => .pure hy.neg

theorem succeeds_apply_product {a : LinearOperator K} (ha : a.WellShaped) {d : Signal K}
    (h : a.diagonalEntries? = .ok (some d)) {x : Signal K} (hx : x.shape = d.shape)
    (hroom : x.shape.Storable) :
    Succeeds (a.apply x : Eval K ℝ _) (IsImageProduct (RingHom.id ℂ) d x) := by
  unfold apply evalChecked
  rw [if_pos (hx.trans (shape_of_diagonalEntries? ha h).1)]
  exact succeeds_product h .forward hx hroom

theorem succeeds_adjoint_product {a : LinearOperator K} (ha : a.WellShaped) {d : Signal K}
    (h : a.diagonalEntries? = .ok (some d)) {x : Signal K} (hx : x.shape = d.shape)
    (hroom : x.shape.Storable) :
    Succeeds (a.adjoint x : Eval K ℝ _) (IsImageProduct (starRingEnd ℂ) d x) := by
  obtain ⟨hd, hout⟩ := shape_of_diagonalEntries? ha h
  unfold adjoint
  rw [if_pos (hx.trans (hd.trans hout.symm))]
  exact succeeds_product h .adjoint hx hroom

/-- An expression shows factors exactly if each of its leaves is an identity, whose ones memory can
hold, or a diagonal operator that stretches nothing; asking for them only fails for want of memory.
The factors have the shape of arguments and results, the operator multiplies by them elementwise,
and its adjoint by their conjugates. -/
theorem diagonal_sound_complete {a : LinearOperator K} (ha : a.WellShaped) :
    ((∃ d, a.diagonalEntries? = .ok (some d)) ↔
      a.AllLeaves Leaf.IsElementwise ∧ a.AllLeaves Leaf.HoldsOnes) ∧
    (a.AllLeaves Leaf.HoldsOnes → ∃ r, a.diagonalEntries? = .ok r) ∧
    ∀ d, a.diagonalEntries? = .ok (some d) →
      d.shape = a.input ∧ d.shape = a.output ∧
      ∀ x : Signal K, x.shape = d.shape → x.shape.Storable →
        Succeeds (a.apply x : Eval K ℝ _) (d.IsProduct x) ∧
        Succeeds (a.adjoint x : Eval K ℝ _) (d.conj.IsProduct x) := by
  refine ⟨⟨?_, fun h => exists_factors ha h.1 h.2⟩, exists_diagonalEntries?, fun d hd => ?_⟩
  · rintro ⟨d, hd⟩
    exact allLeaves_of_diagonalEntries? hd
  · obtain ⟨hin, hout⟩ := shape_of_diagonalEntries? ha hd
    refine ⟨hin, hin.trans hout.symm, fun x hx hroom => ⟨?_, ?_⟩⟩
    · exact (succeeds_apply_product ha hd hx hroom).mono fun u hu =>
        hu.isProduct hx.symm fun k => rfl
    · exact (succeeds_adjoint_product ha hd hx hroom).mono fun v hv =>
        hv.isProduct ((Signal.shape_conj d).trans hx.symm) fun k => (Signal.coord_conj d k).symm

/-- A diagonal operator on two blocks, with a factor zero. -/
noncomputable def blockedDiagonal : Diagonal (ComplexOf ℝ) where
  factor := .blocked [⟨[1], #[⟨0, 1⟩], rfl⟩, ⟨[2], #[0, ⟨1, -1⟩], rfl⟩]
  input := .blocked [[1], [2]]
  output := .blocked [[1], [2]]
  broadcast_eq := rfl

/-- The adjoint of the diagonal operator minus the identity. -/
noncomputable def shiftedDiagonal : LinearOperator (ComplexOf ℝ) :=
  .difference (.conjTranspose (.leaf (.diagonal blockedDiagonal)))
    (.leaf (.identity (.blocked [[1], [2]])))

theorem diagonal_sound_complete_shiftedDiagonal :
    shiftedDiagonal.WellShaped ∧ ∃ d, shiftedDiagonal.diagonalEntries? = .ok (some d) ∧
      d.shape = .blocked [[1], [2]] ∧
      Succeeds (shiftedDiagonal.apply blockedDiagonal.factor : Eval (ComplexOf ℝ) ℝ _)
        (d.IsProduct blockedDiagonal.factor) ∧
      Succeeds (shiftedDiagonal.adjoint blockedDiagonal.factor : Eval (ComplexOf ℝ) ℝ _)
        (d.conj.IsProduct blockedDiagonal.factor) := by
  have hshaped : shiftedDiagonal.WellShaped := ⟨trivial, trivial, rfl, rfl⟩
  have hroom : (Shape.blocked [[1], [2]]).Storable := by decide
  obtain ⟨hiff, -, hsound⟩ := diagonal_sound_complete hshaped
  obtain ⟨d, hd⟩ := hiff.mpr ⟨⟨⟨rfl, rfl⟩, trivial⟩, trivial, hroom⟩
  obtain ⟨hin, -, hproduct⟩ := hsound d hd
  exact ⟨hshaped, d, hd, hin, hproduct blockedDiagonal.factor hin.symm hroom⟩

/-- The ones of an identity on empty arrays may be too long to be addressed. -/
theorem exists_identity_without_factors :
    ∃ a : LinearOperator ℝ, a = .leaf (.identity (.flat [2 ^ 63 - 1, 2, 0])) ∧ a.WellShaped ∧
      a.diagonalEntries? = .error .misuse ∧
      ¬((∃ d, a.diagonalEntries? = .ok (some d)) ↔ a.AllLeaves Leaf.IsElementwise) := by
  have hroom : ¬(Shape.flat [2 ^ 63 - 1, 2, 0]).Storable := by decide
  have herror : (leaf (.identity (.flat [2 ^ 63 - 1, 2, 0])) : LinearOperator ℝ).diagonalEntries? =
      .error .misuse := by
    rw [diagonalEntries?, Leaf.diagonalEntries?, Signal.filled, if_neg hroom]
    rfl
  refine ⟨_, rfl, trivial, herror, fun hiff => ?_⟩
  obtain ⟨d, hd⟩ := hiff.mpr trivial
  cases herror.symm.trans hd

end LinearOperator

end Exact

end OperatorSplitting
