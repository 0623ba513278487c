import Mathlib
import OperatorSplitting.Linear.Diagonal
import OperatorSplitting.Proofs.Linear.AdjointMaps
import OperatorSplitting.Proofs.Tensor.Summing

/-!
# Diagonal operators and summing back

A diagonal operator reads the argument and the factor through one stretched index.  The adjoint
multiplies by the conjugate factor and sums over all stretched indices that read the same entry, so
that both sides of the pairing are one sum over the indices of the stretched box.  Blocked operators
do this block by block.
-/

namespace OperatorSplitting

open ExactScalar

namespace Diagonal

variable {K R W : Type}

section Shapes

variable [Scalar K R W]

theorem stretchedProduct_eq_ok_iff {f : K → K → K} {x d r : Tensor K} {dims : List ℕ} :
    stretchedProduct f x d dims = .ok r ↔
      Addressable dims ∧ Tensor.CanStretch x.dims dims ∧ Tensor.CanStretch d.dims dims ∧
        r = .ofFn dims fun idx =>
          f (x.entry (Tensor.project x.dims idx)) (d.entry (Tensor.project d.dims idx)) := by
  have hproduct (s : Tensor K) : (do
      let x ← x.stretch? dims
      let d ← d.stretch? dims
      Tensor.zip? f x d) = some s ↔ Tensor.CanStretch x.dims dims ∧ Tensor.CanStretch d.dims dims ∧
        s = .ofFn dims fun idx =>
          f (x.entry (Tensor.project x.dims idx)) (d.entry (Tensor.project d.dims idx)) := by
    simp only [Option.bind_eq_bind, Option.bind_eq_some_iff, Tensor.stretch?_eq_some_iff,
      Tensor.zip?_eq_some_iff]
    have hentry : (Tensor.ofFn (x.stretched dims).dims fun idx =>
        f ((x.stretched dims).entry idx) ((d.stretched dims).entry idx)) = .ofFn dims fun idx =>
          f (x.entry (Tensor.project x.dims idx)) (d.entry (Tensor.project d.dims idx)) := by
      refine Tensor.ofFn_congr fun idx (hidx : InBox dims idx) => ?_
      rw [Tensor.entry_stretched hidx, Tensor.entry_stretched hidx]
    constructor
    · rintro ⟨_, ⟨hx, rfl⟩, _, ⟨hd, rfl⟩, -, rfl⟩
      exact ⟨hx, hd, hentry⟩
    · rintro ⟨hx, hd, rfl⟩
      exact ⟨_, ⟨hx, rfl⟩, _, ⟨hd, rfl⟩, rfl, hentry.symm⟩
  unfold stretchedProduct Tensor.canStretch
  by_cases hguard : (stretches x.dims dims && decide (Addressable dims) &&
      (stretches d.dims dims && decide (Addressable dims))) = true
  · rw [if_pos hguard, orMisuse_eq_ok_iff, hproduct]
    have hroom : Addressable dims := by
      simp only [Bool.and_eq_true, decide_eq_true_eq] at hguard
      exact hguard.1.2
    exact ⟨fun h => ⟨hroom, h⟩, fun h => h.2⟩
  · rw [if_neg hguard]
    constructor
    · intro h
      cases h
    · rintro ⟨hroom, hx, hd, -⟩
      refine absurd ?_ hguard
      simp [hroom, hx.stretches, hd.stretches]

theorem adjointTensor_eq_ok_iff {y d v : Tensor K} {target : List ℕ} :
    adjointTensor y d target = .ok v ↔
      ∃ full, stretchedProduct (fun a b => a * Scalar.conj b) y d y.dims = .ok full ∧
        full.sumTo? target = some v := by
  simp only [adjointTensor, Except.bind_eq_ok_iff, orMisuse_eq_ok_iff]

/-! ### One array -/

theorem dims_stretchedProduct {f : K → K → K} {x d r : Tensor K} {dims : List ℕ}
    (h : stretchedProduct f x d dims = .ok r) : r.dims = dims := by
  obtain ⟨-, -, -, rfl⟩ := stretchedProduct_eq_ok_iff.mp h
  rfl

theorem stretchedProduct_uniform {f : K → K → K} {x x' d r : Tensor K} {dims : List ℕ}
    (hdims : x.dims = x'.dims) (h : stretchedProduct f x d dims = .ok r) :
    ∃ r', stretchedProduct f x' d dims = .ok r' := by
  obtain ⟨hroom, hx, hd, -⟩ := stretchedProduct_eq_ok_iff.mp h
  exact ⟨_, stretchedProduct_eq_ok_iff.mpr ⟨hroom, hdims ▸ hx, hd, rfl⟩⟩

theorem dims_adjointTensor {y d v : Tensor K} {target : List ℕ}
    (hs : stretches target y.dims = true) (h : adjointTensor y d target = .ok v) :
    v.dims = target := by
  obtain ⟨full, hfull, hsum⟩ := adjointTensor_eq_ok_iff.mp h
  rw [← dims_stretchedProduct hfull] at hs
  -- Any additive weight gives the extents of the sum.
  exact (Tensor.sum_box_sumTo? (φ := fun _ => 0) rfl (fun _ _ => (add_zero 0).symm) hs hsum).1

theorem adjointTensor_uniform {y y' d v : Tensor K} {target : List ℕ} (hdims : y.dims = y'.dims)
    (h : adjointTensor y d target = .ok v) : ∃ v', adjointTensor y' d target = .ok v' := by
  obtain ⟨full, hfull, hsum⟩ := adjointTensor_eq_ok_iff.mp h
  obtain ⟨full', hfull'⟩ := stretchedProduct_uniform hdims hfull
  rw [hdims] at hfull'
  have hff' : full.dims = full'.dims := by
    rw [dims_stretchedProduct hfull, dims_stretchedProduct hfull', hdims]
  obtain ⟨v', hv'⟩ := Tensor.sumTo?_uniform hff' hsum
  exact ⟨v', adjointTensor_eq_ok_iff.mpr ⟨full', hfull', hv'⟩⟩

theorem stretchedProduct_of_storable {x d : Tensor K} {dims : List ℕ} (f : K → K → K)
    (h : Storable dims) (hx : stretches x.dims dims = true) (hd : stretches d.dims dims = true) :
    ∃ r, stretchedProduct f x d dims = .ok r :=
  ⟨_, stretchedProduct_eq_ok_iff.mpr ⟨h.1, .inr ⟨hx, h⟩, .inr ⟨hd, h⟩, rfl⟩⟩

theorem adjointTensor_of_roomy {y d : Tensor K} {target : List ℕ} (h : Roomy y.dims)
    (hd : stretches d.dims y.dims = true) (hs : stretches target y.dims = true) :
    ∃ v, adjointTensor y d target = .ok v := by
  obtain ⟨full, hfull⟩ := stretchedProduct_of_storable (fun a b => a * Scalar.conj b) h.storable
    (stretches_refl y.dims) hd
  have hfdims := dims_stretchedProduct hfull
  obtain ⟨v, hv⟩ := Tensor.sumTo?_of_roomy (hfdims ▸ h) (hfdims ▸ hs)
  exact ⟨v, adjointTensor_eq_ok_iff.mpr ⟨full, hfull, hv⟩⟩

/-! ### Blocks -/

/-- Blocks of extents `ins` and the factors that belong to them have the common extents `outs`. -/
inductive Merged : List (List ℕ) → List (Tensor K) → List (List ℕ) → Prop where
  | nil : Merged [] [] []
  | cons {a o : List ℕ} {d : Tensor K} {as os : List (List ℕ)} {ds : List (Tensor K)} :
    broadcastDims a d.dims = some o → Merged as ds os → Merged (a :: as) (d :: ds) (o :: os)

omit [Scalar K R W] in
theorem merged_of_mergeBlocks {ins outs : List (List ℕ)} {ds : List (Tensor K)}
    (h : Shape.mergeBlocks ins (ds.map (·.dims)) = some outs) : Merged ins ds outs := by
  induction ds generalizing ins outs with
  | nil =>
    cases ins with
    | nil =>
      cases h
      exact .nil
    | cons a as => cases h
  | cons d ds ih =>
    cases ins with
    | nil => cases h
    | cons a as =>
      simp only [List.map_cons, Shape.mergeBlocks, Option.bind_eq_bind, Option.bind_eq_some_iff] at h
      obtain ⟨o, ho, os, hos, houts⟩ := h
      cases houts
      exact .cons ho (ih hos)

theorem forwardBlocks_cons_eq_ok_iff {x d : Tensor K} {xs ds us : List (Tensor K)} {o : List ℕ}
    {os : List (List ℕ)} :
    forwardBlocks (x :: xs) (d :: ds) (o :: os) = .ok us ↔
      ∃ u, stretchedProduct (· * ·) x d o = .ok u ∧
        ∃ rest, forwardBlocks xs ds os = .ok rest ∧ u :: rest = us := by
  simp only [forwardBlocks, Except.bind_eq_ok_iff, Except.ok.injEq]

theorem adjointBlocks_cons_eq_ok_iff {y d : Tensor K} {ys ds vs : List (Tensor K)} {a : List ℕ}
    {as : List (List ℕ)} :
    adjointBlocks (y :: ys) (d :: ds) (a :: as) = .ok vs ↔
      ∃ v, adjointTensor y d a = .ok v ∧
        ∃ rest, adjointBlocks ys ds as = .ok rest ∧ v :: rest = vs := by
  simp only [adjointBlocks, Except.bind_eq_ok_iff, Except.ok.injEq]

section Blocks

variable {ins outs : List (List ℕ)} {ds xs ys us vs : List (Tensor K)}

theorem map_dims_forwardBlocks (hm : Merged ins ds outs) (hx : xs.map (·.dims) = ins)
    (hus : forwardBlocks xs ds outs = .ok us) : us.map (·.dims) = outs := by
  induction hm generalizing xs us with
  | nil =>
    cases List.map_eq_nil_iff.mp hx
    cases hus
    rfl
  | cons ho _ ih =>
    obtain ⟨x, xs, rfl, rfl, hxs⟩ := List.map_eq_cons_iff.mp hx
    obtain ⟨u, hu, rest, hrest, rfl⟩ := forwardBlocks_cons_eq_ok_iff.mp hus
    rw [List.map_cons, dims_stretchedProduct hu, ih hxs hrest]

theorem forwardBlocks_uniform {xs' : List (Tensor K)} (hm : Merged ins ds outs)
    (hx : xs.map (·.dims) = ins) (hus : forwardBlocks xs ds outs = .ok us)
    (hx' : xs'.map (·.dims) = ins) : ∃ us', forwardBlocks xs' ds outs = .ok us' := by
  induction hm generalizing xs xs' us with
  | nil =>
    cases List.map_eq_nil_iff.mp hx'
    exact ⟨[], rfl⟩
  | cons ho _ ih =>
    obtain ⟨x, xs, rfl, rfl, hxs⟩ := List.map_eq_cons_iff.mp hx
    obtain ⟨x', xs', rfl, hdims, hxs'⟩ := List.map_eq_cons_iff.mp hx'
    obtain ⟨u, hu, rest, hrest, rfl⟩ := forwardBlocks_cons_eq_ok_iff.mp hus
    obtain ⟨u', hu'⟩ := stretchedProduct_uniform hdims.symm hu
    obtain ⟨rest', hrest'⟩ := ih hxs hrest hxs'
    exact ⟨_, forwardBlocks_cons_eq_ok_iff.mpr ⟨u', hu', rest', hrest', rfl⟩⟩

theorem map_dims_adjointBlocks (hm : Merged ins ds outs) (hy : ys.map (·.dims) = outs)
    (hvs : adjointBlocks ys ds ins = .ok vs) : vs.map (·.dims) = ins := by
  induction hm generalizing ys vs with
  | nil =>
    cases List.map_eq_nil_iff.mp hy
    cases hvs
    rfl
  | cons ho _ ih =>
    obtain ⟨y, ys, rfl, rfl, hys⟩ := List.map_eq_cons_iff.mp hy
    obtain ⟨v, hv, rest, hrest, rfl⟩ := adjointBlocks_cons_eq_ok_iff.mp hvs
    rw [List.map_cons, dims_adjointTensor (stretches_left_of_broadcastDims ho) hv, ih hys hrest]

theorem adjointBlocks_uniform {ys' : List (Tensor K)} (hm : Merged ins ds outs)
    (hy : ys.map (·.dims) = outs) (hvs : adjointBlocks ys ds ins = .ok vs)
    (hy' : ys'.map (·.dims) = outs) : ∃ vs', adjointBlocks ys' ds ins = .ok vs' := by
  induction hm generalizing ys ys' vs with
  | nil =>
    cases List.map_eq_nil_iff.mp hy'
    exact ⟨[], rfl⟩
  | cons ho _ ih =>
    obtain ⟨y, ys, rfl, rfl, hys⟩ := List.map_eq_cons_iff.mp hy
    obtain ⟨y', ys', rfl, hdims, hys'⟩ := List.map_eq_cons_iff.mp hy'
    obtain ⟨v, hv, rest, hrest, rfl⟩ := adjointBlocks_cons_eq_ok_iff.mp hvs
    obtain ⟨v', hv'⟩ := adjointTensor_uniform hdims.symm hv
    obtain ⟨rest', hrest'⟩ := ih hys hrest hys'
    exact ⟨_, adjointBlocks_cons_eq_ok_iff.mpr ⟨v', hv', rest', hrest', rfl⟩⟩

theorem forwardBlocks_of_storable (hm : Merged ins ds outs) (h : ∀ dims ∈ outs, Storable dims)
    (hx : xs.map (·.dims) = ins) : ∃ us, forwardBlocks xs ds outs = .ok us := by
  induction hm generalizing xs with
  | nil =>
    cases List.map_eq_nil_iff.mp hx
    exact ⟨[], rfl⟩
  | cons ho _ ih =>
    obtain ⟨x, xs, rfl, rfl, hxs⟩ := List.map_eq_cons_iff.mp hx
    obtain ⟨hfirst, hrest⟩ := List.forall_mem_cons.mp h
    obtain ⟨u, hu⟩ := stretchedProduct_of_storable (fun a b => a * b) hfirst
      (stretches_left_of_broadcastDims ho) (stretches_right_of_broadcastDims ho)
    obtain ⟨rest, hus⟩ := ih hrest hxs
    exact ⟨_, forwardBlocks_cons_eq_ok_iff.mpr ⟨u, hu, rest, hus, rfl⟩⟩

theorem adjointBlocks_of_roomy (hm : Merged ins ds outs) (h : ∀ dims ∈ outs, Roomy dims)
    (hy : ys.map (·.dims) = outs) : ∃ vs, adjointBlocks ys ds ins = .ok vs := by
  induction hm generalizing ys with
  | nil =>
    cases List.map_eq_nil_iff.mp hy
    exact ⟨[], rfl⟩
  | cons ho _ ih =>
    obtain ⟨y, ys, rfl, rfl, hys⟩ := List.map_eq_cons_iff.mp hy
    obtain ⟨hfirst, hrest⟩ := List.forall_mem_cons.mp h
    obtain ⟨v, hv⟩ := adjointTensor_of_roomy hfirst (stretches_right_of_broadcastDims ho)
      (stretches_left_of_broadcastDims ho)
    obtain ⟨rest, hvs⟩ := ih hrest hys
    exact ⟨_, adjointBlocks_cons_eq_ok_iff.mpr ⟨v, hv, rest, hvs, rfl⟩⟩

end Blocks

/-! ### Signals -/

omit [Scalar K R W] in
/-- A diagonal operator works on one array or on blocks. -/
theorem layout_cases (op : Diagonal K) :
    (∃ d ins outs, op.factor = .flat d ∧ op.input = .flat ins ∧ op.output = .flat outs ∧
      broadcastDims ins d.dims = some outs) ∨
    ∃ ds ins outs, op.factor = .blocked ds ∧ op.input = .blocked ins ∧ op.output = .blocked outs ∧
      Merged ins ds outs := by
  obtain ⟨factor, input, output, hb⟩ := op
  cases factor with
  | flat d =>
    cases input with
    | flat ins =>
      obtain ⟨outs, houts, rfl⟩ := Option.map_eq_some_iff.mp hb
      exact .inl ⟨d, ins, outs, rfl, rfl, rfl, houts⟩
    | blocked ins => cases hb
  | blocked ds =>
    cases input with
    | flat ins => cases hb
    | blocked ins =>
      obtain ⟨outs, houts, rfl⟩ := Option.map_eq_some_iff.mp hb
      exact .inr ⟨ds, ins, outs, rfl, rfl, rfl, merged_of_mergeBlocks houts⟩

theorem forward_shapedMap (op : Diagonal K) : ShapedMap op.forward op.input op.output := by
  rcases op.layout_cases with ⟨d, ins, outs, hd, hi, ho, hb⟩ | ⟨ds, ins, outs, hd, hi, ho, hm⟩
  · have hforward (x : Tensor K) : op.forward (.flat x) =
        (stretchedProduct (· * ·) x d outs).map .flat := by simp only [forward, hd, ho]
    rw [hi, ho]
    refine ⟨fun {x u} hx hu => ?_, fun {x u x'} hx hu hx' => ?_⟩
    · obtain ⟨x, rfl, rfl⟩ := Signal.exists_of_shape_flat hx
      obtain ⟨u, hproduct, rfl⟩ := Except.map_eq_ok_iff.mp ((hforward x).symm.trans hu)
      rw [Signal.shape, dims_stretchedProduct hproduct]
    · obtain ⟨x, rfl, rfl⟩ := Signal.exists_of_shape_flat hx
      obtain ⟨x', rfl, hdims⟩ := Signal.exists_of_shape_flat hx'
      obtain ⟨u, hproduct, rfl⟩ := Except.map_eq_ok_iff.mp ((hforward x).symm.trans hu)
      obtain ⟨u', hu'⟩ := stretchedProduct_uniform hdims.symm hproduct
      exact ⟨_, (hforward x').trans (Except.map_eq_ok_iff.mpr ⟨u', hu', rfl⟩)⟩
  · have hforward (xs : List (Tensor K)) : op.forward (.blocked xs) =
        (forwardBlocks xs ds outs).map .blocked := by simp only [forward, hd, ho]
    rw [hi, ho]
    refine ⟨fun {x u} hx hu => ?_, fun {x u x'} hx hu hx' => ?_⟩
    · obtain ⟨xs, rfl, hxs⟩ := Signal.exists_of_shape_blocked hx
      obtain ⟨us, hus, rfl⟩ := Except.map_eq_ok_iff.mp ((hforward xs).symm.trans hu)
      rw [Signal.shape, map_dims_forwardBlocks hm hxs hus]
    · obtain ⟨xs, rfl, hxs⟩ := Signal.exists_of_shape_blocked hx
      obtain ⟨xs', rfl, hxs'⟩ := Signal.exists_of_shape_blocked hx'
      obtain ⟨us, hus, rfl⟩ := Except.map_eq_ok_iff.mp ((hforward xs).symm.trans hu)
      obtain ⟨us', hus'⟩ := forwardBlocks_uniform hm hxs hus hxs'
      exact ⟨_, (hforward xs').trans (Except.map_eq_ok_iff.mpr ⟨us', hus', rfl⟩)⟩

theorem adjoint_shapedMap (op : Diagonal K) : ShapedMap op.adjoint op.output op.input := by
  rcases op.layout_cases with ⟨d, ins, outs, hd, hi, ho, hb⟩ | ⟨ds, ins, outs, hd, hi, ho, hm⟩
  · have hadjoint (y : Tensor K) : op.adjoint (.flat y) = (adjointTensor y d ins).map .flat := by
      simp only [adjoint, hd, hi]
    rw [hi, ho]
    refine ⟨fun {y v} hy hv => ?_, fun {y v y'} hy hv hy' => ?_⟩
    · obtain ⟨y, rfl, rfl⟩ := Signal.exists_of_shape_flat hy
      obtain ⟨v, hsum, rfl⟩ := Except.map_eq_ok_iff.mp ((hadjoint y).symm.trans hv)
      rw [Signal.shape, dims_adjointTensor (stretches_left_of_broadcastDims hb) hsum]
    · obtain ⟨y, rfl, rfl⟩ := Signal.exists_of_shape_flat hy
      obtain ⟨y', rfl, hdims⟩ := Signal.exists_of_shape_flat hy'
      obtain ⟨v, hsum, rfl⟩ := Except.map_eq_ok_iff.mp ((hadjoint y).symm.trans hv)
      obtain ⟨v', hv'⟩ := adjointTensor_uniform hdims.symm hsum
      exact ⟨_, (hadjoint y').trans (Except.map_eq_ok_iff.mpr ⟨v', hv', rfl⟩)⟩
  · have hadjoint (ys : List (Tensor K)) : op.adjoint (.blocked ys) =
        (adjointBlocks ys ds ins).map .blocked := by simp only [adjoint, hd, hi]
    rw [hi, ho]
    refine ⟨fun {y v} hy hv => ?_, fun {y v y'} hy hv hy' => ?_⟩
    · obtain ⟨ys, rfl, hys⟩ := Signal.exists_of_shape_blocked hy
      obtain ⟨vs, hvs, rfl⟩ := Except.map_eq_ok_iff.mp ((hadjoint ys).symm.trans hv)
      rw [Signal.shape, map_dims_adjointBlocks hm hys hvs]
    · obtain ⟨ys, rfl, hys⟩ := Signal.exists_of_shape_blocked hy
      obtain ⟨ys', rfl, hys'⟩ := Signal.exists_of_shape_blocked hy'
      obtain ⟨vs, hvs, rfl⟩ := Except.map_eq_ok_iff.mp ((hadjoint ys).symm.trans hv)
      obtain ⟨vs', hvs'⟩ := adjointBlocks_uniform hm hys hvs hys'
      exact ⟨_, (hadjoint ys').trans (Except.map_eq_ok_iff.mpr ⟨vs', hvs', rfl⟩)⟩

theorem forward_totalOn {op : Diagonal K} (h : op.output.Storable) :
    TotalOn op.forward op.input := by
  intro x hx
  rcases op.layout_cases with ⟨d, ins, outs, hd, hi, ho, hb⟩ | ⟨ds, ins, outs, hd, hi, ho, hm⟩
  · rw [hi] at hx
    rw [ho] at h
    obtain ⟨x, rfl, rfl⟩ := Signal.exists_of_shape_flat hx
    obtain ⟨u, hu⟩ := stretchedProduct_of_storable (fun a b => a * b) h
      (stretches_left_of_broadcastDims hb) (stretches_right_of_broadcastDims hb)
    refine ⟨.flat u, ?_⟩
    simp only [forward, hd, ho]
    exact Except.map_eq_ok_iff.mpr ⟨u, hu, rfl⟩
  · rw [hi] at hx
    rw [ho] at h
    obtain ⟨xs, rfl, hxs⟩ := Signal.exists_of_shape_blocked hx
    obtain ⟨us, hus⟩ := forwardBlocks_of_storable hm h hxs
    refine ⟨.blocked us, ?_⟩
    simp only [forward, hd, ho]
    exact Except.map_eq_ok_iff.mpr ⟨us, hus, rfl⟩

theorem adjoint_totalOn {op : Diagonal K} (h : op.output.Roomy) :
    TotalOn op.adjoint op.output := by
  intro y hy
  rcases op.layout_cases with ⟨d, ins, outs, hd, hi, ho, hb⟩ | ⟨ds, ins, outs, hd, hi, ho, hm⟩
  · rw [ho] at hy h
    obtain ⟨y, rfl, rfl⟩ := Signal.exists_of_shape_flat hy
    obtain ⟨v, hv⟩ := adjointTensor_of_roomy h (stretches_right_of_broadcastDims hb)
      (stretches_left_of_broadcastDims hb)
    refine ⟨.flat v, ?_⟩
    simp only [adjoint, hd, hi]
    exact Except.map_eq_ok_iff.mpr ⟨v, hv, rfl⟩
  · rw [ho] at hy h
    obtain ⟨ys, rfl, hys⟩ := Signal.exists_of_shape_blocked hy
    obtain ⟨vs, hvs⟩ := adjointBlocks_of_roomy hm (Shape.Roomy.blocks h) hys
    refine ⟨.blocked vs, ?_⟩
    simp only [adjoint, hd, hi]
    exact Except.map_eq_ok_iff.mpr ⟨vs, hvs, rfl⟩

/-! ### Nothing is stretched -/

theorem stretchedProduct_of_zip? {f : K → K → K} {x d r : Tensor K} (hroom : Addressable x.dims)
    (h : Tensor.zip? f x d = some r) : stretchedProduct f x d x.dims = .ok r := by
  obtain ⟨hdims, rfl⟩ := Tensor.zip?_eq_some_iff.mp h
  refine stretchedProduct_eq_ok_iff.mpr ⟨hroom, .inl rfl, .inl hdims.symm, ?_⟩
  refine Tensor.ofFn_congr fun idx hidx => ?_
  rw [project_self hidx, project_self (hdims ▸ hidx)]

theorem adjointTensor_of_zip? {y d r : Tensor K} (hroom : Addressable y.dims)
    (h : Tensor.zip? (fun a b => a * Scalar.conj b) y d = some r) :
    adjointTensor y d y.dims = .ok r := by
  have hproduct := stretchedProduct_of_zip? hroom h
  refine adjointTensor_eq_ok_iff.mpr ⟨r, hproduct, ?_⟩
  rw [← dims_stretchedProduct hproduct]
  exact Tensor.sumTo?_self r

theorem forwardBlocks_of_zipBlocks? {xs ds us : List (Tensor K)}
    (hroom : ∀ x ∈ xs, Addressable x.dims) (h : Signal.zipBlocks? (· * ·) xs ds = some us) :
    forwardBlocks xs ds (xs.map (·.dims)) = .ok us := by
  induction xs generalizing ds us with
  | nil =>
    cases ds with
    | nil =>
      cases h
      rfl
    | cons d ds => cases h
  | cons x xs ih =>
    cases ds with
    | nil => cases h
    | cons d ds =>
      obtain ⟨u, hu, rest, hrest, rfl⟩ := Signal.zipBlocks?_cons_eq_some_iff.mp h
      obtain ⟨hfirst, hothers⟩ := List.forall_mem_cons.mp hroom
      exact forwardBlocks_cons_eq_ok_iff.mpr
        ⟨u, stretchedProduct_of_zip? hfirst hu, rest, ih hothers hrest, rfl⟩

theorem adjointBlocks_of_zipBlocks? {ys ds vs : List (Tensor K)}
    (hroom : ∀ y ∈ ys, Addressable y.dims)
    (h : Signal.zipBlocks? (fun a b => a * Scalar.conj b) ys ds = some vs) :
    adjointBlocks ys ds (ys.map (·.dims)) = .ok vs := by
  induction ys generalizing ds vs with
  | nil =>
    cases ds with
    | nil =>
      cases h
      rfl
    | cons d ds => cases h
  | cons y ys ih =>
    cases ds with
    | nil => cases h
    | cons d ds =>
      obtain ⟨v, hv, rest, hrest, rfl⟩ := Signal.zipBlocks?_cons_eq_some_iff.mp h
      obtain ⟨hfirst, hothers⟩ := List.forall_mem_cons.mp hroom
      exact adjointBlocks_cons_eq_ok_iff.mpr
        ⟨v, adjointTensor_of_zip? hfirst hv, rest, ih hothers hrest, rfl⟩

/-- Without stretching, the operator combines argument and factor elementwise. -/
theorem forward_of_zipMap {op : Diagonal K} (hop : op.output = op.factor.shape) {place : String}
    {x u : Signal K} (hroom : x.shape.Storable)
    (h : Signal.zipMap place (· * ·) x op.factor = .ok u) : op.forward x = .ok u := by
  have hout : op.output = x.shape := hop.trans (Signal.shape_eq_of_zipMap h).symm
  rcases Signal.zipMap_cases h with ⟨s, d, r, rfl, hd, rfl, hr⟩ | ⟨ss, ds, rs, rfl, hd, rfl, hrs⟩
  · simp only [forward, hd, hout, Signal.shape]
    exact Except.map_eq_ok_iff.mpr ⟨r, stretchedProduct_of_zip? hroom.1 hr, rfl⟩
  · have hall : ∀ s ∈ ss, Addressable s.dims := fun s hs => (hroom _ (List.mem_map_of_mem hs)).1
    simp only [forward, hd, hout, Signal.shape]
    exact Except.map_eq_ok_iff.mpr ⟨rs, forwardBlocks_of_zipBlocks? hall hrs, rfl⟩

theorem adjoint_of_zipMap {op : Diagonal K} (hop : op.input = op.factor.shape) {place : String}
    {y v : Signal K} (hroom : y.shape.Storable)
    (h : Signal.zipMap place (fun a b => a * Scalar.conj b) y op.factor = .ok v) :
    op.adjoint y = .ok v := by
  have hin : op.input = y.shape := hop.trans (Signal.shape_eq_of_zipMap h).symm
  rcases Signal.zipMap_cases h with ⟨s, d, r, rfl, hd, rfl, hr⟩ | ⟨ss, ds, rs, rfl, hd, rfl, hrs⟩
  · simp only [adjoint, hd, hin, Signal.shape]
    exact Except.map_eq_ok_iff.mpr ⟨r, adjointTensor_of_zip? hroom.1 hr, rfl⟩
  · have hall : ∀ s ∈ ss, Addressable s.dims := fun s hs => (hroom _ (List.mem_map_of_mem hs)).1
    simp only [adjoint, hd, hin, Signal.shape]
    exact Except.map_eq_ok_iff.mpr ⟨rs, adjointBlocks_of_zipBlocks? hall hrs, rfl⟩

end Shapes

/-! ### The pairing -/

section Pairing

variable [ExactScalar K]

/-- Both sides of the pairing are a sum over the stretched box. -/
theorem pairing_stretchedProduct {x y d u v : Tensor K} {dims : List ℕ} (hy : y.dims = dims)
    (hs : stretches x.dims dims = true) (hu : stretchedProduct (· * ·) x d dims = .ok u)
    (hv : adjointTensor y d x.dims = .ok v) : y.pairing u = v.pairing x := by
  obtain ⟨-, -, -, rfl⟩ := stretchedProduct_eq_ok_iff.mp hu
  obtain ⟨full, hfull, hsum⟩ := adjointTensor_eq_ok_iff.mp hv
  have hfdims := dims_stretchedProduct hfull
  obtain ⟨-, -, -, hfentry⟩ := stretchedProduct_eq_ok_iff.mp hfull
  have hconj_add (a b : K) : (starRingEnd ℂ) (val (a + b)) =
      (starRingEnd ℂ) (val a) + (starRingEnd ℂ) (val b) := by rw [val_add, map_add]
  obtain ⟨hvdims, hweighted⟩ := Tensor.sum_box_sumTo? (φ := fun a : K => (starRingEnd ℂ) (val a))
    (by rw [val_zero, map_zero]) hconj_add (by rwa [hfdims, hy]) hsum
  rw [Tensor.pairing, Tensor.pairing, hvdims, hweighted, hfdims]
  apply Finset.sum_congr rfl
  intro m hm
  rw [mem_box] at hm
  rw [Tensor.entry_ofFn _ (hy ▸ hm), hfentry, Tensor.entry_ofFn _ hm, project_self hm, val_mul,
    val_mul, map_mul, val_conj, Complex.conj_conj]
  ring

theorem pairing_forwardBlocks {ins outs : List (List ℕ)} {ds xs ys us vs : List (Tensor K)}
    (hm : Merged ins ds outs) (hx : xs.map (·.dims) = ins) (hy : ys.map (·.dims) = outs)
    (hus : forwardBlocks xs ds outs = .ok us) (hvs : adjointBlocks ys ds ins = .ok vs) :
    (Signal.blocked ys).pairing (.blocked us) = (Signal.blocked vs).pairing (.blocked xs) := by
  induction hm generalizing xs ys us vs with
  | nil =>
    cases List.map_eq_nil_iff.mp hx
    cases List.map_eq_nil_iff.mp hy
    cases hus
    cases hvs
    rfl
  | cons ho _ ih =>
    obtain ⟨x, xs, rfl, rfl, hxs⟩ := List.map_eq_cons_iff.mp hx
    obtain ⟨y, ys, rfl, rfl, hys⟩ := List.map_eq_cons_iff.mp hy
    obtain ⟨u, hu, urest, hurest, rfl⟩ := forwardBlocks_cons_eq_ok_iff.mp hus
    obtain ⟨v, hv, vrest, hvrest, rfl⟩ := adjointBlocks_cons_eq_ok_iff.mp hvs
    have hs := stretches_left_of_broadcastDims ho
    rw [Signal.pairing_blocked_cons (dims_stretchedProduct hu).symm,
      Signal.pairing_blocked_cons (dims_adjointTensor hs hv), ih hxs hys hurest hvrest,
      pairing_stretchedProduct rfl hs hu hv]

theorem pairing_forward (op : Diagonal K) {x y u v : Signal K} (hx : x.shape = op.input)
    (hy : y.shape = op.output) (hu : op.forward x = .ok u) (hv : op.adjoint y = .ok v) :
    y.pairing u = v.pairing x := by
  rcases op.layout_cases with ⟨d, ins, outs, hd, hi, ho, hb⟩ | ⟨ds, ins, outs, hd, hi, ho, hm⟩
  · have hs := stretches_left_of_broadcastDims hb
    rw [hi] at hx
    rw [ho] at hy
    obtain ⟨x, rfl, rfl⟩ := Signal.exists_of_shape_flat hx
    obtain ⟨y, rfl, hydims⟩ := Signal.exists_of_shape_flat hy
    simp only [forward, adjoint, hd, hi, ho] at hu hv
    obtain ⟨u, hproduct, rfl⟩ := Except.map_eq_ok_iff.mp hu
    obtain ⟨v, hsum, rfl⟩ := Except.map_eq_ok_iff.mp hv
    rw [Signal.pairing_flat (hydims.trans (dims_stretchedProduct hproduct).symm),
      Signal.pairing_flat (dims_adjointTensor (hydims ▸ hs) hsum),
      pairing_stretchedProduct hydims hs hproduct hsum]
  · rw [hi] at hx
    rw [ho] at hy
    obtain ⟨xs, rfl, hxs⟩ := Signal.exists_of_shape_blocked hx
    obtain ⟨ys, rfl, hys⟩ := Signal.exists_of_shape_blocked hy
    simp only [forward, adjoint, hd, hi, ho] at hu hv
    obtain ⟨us, hus, rfl⟩ := Except.map_eq_ok_iff.mp hu
    obtain ⟨vs, hvs, rfl⟩ := Except.map_eq_ok_iff.mp hv
    exact pairing_forwardBlocks hm hxs hys hus hvs

theorem adjointMaps (op : Diagonal K) : AdjointMaps op.forward op.adjoint op.input op.output where
  forward := op.forward_shapedMap
  backward := op.adjoint_shapedMap
  pairing_eq := op.pairing_forward

end Pairing

end Diagonal

end OperatorSplitting
