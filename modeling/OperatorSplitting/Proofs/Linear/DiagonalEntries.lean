import Mathlib
import OperatorSplitting.Proofs.Linear.Diagonal
import OperatorSplitting.Proofs.Tensor.PartialSums

/-!
# Diagonal operators, entry by entry

An output index of a diagonal operator reads one index of the input and one of the factor.  The
operator multiplies what is read (`IsProduct`), and its adjoint collects at an input index all
output indices that read it (`IsCollected`).  Flat signals are treated as signals of one block.

What can fail is memory alone: the operator has values where its output can be stored, and the
adjoint where the partial sums of an output can.
-/

namespace OperatorSplitting

open ExactScalar

/-! ### Blocks of signals and shapes -/

/-- The arrays of a signal. -/
def Signal.arrays {K : Type} : Signal K → List (Tensor K)
  | .flat t => [t]
  | .blocked ts => ts

/-- The boxes of a shape. -/
def Shape.boxes : Shape → List (List ℕ)
  | .flat dims => [dims]
  | .blocked blocks => blocks

theorem Signal.map_dims_arrays {K : Type} (x : Signal K) :
    x.arrays.map (·.dims) = x.shape.boxes := by
  cases x with
  | flat t => rfl
  | blocked ts => rfl

theorem Shape.storable_iff {s : Shape} :
    s.Storable ↔ ∀ dims ∈ s.boxes, OperatorSplitting.Storable dims := by
  cases s with
  | flat dims => exact (List.forall_mem_singleton (p := OperatorSplitting.Storable)).symm
  | blocked blocks => exact Iff.rfl

/-- Memory holds all partial sums of the signals of a shape that are summed to another one. -/
def Shape.CanSum (s target : Shape) : Prop :=
  List.Forall₂ OperatorSplitting.CanSum s.boxes target.boxes

namespace Diagonal

/-- In every block, an entry is the product of the two that its index reads. -/
def IsProduct {K : Type} [Zero K] [Mul K] (x d u : Signal K) : Prop :=
  ∀ (b : ℕ) (s e r : Tensor K),
    x.arrays[b]? = some s → d.arrays[b]? = some e → u.arrays[b]? = some r →
      ∀ i, InBox r.dims i →
        r.entry i = s.entry (Tensor.project s.dims i) * e.entry (Tensor.project e.dims i)

/-- In every block, an entry collects the products with the conjugate factor at all indices that
read it. -/
def IsCollected {K : Type} [ExactScalar K] (y d v : Signal K) : Prop :=
  ∀ (b : ℕ) (s e r : Tensor K),
    y.arrays[b]? = some s → d.arrays[b]? = some e → v.arrays[b]? = some r →
      ∀ j, InBox r.dims j →
        val (r.entry j) = ∑ i ∈ box s.dims with Tensor.project r.dims i = j,
          (starRingEnd ℂ) (val (e.entry (Tensor.project e.dims i))) * val (s.entry i)

section Shapes

variable {K R W : Type} [Scalar K R W] {op : Diagonal K}

/-! ### Where there is a value -/

theorem exists_stretchedProduct_iff {f : K → K → K} {x d : Tensor K} {dims : List ℕ}
    (hx : stretches x.dims dims = true) (hd : stretches d.dims dims = true)
    (hroom : Storable x.dims) :
    (∃ r, stretchedProduct f x d dims = .ok r) ↔ Storable dims := by
  constructor
  · rintro ⟨r, hr⟩
    obtain ⟨-, hstretch, -, -⟩ := stretchedProduct_eq_ok_iff.mp hr
    rcases hstretch with heq | ⟨-, hstored⟩
    · exact heq ▸ hroom
    · exact hstored
  · exact fun hstored => stretchedProduct_of_storable f hstored hx hd

theorem exists_adjointTensor_iff {y d : Tensor K} {target : List ℕ}
    (hd : stretches d.dims y.dims = true) (hs : stretches target y.dims = true)
    (hroom : Storable y.dims) :
    (∃ v, adjointTensor y d target = .ok v) ↔ CanSum y.dims target := by
  obtain ⟨full, hfull⟩ :=
    stretchedProduct_of_storable (fun a b => a * Scalar.conj b) hroom (stretches_refl y.dims) hd
  have hdims := dims_stretchedProduct hfull
  rw [← hdims] at hs hroom ⊢
  rw [← Tensor.exists_sumTo?_iff hs hroom]
  refine exists_congr fun v => ?_
  rw [adjointTensor_eq_ok_iff, hfull]
  constructor
  · rintro ⟨_, hsame, hv⟩
    cases hsame
    exact hv
  · exact fun hv => ⟨full, rfl, hv⟩

section Blocks

variable {ins outs : List (List ℕ)} {ds xs ys us vs : List (Tensor K)}

theorem exists_forwardBlocks_iff (hm : Merged ins ds outs) (hx : xs.map (·.dims) = ins)
    (hroom : ∀ dims ∈ ins, Storable dims) :
    (∃ us, forwardBlocks xs ds outs = .ok us) ↔ ∀ dims ∈ outs, Storable dims := by
  induction hm generalizing xs with
  | nil => exact iff_of_true ⟨[], by cases xs <;> rfl⟩ (List.forall_mem_nil _)
  | cons ho _ ih =>
    obtain ⟨x, xs, rfl, rfl, hxs⟩ := List.map_eq_cons_iff.mp hx
    obtain ⟨hfirst, hrest⟩ := List.forall_mem_cons.mp hroom
    rw [List.forall_mem_cons, ← ih hxs hrest, ← exists_stretchedProduct_iff (f := (· * ·))
      (stretches_left_of_broadcastDims ho) (stretches_right_of_broadcastDims ho) hfirst]
    simp only [forwardBlocks_cons_eq_ok_iff]
    constructor
    · rintro ⟨_, u, hu, rest, hrest, -⟩
      exact ⟨⟨u, hu⟩, rest, hrest⟩
    · rintro ⟨⟨u, hu⟩, rest, hrest⟩
      exact ⟨_, u, hu, rest, hrest, rfl⟩

theorem exists_adjointBlocks_iff (hm : Merged ins ds outs) (hy : ys.map (·.dims) = outs)
    (hroom : ∀ dims ∈ outs, Storable dims) :
    (∃ vs, adjointBlocks ys ds ins = .ok vs) ↔ List.Forall₂ CanSum outs ins := by
  induction hm generalizing ys with
  | nil => exact iff_of_true ⟨[], by cases ys <;> rfl⟩ .nil
  | cons ho _ ih =>
    obtain ⟨y, ys, rfl, rfl, hys⟩ := List.map_eq_cons_iff.mp hy
    obtain ⟨hfirst, hrest⟩ := List.forall_mem_cons.mp hroom
    rw [List.forall₂_cons, ← ih hys hrest, ← exists_adjointTensor_iff
      (stretches_right_of_broadcastDims ho) (stretches_left_of_broadcastDims ho) hfirst]
    simp only [adjointBlocks_cons_eq_ok_iff]
    constructor
    · rintro ⟨_, v, hv, rest, hrest, -⟩
      exact ⟨⟨v, hv⟩, rest, hrest⟩
    · rintro ⟨⟨v, hv⟩, rest, hrest⟩
      exact ⟨_, v, hv, rest, hrest, rfl⟩

omit [Scalar K R W] in
/-- Blocks with entries have room for their partial sums. -/
theorem Merged.canSum (hm : Merged ins ds outs) (hpos : ∀ dims ∈ outs, 0 ∉ dims)
    (hroom : ∀ dims ∈ outs, Storable dims) : List.Forall₂ CanSum outs ins := by
  induction hm with
  | nil => exact .nil
  | cons ho _ ih =>
    obtain ⟨hfirstpos, hrestpos⟩ := List.forall_mem_cons.mp hpos
    obtain ⟨hfirst, hrest⟩ := List.forall_mem_cons.mp hroom
    exact .cons (canSum_of_storable hfirstpos hfirst (stretches_left_of_broadcastDims ho))
      (ih hrestpos hrest)

theorem entry_forwardBlocks (hm : Merged ins ds outs) (hx : xs.map (·.dims) = ins)
    (hus : forwardBlocks xs ds outs = .ok us) {b : ℕ} {s e r : Tensor K} (hs : xs[b]? = some s)
    (he : ds[b]? = some e) (hr : us[b]? = some r) {i : List ℕ} (hi : InBox r.dims i) :
    r.entry i = s.entry (Tensor.project s.dims i) * e.entry (Tensor.project e.dims i) := by
  induction hm generalizing xs us b with
  | nil => cases he
  | cons ho _ ih =>
    obtain ⟨x, xs, rfl, rfl, hxs⟩ := List.map_eq_cons_iff.mp hx
    obtain ⟨u, hu, rest, hrest, rfl⟩ := forwardBlocks_cons_eq_ok_iff.mp hus
    cases b with
    | zero =>
      obtain rfl := Option.some.inj hs
      obtain rfl := Option.some.inj he
      obtain rfl := Option.some.inj hr
      obtain ⟨-, -, -, rfl⟩ := stretchedProduct_eq_ok_iff.mp hu
      exact Tensor.entry_ofFn _ hi
    | succ b => exact ih hxs hrest hs he hr

end Blocks

/-! ### Signals as blocks -/

omit [Scalar K R W] in
theorem merged_boxes (op : Diagonal K) :
    Merged op.input.boxes op.factor.arrays op.output.boxes := by
  rcases op.layout_cases with ⟨d, ins, outs, hd, hi, ho, hb⟩ | ⟨ds, ins, outs, hd, hi, ho, hm⟩
  · rw [hd, hi, ho]
    exact .cons hb .nil
  · rw [hd, hi, ho]
    exact hm

theorem arrays_forward {x u : Signal K} (hx : x.shape = op.input) (hu : op.forward x = .ok u) :
    forwardBlocks x.arrays op.factor.arrays op.output.boxes = .ok u.arrays := by
  rcases op.layout_cases with ⟨d, ins, outs, hd, hi, ho, hb⟩ | ⟨ds, ins, outs, hd, hi, ho, hm⟩
  · obtain ⟨x, rfl, -⟩ := Signal.exists_of_shape_flat (hx.trans hi)
    simp only [forward, hd, ho] at hu
    obtain ⟨u, hproduct, rfl⟩ := Except.map_eq_ok_iff.mp hu
    rw [hd, ho]
    exact forwardBlocks_cons_eq_ok_iff.mpr ⟨u, hproduct, [], rfl, rfl⟩
  · obtain ⟨xs, rfl, -⟩ := Signal.exists_of_shape_blocked (hx.trans hi)
    simp only [forward, hd, ho] at hu
    obtain ⟨us, hus, rfl⟩ := Except.map_eq_ok_iff.mp hu
    rw [hd, ho]
    exact hus

theorem exists_forward_of_blocks {x : Signal K} (hx : x.shape = op.input)
    (h : ∃ us, forwardBlocks x.arrays op.factor.arrays op.output.boxes = .ok us) :
    ∃ u, op.forward x = .ok u := by
  obtain ⟨us, hus⟩ := h
  rcases op.layout_cases with ⟨d, ins, outs, hd, hi, ho, hb⟩ | ⟨ds, ins, outs, hd, hi, ho, hm⟩
  · obtain ⟨x, rfl, -⟩ := Signal.exists_of_shape_flat (hx.trans hi)
    rw [hd, ho] at hus
    obtain ⟨u, hproduct, -⟩ := forwardBlocks_cons_eq_ok_iff.mp hus
    simp only [forward, hd, ho]
    exact ⟨.flat u, Except.map_eq_ok_iff.mpr ⟨u, hproduct, rfl⟩⟩
  · obtain ⟨xs, rfl, -⟩ := Signal.exists_of_shape_blocked (hx.trans hi)
    rw [hd, ho] at hus
    simp only [forward, hd, ho]
    exact ⟨.blocked us, Except.map_eq_ok_iff.mpr ⟨us, hus, rfl⟩⟩

theorem arrays_adjoint {y v : Signal K} (hy : y.shape = op.output) (hv : op.adjoint y = .ok v) :
    adjointBlocks y.arrays op.factor.arrays op.input.boxes = .ok v.arrays := by
  rcases op.layout_cases with ⟨d, ins, outs, hd, hi, ho, hb⟩ | ⟨ds, ins, outs, hd, hi, ho, hm⟩
  · obtain ⟨y, rfl, -⟩ := Signal.exists_of_shape_flat (hy.trans ho)
    simp only [adjoint, hd, hi] at hv
    obtain ⟨v, hsum, rfl⟩ := Except.map_eq_ok_iff.mp hv
    rw [hd, hi]
    exact adjointBlocks_cons_eq_ok_iff.mpr ⟨v, hsum, [], rfl, rfl⟩
  · obtain ⟨ys, rfl, -⟩ := Signal.exists_of_shape_blocked (hy.trans ho)
    simp only [adjoint, hd, hi] at hv
    obtain ⟨vs, hvs, rfl⟩ := Except.map_eq_ok_iff.mp hv
    rw [hd, hi]
    exact hvs

theorem exists_adjoint_of_blocks {y : Signal K} (hy : y.shape = op.output)
    (h : ∃ vs, adjointBlocks y.arrays op.factor.arrays op.input.boxes = .ok vs) :
    ∃ v, op.adjoint y = .ok v := by
  obtain ⟨vs, hvs⟩ := h
  rcases op.layout_cases with ⟨d, ins, outs, hd, hi, ho, hb⟩ | ⟨ds, ins, outs, hd, hi, ho, hm⟩
  · obtain ⟨y, rfl, -⟩ := Signal.exists_of_shape_flat (hy.trans ho)
    rw [hd, hi] at hvs
    obtain ⟨v, hsum, -⟩ := adjointBlocks_cons_eq_ok_iff.mp hvs
    simp only [adjoint, hd, hi]
    exact ⟨.flat v, Except.map_eq_ok_iff.mpr ⟨v, hsum, rfl⟩⟩
  · obtain ⟨ys, rfl, -⟩ := Signal.exists_of_shape_blocked (hy.trans ho)
    rw [hd, hi] at hvs
    simp only [adjoint, hd, hi]
    exact ⟨.blocked vs, Except.map_eq_ok_iff.mpr ⟨vs, hvs, rfl⟩⟩

/-- An argument that is stored has a product exactly where memory holds that as well. -/
theorem exists_forward_iff {x : Signal K} (hx : x.shape = op.input) (hroom : x.shape.Storable) :
    (∃ u, op.forward x = .ok u) ↔ op.output.Storable := by
  have hdims : x.arrays.map (·.dims) = op.input.boxes := by rw [x.map_dims_arrays, hx]
  rw [hx, Shape.storable_iff] at hroom
  rw [Shape.storable_iff, ← exists_forwardBlocks_iff op.merged_boxes hdims hroom]
  exact ⟨fun ⟨u, hu⟩ => ⟨u.arrays, arrays_forward hx hu⟩, exists_forward_of_blocks hx⟩

/-- An argument that is stored is collected exactly where memory holds its partial sums. -/
theorem exists_adjoint_iff {y : Signal K} (hy : y.shape = op.output) (hroom : y.shape.Storable) :
    (∃ v, op.adjoint y = .ok v) ↔ op.output.CanSum op.input := by
  have hdims : y.arrays.map (·.dims) = op.output.boxes := by rw [y.map_dims_arrays, hy]
  rw [hy, Shape.storable_iff] at hroom
  rw [Shape.CanSum, ← exists_adjointBlocks_iff op.merged_boxes hdims hroom]
  exact ⟨fun ⟨v, hv⟩ => ⟨v.arrays, arrays_adjoint hy hv⟩, exists_adjoint_of_blocks hy⟩

theorem isProduct_forward {x u : Signal K} (hx : x.shape = op.input)
    (hu : op.forward x = .ok u) : IsProduct x op.factor u := by
  have hdims : x.arrays.map (·.dims) = op.input.boxes := by rw [x.map_dims_arrays, hx]
  intro b s e r hs he hr i hi
  exact entry_forwardBlocks op.merged_boxes hdims (arrays_forward hx hu) hs he hr hi

omit [Scalar K R W] in
theorem canSum_output (op : Diagonal K) (hpos : ∀ dims ∈ op.output.boxes, 0 ∉ dims)
    (hroom : op.output.Storable) : op.output.CanSum op.input :=
  op.merged_boxes.canSum hpos (Shape.storable_iff.mp hroom)

end Shapes

/-! ### What is collected -/

section Entries

variable {K : Type} [ExactScalar K] {op : Diagonal K}

theorem val_adjointTensor {y d v : Tensor K} {target : List ℕ}
    (hs : stretches target y.dims = true) (h : adjointTensor y d target = .ok v) {j : List ℕ}
    (hj : InBox target j) :
    val (v.entry j) = ∑ i ∈ box y.dims with Tensor.project target i = j,
      (starRingEnd ℂ) (val (d.entry (Tensor.project d.dims i))) * val (y.entry i) := by
  obtain ⟨full, hfull, hsum⟩ := adjointTensor_eq_ok_iff.mp h
  have hdims := dims_stretchedProduct hfull
  obtain ⟨-, -, -, hentries⟩ := stretchedProduct_eq_ok_iff.mp hfull
  rw [Tensor.val_sumTo? (hdims ▸ hs) hsum hj, hdims]
  apply Finset.sum_congr rfl
  intro i hi
  have hbox : InBox y.dims i := mem_box.mp (Finset.mem_filter.mp hi).1
  rw [hentries, Tensor.entry_ofFn _ hbox, project_self hbox, val_mul, val_conj, mul_comm]

theorem val_adjointBlocks {ins outs : List (List ℕ)} {ds ys vs : List (Tensor K)}
    (hm : Merged ins ds outs) (hy : ys.map (·.dims) = outs)
    (hvs : adjointBlocks ys ds ins = .ok vs) {b : ℕ} {s e r : Tensor K} (hs : ys[b]? = some s)
    (he : ds[b]? = some e) (hr : vs[b]? = some r) {j : List ℕ} (hj : InBox r.dims j) :
    val (r.entry j) = ∑ i ∈ box s.dims with Tensor.project r.dims i = j,
      (starRingEnd ℂ) (val (e.entry (Tensor.project e.dims i))) * val (s.entry i) := by
  induction hm generalizing ys vs b with
  | nil => cases he
  | cons ho _ ih =>
    obtain ⟨y, ys, rfl, rfl, hys⟩ := List.map_eq_cons_iff.mp hy
    obtain ⟨v, hv, rest, hrest, rfl⟩ := adjointBlocks_cons_eq_ok_iff.mp hvs
    cases b with
    | zero =>
      obtain rfl := Option.some.inj hs
      obtain rfl := Option.some.inj he
      obtain rfl := Option.some.inj hr
      have hstretch := stretches_left_of_broadcastDims ho
      have hvdims := dims_adjointTensor hstretch hv
      rw [hvdims] at hj ⊢
      exact val_adjointTensor hstretch hv hj
    | succ b => exact ih hys hrest hs he hr

theorem isCollected_adjoint {y v : Signal K} (hy : y.shape = op.output)
    (hv : op.adjoint y = .ok v) : IsCollected y op.factor v := by
  have hdims : y.arrays.map (·.dims) = op.output.boxes := by rw [y.map_dims_arrays, hy]
  intro b s e r hs he hr j hj
  exact val_adjointBlocks op.merged_boxes hdims (arrays_adjoint hy hv) hs he hr hj

/-- **Diagonal operators are pointwise.**  A factor and an input shape that can be broadcast give an
operator on the common shape.  Its products and what its adjoint collects are given block by block
and index by index.  Of arguments that are stored, each has a product where memory holds the output
shape, and is collected where memory holds the partial sums; it always does where the output has
entries. -/
theorem ofShape_pointwise {factor : Signal K} {input output : Shape}
    (h : input.broadcast factor.shape = some output) :
    ∃ op, ofShape factor input = .ok op ∧ op.input = input ∧ op.output = output ∧
      (∀ x : Signal K, x.shape = input → x.shape.Storable →
        ((∃ u, op.forward x = .ok u) ↔ output.Storable) ∧
        ∀ u, op.forward x = .ok u → u.shape = output ∧ IsProduct x factor u) ∧
      (∀ y : Signal K, y.shape = output → y.shape.Storable →
        ((∃ v, op.adjoint y = .ok v) ↔ output.CanSum input) ∧
        ∀ v, op.adjoint y = .ok v → v.shape = input ∧ IsCollected y factor v) ∧
      ((∀ dims ∈ output.boxes, 0 ∉ dims) → output.Storable → output.CanSum input) := by
  set op : Diagonal K := ⟨factor, input, output, h⟩ with hop
  have hmade : ofShape factor input = .ok op := by
    unfold ofShape
    split
    · next output' h' =>
      cases h.symm.trans h'
      rfl
    · next h' => cases h.symm.trans h'
  refine ⟨op, hmade, rfl, rfl, fun x hx hroom => ?_, fun y hy hroom => ?_, op.canSum_output⟩
  · have hinput : x.shape = op.input := hx
    refine ⟨exists_forward_iff hinput hroom, fun u hu => ?_⟩
    exact ⟨op.forward_shapedMap.shape_eq hinput hu, isProduct_forward hinput hu⟩
  · have houtput : y.shape = op.output := hy
    refine ⟨exists_adjoint_iff houtput hroom, fun v hv => ?_⟩
    exact ⟨op.adjoint_shapedMap.shape_eq houtput hv, isCollected_adjoint houtput hv⟩

/-- A factor of two entries. -/
def pairFactor : Tensor (ComplexOf ℝ) := .ofArray #[⟨0, 1⟩, ⟨1, 1⟩]

/-- A column and the factor are both stretched to a square, which is collected row by row. -/
theorem ofShape_pointwise_column :
    (Shape.flat [2, 1]).broadcast (Signal.flat pairFactor).shape = some (.flat [2, 2]) ∧
      ∃ (op : Diagonal (ComplexOf ℝ)) (x y u v : Tensor (ComplexOf ℝ)),
        ofShape (.flat pairFactor) (.flat [2, 1]) = .ok op ∧
        x.dims = [2, 1] ∧ x.entries = #[⟨3, 0⟩, ⟨5, 0⟩] ∧
        op.forward (.flat x) = .ok (.flat u) ∧ u.entry [1, 0] = ⟨5, 0⟩ * ⟨0, 1⟩ ∧
        y.dims = [2, 2] ∧ y.entries = #[⟨1, 0⟩, ⟨1, 0⟩, ⟨3, 0⟩, ⟨4, 0⟩] ∧
        op.adjoint (.flat y) = .ok (.flat v) ∧ val (v.entry [1, 0]) = 4 - 7 * Complex.I := by
  have hbroadcast : (Shape.flat [2, 1]).broadcast (Signal.flat pairFactor).shape =
      some (.flat [2, 2]) := by decide
  let x : Tensor (ComplexOf ℝ) := ⟨[2, 1], #[⟨3, 0⟩, ⟨5, 0⟩], rfl⟩
  let y : Tensor (ComplexOf ℝ) := ⟨[2, 2], #[⟨1, 0⟩, ⟨1, 0⟩, ⟨3, 0⟩, ⟨4, 0⟩], rfl⟩
  obtain ⟨op, hop, -, -, hforward, hadjoint, -⟩ := ofShape_pointwise hbroadcast
  obtain ⟨hproduct, hproducts⟩ := hforward (.flat x) rfl (by decide)
  obtain ⟨hsum, hsums⟩ := hadjoint (.flat y) rfl (by decide)
  obtain ⟨u, hu⟩ := hproduct.mpr (by decide)
  obtain ⟨hushape, huentry⟩ := hproducts u hu
  obtain ⟨u, rfl, hudims⟩ := Signal.exists_of_shape_flat hushape
  obtain ⟨v, hv⟩ := hsum.mpr (.cons (by decide) .nil)
  obtain ⟨hvshape, hventry⟩ := hsums v hv
  obtain ⟨v, rfl, hvdims⟩ := Signal.exists_of_shape_flat hvshape
  refine ⟨hbroadcast, op, x, y, u, v, hop, rfl, rfl, hu, ?_, rfl, rfl, hv, ?_⟩
  · exact huentry 0 x pairFactor u rfl rfl rfl [1, 0] (by rw [hudims]; decide)
  · have hread (i j : ℕ) : Tensor.project [2, 1] [i, j] = [i, 0] := rfl
    rw [hventry 0 y pairFactor v rfl rfl rfl [1, 0] (by rw [hvdims]; decide), hvdims,
      Finset.sum_filter, show y.dims = [2, 2] from rfl]
    simp only [sum_box_cons, sum_box_nil, Finset.sum_range_succ, Finset.sum_range_zero, hread]
    rw [if_neg (by decide), if_neg (by decide), if_pos trivial, if_pos trivial]
    show 0 + (0 + 0 + 0) + (0 +
      (starRingEnd ℂ) (ComplexOf.toComplex ⟨0, 1⟩) * ComplexOf.toComplex ⟨3, 0⟩ +
      (starRingEnd ℂ) (ComplexOf.toComplex ⟨1, 1⟩) * ComplexOf.toComplex ⟨4, 0⟩) =
        4 - 7 * Complex.I
    apply Complex.ext <;> norm_num [ComplexOf.toComplex]

/-- Broadcasting may ask for more than memory holds, and so may the partial sums of an array without
entries: a column and a row of `2 ^ 40` places whose product has `2 ^ 80`, and an array of `2 ^ 60`
columns without rows that is summed to one place. -/
theorem exists_forward_and_adjoint_fail :
    (∃ (op : Diagonal ℝ) (x : Signal ℝ),
      ofShape (.flat ⟨[1, 2 ^ 40, 0], #[], rfl⟩) (.flat [2 ^ 40, 1, 0]) = .ok op ∧
        x.shape = op.input ∧ x.shape.Storable ∧ ∀ u, op.forward x ≠ .ok u) ∧
    ∃ (op : Diagonal ℝ) (y : Signal ℝ),
      ofShape (.flat ⟨[0, 2 ^ 60, 1], #[], by decide⟩) (.flat [1]) = .ok op ∧
        y.shape = op.output ∧ y.shape.Storable ∧ ∀ v, op.adjoint y ≠ .ok v := by
  constructor
  · let op : Diagonal ℝ := ⟨.flat ⟨[1, 2 ^ 40, 0], #[], rfl⟩, .flat [2 ^ 40, 1, 0],
      .flat [2 ^ 40, 2 ^ 40, 0], by decide⟩
    let x : Signal ℝ := .flat ⟨[2 ^ 40, 1, 0], #[], rfl⟩
    have hroom : x.shape.Storable := by decide
    have hlong : ¬op.output.Storable := by decide
    exact ⟨op, x, rfl, rfl, hroom, fun u hu => hlong ((exists_forward_iff rfl hroom).mp ⟨u, hu⟩)⟩
  · let op : Diagonal ℝ := ⟨.flat ⟨[0, 2 ^ 60, 1], #[], by decide⟩, .flat [1],
      .flat [0, 2 ^ 60, 1], by decide⟩
    let y : Signal ℝ := .flat ⟨[0, 2 ^ 60, 1], #[], by decide⟩
    have hroom : y.shape.Storable := by decide
    have hlong : ¬CanSum [0, 2 ^ 60, 1] [1] := by decide
    refine ⟨op, y, rfl, rfl, hroom, fun v hv => hlong ?_⟩
    exact (List.forall₂_cons.mp ((exists_adjoint_iff rfl hroom).mp ⟨v, hv⟩)).1

end Entries

end Diagonal

end OperatorSplitting
