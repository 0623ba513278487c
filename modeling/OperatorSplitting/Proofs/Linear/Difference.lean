import Mathlib
import OperatorSplitting.Linear.Difference
import OperatorSplitting.Proofs.Linear.AdjointMaps
import OperatorSplitting.Proofs.Tensor.Summing

/-!
# Finite differences and summation by parts

Along one axis an array is a family of lines.  The difference of an array acts on each of its lines,
and so does the adjoint; on a line they are adjoint by summation by parts, with one term more for
what the boundary rule appends (`sum_differenceLine`).  Along several axes, stacked or in blocks, the
adjoint adds up the adjoints of the layers.

The difference has a value where positions along the axis can be counted and the result can be
addressed; the adjoint has one where the input extents can be stored.
-/

namespace OperatorSplitting

open ExactScalar

/-! ### One line -/

namespace Boundary

/-- The difference of a line of `m + 1` numbers, `m` of them inside. -/
def differenceLine (b : Boundary) (m : ℕ) (x : ℕ → ℂ) (k : ℕ) : ℂ :=
  if k < m then x (k + 1) - x k
  else match b with
    | .truncate => 0
    | .appendZero => -x m
    | .circular => x 0 - x m

/-- The adjoint of the difference of a line of `m + 1` numbers. -/
def adjointLine (b : Boundary) (m : ℕ) (y : ℕ → ℂ) (k : ℕ) : ℂ :=
  (if k = 0 then 0 else y (k - 1)) - (if k = m then 0 else y k) +
    match b with
    | .truncate => 0
    | .appendZero => if k = m then -y m else 0
    | .circular => if k = m then -y m else if k = 0 then y m else 0

/-- The number of differences of a line of `m + 1` numbers. -/
def lineExtent (b : Boundary) (m : ℕ) : ℕ :=
  match b with
  | .truncate => m
  | .appendZero | .circular => m + 1

theorem differenceLine_of_lt (b : Boundary) {m k : ℕ} (x : ℕ → ℂ) (h : k < m) :
    b.differenceLine m x k = x (k + 1) - x k := if_pos h

/-- Summation by parts inside a line. -/
theorem sum_inner_line (m : ℕ) (x y : ℕ → ℂ) :
    ∑ k ∈ Finset.range m, y k * (x (k + 1) - x k) =
      ∑ k ∈ Finset.range (m + 1),
        ((if k = 0 then 0 else y (k - 1)) - (if k = m then 0 else y k)) * x k := by
  have hlifted : ∑ k ∈ Finset.range (m + 1), (if k = 0 then 0 else y (k - 1)) * x k =
      ∑ k ∈ Finset.range m, y k * x (k + 1) := by
    rw [Finset.sum_range_succ']
    simp
  have howned : ∑ k ∈ Finset.range (m + 1), (if k = m then 0 else y k) * x k =
      ∑ k ∈ Finset.range m, y k * x k := by
    rw [Finset.sum_range_succ, if_pos rfl, zero_mul, add_zero]
    apply Finset.sum_congr rfl
    intro k hk
    rw [if_neg (Finset.mem_range.mp hk).ne]
  simp only [sub_mul, mul_sub, Finset.sum_sub_distrib, hlifted, howned]

/-- On a line the two maps are adjoint. -/
theorem sum_differenceLine (b : Boundary) {m : ℕ} (hm : 0 < m) (x y : ℕ → ℂ) :
    ∑ k ∈ Finset.range (b.lineExtent m), y k * b.differenceLine m x k =
      ∑ k ∈ Finset.range (m + 1), b.adjointLine m y k * x k := by
  have hinner : ∑ k ∈ Finset.range m, y k * b.differenceLine m x k =
      ∑ k ∈ Finset.range (m + 1),
        ((if k = 0 then 0 else y (k - 1)) - (if k = m then 0 else y k)) * x k := by
    rw [← sum_inner_line]
    apply Finset.sum_congr rfl
    intro k hk
    rw [differenceLine_of_lt b x (Finset.mem_range.mp hk)]
  have hlast (c : ℂ) : ∑ k ∈ Finset.range (m + 1), (if k = m then c else 0) * x k = c * x m := by
    rw [Finset.sum_eq_single m]
    · rw [if_pos rfl]
    · intro k _ hk
      rw [if_neg hk, zero_mul]
    · intro hm'
      exact absurd (Finset.mem_range.mpr (Nat.lt_succ_self m)) hm'
  simp only [adjointLine, add_mul, Finset.sum_add_distrib, ← hinner]
  cases b with
  | truncate => simp [lineExtent]
  | appendZero =>
    rw [lineExtent, Finset.sum_range_succ, hlast, differenceLine, if_neg (lt_irrefl m)]
    ring
  | circular =>
    have hwrap : ∑ k ∈ Finset.range (m + 1),
        (if k = m then -y m else if k = 0 then y m else 0) * x k = y m * x 0 - y m * x m := by
      have hsplit (k : ℕ) : (if k = m then -y m else if k = 0 then y m else 0) * x k =
          (if k = 0 then y m else 0) * x k + (if k = m then -y m else 0) * x k := by
        by_cases hk : k = m
        · rw [if_pos hk, if_pos hk, if_neg (by omega), zero_mul, zero_add]
        · rw [if_neg hk, if_neg hk, zero_mul, add_zero]
      simp only [hsplit, Finset.sum_add_distrib, hlast]
      rw [Finset.sum_range_succ']
      simp
      ring
    rw [lineExtent, Finset.sum_range_succ, hwrap, differenceLine, if_neg (lt_irrefl m)]
    ring

end Boundary

/-! ### Moving along an axis -/

theorem modify_eq_set_getD {l : List ℕ} {axis : ℕ} (h : axis < l.length) (f : ℕ → ℕ) :
    l.modify axis f = l.set axis (f (l.getD axis 0)) := by
  rw [List.modify_eq_set_get f h, List.getD_eq_getElem _ _ h, List.get_eq_getElem]

theorem getD_set_self {l : List ℕ} {axis : ℕ} (h : axis < l.length) (k : ℕ) :
    (l.set axis k).getD axis 0 = k := by
  rw [List.getD_eq_getElem _ _ (by simpa using h), List.getElem_set_self]

theorem getD_mem {dims : List ℕ} {axis : ℕ} (h : axis < dims.length) : dims.getD axis 0 ∈ dims := by
  rw [List.getD_eq_getElem _ _ h]
  exact List.getElem_mem h

/-- Positions along every axis of an addressable box can be counted. -/
theorem Addressable.getD_lt {dims : List ℕ} (h : Addressable dims) {axis : ℕ}
    (haxis : axis < dims.length) : dims.getD axis 0 < positionRange :=
  (le_spread_of_mem (getD_mem haxis)).trans_lt h

/-- Two slabs of an array of which one has `n - 1` places along the axis and the other as many as a
cut at `n - 1` leaves: if they can be combined they have the same number of places.  A cut that
counts back from the end would leave another number, and even a single place cannot be stretched as
far as that. -/
theorem place_eq_of_zipStretched? {α : Type} [Zero α] {f : α → α → α} {a b r : Tensor α}
    {dims : List ℕ} {axis extent n place : ℕ} (haxis : axis < dims.length)
    (hcut : cutPlace? extent (n - 1) = some place) (ha : a.dims = dims.set axis (n - 1))
    (hb : b.dims = dims.set axis place) (h : Tensor.zipStretched? f a b = some r) :
    place = n - 1 := by
  obtain ⟨target, hbroadcast, -, hstretch, -⟩ := Tensor.zipStretched?_eq_some_iff.mp h
  have htail := stretches_left_of_broadcastDims hbroadcast
  by_cases hlt : n - 1 < positionRange
  · rw [cutPlace?, if_pos hlt] at hcut
    split at hcut
    · exact (Option.some.inj hcut).symm
    · cases hcut
  · have hone : n - 1 ≠ 1 := fun h => hlt (by rw [h]; decide)
    rw [ha] at htail
    rcases hstretch with heq | ⟨-, hroom⟩
    · rw [← heq, hb] at htail
      have hplaces := stretches_getD htail (by rw [List.length_set, List.length_set])
        (by rwa [List.length_set])
      rw [getD_set_self haxis, getD_set_self haxis] at hplaces
      exact (hplaces.resolve_right hone).symm
    · have hmem : n - 1 ∈ target := by
        refine mem_of_stretches htail ?_ hone
        exact List.mem_set haxis _
      exact absurd ((le_spread_of_mem hmem).trans_lt hroom.1) hlt

namespace FiniteDifference

variable {K R W : Type} {op : FiniteDifference} {axis : ℕ}

/-- The axis is one of the axes of the array and has at least two places. -/
def Fits (op : FiniteDifference) (axis : ℕ) : Prop :=
  axis < op.dims.length ∧ 2 ≤ op.dims.getD axis 0

theorem fits_of_axesFault? {dims seen axes : List ℕ} (h : axesFault? dims seen axes = none) :
    ∀ axis ∈ axes, axis < dims.length ∧ 2 ≤ dims.getD axis 0 := by
  induction axes generalizing seen with
  | nil => simp
  | cons a rest ih =>
    unfold axesFault? at h
    split at h
    · cases h
    · next hlt =>
      split at h
      · cases h
      · split at h
        · cases h
        · next hlong =>
          rw [List.forall_mem_cons]
          exact ⟨⟨by omega, by omega⟩, ih h⟩

theorem fits (op : FiniteDifference) : ∀ axis ∈ op.axes, op.Fits axis :=
  fits_of_axesFault? op.axes_fit

theorem axisDims_eq (h : op.Fits axis) :
    op.axisDims axis = op.dims.set axis (op.boundary.lineExtent (op.dims.getD axis 0 - 1)) := by
  have hself : op.dims.set axis (op.dims.getD axis 0 - 1 + 1) = op.dims := by
    have hpos : op.dims.getD axis 0 - 1 + 1 = op.dims.getD axis 0 := by
      have := h.2
      omega
    exact list_set_getD h.1 hpos.symm
  unfold axisDims
  cases op.boundary with
  | truncate => exact modify_eq_set_getD h.1 _
  | appendZero => exact hself.symm
  | circular => exact hself.symm

theorem axisDims_of_ne_truncate (hb : op.boundary ≠ .truncate) : op.axisDims axis = op.dims := by
  unfold axisDims
  cases hop : op.boundary with
  | truncate => exact absurd hop hb
  | appendZero | circular => rfl

section Shapes

variable [Scalar K R W]

/-! ### The difference along an axis -/

/-- The differences inside the axis. -/
def innerPart (op : FiniteDifference) (x : Tensor K) (axis : ℕ) : Tensor K :=
  .ofFn (op.dims.set axis (op.dims.getD axis 0 - 1)) fun idx =>
    x.entry (idx.set axis (idx.getD axis 0 + 1)) - x.entry idx

/-- Subtracting the array without its last slab from the array without its first slab. -/
theorem exists_inner_iff {x : Tensor K} {p : Tensor K → Prop} (hx : x.dims = op.dims)
    (h : op.Fits axis) :
    (∃ head, x.take? axis (op.dims.getD axis 0 - 1) = some head ∧
      ∃ tail, x.drop? axis 1 = some tail ∧
        ∃ inner, Tensor.zipStretched? (· - ·) tail head = some inner ∧ p inner) ↔
      cutPlace? (op.dims.getD axis 0) (op.dims.getD axis 0 - 1) =
        some (op.dims.getD axis 0 - 1) ∧ p (op.innerPart x axis) := by
  set n := op.dims.getD axis 0 with hn
  have hextent : x.extent axis = n := by rw [Tensor.extent, hx]
  have hrank : axis < x.rank := by
    rw [Tensor.rank, hx]
    exact h.1
  have hone : cutPlace? n 1 = some 1 := cutPlace?_of_le (by decide) (by have := h.2; omega)
  have htail (t : Tensor K) : x.drop? axis 1 = some t ↔
      t = .ofFn (op.dims.set axis (n - 1)) fun idx => x.entry (idx.modify axis (· + 1)) := by
    rw [Tensor.drop?_eq_some_iff, hextent, hone, hx]
    simp [hrank]
  have hzip : Tensor.zipStretched? (fun a b : K => a - b)
      (.ofFn (op.dims.set axis (n - 1)) fun idx => x.entry (idx.modify axis (· + 1)))
      (.ofFn (op.dims.set axis (n - 1)) x.entry) = some (op.innerPart x axis) := by
    rw [Tensor.zipStretched?_ofFn]
    congr 1
    refine Tensor.ofFn_congr fun idx hidx => ?_
    rw [modify_eq_set_getD (by rw [hidx.length_eq, List.length_set]; exact h.1)]
  simp only [Tensor.take?_eq_some_iff, htail, hextent, hx]
  constructor
  · rintro ⟨head, ⟨-, place, hplace, rfl⟩, tail, rfl, inner, hinner, hp⟩
    cases place_eq_of_zipStretched? h.1 hplace (Tensor.dims_ofFn _ _) (Tensor.dims_ofFn _ _) hinner
    cases Option.some.inj (hzip.symm.trans hinner)
    exact ⟨hplace, hp⟩
  · rintro ⟨hplace, hp⟩
    exact ⟨_, ⟨hrank, n - 1, hplace, rfl⟩, _, rfl, _, hzip, hp⟩

/-- An entry of the difference along an axis. -/
def differenceEntry (op : FiniteDifference) (x : Tensor K) (axis : ℕ) (idx : List ℕ) : K :=
  let m := op.dims.getD axis 0 - 1
  if idx.getD axis 0 < m then x.entry (idx.set axis (idx.getD axis 0 + 1)) - x.entry idx
  else match op.boundary with
    | .truncate => 0
    | .appendZero => -x.entry (idx.set axis m)
    | .circular => x.entry (idx.set axis 0) - x.entry (idx.set axis m)

/-- The last slab of an array. -/
def lastPart (op : FiniteDifference) (x : Tensor K) (axis : ℕ) : Tensor K :=
  .ofFn (op.dims.set axis 1) fun idx => x.entry (idx.set axis (op.dims.getD axis 0 - 1))

theorem drop?_last_eq_some {x : Tensor K} (hx : x.dims = op.dims) (h : op.Fits axis)
    (hcut : cutPlace? (op.dims.getD axis 0) (op.dims.getD axis 0 - 1) =
      some (op.dims.getD axis 0 - 1)) :
    x.drop? axis (op.dims.getD axis 0 - 1) = some (op.lastPart x axis) := by
  set n := op.dims.getD axis 0 with hn
  have hextent : x.extent axis = n := by rw [Tensor.extent, hx]
  have hplaces : n - (n - 1) = 1 := by
    have := h.2
    omega
  rw [Tensor.drop?_eq_some_iff, hextent]
  refine ⟨by rw [Tensor.rank, hx]; exact h.1, n - 1, hcut, ?_⟩
  rw [hplaces, hx]
  refine Tensor.ofFn_congr fun idx hidx => ?_
  have hidx' : axis < idx.length := by
    rw [hidx.length_eq, List.length_set]
    exact h.1
  have hzero : idx.getD axis 0 = 0 := by
    have hlt := hidx.getD_lt (by rw [List.length_set]; exact h.1)
    rw [getD_set_self h.1] at hlt
    omega
  rw [modify_eq_set_getD hidx', hzero, Nat.zero_add]

/-- An entry of the slab that the boundary rule puts after the differences inside the axis. -/
def edgeEntry (op : FiniteDifference) (x : Tensor K) (axis : ℕ) (idx : List ℕ) : K :=
  let m := op.dims.getD axis 0 - 1
  match op.boundary with
  | .truncate => 0
  | .appendZero => -x.entry (idx.set axis m)
  | .circular => x.entry (idx.set axis 0) - x.entry (idx.set axis m)

/-- The slab is the same all along the axis. -/
theorem edgeEntry_set (x : Tensor K) (axis k : ℕ) (idx : List ℕ) :
    op.edgeEntry x axis (idx.set axis k) = op.edgeEntry x axis idx := by
  simp only [edgeEntry, List.set_set]

theorem differenceEntry_eq (x : Tensor K) (axis : ℕ) (idx : List ℕ) :
    op.differenceEntry x axis idx =
      if idx.getD axis 0 < op.dims.getD axis 0 - 1 then
        x.entry (idx.set axis (idx.getD axis 0 + 1)) - x.entry idx
      else op.edgeEntry x axis idx := rfl

/-- Without a slab the differences inside the axis are all there is. -/
theorem innerPart_eq {x : Tensor K} (h : op.Fits axis) (hb : op.boundary = .truncate) :
    op.innerPart x axis = .ofFn (op.axisDims axis) (op.differenceEntry x axis) := by
  rw [axisDims_eq h, hb]
  refine Tensor.ofFn_congr fun idx hidx => ?_
  have hlt := hidx.getD_lt (by rw [List.length_set]; exact h.1)
  rw [getD_set_self h.1] at hlt
  rw [differenceEntry_eq, if_pos hlt]

theorem map_neg_lastPart {x : Tensor K} (hb : op.boundary = .appendZero) :
    (op.lastPart x axis).map (fun a => -a) =
      .ofFn (op.dims.set axis 1) (op.edgeEntry x axis) := by
  rw [Tensor.map_eq_ofFn]
  refine Tensor.ofFn_congr fun idx (hidx : InBox (op.dims.set axis 1) idx) => ?_
  rw [lastPart, Tensor.entry_ofFn _ hidx]
  simp only [edgeEntry, hb]

theorem take?_first_eq_some {x : Tensor K} (hx : x.dims = op.dims) (h : op.Fits axis) :
    x.take? axis 1 = some (.ofFn (op.dims.set axis 1) x.entry) := by
  rw [Tensor.take?_eq_some_iff, Tensor.rank, hx]
  refine ⟨h.1, 1, cutPlace?_of_le (by decide) ?_, rfl⟩
  rw [Tensor.extent, hx]
  have := h.2
  omega

theorem zipStretched?_first_last {x : Tensor K} (h : op.Fits axis) (hb : op.boundary = .circular) :
    Tensor.zipStretched? (fun a b : K => a - b) (.ofFn (op.dims.set axis 1) x.entry)
      (op.lastPart x axis) = some (.ofFn (op.dims.set axis 1) (op.edgeEntry x axis)) := by
  rw [lastPart, Tensor.zipStretched?_ofFn]
  congr 1
  refine Tensor.ofFn_congr fun idx hidx => ?_
  simp only [edgeEntry, hb, Tensor.set_zero_of_inBox hidx (getD_set_self h.1 1)]

/-- The slab after the differences inside the axis. -/
theorem joined_inner_eq_ok_iff {x u : Tensor K} (h : op.Fits axis) :
    joined axis (op.innerPart x axis) (.ofFn (op.dims.set axis 1) (op.edgeEntry x axis)) = .ok u ↔
      Addressable op.dims ∧ u = .ofFn op.dims (op.differenceEntry x axis) := by
  set n := op.dims.getD axis 0 with hn
  set edge : Tensor K := .ofFn (op.dims.set axis 1) (op.edgeEntry x axis) with hedge
  have hinner : (op.innerPart x axis).extent axis = n - 1 := getD_set_self h.1 _
  have hlast : edge.extent axis = 1 := getD_set_self h.1 1
  have hdims : (op.innerPart x axis).dims.set axis ((op.innerPart x axis).extent axis +
      edge.extent axis) = op.dims := by
    rw [hinner, hlast, innerPart, Tensor.dims_ofFn, List.set_set]
    refine list_set_getD h.1 ?_
    have := h.2
    omega
  have hrank : axis < (op.innerPart x axis).rank := by
    rw [Tensor.rank, innerPart, Tensor.dims_ofFn, List.length_set]
    exact h.1
  have hrest : (op.innerPart x axis).dims.set axis 0 = edge.dims.set axis 0 := by
    rw [hedge, innerPart, Tensor.dims_ofFn, Tensor.dims_ofFn, List.set_set, List.set_set]
  have hjoined : joined axis (op.innerPart x axis) edge = .ok u ↔
      Tensor.join axis (op.innerPart x axis) edge = .ok u := by
    unfold joined
    cases Tensor.join axis (op.innerPart x axis) edge <;> simp
  rw [hjoined, Tensor.join_eq_ok_iff, hdims]
  simp only [hrank, hrest, true_and]
  refine and_congr_right fun _ => ?_
  suffices hentries : (Tensor.ofFn op.dims fun idx =>
      if idx.getD axis 0 < (op.innerPart x axis).extent axis then (op.innerPart x axis).entry idx
      else edge.entry (idx.set axis (idx.getD axis 0 - (op.innerPart x axis).extent axis))) =
      .ofFn op.dims (op.differenceEntry x axis) by rw [hentries]
  refine Tensor.ofFn_congr fun idx hidx => ?_
  rw [hinner, differenceEntry_eq, ← hn]
  by_cases hlt : idx.getD axis 0 < n - 1
  · rw [if_pos hlt, if_pos hlt, innerPart, Tensor.entry_ofFn _ (hidx.set_dims hlt)]
  · have hk : idx.getD axis 0 - (n - 1) = 0 := by
      have := hidx.getD_lt h.1
      omega
    rw [if_neg hlt, if_neg hlt, hk, hedge, Tensor.entry_ofFn _ (hidx.set Nat.zero_lt_one),
      edgeEntry_set]

/-- The difference along an axis has a value where its last position is counted from the front and
what the boundary rule asks for can be addressed. -/
theorem differenceAlong_eq_ok_iff {x u : Tensor K} (hx : x.dims = op.dims) (h : op.Fits axis) :
    op.differenceAlong x axis = .ok u ↔
      cutPlace? (op.dims.getD axis 0) (op.dims.getD axis 0 - 1) =
        some (op.dims.getD axis 0 - 1) ∧
      (op.boundary ≠ .truncate → Addressable op.dims) ∧
      u = .ofFn (op.axisDims axis) (op.differenceEntry x axis) := by
  unfold differenceAlong
  simp only [Except.bind_eq_ok_iff, orMisuse_eq_ok_iff]
  rw [exists_inner_iff hx h]
  refine and_congr_right fun hcut => ?_
  have hlast := drop?_last_eq_some hx h hcut
  cases hb : op.boundary with
  | truncate => simp [innerPart_eq h hb, eq_comm]
  | appendZero =>
    simp only [Except.bind_eq_ok_iff, orMisuse_eq_ok_iff, hlast, Option.some.injEq,
      exists_eq_left', ne_eq, reduceCtorEq, not_false_eq_true, true_imp_iff]
    rw [map_neg_lastPart hb, joined_inner_eq_ok_iff h, axisDims_of_ne_truncate (by simp [hb])]
  | circular =>
    simp only [Except.bind_eq_ok_iff, orMisuse_eq_ok_iff, hlast, take?_first_eq_some hx h,
      zipStretched?_first_last h hb, Option.some.injEq, exists_eq_left', ne_eq, reduceCtorEq,
      not_false_eq_true, true_imp_iff]
    rw [joined_inner_eq_ok_iff h, axisDims_of_ne_truncate (by simp [hb])]

/-! ### The adjoint along an axis -/

/-- An entry of the adjoint of the difference along an axis. -/
def adjointEntry (op : FiniteDifference) (y : Tensor K) (axis : ℕ) (idx : List ℕ) : K :=
  let m := op.dims.getD axis 0 - 1
  let k := idx.getD axis 0
  let lifted := if k = 0 then 0 else 0 + y.entry (idx.set axis (k - 1))
  let body := if k = m then lifted else lifted - y.entry idx
  match op.boundary with
  | .truncate => body
  | .appendZero => if k = m then body - y.entry (idx.set axis m) else body
  | .circular =>
    if k = m then body - y.entry (idx.set axis m)
    else if k = 0 then body + y.entry (idx.set axis m)
    else body

/-- The entries before the last place of an axis. -/
def ownedPart (op : FiniteDifference) (y : Tensor K) (axis : ℕ) : Tensor K :=
  .ofFn (op.dims.set axis (op.dims.getD axis 0 - 1)) y.entry

/-- The entry a place further back, less the entry in its own place; each is left out where the axis
does not have it. -/
def shiftedEntry (op : FiniteDifference) (y : Tensor K) (axis : ℕ) (idx : List ℕ) : K :=
  let k := idx.getD axis 0
  let lifted := if k = 0 then 0 else 0 + y.entry (idx.set axis (k - 1))
  if k = op.dims.getD axis 0 - 1 then lifted else lifted - y.entry idx

/-- Shifting reads nothing of the last place. -/
theorem shiftedEntry_ownedPart (h : op.Fits axis) {y : Tensor K} {idx : List ℕ}
    (hidx : InBox op.dims idx) :
    op.shiftedEntry (op.ownedPart y axis) axis idx = op.shiftedEntry y axis idx := by
  have hlt := hidx.getD_lt h.1
  have hlifted (hk : idx.getD axis 0 ≠ 0) :
      (op.ownedPart y axis).entry (idx.set axis (idx.getD axis 0 - 1)) =
        y.entry (idx.set axis (idx.getD axis 0 - 1)) :=
    Tensor.entry_ofFn _ (hidx.set (by omega))
  have howned (hk : idx.getD axis 0 ≠ op.dims.getD axis 0 - 1) :
      (op.ownedPart y axis).entry idx = y.entry idx :=
    Tensor.entry_ofFn _ (hidx.set_dims (by omega))
  simp only [shiftedEntry]
  split_ifs with hm hk hk
  · rfl
  · rw [hlifted hk]
  · rw [howned hm]
  · rw [hlifted hk, howned hm]

theorem lastPart_entry {y : Tensor K} {idx : List ℕ} (hidx : InBox op.dims idx) :
    (op.lastPart y axis).entry (idx.set axis 0) =
      y.entry (idx.set axis (op.dims.getD axis 0 - 1)) := by
  rw [lastPart, Tensor.entry_ofFn _ (hidx.set Nat.zero_lt_one), List.set_set]

theorem cutPlace?_adjoint {y : Tensor K} (hy : y.dims = op.axisDims axis) (h : op.Fits axis)
    (hroom : Storable op.dims) :
    cutPlace? (y.extent axis) (op.dims.getD axis 0 - 1) = some (op.dims.getD axis 0 - 1) := by
  have hextent : y.extent axis = op.boundary.lineExtent (op.dims.getD axis 0 - 1) := by
    rw [Tensor.extent, hy, axisDims_eq h, getD_set_self h.1]
  refine cutPlace?_of_le ((Nat.sub_le _ _).trans_lt (hroom.1.getD_lt h.1)) ?_
  rw [hextent]
  cases op.boundary <;> simp [Boundary.lineExtent]

theorem take?_eq_ownedPart {y : Tensor K} (hy : y.dims = op.axisDims axis) (h : op.Fits axis)
    (hroom : Storable op.dims) :
    y.take? axis (op.dims.getD axis 0 - 1) = some (op.ownedPart y axis) := by
  rw [Tensor.take?_eq_some_iff]
  refine ⟨?_, _, cutPlace?_adjoint hy h hroom, ?_⟩
  · rw [Tensor.rank, hy, axisDims_eq h, List.length_set]
    exact h.1
  · rw [hy, axisDims_eq h, List.set_set, ownedPart]

theorem storable_of_adjointAlong {y v : Tensor K} (hv : op.adjointAlong y axis = some v) :
    Storable op.dims := by
  unfold adjointAlong at hv
  simp only [Option.bind_eq_bind, Option.bind_eq_some_iff] at hv
  obtain ⟨_, -, _, -, hv⟩ := hv
  cases hb : op.boundary with
  | truncate =>
    rw [hb] at hv
    exact (Tensor.build?_eq_some_iff.mp hv).1
  | appendZero | circular =>
    rw [hb] at hv
    simp only [Option.bind_eq_some_iff] at hv
    obtain ⟨_, -, _, -, hv⟩ := hv
    exact (Tensor.build?_eq_some_iff.mp hv).1

theorem adjointAlong_of_storable {y : Tensor K} (hy : y.dims = op.axisDims axis) (h : op.Fits axis)
    (hroom : Storable op.dims) :
    op.adjointAlong y axis = some (.ofFn op.dims (op.adjointEntry y axis)) := by
  have hshifted {idx : List ℕ} (hidx : InBox op.dims idx) :=
    shiftedEntry_ownedPart (y := y) h hidx
  simp only [shiftedEntry] at hshifted
  unfold adjointAlong
  simp only [Option.bind_eq_bind, take?_eq_ownedPart hy h hroom, Option.bind_some]
  rw [show (op.ownedPart y axis).stretch? _ = some (op.ownedPart y axis) from
    Tensor.stretch?_ofFn _ _, Option.bind_some]
  cases hb : op.boundary with
  | truncate =>
    refine Tensor.build?_eq_some_iff.mpr ⟨hroom, Tensor.ofFn_congr fun idx hidx => ?_⟩
    simp only [adjointEntry, hb, hshifted hidx]
  | appendZero | circular =>
    have hydims : y.dims = op.dims := by rw [hy, axisDims_of_ne_truncate (by simp [hb])]
    have hcut := cutPlace?_adjoint hy h hroom
    rw [Tensor.extent, hydims] at hcut
    simp only [drop?_last_eq_some hydims h hcut, Option.bind_some]
    rw [show (op.lastPart y axis).stretch? (op.dims.set axis 1) = some (op.lastPart y axis) from
      Tensor.stretch?_ofFn _ _, Option.bind_some]
    refine Tensor.build?_eq_some_iff.mpr ⟨hroom, Tensor.ofFn_congr fun idx hidx => ?_⟩
    simp only [adjointEntry, hb, lastPart_entry hidx, hshifted hidx]

/-- The adjoint along an axis has a value where the input extents can be stored. -/
theorem adjointAlong_eq_some_iff {y v : Tensor K} (hy : y.dims = op.axisDims axis)
    (h : op.Fits axis) :
    op.adjointAlong y axis = some v ↔
      Storable op.dims ∧ v = .ofFn op.dims (op.adjointEntry y axis) := by
  constructor
  · intro hv
    have hroom := storable_of_adjointAlong hv
    exact ⟨hroom, Option.some.inj (hv.symm.trans (adjointAlong_of_storable hy h hroom))⟩
  · rintro ⟨hroom, rfl⟩
    exact adjointAlong_of_storable hy h hroom

/-! ### Several axes -/

theorem differences_eq_ok_iff {x : Tensor K} {axes : List ℕ} {us : List (Tensor K)} :
    op.differences x axes = .ok us ↔
      List.Forall₂ (fun axis u => op.differenceAlong x axis = .ok u) axes us := by
  induction axes generalizing us with
  | nil => simp [differences, eq_comm]
  | cons axis axes ih =>
    simp only [differences, Except.bind_eq_ok_iff, ih, List.forall₂_cons_left_iff, Except.ok.injEq]
    constructor
    · rintro ⟨u, hu, rest, hrest, rfl⟩
      exact ⟨u, rest, hu, hrest, rfl⟩
    · rintro ⟨u, rest, hu, hrest, rfl⟩
      exact ⟨u, hu, rest, hrest, rfl⟩

theorem map_dims_differences {x : Tensor K} {axes : List ℕ} {us : List (Tensor K)}
    (hx : x.dims = op.dims) (hfit : ∀ axis ∈ axes, op.Fits axis)
    (hu : op.differences x axes = .ok us) : us.map (·.dims) = axes.map op.axisDims := by
  have hforall := differences_eq_ok_iff.mp hu
  clear hu
  induction hforall with
  | nil => rfl
  | cons hu _ ih =>
    obtain ⟨hfirst, hrest⟩ := List.forall_mem_cons.mp hfit
    obtain ⟨-, -, rfl⟩ := (differenceAlong_eq_ok_iff hx hfirst).mp hu
    rw [List.map_cons, List.map_cons, ih hrest, Tensor.dims_ofFn]

theorem differences_uniform {x x' : Tensor K} {axes : List ℕ} {us : List (Tensor K)}
    (hx : x.dims = op.dims) (hx' : x'.dims = op.dims) (hfit : ∀ axis ∈ axes, op.Fits axis)
    (hu : op.differences x axes = .ok us) : ∃ us', op.differences x' axes = .ok us' := by
  have hforall := differences_eq_ok_iff.mp hu
  clear hu
  induction hforall with
  | nil => exact ⟨[], rfl⟩
  | cons hu _ ih =>
    obtain ⟨hfirst, hrest⟩ := List.forall_mem_cons.mp hfit
    obtain ⟨hcut, hroom, -⟩ := (differenceAlong_eq_ok_iff hx hfirst).mp hu
    have hu' := (differenceAlong_eq_ok_iff hx' hfirst).mpr ⟨hcut, hroom, rfl⟩
    obtain ⟨rest, hus⟩ := ih hrest
    exact ⟨_, differences_eq_ok_iff.mpr (.cons hu' (differences_eq_ok_iff.mp hus))⟩

/-- An array of the input extents can be added to a sum. -/
theorem addTerm_spec {sum : Tensor K} (hsum : sum.dims = op.dims) (f : List ℕ → K) :
    ∃ next, Tensor.zip? (· + ·) sum (.ofFn op.dims f) = some next ∧ next.dims = op.dims :=
  ⟨_, Tensor.zip?_eq_some_iff.mpr ⟨hsum, rfl⟩, hsum⟩

/-- The adjoints of some blocks can be added to a sum. -/
theorem addBlocks_spec {ys : List (Tensor K)} {axes : List ℕ} {sum : Tensor K}
    (hroom : Storable op.dims) (hfit : ∀ axis ∈ axes, op.Fits axis)
    (hy : ys.map (·.dims) = axes.map op.axisDims) (hsum : sum.dims = op.dims) :
    ∃ v, op.addBlocks ys axes sum = some v ∧ v.dims = op.dims := by
  induction axes generalizing ys sum with
  | nil =>
    cases List.map_eq_nil_iff.mp hy
    exact ⟨sum, rfl, hsum⟩
  | cons axis axes ih =>
    obtain ⟨y, ys, rfl, hydims, hys⟩ := List.map_eq_cons_iff.mp hy
    obtain ⟨hfirst, hrest⟩ := List.forall_mem_cons.mp hfit
    have hterm := (adjointAlong_eq_some_iff hydims hfirst).mpr ⟨hroom, rfl⟩
    obtain ⟨next, hnext, hnextdims⟩ := addTerm_spec hsum (op.adjointEntry y axis)
    obtain ⟨v, hv, hvdims⟩ := ih hrest hys hnextdims
    exact ⟨v, by simp only [addBlocks, hterm, hnext, Option.bind_eq_bind, Option.bind_some, hv],
      hvdims⟩

/-- The adjoints of the layers of a stack from the `k`-th one on can be added to a sum. -/
theorem addLayers_spec {y : Tensor K} {count : ℕ} {d : List ℕ} {axes : List ℕ} {k : ℕ}
    {sum : Tensor K} (hroom : Storable op.dims) (hfit : ∀ axis ∈ axes, op.Fits axis)
    (hy : y.dims = count :: d) (hd : ∀ axis ∈ axes, op.axisDims axis = d)
    (hk : k + axes.length ≤ count) (hsum : sum.dims = op.dims) :
    ∃ v, op.addLayers y axes k sum = some v ∧ v.dims = op.dims := by
  induction axes generalizing k sum with
  | nil => exact ⟨sum, rfl, hsum⟩
  | cons axis axes ih =>
    obtain ⟨hfirst, hrest⟩ := List.forall_mem_cons.mp hfit
    obtain ⟨hdfirst, hdrest⟩ := List.forall_mem_cons.mp hd
    rw [List.length_cons] at hk
    have hlayer := (Tensor.layer?_eq_some_iff (k := k) hy).mpr ⟨by omega, rfl⟩
    have hterm := (adjointAlong_eq_some_iff (y := .ofFn d fun idx => y.entry (k :: idx))
      hdfirst.symm hfirst).mpr ⟨hroom, rfl⟩
    obtain ⟨next, hnext, hnextdims⟩ :=
      addTerm_spec hsum (op.adjointEntry (.ofFn d fun idx => y.entry (k :: idx)) axis)
    obtain ⟨v, hv, hvdims⟩ := ih hrest hdrest (k := k + 1) (by omega) hnextdims
    exact ⟨v, by simp only [addLayers, hlayer, hterm, hnext, Option.bind_eq_bind,
      Option.bind_some, hv], hvdims⟩

theorem dims_of_mem_differences {x : Tensor K} {parts : List (Tensor K)} {d : List ℕ}
    (hx : x.dims = op.dims) (hd : ∀ axis ∈ op.axes, op.axisDims axis = d)
    (hparts : op.differences x op.axes = .ok parts) : ∀ u ∈ parts, u.dims = d := by
  intro u hu
  have hmem : u.dims ∈ op.axes.map op.axisDims := by
    rw [← map_dims_differences hx op.fits hparts]
    exact List.mem_map_of_mem hu
  obtain ⟨axis, haxis, heq⟩ := List.mem_map.mp hmem
  rw [← heq, hd axis haxis]

theorem dims_stack_differences {x r : Tensor K} {parts : List (Tensor K)} {d : List ℕ}
    (hx : x.dims = op.dims) (hd : ∀ axis ∈ op.axes, op.axisDims axis = d)
    (hparts : op.differences x op.axes = .ok parts) (hr : Tensor.stack parts = .ok r) :
    r.dims = op.axes.length :: d := by
  have hlen : parts.length = op.axes.length := by
    simpa using congrArg List.length (map_dims_differences hx op.fits hparts)
  have hall := dims_of_mem_differences hx hd hparts
  cases parts with
  | nil => cases hr
  | cons u us =>
    obtain ⟨-, -, rfl⟩ := Tensor.stack_eq_ok_iff.mp hr
    rw [Tensor.dims_ofFn, hall u List.mem_cons_self, ← hlen, List.length_cons]

/-- Differences are one array, a stack of equal arrays, or blocks. -/
theorem layout_cases (op : FiniteDifference) :
    (∃ axis, op.axes = [axis] ∧ op.output = .flat (op.axisDims axis)) ∨
    (∃ d, (∀ axis, op.axes ≠ [axis]) ∧ op.isStacked = true ∧
      (∀ axis ∈ op.axes, op.axisDims axis = d) ∧ op.output = .flat (op.axes.length :: d)) ∨
    ((∀ axis, op.axes ≠ [axis]) ∧ op.isStacked = false ∧
      op.output = .blocked (op.axes.map op.axisDims)) := by
  unfold output
  match haxes : op.axes with
  | [] => exact absurd haxes op.axes_ne_nil
  | [axis] => exact .inl ⟨axis, rfl, rfl⟩
  | axis :: next :: rest =>
    right
    cases hstacked : op.isStacked with
    | true =>
      refine .inl ⟨op.axisDims axis, by simp, rfl, ?_, rfl⟩
      intro a ha
      unfold isStacked at hstacked
      rw [haxes] at hstacked
      have hsame := List.all_eq_true.mp hstacked (op.axisDims a) (List.mem_map_of_mem ha)
      exact (Option.some.inj (of_decide_eq_true hsame)).symm
    | false => exact .inr ⟨by simp, rfl, rfl⟩

theorem forward_single {x : Tensor K} (haxes : op.axes = [axis]) :
    op.forward (.flat x) = (op.differenceAlong x axis).map .flat := by
  unfold forward
  rw [haxes]
  rfl

/-- Differences along several axes, arranged in one array or in blocks. -/
def arrange (op : FiniteDifference) (parts : List (Tensor K)) : Except Error (Signal K) :=
  if op.isStacked then
    match Tensor.stack parts with
    | .ok t => .ok (.flat t)
    | .error fault => .error (.numerical (.stacking fault))
  else .ok (.blocked parts)

theorem forward_several {x : Tensor K} (haxes : ∀ axis, op.axes ≠ [axis]) :
    op.forward (.flat x) = op.differences x op.axes >>= op.arrange := by
  unfold forward
  split
  · next axis h => exact absurd h (haxes axis)
  · rfl

theorem forward_stacked_eq_ok_iff {x : Tensor K} {u : Signal K} (haxes : ∀ axis, op.axes ≠ [axis])
    (hstacked : op.isStacked = true) :
    op.forward (.flat x) = .ok u ↔
      ∃ parts, op.differences x op.axes = .ok parts ∧ ∃ t, Tensor.stack parts = .ok t ∧
        .flat t = u := by
  simp only [forward_several haxes, Except.bind_eq_ok_iff, arrange, hstacked, if_true]
  refine exists_congr fun parts => and_congr_right fun _ => ?_
  cases Tensor.stack parts <;> simp

theorem forward_blocked_eq_ok_iff {x : Tensor K} {u : Signal K} (haxes : ∀ axis, op.axes ≠ [axis])
    (hstacked : op.isStacked = false) :
    op.forward (.flat x) = .ok u ↔
      ∃ parts, op.differences x op.axes = .ok parts ∧ .blocked parts = u := by
  simp [forward_several haxes, Except.bind_eq_ok_iff, arrange, hstacked]

/-- The array to which the adjoints of several axes are added. -/
theorem zeros_eq_some (hroom : Storable op.dims) :
    Tensor.build? op.dims (fun _ => (0 : K)) = some (.ofFn op.dims fun _ => 0) :=
  Tensor.build?_eq_some_iff.mpr ⟨hroom, rfl⟩

theorem storable_of_adjoint {y v : Signal K} (h : op.adjoint y = .ok v) : Storable op.dims := by
  unfold adjoint at h
  obtain ⟨t, ht, -⟩ := Except.map_eq_ok_iff.mp h
  rw [orMisuse_eq_ok_iff, Option.bind_eq_bind, Option.bind_eq_some_iff] at ht
  obtain ⟨zero, hzero, -⟩ := ht
  exact (Tensor.build?_eq_some_iff.mp hzero).1

theorem adjoint_single {y : Tensor K} (hroom : Storable op.dims) (haxes : op.axes = [axis]) :
    op.adjoint (.flat y) = (orMisuse (op.adjointAlong y axis)).map .flat := by
  unfold adjoint
  simp only [zeros_eq_some hroom, haxes, Option.bind_eq_bind, Option.bind_some]

theorem adjoint_stacked {y : Tensor K} (hroom : Storable op.dims)
    (haxes : ∀ axis, op.axes ≠ [axis]) :
    op.adjoint (.flat y) =
      (orMisuse (op.addLayers y op.axes 0 (.ofFn op.dims fun _ => 0))).map .flat := by
  unfold adjoint
  simp only [zeros_eq_some hroom, Option.bind_eq_bind, Option.bind_some]

theorem adjoint_blocked {ys : List (Tensor K)} (hroom : Storable op.dims) :
    op.adjoint (.blocked ys) =
      (orMisuse (op.addBlocks ys op.axes (.ofFn op.dims fun _ => 0))).map .flat := by
  unfold adjoint
  simp only [zeros_eq_some hroom, Option.bind_eq_bind, Option.bind_some]

/-- Whenever there is room for the input, the adjoint has a value. -/
theorem adjoint_spec (hroom : Storable op.dims) {y : Signal K} (hy : y.shape = op.output) :
    ∃ v, op.adjoint y = .ok v ∧ v.shape = op.input := by
  have hzero : (Tensor.ofFn op.dims fun _ => (0 : K)).dims = op.dims := rfl
  rcases op.layout_cases with ⟨axis, haxes, hout⟩ | ⟨d, haxes, hstacked, hd, hout⟩ |
    ⟨haxes, hstacked, hout⟩
  · rw [hout] at hy
    obtain ⟨y, rfl, hydims⟩ := Signal.exists_of_shape_flat hy
    have hfit : op.Fits axis := op.fits axis (by rw [haxes]; exact List.mem_singleton_self axis)
    have hv := (adjointAlong_eq_some_iff hydims hfit).mpr ⟨hroom, rfl⟩
    exact ⟨_, by rw [adjoint_single hroom haxes, hv]; rfl, rfl⟩
  · rw [hout] at hy
    obtain ⟨y, rfl, hydims⟩ := Signal.exists_of_shape_flat hy
    obtain ⟨v, hv, hvdims⟩ := addLayers_spec hroom op.fits hydims hd (Nat.zero_add _).le hzero
    exact ⟨.flat v, by rw [adjoint_stacked hroom haxes, hv]; rfl, congrArg Shape.flat hvdims⟩
  · rw [hout] at hy
    obtain ⟨ys, rfl, hys⟩ := Signal.exists_of_shape_blocked hy
    obtain ⟨v, hv, hvdims⟩ := addBlocks_spec hroom op.fits hys hzero
    exact ⟨.flat v, by rw [adjoint_blocked hroom, hv]; rfl, congrArg Shape.flat hvdims⟩

theorem shape_forward {x u : Signal K} (hx : x.shape = op.input) (hu : op.forward x = .ok u) :
    u.shape = op.output := by
  obtain ⟨x, rfl, hxdims⟩ := Signal.exists_of_shape_flat hx
  rcases op.layout_cases with ⟨axis, haxes, hout⟩ | ⟨d, haxes, hstacked, hd, hout⟩ |
    ⟨haxes, hstacked, hout⟩
  · have hfit : op.Fits axis := op.fits axis (by rw [haxes]; exact List.mem_singleton_self axis)
    rw [forward_single haxes] at hu
    obtain ⟨u, hdiff, rfl⟩ := Except.map_eq_ok_iff.mp hu
    obtain ⟨-, -, rfl⟩ := (differenceAlong_eq_ok_iff hxdims hfit).mp hdiff
    rw [hout]
    rfl
  · obtain ⟨parts, hparts, r, hr, rfl⟩ := (forward_stacked_eq_ok_iff haxes hstacked).mp hu
    rw [hout, Signal.shape, dims_stack_differences hxdims hd hparts hr]
  · obtain ⟨parts, hparts, rfl⟩ := (forward_blocked_eq_ok_iff haxes hstacked).mp hu
    rw [hout, Signal.shape, map_dims_differences hxdims op.fits hparts]

theorem forward_uniform {x u x' : Signal K} (hx : x.shape = op.input) (hu : op.forward x = .ok u)
    (hx' : x'.shape = op.input) : ∃ u', op.forward x' = .ok u' := by
  obtain ⟨x, rfl, hxdims⟩ := Signal.exists_of_shape_flat hx
  obtain ⟨x', rfl, hxdims'⟩ := Signal.exists_of_shape_flat hx'
  rcases op.layout_cases with ⟨axis, haxes, hout⟩ | ⟨d, haxes, hstacked, hd, hout⟩ |
    ⟨haxes, hstacked, hout⟩
  · have hfit : op.Fits axis := op.fits axis (by rw [haxes]; exact List.mem_singleton_self axis)
    rw [forward_single haxes] at hu
    obtain ⟨u, hdiff, rfl⟩ := Except.map_eq_ok_iff.mp hu
    obtain ⟨hcut, hroom, -⟩ := (differenceAlong_eq_ok_iff hxdims hfit).mp hdiff
    rw [forward_single haxes]
    exact ⟨_, Except.map_eq_ok_iff.mpr
      ⟨_, (differenceAlong_eq_ok_iff hxdims' hfit).mpr ⟨hcut, hroom, rfl⟩, rfl⟩⟩
  · obtain ⟨parts, hparts, r, hr, rfl⟩ := (forward_stacked_eq_ok_iff haxes hstacked).mp hu
    obtain ⟨parts', hparts'⟩ := differences_uniform hxdims hxdims' op.fits hparts
    obtain ⟨r', hr'⟩ : ∃ r', Tensor.stack parts' = .ok r' := by
      have hdims := map_dims_differences hxdims op.fits hparts
      rw [← map_dims_differences hxdims' op.fits hparts'] at hdims
      exact Tensor.stack_uniform hdims hr
    exact ⟨_, (forward_stacked_eq_ok_iff haxes hstacked).mpr ⟨parts', hparts', r', hr', rfl⟩⟩
  · obtain ⟨parts, hparts, rfl⟩ := (forward_blocked_eq_ok_iff haxes hstacked).mp hu
    obtain ⟨parts', hparts'⟩ := differences_uniform hxdims hxdims' op.fits hparts
    exact ⟨_, (forward_blocked_eq_ok_iff haxes hstacked).mpr ⟨parts', hparts', rfl⟩⟩

theorem forward_shapedMap (op : FiniteDifference) :
    ShapedMap (K := K) op.forward op.input op.output := ⟨shape_forward, forward_uniform⟩

theorem adjoint_shapedMap (op : FiniteDifference) :
    ShapedMap (K := K) op.adjoint op.output op.input where
  shape_eq hy hv := by
    obtain ⟨v', hv', hshape⟩ := adjoint_spec (storable_of_adjoint hv) hy
    cases hv.symm.trans hv'
    exact hshape
  uniform _ hv hy' := by
    obtain ⟨v', hv', -⟩ := adjoint_spec (storable_of_adjoint hv) hy'
    exact ⟨v', hv'⟩

theorem differences_of_addressable {x : Tensor K} {axes : List ℕ} (hx : x.dims = op.dims)
    (hfit : ∀ axis ∈ axes, op.Fits axis) (hroom : Addressable op.dims) :
    ∃ us, op.differences x axes = .ok us := by
  induction axes with
  | nil => exact ⟨[], rfl⟩
  | cons axis axes ih =>
    obtain ⟨hfirst, hrest⟩ := List.forall_mem_cons.mp hfit
    obtain ⟨us, hus⟩ := ih hrest
    have hlt := hroom.getD_lt hfirst.1
    have hu := (differenceAlong_eq_ok_iff hx hfirst).mpr
      ⟨cutPlace?_of_le (by omega) (Nat.sub_le _ _), fun _ => hroom, rfl⟩
    exact ⟨_, differences_eq_ok_iff.mpr (.cons hu (differences_eq_ok_iff.mp hus))⟩

theorem forward_totalOn (hinput : op.input.Roomy) (houtput : op.output.Roomy) :
    TotalOn (K := K) op.forward op.input := by
  intro x hx
  obtain ⟨x, rfl, hxdims⟩ := Signal.exists_of_shape_flat hx
  have hroom : Addressable op.dims := (Roomy.storable hinput).1
  obtain ⟨parts, hparts⟩ := differences_of_addressable hxdims op.fits hroom
  rcases op.layout_cases with ⟨axis, haxes, hout⟩ | ⟨d, haxes, hstacked, hd, hout⟩ |
    ⟨haxes, hstacked, hout⟩
  · rw [haxes] at hparts
    obtain ⟨u, _, hu, -⟩ := List.forall₂_cons_left_iff.mp (differences_eq_ok_iff.mp hparts)
    rw [forward_single haxes]
    exact ⟨_, Except.map_eq_ok_iff.mpr ⟨u, hu, rfl⟩⟩
  · obtain ⟨r, hr⟩ : ∃ r, Tensor.stack parts = .ok r := by
      have hall := dims_of_mem_differences hxdims hd hparts
      have hlen : parts.length = op.axes.length := by
        simpa using congrArg List.length (map_dims_differences hxdims op.fits hparts)
      rw [hout] at houtput
      cases parts with
      | nil => exact absurd (List.length_eq_zero_iff.mp hlen.symm) op.axes_ne_nil
      | cons u us =>
        refine ⟨_, Tensor.stack_eq_ok_iff.mpr ⟨fun s hs => ?_, ?_, rfl⟩⟩
        · rw [hall s (List.mem_cons_of_mem _ hs), hall u List.mem_cons_self]
        · rw [hall u List.mem_cons_self, ← List.length_cons (a := u), hlen]
          exact (Roomy.storable houtput).1
    exact ⟨_, (forward_stacked_eq_ok_iff haxes hstacked).mpr ⟨parts, hparts, r, hr, rfl⟩⟩
  · exact ⟨_, (forward_blocked_eq_ok_iff haxes hstacked).mpr ⟨parts, hparts, rfl⟩⟩

theorem adjoint_totalOn (h : op.input.Roomy) : TotalOn (K := K) op.adjoint op.output := by
  intro y hy
  have hroom : Storable op.dims := Roomy.storable h
  obtain ⟨v, hv, -⟩ := adjoint_spec hroom hy
  exact ⟨v, hv⟩

end Shapes

section Pairing

variable [ExactScalar K]

/-! ### The pairing along an axis -/

/-- Along a line of the axis the differences are those of the line. -/
theorem val_differenceEntry {x : Tensor K} {l : List ℕ} (hl : axis < l.length) (k : ℕ) :
    val (op.differenceEntry x axis (l.set axis k)) =
      op.boundary.differenceLine (op.dims.getD axis 0 - 1)
        (fun k => val (x.entry (l.set axis k))) k := by
  have hplace : (l.set axis k).getD axis 0 = k := getD_set_self hl k
  simp only [differenceEntry, hplace, List.set_set, Boundary.differenceLine]
  split_ifs
  · rw [val_sub]
  · cases op.boundary
    · rw [val_zero]
    · rw [val_neg]
    · rw [val_sub]

theorem conj_val_adjointEntry {y : Tensor K} {l : List ℕ} (hl : axis < l.length) (k : ℕ) :
    (starRingEnd ℂ) (val (op.adjointEntry y axis (l.set axis k))) =
      op.boundary.adjointLine (op.dims.getD axis 0 - 1)
        (fun k => (starRingEnd ℂ) (val (y.entry (l.set axis k)))) k := by
  have hplace : (l.set axis k).getD axis 0 = k := getD_set_self hl k
  simp only [adjointEntry, hplace, List.set_set, Boundary.adjointLine]
  cases op.boundary <;> split_ifs <;> simp <;> ring

/-- Along one axis both sides of the pairing are sums over lines. -/
theorem pairing_along {x y u v : Tensor K} (hx : x.dims = op.dims) (hy : y.dims = op.axisDims axis)
    (h : op.Fits axis) (hu : op.differenceAlong x axis = .ok u)
    (hv : op.adjointAlong y axis = some v) : y.pairing u = v.pairing x := by
  obtain ⟨-, -, rfl⟩ := (differenceAlong_eq_ok_iff hx h).mp hu
  obtain ⟨-, rfl⟩ := (adjointAlong_eq_some_iff hy h).mp hv
  set m := op.dims.getD axis 0 - 1 with hm
  have hmpos : 0 < m := by
    have := h.2
    omega
  have hn : op.dims.getD axis 0 = m + 1 := by omega
  have haxisDims : op.axisDims axis = op.dims.set axis (op.boundary.lineExtent m) := axisDims_eq h
  have haxis : axis < (op.axisDims axis).length := by
    rw [haxisDims, List.length_set]
    exact h.1
  have houter : (op.axisDims axis).set axis 1 = op.dims.set axis 1 := by
    rw [haxisDims, List.set_set]
  have hextent : (op.axisDims axis).getD axis 0 = op.boundary.lineExtent m := by
    rw [haxisDims, getD_set_self h.1]
  rw [Tensor.pairing, Tensor.pairing, hy, sum_box_axis haxis, Tensor.dims_ofFn, sum_box_axis h.1,
    houter, hextent, hn]
  apply Finset.sum_congr rfl
  intro l hl
  rw [mem_box] at hl
  have hllen : axis < l.length := by
    rw [hl.length_eq, List.length_set]
    exact h.1
  have hbox {k n : ℕ} (hk : k < n) : InBox (op.dims.set axis n) (l.set axis k) := by
    have hset : InBox ((op.dims.set axis 1).set axis n) (l.set axis k) := hl.set hk
    rwa [List.set_set] at hset
  have hforward : ∀ k ∈ Finset.range (op.boundary.lineExtent m),
      (starRingEnd ℂ) (val (y.entry (l.set axis k))) *
        val ((Tensor.ofFn (op.axisDims axis) (op.differenceEntry x axis)).entry (l.set axis k)) =
      (starRingEnd ℂ) (val (y.entry (l.set axis k))) *
        op.boundary.differenceLine m (fun k => val (x.entry (l.set axis k))) k := by
    intro k hk
    have hinside := hbox (Finset.mem_range.mp hk)
    rw [← haxisDims] at hinside
    rw [Tensor.entry_ofFn _ hinside, val_differenceEntry hllen]
  have hadjoint : ∀ k ∈ Finset.range (m + 1),
      (starRingEnd ℂ) (val ((Tensor.ofFn op.dims (op.adjointEntry y axis)).entry (l.set axis k))) *
        val (x.entry (l.set axis k)) =
      op.boundary.adjointLine m (fun k => (starRingEnd ℂ) (val (y.entry (l.set axis k)))) k *
        val (x.entry (l.set axis k)) := by
    intro k hk
    have hinside := hbox (Finset.mem_range.mp hk)
    rw [← hn, list_set_getD h.1 rfl] at hinside
    rw [Tensor.entry_ofFn _ hinside, conj_val_adjointEntry hllen]
  rw [Finset.sum_congr rfl hforward, Finset.sum_congr rfl hadjoint]
  exact op.boundary.sum_differenceLine hmpos _ _

/-! ### The pairing along several axes -/

/-- The adjoints of some blocks, added to a sum. -/
theorem pairing_addBlocks {ys us : List (Tensor K)} {axes : List ℕ} {sum v x : Tensor K}
    (hfit : ∀ axis ∈ axes, op.Fits axis) (hy : ys.map (·.dims) = axes.map op.axisDims)
    (hv : op.addBlocks ys axes sum = some v) (hx : x.dims = op.dims)
    (hus : op.differences x axes = .ok us) :
    v.pairing x = sum.pairing x + (Signal.blocked ys).pairing (.blocked us) := by
  induction axes generalizing ys us sum with
  | nil =>
    cases List.map_eq_nil_iff.mp hy
    cases hv
    cases hus
    rw [Signal.pairing_blocked_nil, add_zero]
  | cons axis axes ih =>
    obtain ⟨y, ys, rfl, hydims, hys⟩ := List.map_eq_cons_iff.mp hy
    obtain ⟨hfirst, hrest⟩ := List.forall_mem_cons.mp hfit
    simp only [addBlocks, Option.bind_eq_bind, Option.bind_eq_some_iff] at hv
    obtain ⟨term, hterm, next, hnext, hv⟩ := hv
    obtain ⟨u, urest, hu, hurest, rfl⟩ :=
      List.forall₂_cons_left_iff.mp (differences_eq_ok_iff.mp hus)
    have hudims : y.dims = u.dims := by
      obtain ⟨-, -, rfl⟩ := (differenceAlong_eq_ok_iff hx hfirst).mp hu
      exact hydims
    rw [ih hrest hys hv (differences_eq_ok_iff.mpr hurest), Tensor.pairing_zip_add_left hnext,
      Signal.pairing_blocked_cons hudims, pairing_along hx hydims hfirst hu hterm, add_assoc]

/-- The adjoints of the layers of a stack from the `k`-th one on, added to a sum. -/
theorem pairing_addLayers {y : Tensor K} {count : ℕ} {d : List ℕ} {axes : List ℕ} {k : ℕ}
    {sum v x : Tensor K} {us : List (Tensor K)} (hfit : ∀ axis ∈ axes, op.Fits axis)
    (hy : y.dims = count :: d) (hd : ∀ axis ∈ axes, op.axisDims axis = d)
    (hk : k + axes.length ≤ count) (hv : op.addLayers y axes k sum = some v)
    (hx : x.dims = op.dims) (hus : op.differences x axes = .ok us) :
    v.pairing x = sum.pairing x + ∑ i ∈ Finset.range axes.length, ∑ idx ∈ box d,
      (starRingEnd ℂ) (val (y.entry ((k + i) :: idx))) * val (layerEntry us i idx) := by
  induction axes generalizing k sum us with
  | nil =>
    cases hv
    cases hus
    rw [List.length_nil, Finset.sum_range_zero, add_zero]
  | cons axis axes ih =>
    obtain ⟨hfirst, hrest⟩ := List.forall_mem_cons.mp hfit
    obtain ⟨hdfirst, hdrest⟩ := List.forall_mem_cons.mp hd
    rw [List.length_cons] at hk
    have hlayer := (Tensor.layer?_eq_some_iff (k := k) hy).mpr ⟨by omega, rfl⟩
    simp only [addLayers, hlayer, Option.bind_eq_bind, Option.bind_some,
      Option.bind_eq_some_iff] at hv
    obtain ⟨term, hterm, next, hnext, hv⟩ := hv
    obtain ⟨u, urest, hu, hurest, rfl⟩ :=
      List.forall₂_cons_left_iff.mp (differences_eq_ok_iff.mp hus)
    have halong := pairing_along hx hdfirst.symm hfirst hu hterm
    have hpart : (Tensor.ofFn d fun idx => y.entry (k :: idx)).pairing u =
        ∑ idx ∈ box d, (starRingEnd ℂ) (val (y.entry (k :: idx))) * val (u.entry idx) := by
      rw [Tensor.pairing, Tensor.dims_ofFn]
      apply Finset.sum_congr rfl
      intro idx hidx
      rw [Tensor.entry_ofFn _ (mem_box.mp hidx)]
    rw [ih hrest hdrest (by omega) hv (differences_eq_ok_iff.mpr hurest),
      Tensor.pairing_zip_add_left hnext, ← halong, hpart, List.length_cons,
      Finset.sum_range_succ', add_assoc, Nat.add_zero]
    congr 1
    rw [add_comm]
    congr 1
    apply Finset.sum_congr rfl
    intro i _
    rw [Nat.add_assoc, Nat.add_comm 1 i]
    rfl

/-- The pairing with a stack is a sum over the layers. -/
theorem pairing_stack {y r : Tensor K} {us : List (Tensor K)} {count : ℕ} {d : List ℕ}
    (hy : y.dims = count :: d) (hcount : us.length = count)
    (hr : Tensor.stack us = .ok r) (hrdims : r.dims = count :: d) :
    y.pairing r = ∑ i ∈ Finset.range count, ∑ idx ∈ box d,
      (starRingEnd ℂ) (val (y.entry (i :: idx))) * val (layerEntry us i idx) := by
  cases us with
  | nil => cases hr
  | cons u us =>
    obtain ⟨-, -, rfl⟩ := Tensor.stack_eq_ok_iff.mp hr
    rw [Tensor.dims_ofFn] at hrdims
    rw [Tensor.pairing, hy, sum_box_cons]
    apply Finset.sum_congr rfl
    intro i hi
    apply Finset.sum_congr rfl
    intro idx hidx
    have hbox : InBox (count :: d) (i :: idx) := ⟨Finset.mem_range.mp hi, mem_box.mp hidx⟩
    rw [hrdims, Tensor.entry_ofFn _ hbox]
    rfl

/-- The pairing moves from the differences to the adjoint. -/
theorem pairing_forward (op : FiniteDifference) {x y u v : Signal K} (hx : x.shape = op.input)
    (hy : y.shape = op.output) (hu : op.forward x = .ok u) (hv : op.adjoint y = .ok v) :
    y.pairing u = v.pairing x := by
  have hroom := storable_of_adjoint hv
  have hvshape : v.shape = op.input := op.adjoint_shapedMap.shape_eq hy hv
  obtain ⟨x, rfl, hxdims⟩ := Signal.exists_of_shape_flat hx
  rcases op.layout_cases with ⟨axis, haxes, hout⟩ | ⟨d, haxes, hstacked, hd, hout⟩ |
    ⟨haxes, hstacked, hout⟩
  · rw [hout] at hy
    obtain ⟨y, rfl, hydims⟩ := Signal.exists_of_shape_flat hy
    have hfit : op.Fits axis := op.fits axis (by rw [haxes]; exact List.mem_singleton_self axis)
    rw [adjoint_single hroom haxes] at hv
    obtain ⟨v, hsum, rfl⟩ := Except.map_eq_ok_iff.mp hv
    rw [forward_single haxes] at hu
    obtain ⟨u, hdiff, rfl⟩ := Except.map_eq_ok_iff.mp hu
    have hudims : u.dims = op.axisDims axis := by
      obtain ⟨-, -, rfl⟩ := (differenceAlong_eq_ok_iff hxdims hfit).mp hdiff
      rfl
    rw [Signal.pairing_flat (hydims.trans hudims.symm),
      pairing_along hxdims hydims hfit hdiff (orMisuse_eq_ok_iff.mp hsum),
      Signal.pairing_flat ((Shape.flat.inj hvshape).trans hxdims.symm)]
  · rw [hout] at hy
    obtain ⟨y, rfl, hydims⟩ := Signal.exists_of_shape_flat hy
    rw [adjoint_stacked hroom haxes] at hv
    obtain ⟨v, hsum, rfl⟩ := Except.map_eq_ok_iff.mp hv
    obtain ⟨parts, hparts, r, hr, rfl⟩ := (forward_stacked_eq_ok_iff haxes hstacked).mp hu
    have hrdims := dims_stack_differences hxdims hd hparts hr
    have hlen : parts.length = op.axes.length := by
      simpa using congrArg List.length (map_dims_differences hxdims op.fits hparts)
    rw [Signal.pairing_flat (hydims.trans hrdims.symm),
      Signal.pairing_flat ((Shape.flat.inj hvshape).trans hxdims.symm),
      pairing_addLayers op.fits hydims hd (Nat.zero_add _).le (orMisuse_eq_ok_iff.mp hsum) hxdims
        hparts, Tensor.pairing_zero_left, zero_add, pairing_stack hydims hlen hr hrdims]
    simp only [Nat.zero_add]
  · rw [hout] at hy
    obtain ⟨ys, rfl, hys⟩ := Signal.exists_of_shape_blocked hy
    rw [adjoint_blocked hroom] at hv
    obtain ⟨v, hsum, rfl⟩ := Except.map_eq_ok_iff.mp hv
    obtain ⟨parts, hparts, rfl⟩ := (forward_blocked_eq_ok_iff haxes hstacked).mp hu
    rw [Signal.pairing_flat ((Shape.flat.inj hvshape).trans hxdims.symm),
      pairing_addBlocks op.fits hys (orMisuse_eq_ok_iff.mp hsum) hxdims hparts,
      Tensor.pairing_zero_left, zero_add]

theorem adjointMaps (op : FiniteDifference) :
    AdjointMaps (K := K) op.forward op.adjoint op.input op.output where
  forward := op.forward_shapedMap
  backward := op.adjoint_shapedMap
  pairing_eq := op.pairing_forward

end Pairing

end FiniteDifference

end OperatorSplitting
