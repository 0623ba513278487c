import Mathlib
import OperatorSplitting.Linear.Convolution
import OperatorSplitting.Proofs.Linear.AdjointMaps
import OperatorSplitting.Proofs.Tensor.Summing

/-!
# Convolution and correlation

An output place of a convolution is the sum of an input place and a kernel place, and the loops over
the kernel are sums over its box.  Both sides of the pairing are then the sum, over all input and
kernel places, of a kernel entry times the input entry times the conjugate output entry at the sum of
the places.  The windows of the adjoint fit when no extent of the result has been reduced.
-/

namespace OperatorSplitting

open ExactScalar

/-! ### Adding places -/

/-- The sum of two places. -/
def addPlaces (i j : List ℕ) : List ℕ := List.zipWith (· + ·) i j

/-- Row-major positions are additive. -/
theorem offset_addPlaces {dims i j : List ℕ} (hi : i.length = dims.length)
    (hj : j.length = dims.length) :
    offset dims (addPlaces i j) = offset dims i + offset dims j := by
  induction dims generalizing i j with
  | nil => simp [offset]
  | cons d ds ih =>
    cases i with
    | nil => simp at hi
    | cons a as =>
      cases j with
      | nil => simp at hj
      | cons b bs =>
        have hrest := ih (i := as) (j := bs) (by simpa using hi) (by simpa using hj)
        rw [addPlaces] at hrest ⊢
        simp only [List.zipWith_cons_cons, offset, hrest]
        ring

/-- Along the first axis the input place is the difference of the two others. -/
theorem exists_addPlaces_cons_iff {n m j : ℕ} {ns ms js : List ℕ} {p : List ℕ → Prop} :
    (∃ i, InBox (n :: ns) i ∧ m :: ms = addPlaces i (j :: js) ∧ p i) ↔
      (j ≤ m ∧ m - j < n) ∧ ∃ i, InBox ns i ∧ ms = addPlaces i js ∧ p ((m - j) :: i) := by
  constructor
  · rintro ⟨i, hi, hplaces, hp⟩
    cases i with
    | nil => exact absurd hi (by simp [InBox])
    | cons a as =>
      simp only [addPlaces, List.zipWith_cons_cons, List.cons.injEq] at hplaces
      have hmj : m - j = a := Nat.sub_eq_of_eq_add hplaces.1
      have ha : a < n := hi.1
      exact ⟨⟨by omega, hmj ▸ ha⟩, as, hi.2, hplaces.2, hmj ▸ hp⟩
  · rintro ⟨⟨hle, hlt⟩, i, hi, rfl, hp⟩
    refine ⟨(m - j) :: i, ⟨hlt, hi⟩, ?_, hp⟩
    show m :: addPlaces i js = (m - j + j) :: addPlaces i js
    rw [Nat.sub_add_cancel hle]

/-- The input place that an output place reads through a kernel place. -/
theorem backOffset?_eq_some_iff {ns ms js : List ℕ} {start k : ℕ} (hm : ms.length = ns.length)
    (hj : js.length = ns.length) :
    backOffset? ns ms js start = some k ↔
      ∃ i, InBox ns i ∧ ms = addPlaces i js ∧ k = start * volume ns + offset ns i := by
  induction ns generalizing ms js start with
  | nil =>
    cases List.length_eq_zero_iff.mp hm
    cases List.length_eq_zero_iff.mp hj
    simp [backOffset?, inBox_nil_iff, addPlaces, volume, offset, eq_comm]
  | cons n ns ih =>
    cases ms with
    | nil => simp at hm
    | cons m ms =>
      cases js with
      | nil => simp at hj
      | cons j js =>
        have hrest : backOffset? ns ms js (start * n + (m - j)) = some k ↔
            ∃ i, InBox ns i ∧ ms = addPlaces i js ∧
              k = (start * n + (m - j)) * volume ns + offset ns i :=
          ih (by simpa using hm) (by simpa using hj)
        have hoffset (i : List ℕ) : (start * n + (m - j)) * volume ns + offset ns i =
            start * volume (n :: ns) + offset (n :: ns) ((m - j) :: i) := by
          simp only [volume, offset]
          ring
        rw [backOffset?, exists_addPlaces_cons_iff]
        by_cases hfit : j ≤ m ∧ m - j < n
        · rw [if_pos hfit, hrest, and_iff_right hfit]
          simp only [hoffset]
        · rw [if_neg hfit]
          constructor
          · intro h
            cases h
          · exact fun h => absurd h.1 hfit

theorem addPlaces_left_inj {ns i i' js : List ℕ} (hi : InBox ns i) (hi' : InBox ns i')
    (hj : js.length = ns.length) (h : addPlaces i js = addPlaces i' js) : i = i' := by
  induction ns generalizing i i' js with
  | nil => rw [inBox_nil_iff.mp hi, inBox_nil_iff.mp hi']
  | cons n ns ih =>
    cases i with
    | nil => exact absurd hi (by simp [InBox])
    | cons a as =>
      cases i' with
      | nil => exact absurd hi' (by simp [InBox])
      | cons a' as' =>
        cases js with
        | nil => simp at hj
        | cons j js =>
          simp only [addPlaces, List.zipWith_cons_cons, List.cons.injEq] at h
          rw [ih hi.2 hi'.2 (by simpa using hj) h.2, Nat.add_right_cancel h.1]

/-- Sums of input and kernel places are output places. -/
theorem inBox_addPlaces {out ns ks i j : List ℕ} (hfit : Convolution.windowsFit out ns ks = true)
    (hlen : out.length = ns.length) (hi : InBox ns i) (hj : InBox ks j) :
    InBox out (addPlaces i j) := by
  induction out generalizing ns ks i j with
  | nil =>
    cases List.length_eq_zero_iff.mp hlen.symm
    rw [inBox_nil_iff.mp hi]
    trivial
  | cons y ys ih =>
    cases ns with
    | nil => simp at hlen
    | cons n ns =>
      cases ks with
      | nil => simp [Convolution.windowsFit] at hfit
      | cons k ks =>
        cases i with
        | nil => exact absurd hi (by simp [InBox])
        | cons a as =>
          cases j with
          | nil => exact absurd hj (by simp [InBox])
          | cons b bs =>
            simp only [Convolution.windowsFit, Bool.and_eq_true, decide_eq_true_eq] at hfit
            refine ⟨?_, ih hfit.2 (by simpa using hlen) hi.2 hj.2⟩
            have ha := hi.1
            have hb := hj.1
            show a + b < y
            omega

namespace Convolution

variable {K R W : Type} {op : Convolution K}

theorem length_outputDims (op : Convolution K) : op.outputDims.length = op.dims.length := by
  rw [outputDims, List.length_zipWith, op.rank_eq, Nat.min_self]

/-! ### Shapes and room -/

/-- The windows fit if extents of the result have not been reduced. -/
theorem windowsFit_outputDims {ns ks : List ℕ} (hlen : ks.length = ns.length) (hn : Roomy ns)
    (hk : Roomy ks) :
    windowsFit (List.zipWith (fun n k => (n + k - 1) % countRange) ns ks) ns ks = true := by
  have hns : ∀ n ∈ ns, n < storeRange := fun n h => (le_spread_of_mem h).trans_lt hn
  have hks : ∀ k ∈ ks, k < storeRange := fun k h => (le_spread_of_mem h).trans_lt hk
  clear hn hk
  induction ns generalizing ks with
  | nil => rfl
  | cons n ns ih =>
    cases ks with
    | nil => simp at hlen
    | cons k ks =>
      obtain ⟨hn, hns⟩ := List.forall_mem_cons.mp hns
      obtain ⟨hk, hks⟩ := List.forall_mem_cons.mp hks
      have hsmall : n + k - 1 < countRange := by
        have hrange : storeRange + storeRange ≤ countRange := by decide
        omega
      rw [List.zipWith_cons_cons, windowsFit, ih (by simpa using hlen) hns hks, Bool.and_true,
        decide_eq_true_eq, Nat.mod_eq_of_lt hsmall]
      omega

section Shapes

variable [Scalar K R W]

theorem forward_eq_ok_iff {x : Tensor K} {u : Signal K} (hx : x.dims = op.dims) :
    op.forward (.flat x) = .ok u ↔
      Storable op.outputDims ∧ windowsFit op.outputDims op.dims op.kernel.dims = true ∧
        u = .flat (op.convolve x) := by
  have hstretch : x.stretch? op.dims = some x := by rw [Tensor.stretch?, if_pos hx]
  show (if Storable op.outputDims && windowsFit op.outputDims op.dims op.kernel.dims then
    orMisuse (x.stretch? op.dims) >>= fun x => .ok (.flat (op.convolve x))
    else .error .misuse) = .ok u ↔ _
  rw [hstretch]
  by_cases hroom : Storable op.outputDims
  · by_cases hfit : windowsFit op.outputDims op.dims op.kernel.dims = true
    · simp only [hroom, hfit, decide_true, Bool.and_true, if_true, true_and]
      exact ⟨fun h => (Except.ok.inj h).symm, fun h => congrArg Except.ok h.symm⟩
    · simp [hfit]
  · simp [hroom]

theorem adjoint_eq_ok_iff {y : Tensor K} {v : Signal K} (hy : y.dims = op.outputDims) :
    op.adjoint (.flat y) = .ok v ↔
      Storable op.dims ∧ windowsFit op.outputDims op.dims op.kernel.dims = true ∧
        v = .flat (op.correlate y) := by
  have hwindow : stretches (op.dims.take y.rank) op.dims = true := by
    rw [Tensor.rank, hy, length_outputDims, List.take_length]
    exact stretches_refl op.dims
  show (if Storable op.dims && windowsFit y.dims op.dims op.kernel.dims &&
      stretches (op.dims.take y.rank) op.dims then Except.ok (Signal.flat (op.correlate y))
    else Except.error Error.misuse) = .ok v ↔ _
  rw [hy, hwindow]
  by_cases hroom : Storable op.dims
  · by_cases hfit : windowsFit op.outputDims op.dims op.kernel.dims = true
    · simp [hroom, hfit, eq_comm]
    · simp [hfit]
  · simp [hroom]

theorem forward_shapedMap (op : Convolution K) : ShapedMap op.forward op.input op.output where
  shape_eq hx hu := by
    obtain ⟨x, rfl, hdims⟩ := Signal.exists_of_shape_flat hx
    obtain ⟨-, -, rfl⟩ := (forward_eq_ok_iff hdims).mp hu
    rfl
  uniform hx hu hx' := by
    obtain ⟨x, rfl, hdims⟩ := Signal.exists_of_shape_flat hx
    obtain ⟨x', rfl, hdims'⟩ := Signal.exists_of_shape_flat hx'
    obtain ⟨hroom, hfit, -⟩ := (forward_eq_ok_iff hdims).mp hu
    exact ⟨_, (forward_eq_ok_iff hdims').mpr ⟨hroom, hfit, rfl⟩⟩

theorem adjoint_shapedMap (op : Convolution K) : ShapedMap op.adjoint op.output op.input where
  shape_eq hy hv := by
    obtain ⟨y, rfl, hdims⟩ := Signal.exists_of_shape_flat hy
    obtain ⟨-, -, rfl⟩ := (adjoint_eq_ok_iff hdims).mp hv
    rfl
  uniform hy hv hy' := by
    obtain ⟨y, rfl, hdims⟩ := Signal.exists_of_shape_flat hy
    obtain ⟨y', rfl, hdims'⟩ := Signal.exists_of_shape_flat hy'
    obtain ⟨hroom, hfit, -⟩ := (adjoint_eq_ok_iff hdims).mp hv
    exact ⟨_, (adjoint_eq_ok_iff hdims').mpr ⟨hroom, hfit, rfl⟩⟩

theorem forward_totalOn (hinput : op.input.Roomy) (houtput : op.output.Roomy)
    (hkernel : Roomy op.kernel.dims) : TotalOn op.forward op.input := by
  intro x hx
  obtain ⟨x, rfl, hdims⟩ := Signal.exists_of_shape_flat hx
  have hroom : Storable op.outputDims := Roomy.storable houtput
  exact ⟨_, (forward_eq_ok_iff hdims).mpr
    ⟨hroom, windowsFit_outputDims op.rank_eq hinput hkernel, rfl⟩⟩

theorem adjoint_totalOn (hinput : op.input.Roomy) (hkernel : Roomy op.kernel.dims) :
    TotalOn op.adjoint op.output := by
  intro y hy
  obtain ⟨y, rfl, hdims⟩ := Signal.exists_of_shape_flat hy
  have hroom : Storable op.dims := Roomy.storable hinput
  exact ⟨_, (adjoint_eq_ok_iff hdims).mpr
    ⟨hroom, windowsFit_outputDims op.rank_eq hinput hkernel, rfl⟩⟩

end Shapes

/-! ### Loops over the kernel -/

section Pairing

variable [ExactScalar K]

theorem taps_eq (op : Convolution K) : op.taps =
    (List.range (volume op.kernel.dims)).map fun k =>
      (indexAt op.kernel.dims k, op.kernel.entries.getD k 0) := by
  apply List.ext_getElem
  · simp [taps, op.kernel.size_entries]
  · intro k hk hk'
    have hlt : k < op.kernel.entries.size := by
      simpa [op.kernel.size_entries] using hk'
    simp [taps, Array.getD_eq_getD_getElem?, hlt]

/-- A sum over the taps is a sum over the box of the kernel. -/
theorem sum_taps (op : Convolution K) (f : List ℕ × K → ℂ) :
    (op.taps.map f).sum = ∑ j ∈ box op.kernel.dims, f (j, op.kernel.entry j) := by
  rw [taps_eq, List.map_map, sum_box_eq_range]
  have hrange (n : ℕ) (g : ℕ → ℂ) : ((List.range n).map g).sum = ∑ k ∈ Finset.range n, g k := by
    induction n with
    | zero => rfl
    | succ n ih => rw [List.range_succ, List.map_append, List.sum_append, ih,
        Finset.sum_range_succ, List.map_singleton, List.sum_singleton]
  rw [hrange]
  apply Finset.sum_congr rfl
  intro k hk
  rw [Function.comp_apply, Tensor.entry, offset_indexAt (Finset.mem_range.mp hk)]

/-- A loop whose steps add something adds the sum of it. -/
theorem val_foldl {α : Type} (step : K → α → K) (f : α → ℂ)
    (hstep : ∀ acc a, val (step acc a) = val acc + f a) (l : List α) (start : K) :
    val (l.foldl step start) = val start + (l.map f).sum := by
  induction l generalizing start with
  | nil => simp
  | cons a as ih => rw [List.foldl_cons, ih, hstep, List.map_cons, List.sum_cons, add_assoc]

/-! ### Entries of the result and of the adjoint -/

/-- The input entry that an output place reads through a kernel place; zero outside the array. -/
def reach (op : Convolution K) (x : Tensor K) (m j : List ℕ) : ℂ :=
  ∑ i ∈ box op.dims, if m = addPlaces i j then val (x.entry i) else 0

theorem val_backOffset? {x : Tensor K} (hx : x.dims = op.dims) {m j : List ℕ}
    (hm : m.length = op.dims.length) (hj : j.length = op.dims.length) (c : K) :
    (match backOffset? op.dims m j 0 with
      | some k => val c * val (x.entries.getD k 0)
      | none => 0) = val c * op.reach x m j := by
  rw [reach, Finset.mul_sum]
  cases hback : backOffset? op.dims m j 0 with
  | some k =>
    obtain ⟨i, hi, rfl, rfl⟩ := (backOffset?_eq_some_iff hm hj).mp hback
    rw [Finset.sum_eq_single i]
    · rw [if_pos rfl, Nat.zero_mul, Nat.zero_add, Tensor.entry, hx]
    · intro i' hi' hne
      rw [if_neg, mul_zero]
      exact fun h => hne (addPlaces_left_inj (mem_box.mp hi') hi hj h.symm)
    · exact fun h => absurd (mem_box.mpr hi) h
  | none =>
    symm
    apply Finset.sum_eq_zero
    intro i hi
    rw [if_neg, mul_zero]
    intro h
    have hsome : backOffset? op.dims m j 0 = some (0 * volume op.dims + offset op.dims i) :=
      (backOffset?_eq_some_iff hm hj).mpr ⟨i, mem_box.mp hi, h, rfl⟩
    rw [hback] at hsome
    cases hsome

theorem val_convolve {x : Tensor K} (hx : x.dims = op.dims) {m : List ℕ}
    (hm : InBox op.outputDims m) :
    val ((op.convolve x).entry m) =
      ∑ j ∈ box op.kernel.dims, val (op.kernel.entry j) * op.reach x m j := by
  have hmlen : m.length = op.dims.length := hm.length_eq.trans op.length_outputDims
  rw [convolve, Tensor.entry_ofFn _ hm, val_foldl _ fun tap =>
    match backOffset? op.dims m tap.1 0 with
    | some k => val tap.2 * val (x.entries.getD k 0)
    | none => 0, val_zero, zero_add, sum_taps]
  · apply Finset.sum_congr rfl
    intro j hj
    have hjlen : j.length = op.dims.length := (mem_box.mp hj).length_eq.trans op.rank_eq
    exact val_backOffset? hx hmlen hjlen _
  · intro acc tap
    cases backOffset? op.dims m tap.1 0 with
    | some k => rw [val_add, val_mul]
    | none => rw [add_zero]

theorem val_correlate {y : Tensor K} (hy : y.dims = op.outputDims) {i : List ℕ}
    (hi : InBox op.dims i) :
    val ((op.correlate y).entry i) = ∑ j ∈ box op.kernel.dims,
      (starRingEnd ℂ) (val (op.kernel.entry j)) * val (y.entry (addPlaces i j)) := by
  have hrank : y.rank = op.dims.length := by rw [Tensor.rank, hy, length_outputDims]
  have hwindow : op.dims.take y.rank = op.dims := by rw [hrank, List.take_length]
  rw [correlate, Tensor.entry_ofFn _ hi, val_foldl _ fun tap =>
    val tap.2 * val (y.entries.getD
      (offset y.dims (Tensor.project (op.dims.take y.rank) i) + tap.1) 0), val_zero, zero_add,
    List.map_map]
  · have hmap := sum_taps op fun tap => val (Scalar.conj tap.2) * val (y.entries.getD
      (offset y.dims (Tensor.project (op.dims.take y.rank) i) +
        offset y.dims (tap.1.take y.rank)) 0)
    refine Eq.trans ?_ (hmap.trans ?_)
    · rfl
    · apply Finset.sum_congr rfl
      intro j hj
      have hjlen : j.length = op.dims.length := (mem_box.mp hj).length_eq.trans op.rank_eq
      have hplaces : offset op.outputDims (addPlaces i j) =
          offset op.outputDims i + offset op.outputDims j :=
        offset_addPlaces (by rw [hi.length_eq, length_outputDims])
          (by rw [hjlen, length_outputDims])
      have hentry : y.entry (addPlaces i j) =
          y.entries.getD (offset op.outputDims i + offset op.outputDims j) 0 := by
        rw [Tensor.entry, hy, hplaces]
      rw [hentry, val_conj, hwindow, project_self hi,
        List.take_of_length_le (by rw [hjlen, hrank]), hy]
  · intro acc tap
    rw [val_add, val_mul]

/-! ### The pairing -/

/-- Both sides of the pairing are a sum over input and kernel places. -/
theorem pairing_convolve {x y : Tensor K} (hx : x.dims = op.dims) (hy : y.dims = op.outputDims)
    (hfit : windowsFit op.outputDims op.dims op.kernel.dims = true) :
    y.pairing (op.convolve x) = (op.correlate y).pairing x := by
  have hforward : y.pairing (op.convolve x) = ∑ i ∈ box op.dims, ∑ j ∈ box op.kernel.dims,
      val (op.kernel.entry j) *
        ((starRingEnd ℂ) (val (y.entry (addPlaces i j))) * val (x.entry i)) := by
    calc y.pairing (op.convolve x)
        = ∑ m ∈ box op.outputDims, ∑ j ∈ box op.kernel.dims, ∑ i ∈ box op.dims,
            val (op.kernel.entry j) * ((starRingEnd ℂ) (val (y.entry m)) *
              if m = addPlaces i j then val (x.entry i) else 0) := by
          rw [Tensor.pairing, hy]
          apply Finset.sum_congr rfl
          intro m hm
          rw [val_convolve hx (mem_box.mp hm), Finset.mul_sum]
          apply Finset.sum_congr rfl
          intro j _
          rw [reach, Finset.mul_sum, Finset.mul_sum]
          apply Finset.sum_congr rfl
          intro i _
          ring
      _ = ∑ i ∈ box op.dims, ∑ j ∈ box op.kernel.dims, ∑ m ∈ box op.outputDims,
            val (op.kernel.entry j) * ((starRingEnd ℂ) (val (y.entry m)) *
              if m = addPlaces i j then val (x.entry i) else 0) := by
          rw [Finset.sum_comm, Finset.sum_congr rfl fun j _ => Finset.sum_comm, Finset.sum_comm]
      _ = _ := by
          apply Finset.sum_congr rfl
          intro i hi
          apply Finset.sum_congr rfl
          intro j hj
          have hplace : InBox op.outputDims (addPlaces i j) :=
            inBox_addPlaces hfit op.length_outputDims (mem_box.mp hi) (mem_box.mp hj)
          rw [Finset.sum_eq_single (addPlaces i j)]
          · rw [if_pos rfl]
          · intro m _ hm
            rw [if_neg hm, mul_zero, mul_zero]
          · exact fun h => absurd (mem_box.mpr hplace) h
  rw [hforward, Tensor.pairing]
  apply Finset.sum_congr rfl
  intro i hi
  rw [val_correlate hy (mem_box.mp hi), map_sum, Finset.sum_mul]
  apply Finset.sum_congr rfl
  intro j _
  rw [map_mul, Complex.conj_conj, mul_assoc]

theorem adjointMaps (op : Convolution K) :
    AdjointMaps op.forward op.adjoint op.input op.output where
  forward := op.forward_shapedMap
  backward := op.adjoint_shapedMap
  pairing_eq hx hy hu hv := by
    obtain ⟨x, rfl, hxdims⟩ := Signal.exists_of_shape_flat hx
    obtain ⟨y, rfl, hydims⟩ := Signal.exists_of_shape_flat hy
    obtain ⟨-, hfit, rfl⟩ := (forward_eq_ok_iff hxdims).mp hu
    obtain ⟨-, -, rfl⟩ := (adjoint_eq_ok_iff hydims).mp hv
    rw [Signal.pairing_flat hydims, Signal.pairing_flat hxdims.symm,
      pairing_convolve hxdims hydims hfit]

end Pairing

end Convolution

end OperatorSplitting
