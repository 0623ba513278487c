import Mathlib
import OperatorSplitting.Proofs.Linear.Convolution

/-!
# Full convolution, entry by entry

The place `m - j` of the input that an output place `m` reads through a kernel place `j` may lie
outside the input; the entry at `m` is the sum over the kernel places for which it lies inside
(`val_convolve_eq`).  No reading is ever lost on the other side: the result has `n + k - 1` entries
along an axis, so that all windows lie inside the array (`windowsFit_fullDims`).

Extents are kept as counts, and the result may be larger than argument and kernel together.  Where
memory can hold an array of extents `n + k - 1` these are the extents of the result, and both
directions have values; where it cannot, neither has one (`forward_eq_ok_iff_full`,
`adjoint_eq_ok_iff_full`).
-/

namespace OperatorSplitting

open ExactScalar

/-! ### Subtracting places -/

/-- The difference of two places. -/
def subPlaces (m j : List ℕ) : List ℕ := List.zipWith (· - ·) m j

/-- The place `m - j` lies in a box: `0 ≤ m - j < n` along every axis. -/
def Reads : List ℕ → List ℕ → List ℕ → Prop
  | [], [], [] => True
  | n :: ns, m :: ms, j :: js => (j ≤ m ∧ m - j < n) ∧ Reads ns ms js
  | _, _, _ => False

instance decidableReads : (ns ms js : List ℕ) → Decidable (Reads ns ms js)
  | [], [], [] => inferInstanceAs (Decidable True)
  | n :: ns, m :: ms, j :: js =>
    @instDecidableAnd (j ≤ m ∧ m - j < n) (Reads ns ms js) _ (decidableReads ns ms js)
  | [], [], _ :: _ => inferInstanceAs (Decidable False)
  | [], _ :: _, _ => inferInstanceAs (Decidable False)
  | _ :: _, [], _ => inferInstanceAs (Decidable False)
  | _ :: _, _ :: _, [] => inferInstanceAs (Decidable False)

theorem Reads.inBox {ns ms js : List ℕ} (h : Reads ns ms js) : InBox ns (subPlaces ms js) := by
  induction ns generalizing ms js with
  | nil =>
    cases ms with
    | nil => cases js with
      | nil => exact trivial
      | cons j js => exact absurd h id
    | cons m ms => exact absurd h id
  | cons n ns ih =>
    cases ms with
    | nil => exact absurd h id
    | cons m ms =>
      cases js with
      | nil => exact absurd h id
      | cons j js => exact ⟨h.1.2, ih h.2⟩

theorem Reads.addPlaces_eq {ns ms js : List ℕ} (h : Reads ns ms js) :
    addPlaces (subPlaces ms js) js = ms := by
  induction ns generalizing ms js with
  | nil =>
    cases ms with
    | nil => cases js with
      | nil => rfl
      | cons j js => exact absurd h id
    | cons m ms => exact absurd h id
  | cons n ns ih =>
    cases ms with
    | nil => exact absurd h id
    | cons m ms =>
      cases js with
      | nil => exact absurd h id
      | cons j js =>
        show (m - j + j) :: addPlaces (subPlaces ms js) js = m :: ms
        rw [ih h.2, Nat.sub_add_cancel h.1.1]

/-- A place of the box is read through `j` from the place that many further on. -/
theorem reads_addPlaces {ns i js : List ℕ} (hi : InBox ns i) (hj : js.length = ns.length) :
    Reads ns (addPlaces i js) js := by
  induction ns generalizing i js with
  | nil =>
    cases List.length_eq_zero_iff.mp hj
    rw [inBox_nil_iff.mp hi]
    exact trivial
  | cons n ns ih =>
    cases i with
    | nil => exact absurd hi id
    | cons a as =>
      cases js with
      | nil => simp at hj
      | cons j js =>
        have ha := hi.1
        show (j ≤ a + j ∧ a + j - j < n) ∧ Reads ns (addPlaces as js) js
        exact ⟨⟨by omega, by omega⟩, ih hi.2 (by simpa using hj)⟩

/-! ### Extents of the result -/

/-- The extents `n + k - 1` of a full convolution. -/
def fullDims (ns ks : List ℕ) : List ℕ := List.zipWith (fun n k => n + k - 1) ns ks

theorem length_fullDims {ns ks : List ℕ} (hlen : ks.length = ns.length) :
    (fullDims ns ks).length = ns.length := by
  rw [fullDims, List.length_zipWith, hlen, Nat.min_self]

/-- All windows lie inside an array of the extents of a full convolution. -/
theorem windowsFit_fullDims {ns ks : List ℕ} (hlen : ks.length = ns.length) :
    Convolution.windowsFit (fullDims ns ks) ns ks = true := by
  induction ns generalizing ks with
  | nil => rfl
  | cons n ns ih =>
    cases ks with
    | nil => simp at hlen
    | cons k ks =>
      show (decide (n + k ≤ n + k - 1 + 1) && Convolution.windowsFit (fullDims ns ks) ns ks) = true
      rw [ih (by simpa using hlen), Bool.and_true, decide_eq_true_eq]
      omega

/-- Extents that can be counted are not reduced. -/
theorem map_mod_fullDims_of_storable {ns ks : List ℕ} (h : Storable (fullDims ns ks)) :
    (fullDims ns ks).map (· % countRange) = fullDims ns ks := by
  have hsmall : ∀ d ∈ fullDims ns ks, d % countRange = d := by
    intro d hd
    have hlt : d < positionRange := (le_spread_of_mem hd).trans_lt h.1
    exact Nat.mod_eq_of_lt (hlt.trans (by decide))
  exact (List.map_congr_left hsmall).trans (List.map_id _)

/-- Where all windows fit, no extent has been reduced. -/
theorem map_mod_fullDims_of_windowsFit {ns ks : List ℕ} (hlen : ks.length = ns.length)
    (h : Convolution.windowsFit ((fullDims ns ks).map (· % countRange)) ns ks = true) :
    (fullDims ns ks).map (· % countRange) = fullDims ns ks := by
  induction ns generalizing ks with
  | nil => rfl
  | cons n ns ih =>
    cases ks with
    | nil => simp at hlen
    | cons k ks =>
      have hfit : (decide (n + k ≤ (n + k - 1) % countRange + 1) &&
          Convolution.windowsFit ((fullDims ns ks).map (· % countRange)) ns ks) = true := h
      rw [Bool.and_eq_true, decide_eq_true_eq] at hfit
      have hle := Nat.mod_le (n + k - 1) countRange
      show (n + k - 1) % countRange :: (fullDims ns ks).map (· % countRange) =
        (n + k - 1) :: fullDims ns ks
      rw [ih (by simpa using hlen) hfit.2]
      congr 1
      omega

/-- The input is not larger than the result. -/
theorem volume_le_fullDims {ns ks : List ℕ} (hlen : ks.length = ns.length) (hk : 0 ∉ ks) :
    volume ns ≤ volume (fullDims ns ks) := by
  induction ns generalizing ks with
  | nil => exact le_rfl
  | cons n ns ih =>
    cases ks with
    | nil => simp at hlen
    | cons k ks =>
      rw [List.mem_cons, not_or] at hk
      have hfirst : n ≤ n + k - 1 := by omega
      exact Nat.mul_le_mul hfirst (ih (by simpa using hlen) hk.2)

theorem storable_of_fullDims {ns ks : List ℕ} (hlen : ks.length = ns.length) (hn : 0 ∉ ns)
    (hk : 0 ∉ ks) (h : Storable (fullDims ns ks)) : Storable ns := by
  have hlt : volume ns < storeRange := (volume_le_fullDims hlen hk).trans_lt h.2
  have hspread : spread ns < storeRange := volume_eq_spread hn ▸ hlt
  exact ⟨hspread.trans (by decide), hlt⟩

namespace Convolution

section Shapes

variable {K R W : Type} [Scalar K R W] {op : Convolution K}

omit [Scalar K R W] in
theorem outputDims_eq (op : Convolution K) :
    op.outputDims = (fullDims op.dims op.kernel.dims).map (· % countRange) := by
  rw [outputDims, fullDims, List.map_zipWith]

omit [Scalar K R W] in
theorem outputDims_of_storable (h : Storable (fullDims op.dims op.kernel.dims)) :
    op.outputDims = fullDims op.dims op.kernel.dims := by
  rw [outputDims_eq, map_mod_fullDims_of_storable h]

omit [Scalar K R W] in
/-- The result can be stored, and its windows fit, exactly where memory can hold an array of the
extents of a full convolution. -/
theorem storable_outputDims_iff :
    Storable op.outputDims ∧ windowsFit op.outputDims op.dims op.kernel.dims = true ↔
      Storable (fullDims op.dims op.kernel.dims) := by
  constructor
  · rintro ⟨hroom, hfit⟩
    rw [outputDims_eq] at hroom hfit
    rwa [map_mod_fullDims_of_windowsFit op.rank_eq hfit] at hroom
  · intro h
    rw [outputDims_of_storable h]
    exact ⟨h, windowsFit_fullDims op.rank_eq⟩

theorem forward_eq_ok_iff_full {x : Tensor K} {u : Signal K} (hx : x.dims = op.dims) :
    op.forward (.flat x) = .ok u ↔
      Storable (fullDims op.dims op.kernel.dims) ∧ u = .flat (op.convolve x) := by
  rw [forward_eq_ok_iff hx, ← storable_outputDims_iff, and_assoc]

/-- An array of the declared extents shows that they can be stored. -/
theorem adjoint_eq_ok_iff_full {y : Tensor K} {v : Signal K} (hy : y.dims = op.outputDims)
    (hroom : Storable y.dims) :
    op.adjoint (.flat y) = .ok v ↔
      Storable (fullDims op.dims op.kernel.dims) ∧ v = .flat (op.correlate y) := by
  rw [adjoint_eq_ok_iff hy, ← storable_outputDims_iff]
  constructor
  · rintro ⟨-, hfit, rfl⟩
    exact ⟨⟨hy ▸ hroom, hfit⟩, rfl⟩
  · rintro ⟨hfull, rfl⟩
    have hinput := storable_of_fullDims op.rank_eq op.dims_pos op.kernel_pos
      (storable_outputDims_iff.mp hfull)
    exact ⟨hinput, hfull.2, rfl⟩

theorem error_of_forward {x : Tensor K} {e : Error} (hx : x.dims = op.dims)
    (h : op.forward (.flat x) = .error e) : e = .misuse := by
  have hstretch : x.stretch? op.dims = some x := if_pos hx
  have hrun : op.forward (.flat x) =
      if Storable op.outputDims && windowsFit op.outputDims op.dims op.kernel.dims then
        orMisuse (x.stretch? op.dims) >>= fun x => .ok (.flat (op.convolve x))
      else .error .misuse := rfl
  rw [hrun, hstretch] at h
  split at h
  · cases h
  · exact (Except.error.inj h).symm

theorem error_of_adjoint {y : Tensor K} {e : Error} (h : op.adjoint (.flat y) = .error e) :
    e = .misuse := by
  have hrun : op.adjoint (.flat y) =
      if Storable op.dims && windowsFit y.dims op.dims op.kernel.dims &&
        stretches (op.dims.take y.rank) op.dims then .ok (.flat (op.correlate y))
      else .error .misuse := rfl
  rw [hrun] at h
  split at h
  · cases h
  · exact (Except.error.inj h).symm

end Shapes

/-! ### Entries -/

section Entries

variable {K : Type} [ExactScalar K]

/-- Only the place `m - j` is read, and only if it lies inside. -/
theorem reach_eq {op : Convolution K} (x : Tensor K) {m j : List ℕ}
    (hj : j.length = op.dims.length) :
    op.reach x m j = if Reads op.dims m j then val (x.entry (subPlaces m j)) else 0 := by
  rw [reach]
  by_cases h : Reads op.dims m j
  · rw [if_pos h, Finset.sum_eq_single (subPlaces m j)]
    · rw [if_pos h.addPlaces_eq.symm]
    · intro i hi hne
      refine if_neg fun hm => hne ?_
      exact addPlaces_left_inj (mem_box.mp hi) h.inBox hj (hm.symm.trans h.addPlaces_eq.symm)
    · exact fun hout => absurd (mem_box.mpr h.inBox) hout
  · rw [if_neg h]
    apply Finset.sum_eq_zero
    intro i hi
    refine if_neg fun hm => h ?_
    rw [hm]
    exact reads_addPlaces (mem_box.mp hi) hj

theorem val_convolve_eq {op : Convolution K} {x : Tensor K} (hx : x.dims = op.dims) {m : List ℕ}
    (hm : InBox op.outputDims m) :
    val ((op.convolve x).entry m) = ∑ j ∈ box op.kernel.dims with Reads op.dims m j,
      val (op.kernel.entry j) * val (x.entry (subPlaces m j)) := by
  rw [val_convolve hx hm, Finset.sum_filter]
  apply Finset.sum_congr rfl
  intro j hj
  rw [reach_eq x ((mem_box.mp hj).length_eq.trans op.rank_eq), mul_ite, mul_zero]

/-- What full convolution with a kernel is, where its results can be stored. -/
structure IsFull (op : Convolution K) : Prop where
  /-- The result has `n + k - 1` entries along each axis. -/
  output : op.output = .flat (fullDims op.dims op.kernel.dims)
  /-- All windows lie inside an array of these extents. -/
  window : ∀ i j, InBox op.dims i → InBox op.kernel.dims j →
    InBox (fullDims op.dims op.kernel.dims) (addPlaces i j)
  /-- Each output entry collects the input entries that reach it. -/
  forward : ∀ x : Tensor K, x.dims = op.dims → ∃ u : Tensor K,
    op.forward (.flat x) = .ok (.flat u) ∧ u.dims = fullDims op.dims op.kernel.dims ∧
      ∀ m, InBox (fullDims op.dims op.kernel.dims) m →
        val (u.entry m) = ∑ j ∈ box op.kernel.dims with Reads op.dims m j,
          val (op.kernel.entry j) * val (x.entry (subPlaces m j))
  /-- The adjoint is the correlation with the conjugate kernel. -/
  adjoint : ∀ y : Tensor K, y.dims = fullDims op.dims op.kernel.dims → ∃ v : Tensor K,
    op.adjoint (.flat y) = .ok (.flat v) ∧ v.dims = op.dims ∧
      ∀ i, InBox op.dims i →
        val (v.entry i) = ∑ j ∈ box op.kernel.dims,
          (starRingEnd ℂ) (val (op.kernel.entry j)) * val (y.entry (addPlaces i j))

theorem isFull_of_storable {op : Convolution K} (h : Storable (fullDims op.dims op.kernel.dims)) :
    op.IsFull where
  output := congrArg Shape.flat (outputDims_of_storable h)
  window i j hi hj :=
    inBox_addPlaces (windowsFit_fullDims op.rank_eq) (length_fullDims op.rank_eq) hi hj
  forward x hx := by
    have hdims := outputDims_of_storable h
    refine ⟨op.convolve x, (forward_eq_ok_iff_full hx).mpr ⟨h, rfl⟩, hdims, fun m hm => ?_⟩
    exact val_convolve_eq hx (hdims.symm ▸ hm)
  adjoint y hy := by
    have hdims := hy.trans (outputDims_of_storable h).symm
    have hstored : Storable y.dims := hy.symm ▸ h
    refine ⟨op.correlate y, (adjoint_eq_ok_iff_full hdims hstored).mpr ⟨h, rfl⟩, rfl,
      fun i hi => ?_⟩
    exact val_correlate hdims hi

/-- **Full convolution.**  A kernel with entries and extents of the same rank without zero give a
convolution.  The extents of its result are `n + k - 1` as counts.  Where memory can hold an array
of extents `n + k - 1` the operator has all values that it should have, without any window outside
the array; where it cannot, neither direction has a value at any array that memory holds. -/
theorem ofKernel_isFull {kernel : Tensor K} {dims : List ℕ}
    (hrank : kernel.dims.length = dims.length) (hkernel : 0 ∉ kernel.dims) (hdims : 0 ∉ dims) :
    ∃ op : Convolution K, ofKernel kernel dims = .ok op ∧ op.kernel = kernel ∧
      op.input = .flat dims ∧
      op.output = .flat ((fullDims dims kernel.dims).map (· % countRange)) ∧
      (Storable (fullDims dims kernel.dims) → op.IsFull) ∧
      (¬Storable (fullDims dims kernel.dims) →
        (∀ x : Tensor K, x.dims = dims → op.forward (.flat x) = .error .misuse) ∧
        ∀ y : Tensor K, (Signal.flat y).shape = op.output → Storable y.dims →
          op.adjoint (.flat y) = .error .misuse) := by
  set op : Convolution K := ⟨kernel, dims, hrank, hkernel, hdims⟩ with hop
  have hmade : ofKernel kernel dims = .ok op := by
    rw [ofKernel, dif_pos hrank, dif_pos ⟨hkernel, hdims⟩]
  refine ⟨op, hmade, rfl, rfl, congrArg Shape.flat op.outputDims_eq, fun hroom => ?_,
    fun hroom => ⟨fun x hx => ?_, fun y hy hstored => ?_⟩⟩
  · exact isFull_of_storable (show Storable (fullDims op.dims op.kernel.dims) from hroom)
  · cases hrun : op.forward (.flat x) with
    | ok u => exact absurd ((forward_eq_ok_iff_full hx).mp hrun).1 hroom
    | error e => rw [error_of_forward hx hrun]
  · have hdims : y.dims = op.outputDims := Shape.flat.inj hy
    cases hrun : op.adjoint (.flat y) with
    | ok v => exact absurd ((adjoint_eq_ok_iff_full hdims hstored).mp hrun).1 hroom
    | error e => rw [error_of_adjoint hrun]

/-- A column and a kernel of one row: the result is a square, and the last entry of its second row
is reached by one input entry only. -/
theorem ofKernel_isFull_rowKernel :
    ∃ kernel : Tensor (ComplexOf ℝ), kernel.dims = [1, 2] ∧ kernel.entries = #[⟨0, 1⟩, ⟨2, 0⟩] ∧
      kernel.dims.length = [2, 1].length ∧ 0 ∉ kernel.dims ∧ 0 ∉ [2, 1] ∧
      ∃ op : Convolution (ComplexOf ℝ), ofKernel kernel [2, 1] = .ok op ∧ op.IsFull ∧
        op.output = .flat [2, 2] ∧
        (∃ u : Tensor (ComplexOf ℝ),
          op.forward (.flat ⟨[2, 1], #[⟨3, 0⟩, ⟨4, 0⟩], rfl⟩) = .ok (.flat u) ∧
            val (u.entry [1, 1]) = 8) ∧
        ∃ v : Tensor (ComplexOf ℝ),
          op.adjoint (.flat ⟨[2, 2], #[⟨0, 0⟩, ⟨0, 0⟩, ⟨5, 0⟩, ⟨1, 0⟩], rfl⟩) = .ok (.flat v) ∧
            val (v.entry [1, 0]) = 2 - 5 * Complex.I := by
  let kernel : Tensor (ComplexOf ℝ) := ⟨[1, 2], #[⟨0, 1⟩, ⟨2, 0⟩], rfl⟩
  have hrank : kernel.dims.length = [2, 1].length := rfl
  have hkernel : 0 ∉ kernel.dims := by decide
  have hdims : 0 ∉ [2, 1] := by decide
  obtain ⟨op, hop, hopkernel, hopinput, hopoutput, hfull, -⟩ :=
    ofKernel_isFull hrank hkernel hdims
  have hopdims : op.dims = [2, 1] := Shape.flat.inj hopinput
  have hisFull := hfull (by decide)
  obtain ⟨u, hu, -, huentry⟩ := hisFull.forward ⟨[2, 1], #[⟨3, 0⟩, ⟨4, 0⟩], rfl⟩ hopdims.symm
  obtain ⟨v, hv, -, hventry⟩ := hisFull.adjoint
    ⟨[2, 2], #[⟨0, 0⟩, ⟨0, 0⟩, ⟨5, 0⟩, ⟨1, 0⟩], rfl⟩ (by rw [hopdims, hopkernel]; rfl)
  refine ⟨kernel, rfl, rfl, hrank, hkernel, hdims, op, hop, hisFull, hopoutput, ⟨u, hu, ?_⟩,
    v, hv, ?_⟩
  · have hlast : Reads [2, 1] [1, 1] [0, 1] ∧ ¬Reads [2, 1] [1, 1] [0, 0] := by decide
    rw [huentry [1, 1] (by rw [hopdims, hopkernel]; decide), hopdims, hopkernel,
      show kernel.dims = [1, 2] from rfl, Finset.sum_filter, sum_box_cons,
      Finset.sum_range_one, sum_box_cons, Finset.sum_range_succ, Finset.sum_range_one,
      sum_box_nil, sum_box_nil, if_neg hlast.2, if_pos hlast.1, zero_add]
    show ComplexOf.toComplex ⟨2, 0⟩ * ComplexOf.toComplex ⟨4, 0⟩ = 8
    apply Complex.ext <;> norm_num [ComplexOf.toComplex]
  · rw [hventry [1, 0] (by rw [hopdims]; decide), hopkernel,
      show kernel.dims = [1, 2] from rfl, sum_box_cons, Finset.sum_range_one, sum_box_cons,
      Finset.sum_range_succ, Finset.sum_range_one, sum_box_nil, sum_box_nil]
    show (starRingEnd ℂ) (ComplexOf.toComplex ⟨0, 1⟩) * ComplexOf.toComplex ⟨5, 0⟩ +
      (starRingEnd ℂ) (ComplexOf.toComplex ⟨2, 0⟩) * ComplexOf.toComplex ⟨1, 0⟩ =
        2 - 5 * Complex.I
    apply Complex.ext <;> norm_num [ComplexOf.toComplex]

/-- Not every extent `n + k - 1` is a count, and not every result can be stored: a vector of
`2 ^ 64 - 1` entries and a kernel of two would give `2 ^ 64` entries, and a column and a row of
`2 ^ 30` entries each would give `2 ^ 60`. -/
theorem exists_extent_reduced_and_forward_misuse :
    (∃ op : Convolution ℝ, ofKernel (.ofArray #[1, 2]) [2 ^ 64 - 1] = .ok op ∧
      op.output = .flat [0]) ∧
    ∃ (op : Convolution ℝ) (x : Tensor ℝ),
      ofKernel (.replicate [1, 2 ^ 30] 1) [2 ^ 30, 1] = .ok op ∧
        (Signal.flat x).shape = op.input ∧ Storable x.dims ∧ Storable op.kernel.dims ∧
        op.forward (.flat x) = .error .misuse := by
  constructor
  · exact ⟨⟨.ofArray #[1, 2], [2 ^ 64 - 1], rfl, by decide, by decide⟩, rfl, rfl⟩
  · let op : Convolution ℝ := ⟨.replicate [1, 2 ^ 30] 1, [2 ^ 30, 1], rfl, by decide, by decide⟩
    have hroom : ¬Storable (fullDims op.dims op.kernel.dims) := by decide
    refine ⟨op, .replicate [2 ^ 30, 1] 0, rfl, rfl, by decide, by decide, ?_⟩
    cases hrun : op.forward (.flat (.replicate [2 ^ 30, 1] 0)) with
    | ok u => exact absurd ((forward_eq_ok_iff_full rfl).mp hrun).1 hroom
    | error e => rw [error_of_forward rfl hrun]

end Entries

end Convolution

end OperatorSplitting
