import Mathlib
import OperatorSplitting.Linear.Matrix
import OperatorSplitting.Proofs.Linear.AdjointMaps

/-!
# Matrices and their conjugate transposes

A matrix applied to a vector has the sums of products as its elements; over exact elements the final
factor one changes nothing.  The conjugate transpose is the adjoint: both sides of the pairing are
the sum of all `conj y_i * m_ij * x_j`.
-/

namespace OperatorSplitting

open ExactScalar

namespace DenseMatrix

variable {K R W : Type}

/-! ### Shapes -/

section Shapes

variable [Scalar K R W]

theorem size_mulVec (m : DenseMatrix K) (v : Array K) : (m.mulVec v).size = m.rows :=
  Array.size_ofFn

theorem mulVec?_eq_some_iff {m : DenseMatrix K} {v w : Array K} (hv : v.size = m.cols) :
    m.mulVec? v = some w ↔ Storable [m.rows] ∧ w = m.mulVec v := by
  unfold mulVec?
  by_cases h : Storable [m.rows]
  · simp [hv, h, eq_comm]
  · simp [h]

theorem mulVec?_spec {m : DenseMatrix K} {v w : Array K} (h : m.mulVec? v = some w) :
    v.size = m.cols ∧ Storable [m.rows] ∧ w = m.mulVec v := by
  have hsize : v.size = m.cols := by
    unfold mulVec? at h
    split at h
    · next hfits => exact hfits.1
    · cases h
  exact ⟨hsize, (mulVec?_eq_some_iff hsize).mp h⟩

omit [Scalar K R W] in
/-- The elements of a signal of the shape of a vector. -/
theorem vectorOf_eq_ok {x : Signal K} {n : ℕ} (hx : x.shape = .vector n) (place : String) :
    vectorOf place x = .ok x.entries ∧ x.entries.size = n := by
  cases x with
  | flat t =>
    have hdims : t.dims = [n] := by simpa [Signal.shape, Shape.vector] using hx
    refine ⟨?_, by rw [Signal.entries, t.size_entries, hdims]; simp [volume]⟩
    have hrank : t.rank = 1 := by rw [Tensor.rank, hdims, List.length_singleton]
    show (if t.rank = 1 then Except.ok t.entries else _) = _
    rw [if_pos hrank]
    rfl
  | blocked ts => simp [Signal.shape, Shape.vector] at hx

theorem mulSignal_eq_ok_iff {m : DenseMatrix K} {x u : Signal K} (hx : x.shape = .vector m.cols)
    (place : String) :
    (vectorOf place x >>= fun v => orMisuse (m.mulVec? v) >>= fun w => .ok (.ofArray w)) = .ok u ↔
      Storable [m.rows] ∧ u = .ofArray (m.mulVec x.entries) := by
  obtain ⟨hvector, hsize⟩ := vectorOf_eq_ok hx place
  simp only [hvector, Except.bind_eq_ok_iff, orMisuse_eq_ok_iff]
  constructor
  · rintro ⟨_, ⟨rfl⟩, w, hw, hu⟩
    obtain ⟨hroom, rfl⟩ := (mulVec?_eq_some_iff hsize).mp hw
    exact ⟨hroom, (Except.ok.inj hu).symm⟩
  · rintro ⟨hroom, rfl⟩
    exact ⟨_, rfl, _, (mulVec?_eq_some_iff hsize).mpr ⟨hroom, rfl⟩, rfl⟩

theorem forward_eq_ok_iff {m : DenseMatrix K} {x u : Signal K} (hx : x.shape = .vector m.cols) :
    m.forward x = .ok u ↔ Storable [m.rows] ∧ u = .ofArray (m.mulVec x.entries) :=
  mulSignal_eq_ok_iff hx "matrix operator"

theorem adjoint_eq_ok_iff {m : DenseMatrix K} {y v : Signal K} (hy : y.shape = .vector m.rows) :
    m.adjoint y = .ok v ↔ Storable [m.cols] ∧ v = .ofArray (m.conjTranspose.mulVec y.entries) :=
  mulSignal_eq_ok_iff (m := m.conjTranspose) hy "matrix operator adjoint"

omit [Scalar K R W] in
theorem shape_ofArray (entries : Array K) : (Signal.ofArray entries).shape = .vector entries.size :=
  rfl

theorem forward_shapedMap (m : DenseMatrix K) :
    ShapedMap m.forward (.vector m.cols) (.vector m.rows) where
  shape_eq hx hu := by
    obtain ⟨-, rfl⟩ := (forward_eq_ok_iff hx).mp hu
    rw [shape_ofArray, size_mulVec]
  uniform hx hu hx' := ⟨_, (forward_eq_ok_iff hx').mpr ⟨((forward_eq_ok_iff hx).mp hu).1, rfl⟩⟩

theorem adjoint_shapedMap (m : DenseMatrix K) :
    ShapedMap m.adjoint (.vector m.rows) (.vector m.cols) where
  shape_eq hy hv := by
    obtain ⟨-, rfl⟩ := (adjoint_eq_ok_iff hy).mp hv
    rw [shape_ofArray, size_mulVec]
    rfl
  uniform hy hv hy' := ⟨_, (adjoint_eq_ok_iff hy').mpr ⟨((adjoint_eq_ok_iff hy).mp hv).1, rfl⟩⟩

theorem forward_totalOn {m : DenseMatrix K} (h : Storable [m.rows]) :
    TotalOn m.forward (.vector m.cols) :=
  fun _ hx => ⟨_, (forward_eq_ok_iff hx).mpr ⟨h, rfl⟩⟩

theorem adjoint_totalOn {m : DenseMatrix K} (h : Storable [m.cols]) :
    TotalOn m.adjoint (.vector m.rows) :=
  fun _ hy => ⟨_, (adjoint_eq_ok_iff hy).mpr ⟨h, rfl⟩⟩

end Shapes

/-! ### The pairing -/

section Pairing

variable [ExactScalar K]

/-- An element of the product with a vector. -/
theorem val_mulVec {m : DenseMatrix K} (v : Array K) {i : ℕ} (hi : i < m.rows) :
    val ((m.mulVec v).getD i 0) =
      ∑ j ∈ Finset.range m.cols, val (m.entry i j) * val (v.getD j 0) := by
  have hget : (m.mulVec v).getD i 0 =
      sumBelow (fun j => m.entry i j * v.getD j 0) m.cols * 1 := by
    simp [mulVec, Array.getD_eq_getD_getElem?, hi]
  rw [hget, val_mul, val_one, mul_one, map_sumBelow val_zero val_add]
  apply Finset.sum_congr rfl
  intro j _
  rw [val_mul]

theorem coord_ofArray (entries : Array K) (k : ℕ) :
    (Signal.ofArray entries).coord k = val (entries.getD k 0) := rfl

/-- Both sides of the pairing are the sum of all `conj y_i * m_ij * x_j`. -/
theorem pairing_mulVec (m : DenseMatrix K) (x : Signal K) {y : Signal K}
    (hy : y.shape = .vector m.rows) :
    y.pairing (.ofArray (m.mulVec x.entries)) =
      (Signal.ofArray (m.conjTranspose.mulVec y.entries)).pairing x := by
  have hysize : y.size = m.rows := (vectorOf_eq_ok hy "").2
  have hvsize : (Signal.ofArray (m.conjTranspose.mulVec y.entries)).size = m.cols :=
    size_mulVec m.conjTranspose y.entries
  have hforward : ∀ i ∈ Finset.range m.rows,
      (starRingEnd ℂ) (y.coord i) * (Signal.ofArray (m.mulVec x.entries)).coord i =
        ∑ j ∈ Finset.range m.cols, (starRingEnd ℂ) (y.coord i) * (val (m.entry i j) * x.coord j) := by
    intro i hi
    rw [← Finset.mul_sum, coord_ofArray, val_mulVec _ (by simpa using hi)]
    rfl
  have hadjoint : ∀ j ∈ Finset.range m.cols,
      (starRingEnd ℂ) ((Signal.ofArray (m.conjTranspose.mulVec y.entries)).coord j) * x.coord j =
        ∑ i ∈ Finset.range m.rows, (starRingEnd ℂ) (y.coord i) * (val (m.entry i j) * x.coord j) := by
    intro j hj
    have hj' : j < m.cols := by simpa using hj
    rw [coord_ofArray, val_mulVec _ hj', map_sum, Finset.sum_mul]
    apply Finset.sum_congr rfl
    intro i hi
    have hi' : i < m.rows := Finset.mem_range.mp hi
    rw [conjTranspose, entry_ofFn _ hj' hi', map_mul, val_conj, Complex.conj_conj]
    show val (m.entry i j) * (starRingEnd ℂ) (y.coord i) * x.coord j = _
    ring
  rw [Signal.pairing, Signal.pairing, hysize, hvsize, Finset.sum_congr rfl hforward,
    Finset.sum_congr rfl hadjoint, Finset.sum_comm]

theorem adjointMaps (m : DenseMatrix K) :
    AdjointMaps m.forward m.adjoint (.vector m.cols) (.vector m.rows) where
  forward := m.forward_shapedMap
  backward := m.adjoint_shapedMap
  pairing_eq hx hy hu hv := by
    obtain ⟨-, rfl⟩ := (forward_eq_ok_iff hx).mp hu
    obtain ⟨-, rfl⟩ := (adjoint_eq_ok_iff hy).mp hv
    exact m.pairing_mulVec _ hy

end Pairing

end DenseMatrix

end OperatorSplitting
