import Mathlib
import OperatorSplitting.Proofs.Exact.Vector
import OperatorSplitting.Proofs.Tensor.Entries

/-!
# The pairing of arrays

The pairing of two arrays of the same extents is a sum over the indices of their box.  The pairing of
two signals is that of their arrays, added over the blocks.  Adjoints of operators that are given
index by index are found here: a sum over output indices is rearranged into a sum over input indices.
-/

namespace OperatorSplitting

open ExactScalar

noncomputable section

namespace Tensor

variable {K : Type} [ExactScalar K]

/-- The inner product of two arrays of the same extents, conjugate in the first one. -/
def pairing (y u : Tensor K) : ℂ :=
  ∑ idx ∈ box y.dims, (starRingEnd ℂ) (val (y.entry idx)) * val (u.entry idx)

/-- A sum over the indices of an array is a sum over its row-major positions. -/
theorem sum_box_entry {M : Type*} [AddCommMonoid M] (t : Tensor K) (f : List ℕ → K → M) :
    ∑ idx ∈ box t.dims, f idx (t.entry idx) =
      ∑ k ∈ Finset.range t.entries.size, f (indexAt t.dims k) (t.entries.getD k 0) := by
  rw [sum_box_eq_range, t.size_entries]
  apply Finset.sum_congr rfl
  intro k hk
  rw [entry, offset_indexAt (by simpa using hk)]

theorem pairing_eq_sum_range {y u : Tensor K} (h : y.dims = u.dims) :
    y.pairing u = ∑ k ∈ Finset.range y.entries.size,
      (starRingEnd ℂ) (val (y.entries.getD k 0)) * val (u.entries.getD k 0) := by
  rw [pairing, sum_box_eq_range, y.size_entries]
  apply Finset.sum_congr rfl
  intro k hk
  have hk' : k < volume y.dims := by simpa using hk
  rw [entry, entry, ← h, offset_indexAt hk']

/-- The pairing of two arrays that are the results of adding, entry by entry. -/
theorem pairing_zip_add_left {y z s u : Tensor K} (h : zip? (· + ·) y z = some s) :
    s.pairing u = y.pairing u + z.pairing u := by
  obtain ⟨hdims, rfl⟩ := zip?_eq_some_iff.mp h
  rw [pairing, pairing, pairing, dims_ofFn, ← hdims, ← Finset.sum_add_distrib]
  apply Finset.sum_congr rfl
  intro idx hidx
  rw [entry_ofFn _ (mem_box.mp hidx), val_add, map_add, add_mul]

theorem pairing_zero_left {dims : List ℕ} (u : Tensor K) :
    (ofFn dims fun _ => (0 : K)).pairing u = 0 := by
  rw [pairing, dims_ofFn]
  apply Finset.sum_eq_zero
  intro idx hidx
  rw [entry_ofFn _ (mem_box.mp hidx), val_zero, map_zero, zero_mul]

end Tensor

namespace Signal

variable {K : Type} [ExactScalar K]

theorem pairing_flat {y u : Tensor K} (h : y.dims = u.dims) :
    (flat y).pairing (flat u) = y.pairing u := by
  rw [Tensor.pairing_eq_sum_range h]
  rfl

theorem coord_blocked_cons_of_lt {t : Tensor K} {ts : List (Tensor K)} {k : ℕ}
    (hk : k < t.entries.size) : (blocked (t :: ts)).coord k = (flat t).coord k := by
  simp [coord, entries, blockEntries, Array.getD_eq_getD_getElem?, Array.getElem?_append, hk]

theorem coord_blocked_cons_add (t : Tensor K) (ts : List (Tensor K)) (k : ℕ) :
    (blocked (t :: ts)).coord (t.entries.size + k) = (blocked ts).coord k := by
  simp [coord, entries, blockEntries, Array.getD_eq_getD_getElem?, Array.getElem?_append]

@[simp] theorem pairing_blocked_nil : (blocked ([] : List (Tensor K))).pairing (blocked []) = 0 := by
  simp [pairing, size, entries, blockEntries]

/-- The pairing of blocked signals is added block by block. -/
theorem pairing_blocked_cons {y u : Tensor K} (h : y.dims = u.dims) (ys us : List (Tensor K)) :
    (blocked (y :: ys)).pairing (blocked (u :: us)) =
      y.pairing u + (blocked ys).pairing (blocked us) := by
  have hsize : (blocked (y :: ys)).size = y.entries.size + (blocked ys).size := by
    simp [size, entries, blockEntries]
  have hyu : y.entries.size = u.entries.size := by rw [y.size_entries, u.size_entries, h]
  rw [pairing, hsize, Finset.sum_range_add, ← pairing_flat h, pairing]
  congr 1
  · apply Finset.sum_congr rfl
    intro k hk
    have hy : k < y.entries.size := by simpa [size, entries] using hk
    rw [coord_blocked_cons_of_lt hy, coord_blocked_cons_of_lt (hyu ▸ hy)]
  · apply Finset.sum_congr rfl
    intro k _
    rw [coord_blocked_cons_add, hyu, coord_blocked_cons_add]

end Signal

end

end OperatorSplitting
