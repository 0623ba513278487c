import Mathlib
import OperatorSplitting.Tensor.Basic

/-!
# Sums over the indices of a box

The indices of a box form a finite set, and a sum over it is the sum over all row-major positions
(`sum_box_eq_range`).  It can be taken axis by axis: the leading axis first (`sum_box_cons`), or any
one axis inside the others (`sum_box_axis`).  Sums that are added up in a loop are sums of values
(`map_sumBelow`, `map_sumEntries`), for every additive reading of the summands.
-/

namespace OperatorSplitting

/-! ### Indices -/

theorem InBox.length_eq {dims idx : List ℕ} (h : InBox dims idx) : idx.length = dims.length := by
  induction dims generalizing idx with
  | nil => cases idx with
    | nil => rfl
    | cons i is => exact absurd h (by simp [InBox])
  | cons d ds ih =>
    cases idx with
    | nil => exact absurd h (by simp [InBox])
    | cons i is => simp [ih h.2]

theorem inBox_nil_iff {idx : List ℕ} : InBox [] idx ↔ idx = [] := by
  cases idx <;> simp [InBox]

/-- Every entry of an index is below the extent of its axis. -/
theorem InBox.getD_lt {dims idx : List ℕ} (h : InBox dims idx) {axis : ℕ}
    (haxis : axis < dims.length) : idx.getD axis 0 < dims.getD axis 0 := by
  induction dims generalizing idx axis with
  | nil => simp at haxis
  | cons d ds ih =>
    cases idx with
    | nil => exact absurd h (by simp [InBox])
    | cons i is =>
      cases axis with
      | zero => simpa using h.1
      | succ axis =>
        rw [List.getD_cons_succ, List.getD_cons_succ]
        exact ih h.2 (by simpa using haxis)

/-- Replacing one entry of an index keeps it in every box that agrees on the other axes. -/
theorem InBox.set {dims idx : List ℕ} (h : InBox dims idx) {axis n k : ℕ} (hk : k < n) :
    InBox (dims.set axis n) (idx.set axis k) := by
  induction dims generalizing idx axis with
  | nil =>
    rw [inBox_nil_iff] at h
    subst h
    exact trivial
  | cons d ds ih =>
    cases idx with
    | nil => exact absurd h (by simp [InBox])
    | cons i is =>
      cases axis with
      | zero => exact ⟨hk, h.2⟩
      | succ axis => exact ⟨h.1, ih h.2⟩

/-- An index whose entry along an axis is below `n` stays in the box when the extent there is
replaced by `n`. -/
theorem InBox.set_dims {dims idx : List ℕ} (h : InBox dims idx) {axis n : ℕ}
    (hk : idx.getD axis 0 < n) : InBox (dims.set axis n) idx := by
  have hset : InBox (dims.set axis _) (idx.set axis _) := h.set hk
  rcases Nat.lt_or_ge axis idx.length with hlt | hge
  · rwa [List.getD_eq_getElem _ _ hlt, List.set_getElem_self] at hset
  · rwa [List.set_eq_of_length_le hge] at hset

theorem indexAt_injOn (dims : List ℕ) :
    Set.InjOn (indexAt dims) (Finset.range (volume dims) : Finset ℕ) := by
  intro a ha b hb hab
  have ha' : a < volume dims := by simpa using ha
  have hb' : b < volume dims := by simpa using hb
  rw [← offset_indexAt ha', ← offset_indexAt hb', hab]

/-- The indices of a box. -/
def box (dims : List ℕ) : Finset (List ℕ) := (Finset.range (volume dims)).image (indexAt dims)

theorem mem_box {dims idx : List ℕ} : idx ∈ box dims ↔ InBox dims idx := by
  rw [box, Finset.mem_image]
  constructor
  · rintro ⟨k, hk, rfl⟩
    exact inBox_indexAt (by simpa using hk)
  · intro h
    exact ⟨offset dims idx, by simpa using offset_lt h, indexAt_offset h⟩

/-! ### Sums over a box -/

section Sums

variable {M : Type*} [AddCommMonoid M]

theorem sum_box_eq_range (dims : List ℕ) (f : List ℕ → M) :
    ∑ idx ∈ box dims, f idx = ∑ k ∈ Finset.range (volume dims), f (indexAt dims k) := by
  rw [box, Finset.sum_image (indexAt_injOn dims)]

@[simp] theorem sum_box_nil (f : List ℕ → M) : ∑ idx ∈ box [], f idx = f [] := by
  simp [sum_box_eq_range, volume, indexAt]

/-- A sum over a box is a sum over its leading axis of sums over its layers. -/
theorem sum_box_cons (d : ℕ) (ds : List ℕ) (f : List ℕ → M) :
    ∑ idx ∈ box (d :: ds), f idx = ∑ k ∈ Finset.range d, ∑ idx ∈ box ds, f (k :: idx) := by
  rw [← Finset.sum_product']
  refine Finset.sum_bij' (fun idx _ => (idx.headD 0, idx.tail)) (fun p _ => p.1 :: p.2) ?_ ?_ ?_ ?_ ?_
  · intro idx hidx
    rw [mem_box] at hidx
    cases idx with
    | nil => exact absurd hidx (by simp [InBox])
    | cons i is =>
      rw [Finset.mem_product]
      exact ⟨by simpa using hidx.1, mem_box.mpr hidx.2⟩
  · intro p hp
    rw [Finset.mem_product] at hp
    exact mem_box.mpr ⟨by simpa using hp.1, mem_box.mp hp.2⟩
  · intro idx hidx
    rw [mem_box] at hidx
    cases idx with
    | nil => exact absurd hidx (by simp [InBox])
    | cons i is => rfl
  · intro p _
    rfl
  · intro idx hidx
    rw [mem_box] at hidx
    cases idx with
    | nil => exact absurd hidx (by simp [InBox])
    | cons i is => rfl

/-- A sum over a box, with one axis summed inside the others: the outer sum runs over the box in
which that axis has extent one. -/
theorem sum_box_axis {dims : List ℕ} {axis : ℕ} (haxis : axis < dims.length) (f : List ℕ → M) :
    ∑ idx ∈ box dims, f idx =
      ∑ idx ∈ box (dims.set axis 1), ∑ k ∈ Finset.range (dims.getD axis 0), f (idx.set axis k) := by
  induction dims generalizing axis f with
  | nil => simp at haxis
  | cons d ds ih =>
    cases axis with
    | zero =>
      rw [List.set_cons_zero, sum_box_cons, sum_box_cons, Finset.sum_range_one, Finset.sum_comm]
      rfl
    | succ axis =>
      rw [List.set_cons_succ, sum_box_cons, sum_box_cons]
      apply Finset.sum_congr rfl
      intro k _
      rw [ih (by simpa using haxis)]
      rfl

end Sums

/-! ### Sums in a loop -/

section Loops

variable {α β : Type} {M : Type*} [Zero β] [Add β] [AddCommMonoid M]

theorem map_sumBelow {φ : β → M} (hzero : φ 0 = 0)
    (hadd : ∀ a b, φ (a + b) = φ a + φ b) (f : ℕ → β) (n : ℕ) :
    φ (sumBelow f n) = ∑ k ∈ Finset.range n, φ (f k) := by
  induction n with
  | zero => simpa [sumBelow] using hzero
  | succ n ih => rw [sumBelow, hadd, ih, Finset.sum_range_succ]

omit [Zero β] in
theorem map_foldl_add {φ : β → M} (hadd : ∀ a b, φ (a + b) = φ a + φ b) (f : α → β)
    (d : α) (l : List α) (start : β) :
    φ (l.foldl (fun acc a => acc + f a) start) =
      φ start + ∑ k ∈ Finset.range l.length, φ (f (l.getD k d)) := by
  induction l generalizing start with
  | nil => simp
  | cons a as ih =>
    rw [List.foldl_cons, ih, List.length_cons, Finset.sum_range_succ', hadd]
    simp only [List.getD_cons_succ, List.getD_cons_zero]
    rw [add_assoc, add_comm (φ (f a))]

theorem map_sumEntries {φ : β → M} (hzero : φ 0 = 0)
    (hadd : ∀ a b, φ (a + b) = φ a + φ b) (f : α → β) (d : α) (entries : Array α) :
    φ (sumEntries f entries) =
      ∑ k ∈ Finset.range entries.size, φ (f (entries.getD k d)) := by
  rw [sumEntries, ← Array.foldl_toList, map_foldl_add hadd f d, hzero, zero_add,
    Array.length_toList]
  apply Finset.sum_congr rfl
  intro k _
  rw [List.getD_eq_getElem?_getD, Array.getElem?_toList, Array.getD_eq_getD_getElem?]

end Loops

end OperatorSplitting
