import Mathlib
import OperatorSplitting.Tensor.Basic
import OperatorSplitting.Proofs.Exact.Box

/-!
# Stretching a box

A box can be stretched to another one if its extents, aligned with the last extents there, are equal
to them or one (`stretches_iff`).  An index of the large box then reads an index of the small one
(`InBox.project`), and a box reads itself unchanged (`project_self`).  The common box of two boxes is
one to which both can be stretched (`stretches_left_of_broadcastDims`,
`stretches_right_of_broadcastDims`).
-/

namespace OperatorSplitting

/-- An extent can be read as another one. -/
def Stretches (a b : ℕ) : Prop := a = b ∨ a = 1

theorem stretchesReversed_iff (as bs : List ℕ) :
    stretchesReversed as bs = true ↔
      as.length ≤ bs.length ∧ List.Forall₂ Stretches as (bs.take as.length) := by
  induction as generalizing bs with
  | nil => simp [stretchesReversed]
  | cons a as ih =>
    cases bs with
    | nil => simp [stretchesReversed]
    | cons b bs =>
      simp only [stretchesReversed, Bool.and_eq_true, Bool.or_eq_true, decide_eq_true_eq, ih,
        List.length_cons, List.take_succ_cons, List.forall₂_cons, Stretches,
        Nat.add_le_add_iff_right]
      tauto

/-- Stretching aligns the last extents. -/
theorem stretches_iff (a b : List ℕ) :
    stretches a b = true ↔
      a.length ≤ b.length ∧ List.Forall₂ Stretches a (b.drop (b.length - a.length)) := by
  rw [stretches, stretchesReversed_iff, List.length_reverse, List.length_reverse,
    List.take_reverse, List.forall₂_reverse_iff]

theorem forall₂_stretches_refl (a : List ℕ) : List.Forall₂ Stretches a a := by
  induction a with
  | nil => exact .nil
  | cons d ds ih => exact .cons (.inl rfl) ih

theorem stretchesReversed_refl (as : List ℕ) : stretchesReversed as as = true := by
  rw [stretchesReversed_iff, List.take_length]
  exact ⟨le_rfl, forall₂_stretches_refl as⟩

theorem stretches_refl (a : List ℕ) : stretches a a = true := stretchesReversed_refl a.reverse

/-- An extent other than one stays. -/
theorem mem_of_stretches {a b : List ℕ} (h : stretches a b = true) {d : ℕ} (hd : d ∈ a)
    (hone : d ≠ 1) : d ∈ b := by
  obtain ⟨-, hforall⟩ := (stretches_iff a b).mp h
  apply List.mem_of_mem_drop (i := b.length - a.length)
  generalize b.drop (b.length - a.length) = c at hforall
  clear h
  induction hforall with
  | nil => cases hd
  | cons hxy _ ih =>
    rcases List.mem_cons.mp hd with rfl | hd
    · rw [hxy.resolve_right hone]
      exact List.mem_cons_self
    · exact List.mem_cons_of_mem _ (ih hd)

/-- Boxes of the same rank are stretched axis by axis. -/
theorem stretches_getD {a b : List ℕ} (h : stretches a b = true) (hlen : a.length = b.length)
    {axis : ℕ} (haxis : axis < a.length) : Stretches (a.getD axis 0) (b.getD axis 0) := by
  obtain ⟨-, hforall⟩ := (stretches_iff a b).mp h
  rw [hlen, Nat.sub_self, List.drop_zero] at hforall
  rw [List.getD_eq_getElem _ _ haxis, List.getD_eq_getElem _ _ (hlen ▸ haxis)]
  exact hforall.get haxis (hlen ▸ haxis)

/-! ### Reading an index of the large box -/

theorem InBox.drop {dims idx : List ℕ} (h : InBox dims idx) (n : ℕ) :
    InBox (dims.drop n) (idx.drop n) := by
  induction n generalizing dims idx with
  | zero => exact h
  | succ n ih =>
    cases dims with
    | nil =>
      rw [inBox_nil_iff] at h
      subst h
      exact trivial
    | cons d ds =>
      cases idx with
      | nil => exact absurd h (by simp [InBox])
      | cons i is => exact ih h.2

theorem inBox_zipWith_of_stretches {a b idx : List ℕ} (hab : List.Forall₂ Stretches a b)
    (h : InBox b idx) : InBox a (List.zipWith (fun d i => if d = 1 then 0 else i) a idx) := by
  induction hab generalizing idx with
  | nil =>
    rw [inBox_nil_iff] at h
    subst h
    exact trivial
  | @cons x y xs ys hxy _ ih =>
    cases idx with
    | nil => exact absurd h (by simp [InBox])
    | cons i is =>
      refine ⟨?_, ih h.2⟩
      by_cases hx : x = 1
      · simp [hx]
      · show (if x = 1 then 0 else i) < x
        rw [if_neg hx, hxy.resolve_right hx]
        exact h.1

/-- An index of a stretched box reads an index of the box. -/
theorem InBox.project {a b idx : List ℕ} (hab : stretches a b = true) (h : InBox b idx) :
    InBox a (Tensor.project a idx) := by
  rw [stretches_iff] at hab
  have hdrop := h.drop (b.length - a.length)
  rw [← h.length_eq] at hdrop hab
  exact inBox_zipWith_of_stretches hab.2 hdrop

/-- A box reads its own indices unchanged. -/
theorem project_self {dims idx : List ℕ} (h : InBox dims idx) : Tensor.project dims idx = idx := by
  rw [Tensor.project, h.length_eq, Nat.sub_self, List.drop_zero]
  induction dims generalizing idx with
  | nil =>
    rw [inBox_nil_iff] at h
    subst h
    rfl
  | cons d ds ih =>
    cases idx with
    | nil => exact absurd h (by simp [InBox])
    | cons i is =>
      rw [List.zipWith_cons_cons, ih h.2]
      by_cases hd : d = 1
      · have hi := h.1
        rw [hd] at hi
        simp [hd, Nat.lt_one_iff.mp hi]
      · rw [if_neg hd]

/-! ### The common box -/

theorem mergeReversed_self (as : List ℕ) : mergeReversed as as = some as := by
  induction as with
  | nil => rfl
  | cons a as ih => simp [mergeReversed, mergeExtent, ih]

@[simp] theorem broadcastDims_self (a : List ℕ) : broadcastDims a a = some a := by
  simp [broadcastDims, mergeReversed_self]

theorem stretches_of_mergeExtent {a b d : ℕ} (h : mergeExtent a b = some d) :
    Stretches a d ∧ Stretches b d := by
  unfold mergeExtent at h
  split at h
  · next hab =>
    cases h
    exact ⟨.inl rfl, .inl hab.symm⟩
  · split at h
    · next ha =>
      cases h
      exact ⟨.inr ha, .inl rfl⟩
    · split at h
      · next hb =>
        cases h
        exact ⟨.inl rfl, .inr hb⟩
      · cases h

theorem stretchesReversed_of_mergeReversed {as bs ds : List ℕ}
    (h : mergeReversed as bs = some ds) :
    stretchesReversed as ds = true ∧ stretchesReversed bs ds = true := by
  induction as generalizing bs ds with
  | nil =>
    cases h
    exact ⟨rfl, stretchesReversed_refl bs⟩
  | cons a as ih =>
    cases bs with
    | nil =>
      cases h
      exact ⟨stretchesReversed_refl (a :: as), rfl⟩
    | cons b bs =>
      simp only [mergeReversed, Option.bind_eq_bind, Option.bind_eq_some_iff] at h
      obtain ⟨d, hd, rest, hrest, hds⟩ := h
      cases hds
      obtain ⟨ha, hb⟩ := stretches_of_mergeExtent hd
      obtain ⟨has, hbs⟩ := ih hrest
      simp only [stretchesReversed, Bool.and_eq_true, Bool.or_eq_true, decide_eq_true_eq]
      exact ⟨⟨ha, has⟩, ⟨hb, hbs⟩⟩

theorem stretches_left_of_broadcastDims {a b dims : List ℕ} (h : broadcastDims a b = some dims) :
    stretches a dims = true := by
  obtain ⟨ds, hds, rfl⟩ := Option.map_eq_some_iff.mp h
  rw [stretches, List.reverse_reverse]
  exact (stretchesReversed_of_mergeReversed hds).1

theorem stretches_right_of_broadcastDims {a b dims : List ℕ} (h : broadcastDims a b = some dims) :
    stretches b dims = true := by
  obtain ⟨ds, hds, rfl⟩ := Option.map_eq_some_iff.mp h
  rw [stretches, List.reverse_reverse]
  exact (stretchesReversed_of_mergeReversed hds).2

end OperatorSplitting
