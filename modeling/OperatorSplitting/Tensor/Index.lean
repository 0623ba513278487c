/-!
# Indices of a box

A box is given by the list of its extents, the first axis outermost.  Its entries are stored in
row-major order: `offset` is the position of an index, `indexAt` the index at a position, and the
two are inverse inside the box.
-/

namespace OperatorSplitting

/-- The number of entries of a box. -/
def volume : List Nat → Nat
  | [] => 1
  | d :: ds => d * volume ds

/-- The row-major position of an index. -/
def offset : List Nat → List Nat → Nat
  | _ :: ds, i :: is => i * volume ds + offset ds is
  | _, _ => 0

/-- The index at a row-major position. -/
def indexAt : List Nat → Nat → List Nat
  | [], _ => []
  | _ :: ds, k => k / volume ds :: indexAt ds (k % volume ds)

/-- The index has one entry for each axis, below its extent. -/
def InBox : List Nat → List Nat → Prop
  | [], [] => True
  | d :: ds, i :: is => i < d ∧ InBox ds is
  | _, _ => False

instance decidableInBox : (dims idx : List Nat) → Decidable (InBox dims idx)
  | [], [] => inferInstanceAs (Decidable True)
  | [], _ :: _ => inferInstanceAs (Decidable False)
  | _ :: _, [] => inferInstanceAs (Decidable False)
  | d :: ds, i :: is => @instDecidableAnd (i < d) (InBox ds is) _ (decidableInBox ds is)

theorem offset_lt {dims idx : List Nat} (h : InBox dims idx) : offset dims idx < volume dims := by
  induction dims generalizing idx with
  | nil => cases idx <;> simp_all [InBox, offset, volume]
  | cons d ds ih =>
    cases idx with
    | nil => simp [InBox] at h
    | cons i is =>
      have hrest := ih h.2
      have hi : (i + 1) * volume ds ≤ d * volume ds := Nat.mul_le_mul_right _ h.1
      simp only [offset, volume]
      rw [Nat.succ_mul] at hi
      omega

theorem indexAt_offset {dims idx : List Nat} (h : InBox dims idx) :
    indexAt dims (offset dims idx) = idx := by
  induction dims generalizing idx with
  | nil => cases idx <;> simp_all [InBox, indexAt]
  | cons d ds ih =>
    cases idx with
    | nil => simp [InBox] at h
    | cons i is =>
      have hlt := offset_lt h.2
      simp only [offset, indexAt, List.cons.injEq]
      rw [Nat.add_comm, Nat.add_mul_div_right _ _ (by omega), Nat.div_eq_of_lt hlt,
        Nat.add_mul_mod_self_right, Nat.mod_eq_of_lt hlt]
      exact ⟨by omega, ih h.2⟩

theorem inBox_indexAt {dims : List Nat} {k : Nat} (h : k < volume dims) :
    InBox dims (indexAt dims k) := by
  induction dims generalizing k with
  | nil => trivial
  | cons d ds ih =>
    have hpos : 0 < volume ds := by
      rcases Nat.eq_zero_or_pos (volume ds) with h0 | h0
      · simp [volume, h0] at h
      · exact h0
    refine ⟨?_, ih (Nat.mod_lt _ hpos)⟩
    rw [Nat.div_lt_iff_lt_mul hpos]
    exact h

theorem offset_indexAt {dims : List Nat} {k : Nat} (h : k < volume dims) :
    offset dims (indexAt dims k) = k := by
  induction dims generalizing k with
  | nil => simp only [volume] at h; simp only [offset]; omega
  | cons d ds ih =>
    have hpos : 0 < volume ds := by
      rcases Nat.eq_zero_or_pos (volume ds) with h0 | h0
      · simp [volume, h0] at h
      · exact h0
    simp only [indexAt, offset]
    rw [ih (Nat.mod_lt _ hpos)]
    have := Nat.div_add_mod k (volume ds)
    rw [Nat.mul_comm] at this
    exact this

end OperatorSplitting
