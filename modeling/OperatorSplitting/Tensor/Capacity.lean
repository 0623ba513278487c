import OperatorSplitting.Tensor.Index

/-!
# How large a box may be

Counts are words of 64 bits, and positions inside an array take 63 of them.  A box is addressable if
the product of its extents is a position; the extents zero do not count, so that an empty box may not
be arbitrarily long along its other axes.  A box is storable if its entries also fit into memory.
-/

namespace OperatorSplitting

/-- Counts are kept up to multiples of this number. -/
def countRange : Nat := Nat.pow 2 64

/-- Positions are below this number. -/
def positionRange : Nat := Nat.pow 2 63

/-- Memory holds fewer entries than this, each of at most sixteen bytes. -/
def storeRange : Nat := Nat.pow 2 59

/-- The product of the extents that are not zero. -/
def spread : List Nat → Nat
  | [] => 1
  | d :: ds => (if d = 0 then 1 else d) * spread ds

/-- The positions along all axes of the box can be counted. -/
def Addressable (dims : List Nat) : Prop := spread dims < positionRange

/-- The entries of the box can be counted and kept. -/
def Storable (dims : List Nat) : Prop := Addressable dims ∧ volume dims < storeRange

instance (dims : List Nat) : Decidable (Addressable dims) :=
  inferInstanceAs (Decidable (spread dims < positionRange))

instance (dims : List Nat) : Decidable (Storable dims) :=
  inferInstanceAs (Decidable (Addressable dims ∧ volume dims < storeRange))

/-- The place along an axis at which a position cuts it.  A position beyond `positionRange` counts
back from the end of the axis. -/
def cutPlace? (extent position : Nat) : Option Nat :=
  if position < positionRange then if position ≤ extent then some position else none
  else if countRange - position ≤ extent then some (extent - (countRange - position)) else none

theorem spread_pos (dims : List Nat) : 0 < spread dims := by
  induction dims with
  | nil => decide
  | cons d ds ih =>
    refine Nat.mul_pos ?_ ih
    split <;> omega

theorem volume_le_spread (dims : List Nat) : volume dims ≤ spread dims := by
  induction dims with
  | nil => decide
  | cons d ds ih =>
    simp only [volume, spread]
    split
    · next h => simp [h]
    · exact Nat.mul_le_mul_left d ih

theorem volume_eq_spread {dims : List Nat} (h : 0 ∉ dims) : volume dims = spread dims := by
  induction dims with
  | nil => rfl
  | cons d ds ih =>
    simp only [List.mem_cons, not_or] at h
    simp only [volume, spread, ih h.2]
    rw [if_neg (fun h0 => h.1 h0.symm)]

theorem Addressable.volume_lt {dims : List Nat} (h : Addressable dims) :
    volume dims < positionRange :=
  Nat.lt_of_le_of_lt (volume_le_spread dims) h

theorem cutPlace?_of_le {extent position : Nat} (hpos : position < positionRange)
    (hle : position ≤ extent) : cutPlace? extent position = some position := by
  simp [cutPlace?, hpos, hle]

theorem le_of_cutPlace? {extent position place : Nat}
    (h : cutPlace? extent position = some place) : place ≤ extent := by
  unfold cutPlace? at h
  split at h <;> split at h <;> simp at h <;> omega

example : cutPlace? 3 (2 ^ 64 - 2) = some 1 := by decide

end OperatorSplitting
