import OperatorSplitting.Shape

/-!
# Dense arrays

A tensor is a box of entries in row-major order.  It is made from a function on indices, and
`entry_ofFn` says that its entries are the values of that function; all other operations are stated
by what they do to an entry.  An operation whose result can be a larger box than its operands has no
result where that box cannot be addressed or stored.
-/

namespace OperatorSplitting

/-- A dense array. -/
structure Tensor (α : Type) where
  dims : List Nat
  entries : Array α
  size_entries : entries.size = volume dims

namespace Tensor

variable {α β γ : Type}

/-- The array whose entry at each index is given by `f`. -/
@[inline] def ofFn (dims : List Nat) (f : List Nat → α) : Tensor α where
  dims := dims
  entries := Array.ofFn fun k : Fin (volume dims) => f (indexAt dims k)
  size_entries := Array.size_ofFn

/-- The entry at an index; outside the array it is zero. -/
@[inline] def entry [Zero α] (t : Tensor α) (idx : List Nat) : α :=
  t.entries.getD (offset t.dims idx) 0

@[simp] theorem dims_ofFn (dims : List Nat) (f : List Nat → α) : (ofFn dims f).dims = dims := rfl

theorem entry_ofFn [Zero α] {dims idx : List Nat} (f : List Nat → α) (h : InBox dims idx) :
    (ofFn dims f).entry idx = f idx := by
  have hlt := offset_lt h
  simp [entry, ofFn, hlt, indexAt_offset h]

/-- Two arrays of the same extents are equal when their entries are. -/
theorem ext_entry [Zero α] {s t : Tensor α} (hdims : s.dims = t.dims)
    (h : ∀ idx, InBox s.dims idx → s.entry idx = t.entry idx) : s = t := by
  obtain ⟨sd, se, hs⟩ := s
  obtain ⟨td, te, ht⟩ := t
  dsimp only at hdims
  subst hdims
  have hentries : se = te := by
    apply Array.ext (by omega)
    intro k hk hk'
    have hbox : k < volume sd := hs ▸ hk
    simpa [entry, offset_indexAt hbox, hk, hk'] using h (indexAt sd k) (inBox_indexAt hbox)
  subst hentries
  rfl

/-- The number of axes. -/
def rank (t : Tensor α) : Nat := t.dims.length

/-- The extent of an axis. -/
def extent (t : Tensor α) (axis : Nat) : Nat := t.dims.getD axis 0

/-- Apply `f` to every entry. -/
@[inline] def map (f : α → β) (t : Tensor α) : Tensor β where
  dims := t.dims
  entries := t.entries.map f
  size_entries := by simpa using t.size_entries

/-- All entries are equal. -/
def replicate (dims : List Nat) (a : α) : Tensor α where
  dims := dims
  entries := Array.replicate (volume dims) a
  size_entries := Array.size_replicate

/-- A vector. -/
def ofArray (entries : Array α) : Tensor α where
  dims := [entries.size]
  entries := entries
  size_entries := by simp [volume]

/-- The array whose entry at each index is given by `f`, if the box can be stored. -/
@[inline] def build? (dims : List Nat) (f : List Nat → α) : Option (Tensor α) :=
  if Storable dims then some (ofFn dims f) else none

/-- Arrange entries in a box, if there are as many as the box holds. -/
def ofEntries? (dims : List Nat) (entries : Array α) : Option (Tensor α) :=
  if h : entries.size = volume dims then
    if Addressable dims then some ⟨dims, entries, h⟩ else none
  else none

/-- Combine the entries of two arrays of the same extents. -/
@[inline] def zip? (f : α → β → γ) (a : Tensor α) (b : Tensor β) : Option (Tensor γ) :=
  if h : a.dims = b.dims then
    some ⟨a.dims, Array.zipWith f a.entries b.entries, by
      rw [Array.size_zipWith, a.size_entries, b.size_entries, h, Nat.min_self]⟩
  else none

/-- The index in an array that a stretched index reads: leading axes are dropped, and an axis of
extent one is read at zero. -/
def project (dims idx : List Nat) : List Nat :=
  List.zipWith (fun d i => if d = 1 then 0 else i) dims (idx.drop (idx.length - dims.length))

/-- Whether an array can be read as one of the given extents. -/
def canStretch (t : Tensor α) (dims : List Nat) : Bool := stretches t.dims dims && Addressable dims

/-- Stretch an array to the given extents. -/
def stretch? [Zero α] (t : Tensor α) (dims : List Nat) : Option (Tensor α) :=
  if t.dims = dims then some t
  else if stretches t.dims dims then build? dims fun idx => t.entry (project t.dims idx)
  else none

/-- Combine two arrays after stretching both to their common extents. -/
def zipStretched? [Zero α] [Zero β] (f : α → β → γ) (a : Tensor α) (b : Tensor β) :
    Option (Tensor γ) := do
  let dims ← broadcastDims a.dims b.dims
  let a ← a.stretch? dims
  let b ← b.stretch? dims
  zip? f a b

/-- The part of an array before a position along an axis. -/
def take? [Zero α] (t : Tensor α) (axis position : Nat) : Option (Tensor α) := do
  let place ← cutPlace? (t.extent axis) position
  if axis < t.rank then some (ofFn (t.dims.set axis place) t.entry) else none

/-- The part of an array from a position along an axis on. -/
def drop? [Zero α] (t : Tensor α) (axis position : Nat) : Option (Tensor α) := do
  let place ← cutPlace? (t.extent axis) position
  if axis < t.rank then
    some (ofFn (t.dims.set axis (t.extent axis - place)) fun idx =>
      t.entry (idx.modify axis (· + place)))
  else none

/-- Two arrays one after the other along an axis. -/
def join [Zero α] (axis : Nat) (a b : Tensor α) : Except LayoutFault (Tensor α) :=
  let dims := a.dims.set axis (a.extent axis + b.extent axis)
  if axis < a.rank ∧ a.dims.set axis 0 = b.dims.set axis 0 then
    if Addressable dims then
      .ok <| ofFn dims fun idx =>
        let k := idx.getD axis 0
        if k < a.extent axis then a.entry idx else b.entry (idx.set axis (k - a.extent axis))
    else .error .overflow
  else .error .incompatible

/-- Arrays of the same extents on top of each other along a new leading axis. -/
def stack [Zero α] : List (Tensor α) → Except LayoutFault (Tensor α)
  | [] => .error .incompatible
  | t :: ts =>
    let dims := (ts.length + 1) :: t.dims
    if ts.all fun s => s.dims = t.dims then
      if Addressable dims then
        .ok <| ofFn dims fun idx =>
          match idx with
          | [] => 0
          | k :: rest =>
            match (t :: ts)[k]? with
            | some s => s.entry rest
            | none => 0
      else .error .overflow
    else .error .incompatible

/-- One layer along the leading axis. -/
def layer? [Zero α] (t : Tensor α) (k : Nat) : Option (Tensor α) :=
  match t.dims with
  | [] => none
  | d :: ds => if k < d then some (ofFn ds fun idx => t.entry (k :: idx)) else none

end Tensor

/-- The sum of `f 0`, `f 1`, … below `n`, added from left to right to zero. -/
@[specialize] def sumBelow {α : Type} [Zero α] [Add α] (f : Nat → α) : Nat → α
  | 0 => 0
  | n + 1 => sumBelow f n + f n

/-- The sum of the values of `f` on the entries, added from left to right to zero. -/
@[inline] def sumEntries {α β : Type} [Zero β] [Add β] (f : α → β) (entries : Array α) : β :=
  entries.foldl (fun acc a => acc + f a) 0

namespace Tensor

variable {α : Type} [Zero α] [Add α]

/-- Sum over the leading axis, which vanishes. -/
def sumLeading? (t : Tensor α) : Option (Tensor α) :=
  match t.dims with
  | [] => some t
  | d :: ds => build? ds fun idx => sumBelow (fun k => t.entry (k :: idx)) d

/-- Sum over an axis, which is kept with extent one. -/
def sumAxis? (t : Tensor α) (axis : Nat) : Option (Tensor α) :=
  build? (t.dims.set axis 1) fun idx =>
    sumBelow (fun k => t.entry (idx.set axis k)) (t.extent axis)

/-- Sum over leading axes until the rank is at most `n`. -/
def sumToRank (n : Nat) : Nat → Tensor α → Option (Tensor α)
  | 0, t => some t
  | steps + 1, t =>
    if n < t.rank then do
      let sum ← t.sumLeading?
      sumToRank n steps sum
    else some t

/-- Sum over the axes, from the given one on, whose target extent is one. -/
def sumToExtents : List Nat → Nat → Tensor α → Option (Tensor α)
  | [], _, t => some t
  | n :: ns, axis, t =>
    if n = 1 then
      if t.rank ≤ axis then none
      else if t.extent axis = 1 then sumToExtents ns (axis + 1) t
      else do
        let sum ← t.sumAxis? axis
        sumToExtents ns (axis + 1) sum
    else sumToExtents ns (axis + 1) t

/-- Sum an array over everything that stretching from the extents `target` repeats.  The array must
have the axes along which it is summed. -/
def sumTo? (t : Tensor α) (target : List Nat) : Option (Tensor α) := do
  let sum ← sumToRank target.length t.rank t
  sumToExtents target 0 sum

end Tensor

end OperatorSplitting
