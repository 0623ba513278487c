import Mathlib
import OperatorSplitting.Signal
import OperatorSplitting.Proofs.Exact.Vector
import OperatorSplitting.Proofs.Tensor.Summing

/-!
# Flattening and arranging

The elements of a signal stand in one row, block after block, and elements in a row can be arranged
in a shape.  The two are inverse (`flatten_arrange`).  The blocks are cut off one after the other,
so that the place of a block depends on the sizes of all blocks before it; the invariant is that
what is cut off from some place on is as long as these blocks are (`cutBlocks_spec`).

Elements can be arranged exactly if they are as many as the shape holds (`exists_ofEntries_iff`).
Numbers of elements are kept as counts, and the sizes of many large blocks can add up to more than
a count.  Such a shape takes no elements at all, not even as many as its size says
(`exists_size_eq_of_ofEntries_error`).
-/

namespace OperatorSplitting

/-! ### Numbers of elements -/

theorem volumes_le_spread (blocks : List (List ℕ)) :
    Shape.volumes blocks ≤ (blocks.map spread).sum := by
  induction blocks with
  | nil => exact le_rfl
  | cons dims rest ih =>
    rw [Shape.volumes, List.map_cons, List.sum_cons]
    exact Nat.add_le_add (volume_le_spread dims) ih

namespace Shape

/-- The number of elements, as a number. -/
def elementCount : Shape → ℕ
  | .flat dims => volume dims
  | .blocked blocks => volumes blocks

/-- All boxes of the shape are addressable. -/
def Addressable : Shape → Prop
  | .flat dims => OperatorSplitting.Addressable dims
  | .blocked blocks => ∀ dims ∈ blocks, OperatorSplitting.Addressable dims

instance decidableAddressable : (s : Shape) → Decidable s.Addressable
  | .flat dims => inferInstanceAs (Decidable (OperatorSplitting.Addressable dims))
  | .blocked blocks =>
    inferInstanceAs (Decidable (∀ dims ∈ blocks, OperatorSplitting.Addressable dims))

/-- The size is the number of elements, up to multiples of the range of counts. -/
theorem size_eq (s : Shape) : s.size = s.elementCount % countRange := by
  cases s <;> rfl

theorem size_of_lt {s : Shape} (h : s.elementCount < countRange) : s.size = s.elementCount := by
  rw [size_eq, Nat.mod_eq_of_lt h]

theorem size_lt_countRange (s : Shape) : s.size < countRange := by
  rw [size_eq]
  exact Nat.mod_lt _ (by decide)

theorem elementCount_le_spread (s : Shape) : s.elementCount ≤ s.spread := by
  cases s with
  | flat dims => exact volume_le_spread dims
  | blocked blocks => exact volumes_le_spread blocks

theorem Roomy.elementCount_lt {s : Shape} (h : s.Roomy) : s.elementCount < countRange :=
  (s.elementCount_le_spread.trans_lt h).trans (by decide)

theorem Roomy.size_lt {s : Shape} (h : s.Roomy) : s.size < storeRange := by
  rw [size_of_lt h.elementCount_lt]
  exact s.elementCount_le_spread.trans_lt h

theorem Roomy.addressable {s : Shape} (h : s.Roomy) : s.Addressable := by
  cases s with
  | flat dims => exact (OperatorSplitting.Roomy.storable h).1
  | blocked blocks => exact fun dims hdims => (h.blocks dims hdims).storable.1

end Shape

theorem roomy_singleton {n : ℕ} (h : n < storeRange) : Roomy [n] := by
  rw [Roomy, spread, spread, Nat.mul_one]
  split
  · decide
  · exact h

theorem Addressable.volume_mod {dims : List ℕ} (h : Addressable dims) :
    volume dims % countRange = volume dims :=
  Nat.mod_eq_of_lt (h.volume_lt.trans (by decide))

/-! ### Arranging elements in one box -/

theorem Tensor.exists_ofEntries?_iff {α : Type} {dims : List ℕ} {values : Array α} :
    (∃ t, Tensor.ofEntries? dims values = some t) ↔
      values.size = volume dims ∧ Addressable dims := by
  unfold Tensor.ofEntries?
  by_cases hsize : values.size = volume dims
  · by_cases hroom : Addressable dims <;> simp [hsize, hroom]
  · simp [hsize]

theorem Tensor.ofEntries?_spec {α : Type} {dims : List ℕ} {values : Array α} {t : Tensor α}
    (h : Tensor.ofEntries? dims values = some t) : t.dims = dims ∧ t.entries = values := by
  unfold Tensor.ofEntries? at h
  split at h
  · split at h
    · cases h
      exact ⟨rfl, rfl⟩
    · cases h
  · cases h

namespace Signal

variable {α : Type} {s whole : Shape} {dims : List ℕ} {blocks : List (List ℕ)} {values : Array α}

/-- The number of elements of a signal is that of its shape. -/
theorem size_eq_elementCount (x : Signal α) : x.size = x.shape.elementCount := by
  cases x with
  | flat t => exact t.size_entries
  | blocked ts => exact size_blockEntries ts

/-- In roomy shapes the number of elements is a count. -/
theorem size_of_roomy {x : Signal α} (h : x.shape.Roomy) : x.size = x.shape.size := by
  rw [size_eq_elementCount, Shape.size_of_lt h.elementCount_lt]

theorem ofDims_eq_ok_iff {x : Signal α} :
    ofDims dims values = .ok x ↔ ∃ t, Tensor.ofEntries? dims values = some t ∧ x = .flat t := by
  unfold ofDims
  cases Tensor.ofEntries? dims values with
  | none => simp
  | some t => simp [eq_comm]

theorem ofDims_spec {x : Signal α} (h : ofDims dims values = .ok x) :
    x.shape = .flat dims ∧ x.entries = values := by
  obtain ⟨t, ht, rfl⟩ := ofDims_eq_ok_iff.mp h
  obtain ⟨hdims, hentries⟩ := Tensor.ofEntries?_spec ht
  exact ⟨congrArg Shape.flat hdims, hentries⟩

/-! ### Arranging elements in blocks -/

theorem cutBlocks_cons_eq_ok_iff {rest : List (List ℕ)} {start : ℕ} {ts : List (Tensor α)} :
    cutBlocks whole values (dims :: rest) start = .ok ts ↔
      ∃ t ts', Tensor.ofEntries? dims
          (values.extract start (start + volume dims % countRange)) = some t ∧
        cutBlocks whole values rest (start + volume dims % countRange) = .ok ts' ∧
          ts = t :: ts' := by
  rw [cutBlocks]
  cases Tensor.ofEntries? dims (values.extract start (start + volume dims % countRange)) with
  | none => simp
  | some t =>
    cases cutBlocks whole values rest (start + volume dims % countRange) with
    | error e => simp [Except.map]
    | ok ts' => simp [Except.map, eq_comm]

/-- A piece is long enough exactly if the elements reach to its end. -/
theorem size_extract_eq_iff {start n : ℕ} (hstart : start ≤ values.size) :
    (values.extract start (start + n)).size = n ↔ start + n ≤ values.size := by
  rw [Array.size_extract]
  omega

/-- Blocks can be cut off exactly if the elements reach to the end of the last one. -/
theorem exists_cutBlocks_iff {start : ℕ} (hstart : start ≤ values.size) :
    (∃ ts, cutBlocks whole values blocks start = .ok ts) ↔
      (∀ dims ∈ blocks, OperatorSplitting.Addressable dims) ∧
        start + Shape.volumes blocks ≤ values.size := by
  induction blocks generalizing start with
  | nil => simpa [cutBlocks, Shape.volumes] using hstart
  | cons dims rest ih =>
    rw [List.forall_mem_cons, Shape.volumes, ← Nat.add_assoc]
    constructor
    · rintro ⟨ts, hts⟩
      obtain ⟨t, ts', ht, hts', -⟩ := cutBlocks_cons_eq_ok_iff.mp hts
      obtain ⟨hsize, hroom⟩ := Tensor.exists_ofEntries?_iff.mp ⟨t, ht⟩
      rw [hroom.volume_mod] at hsize hts'
      obtain ⟨hrest, hle⟩ := (ih ((size_extract_eq_iff hstart).mp hsize)).mp ⟨ts', hts'⟩
      exact ⟨⟨hroom, hrest⟩, hle⟩
    · rintro ⟨⟨hroom, hrest⟩, hle⟩
      have hstop : start + volume dims ≤ values.size := (Nat.le_add_right _ _).trans hle
      obtain ⟨t, ht⟩ := Tensor.exists_ofEntries?_iff.mpr
        ⟨(size_extract_eq_iff hstart).mpr hstop, hroom⟩
      obtain ⟨ts', hts'⟩ := (ih hstop).mpr ⟨hrest, hle⟩
      rw [← hroom.volume_mod] at ht hts'
      exact ⟨_, cutBlocks_cons_eq_ok_iff.mpr ⟨t, ts', ht, hts', rfl⟩⟩

/-- Blocks are cut off one after the other, and none of them is shorter than its extents say. -/
theorem cutBlocks_spec {start : ℕ} {ts : List (Tensor α)} (hstart : start ≤ values.size)
    (h : cutBlocks whole values blocks start = .ok ts) :
    ts.map (·.dims) = blocks ∧
      blockEntries ts = values.extract start (start + Shape.volumes blocks) := by
  induction blocks generalizing start ts with
  | nil =>
    cases h
    exact ⟨rfl, by simp [blockEntries, Shape.volumes]⟩
  | cons dims rest ih =>
    obtain ⟨t, ts', ht, hts', rfl⟩ := cutBlocks_cons_eq_ok_iff.mp h
    obtain ⟨hsize, hroom⟩ := Tensor.exists_ofEntries?_iff.mp ⟨t, ht⟩
    rw [hroom.volume_mod] at ht hsize hts'
    have hstop := (size_extract_eq_iff hstart).mp hsize
    obtain ⟨hdims, hentries⟩ := Tensor.ofEntries?_spec ht
    obtain ⟨hrestdims, hrest⟩ := ih hstop hts'
    refine ⟨by rw [List.map_cons, hdims, hrestdims], ?_⟩
    rw [blockEntries, hentries, hrest, Array.extract_append_extract, Shape.volumes,
      ← Nat.add_assoc, Nat.min_eq_left (Nat.le_add_right start _),
      Nat.max_eq_right (Nat.le_add_right _ _)]

/-! ### Arranging elements in a shape -/

/-- Elements can be arranged exactly if they are as many as the shape holds, the boxes are
addressable, and the number of elements is a count. -/
theorem exists_ofEntries_iff : (∃ x, ofEntries s values = .ok x) ↔
    s.Addressable ∧ values.size = s.size ∧ s.elementCount < countRange := by
  unfold ofEntries
  by_cases hsize : values.size = s.size
  · rw [if_pos hsize, and_iff_right hsize]
    cases s with
    | flat dims =>
      have hcount (hroom : OperatorSplitting.Addressable dims) : volume dims < countRange :=
        hroom.volume_lt.trans (by decide)
      simp only [ofDims_eq_ok_iff]
      constructor
      · rintro ⟨x, t, ht, -⟩
        obtain ⟨-, hroom⟩ := Tensor.exists_ofEntries?_iff.mp ⟨t, ht⟩
        exact ⟨hroom, hcount hroom⟩
      · rintro ⟨hroom, hlt⟩
        obtain ⟨t, ht⟩ := Tensor.exists_ofEntries?_iff.mpr
          ⟨hsize.trans (Shape.size_of_lt hlt), hroom⟩
        exact ⟨_, t, ht, rfl⟩
    | blocked blocks =>
      have hiff : 0 + Shape.volumes blocks ≤ values.size ↔ Shape.volumes blocks < countRange := by
        rw [hsize, Nat.zero_add]
        refine ⟨fun hle => hle.trans_lt (Shape.size_lt_countRange _), fun hlt => ?_⟩
        exact (Shape.size_of_lt (s := .blocked blocks) hlt).ge
      have hcut : (∃ ts, cutBlocks (.blocked blocks) values blocks 0 = .ok ts) ↔
          (∀ dims ∈ blocks, OperatorSplitting.Addressable dims) ∧
            Shape.volumes blocks < countRange :=
        (exists_cutBlocks_iff (Nat.zero_le values.size)).trans (and_congr_right fun _ => hiff)
      refine Iff.trans ?_ hcut
      dsimp only
      cases cutBlocks (.blocked blocks) values blocks 0 with
      | error e => simp [Except.map]
      | ok ts => simp [Except.map]
  · rw [if_neg hsize]
    simp [hsize]

/-- Arranged elements stay the same elements. -/
theorem ofEntries_spec {x : Signal α} (h : ofEntries s values = .ok x) :
    x.shape = s ∧ x.entries = values := by
  obtain ⟨-, hsize, hcount⟩ := exists_ofEntries_iff.mp ⟨x, h⟩
  unfold ofEntries at h
  rw [if_pos hsize] at h
  cases s with
  | flat dims => exact ofDims_spec h
  | blocked blocks =>
    dsimp only at h
    cases hcut : cutBlocks (.blocked blocks) values blocks 0 with
    | error e =>
      rw [hcut] at h
      cases h
    | ok ts =>
      rw [hcut] at h
      cases h
      obtain ⟨hdims, hentries⟩ := cutBlocks_spec (Nat.zero_le _) hcut
      have hall : Shape.volumes blocks = values.size :=
        (hsize.trans (Shape.size_of_lt hcount)).symm
      refine ⟨congrArg Shape.blocked hdims, ?_⟩
      rw [entries, hentries, Nat.zero_add, hall, Array.extract_size]

/-- Whether elements can be arranged is decided by their number. -/
theorem ofEntries_uniform {values' : Array α} {x : Signal α} (hsize : values'.size = values.size)
    (h : ofEntries s values = .ok x) : ∃ x', ofEntries s values' = .ok x' := by
  rw [exists_ofEntries_iff, hsize]
  exact exists_ofEntries_iff.mp ⟨x, h⟩

theorem ofEntries_of_roomy (hroom : s.Roomy) (hsize : values.size = s.size) :
    ∃ x, ofEntries s values = .ok x :=
  exists_ofEntries_iff.mpr ⟨hroom.addressable, hsize, hroom.elementCount_lt⟩

/-- The elements of a signal can be arranged in its own shape again. -/
theorem ofEntries_entries {x : Signal α} (haddr : x.shape.Addressable)
    (hcount : x.size < countRange) : ofEntries x.shape x.entries = .ok x := by
  rw [size_eq_elementCount] at hcount
  obtain ⟨x', hx'⟩ := exists_ofEntries_iff.mpr
    ⟨haddr, x.size_eq_elementCount.trans (Shape.size_of_lt hcount).symm, hcount⟩
  obtain ⟨hshape, hentries⟩ := ofEntries_spec hx'
  rw [hx', ext_entries hshape hentries]

/-! ### Failures -/

theorem shapeMismatch_of_cutBlocks {start : ℕ} {e : Error}
    (h : cutBlocks whole values blocks start = .error e) :
    ∃ dims, e = .shapeMismatch "from_flat_vec" (.flat dims) whole := by
  induction blocks generalizing start with
  | nil => cases h
  | cons dims rest ih =>
    rw [cutBlocks] at h
    split at h
    · cases h
      exact ⟨dims, rfl⟩
    · cases hrest : cutBlocks whole values rest (start + volume dims % countRange) with
      | error e' =>
        rw [hrest] at h
        cases h
        exact ih hrest
      | ok ts =>
        rw [hrest] at h
        cases h

/-- Elements that cannot be arranged are reported as a mismatch of shapes. -/
theorem shapeMismatch_of_ofEntries {e : Error} (h : ofEntries s values = .error e) :
    ∃ place expected got, e = .shapeMismatch place expected got := by
  unfold ofEntries at h
  split at h
  · cases s with
    | flat dims =>
      dsimp only [ofDims] at h
      split at h
      · cases h
      · cases h
        exact ⟨_, _, _, rfl⟩
    | blocked blocks =>
      dsimp only at h
      cases hcut : cutBlocks (.blocked blocks) values blocks 0 with
      | error e' =>
        rw [hcut] at h
        cases h
        obtain ⟨dims, rfl⟩ := shapeMismatch_of_cutBlocks hcut
        exact ⟨_, _, _, rfl⟩
      | ok ts =>
        rw [hcut] at h
        cases h
  · cases h
    exact ⟨_, _, _, rfl⟩

/-! ### Both ways -/

/-- Flattening and arranging are inverse.

* Elements can be arranged in a shape of addressable boxes exactly if they are as many as its size
  says and the number of its elements is a count; otherwise the shapes are reported as mismatched.
* Arranged elements have the shape, and in a row they are the same elements.
* A signal is arranged from its own elements in its own shape, and its size is that of the shape. -/
theorem flatten_arrange (hs : s.Addressable) (values : Array α) :
    ((∃ x, ofEntries s values = .ok x) ↔
      values.size = s.size ∧ s.elementCount < countRange) ∧
    (∀ x, ofEntries s values = .ok x → x.shape = s ∧ x.entries = values) ∧
    (∀ e, ofEntries s values = .error e →
      ∃ place expected got, e = .shapeMismatch place expected got) ∧
    ∀ x : Signal α, x.shape.Addressable → x.size < countRange →
      ofEntries x.shape x.entries = .ok x ∧ x.size = x.shape.size ∧
        x.shape.size = x.entries.size := by
  refine ⟨exists_ofEntries_iff.trans (and_iff_right hs), fun x hx => ofEntries_spec hx,
    fun e he => shapeMismatch_of_ofEntries he, fun x hx hcount => ?_⟩
  have hsize : x.shape.size = x.size := by rw [size_shape, Nat.mod_eq_of_lt hcount]
  exact ⟨ofEntries_entries hx hcount, hsize.symm, hsize⟩

/-- Some blocks without elements between two others. -/
def gappedBlocks : Shape := .blocked [[2], [0, 3], [], [1, 2]]

theorem flatten_arrange_gappedBlocks : ∃ x, ofEntries gappedBlocks #[1, 2, 3, 4, 5] = .ok x ∧
    x.shape = gappedBlocks ∧ x.entries = #[1, 2, 3, 4, 5] ∧
    ofEntries x.shape x.entries = .ok x := by
  obtain ⟨hiff, hspec, -, hback⟩ :=
    flatten_arrange (s := gappedBlocks) (by decide) #[1, 2, 3, 4, 5]
  obtain ⟨x, hx⟩ := hiff.mpr ⟨rfl, by decide⟩
  obtain ⟨hshape, hentries⟩ := hspec x hx
  have hroom : x.shape.Addressable := by
    rw [hshape]
    decide
  have hcount : x.size < countRange := by
    rw [size, hentries]
    decide
  exact ⟨x, hx, hshape, hentries, (hback x hroom hcount).1⟩

/-- Four blocks of `2 ^ 62` elements have the size zero, but no elements can be arranged in them. -/
theorem exists_size_eq_of_ofEntries_error : ∃ (s : Shape) (values : Array ℕ) (e : Error),
    s.Addressable ∧ values.size = s.size ∧ ofEntries s values = .error e :=
  ⟨.blocked (List.replicate 4 [2 ^ 62]), #[], .shapeMismatch "from_flat_vec" (.flat [2 ^ 62])
    (.blocked (List.replicate 4 [2 ^ 62])), by decide, by decide, rfl⟩

end Signal

end OperatorSplitting
