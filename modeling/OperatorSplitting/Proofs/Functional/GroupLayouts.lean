import Mathlib
import OperatorSplitting.Proofs.Functional.Totality
import OperatorSplitting.Proofs.Tensor.Stacking

/-!
# The mixed norm of a stack and of its layers

Arrays of the same extents are groups of vectors in two ways: as the blocks of a signal, and as the
layers of one array that is grouped along its first axis.  The program computes the norms of the
groups on different paths, across the blocks and along the axis.  The members of a group are the
same (`member_stack`), hence so are the norms, their sum (`value_stack`), and the points to which
groups are shrunk (`prox_stack`).
-/

namespace OperatorSplitting

open ExactScalar

noncomputable section

namespace L21

/-! ### Shapes -/

section Shapes

variable {K : Type} {bs : List (Tensor K)} {d : List ℕ}

/-- A stack that fits into memory has groups along its first axis, whose norms fit as well. -/
theorem hasRoom_stack (hne : bs ≠ []) (hroom : Storable (bs.length :: d)) :
    HasRoom 0 (.flat (bs.length :: d)) := by
  have hlong : 1 ≤ bs.length := List.length_pos_iff.mpr hne
  have hspread : spread (1 :: d) ≤ spread (bs.length :: d) := by
    have hset := spread_set_one_le (bs.length :: d) 0
    rwa [List.set_cons_zero] at hset
  have hvolume : volume (1 :: d) ≤ volume (bs.length :: d) := Nat.mul_le_mul_right _ hlong
  have hnorms : Storable (1 :: d) := ⟨hspread.trans_lt hroom.1, hvolume.trans_lt hroom.2⟩
  exact ⟨⟨Nat.succ_pos _, hnorms⟩, fun dims hdims => Shape.flat.inj hdims ▸ hroom⟩

theorem hasRoom_blocked (axis : ℕ) (hne : bs ≠ []) (hdims : ∀ b ∈ bs, b.dims = d) :
    HasRoom axis (Signal.blocked bs).shape := by
  refine ⟨?_, fun dims hdims => by cases hdims⟩
  cases bs with
  | nil => exact absurd rfl hne
  | cons b bs =>
    obtain ⟨rfl, hrest⟩ := List.forall_mem_cons.mp hdims
    exact List.forall_mem_map.mpr hrest

theorem groupDims_blocked (axis : ℕ) (hne : bs ≠ []) (hdims : ∀ b ∈ bs, b.dims = d) :
    groupDims axis (Signal.blocked bs).shape = d := by
  cases bs with
  | nil => exact absurd rfl hne
  | cons b bs => exact hdims b List.mem_cons_self

theorem groupSize_blocked (axis : ℕ) (bs : List (Tensor K)) :
    groupSize axis (Signal.blocked bs).shape = bs.length := List.length_map _

end Shapes

/-! ### Groups -/

variable {K : Type} [ExactScalar K] {bs us : List (Tensor K)} {s r : Tensor K} {d l : List ℕ}
  {axis : ℕ} {t : ℝ}

/-- The members of a group of layers are those of the group across the blocks. -/
theorem member_stack (axis : ℕ) (hdims : ∀ b ∈ bs, b.dims = d) (hs : Tensor.stack bs = .ok s)
    (hl : InBox d l) {j : ℕ} (hj : j < bs.length) :
    member 0 (.flat s) (0 :: l) j = member axis (.blocked bs) l j := by
  have hbox : InBox s.dims (j :: l) := by
    rw [Tensor.dims_stack hdims hs]
    exact ⟨hj, hl⟩
  exact congrArg val (Tensor.entry_stack hs hbox)

theorem groupSize_stack (hdims : ∀ b ∈ bs, b.dims = d) (hs : Tensor.stack bs = .ok s) :
    groupSize 0 (Signal.flat s).shape = bs.length := by
  show s.dims.getD 0 0 = bs.length
  rw [Tensor.dims_stack hdims hs]
  rfl

theorem groupDims_stack (hdims : ∀ b ∈ bs, b.dims = d) (hs : Tensor.stack bs = .ok s) :
    groupDims 0 (Signal.flat s).shape = 1 :: d := by
  show s.dims.set 0 1 = 1 :: d
  rw [Tensor.dims_stack hdims hs, List.set_cons_zero]

theorem groupNorm_stack (axis : ℕ) (hdims : ∀ b ∈ bs, b.dims = d) (hs : Tensor.stack bs = .ok s)
    (hl : InBox d l) : groupNorm 0 (.flat s) (0 :: l) = groupNorm axis (.blocked bs) l := by
  rw [groupNorm, groupNorm, groupSize_stack hdims hs, groupSize_blocked]
  congr 1
  apply Finset.sum_congr rfl
  intro j hj
  rw [member_stack axis hdims hs hl (Finset.mem_range.mp hj)]

/-! ### Values and proximal points -/

theorem value_stack (axis : ℕ) (hne : bs ≠ []) (hdims : ∀ b ∈ bs, b.dims = d)
    (hroom : Storable (bs.length :: d)) (hs : Tensor.stack bs = .ok s) :
    ∃ a, value axis (.blocked bs) = .ok a ∧ value 0 (.flat s) = .ok a := by
  have hshape : (Signal.flat s).shape = .flat (bs.length :: d) :=
    congrArg Shape.flat (Tensor.dims_stack hdims hs)
  have hblocked := value_eq_ok_iff.mpr ⟨(hasRoom_blocked axis hne hdims).1, rfl⟩
  have hstack := value_eq_ok_iff.mpr ⟨hshape ▸ (hasRoom_stack hne hroom).1, rfl⟩
  refine ⟨_, hblocked, ?_⟩
  rw [hstack, groupDims_blocked axis hne hdims, groupDims_stack hdims hs, sum_box_cons,
    Finset.sum_range_one]
  congr 1
  apply Finset.sum_congr rfl
  intro l hl
  exact groupNorm_stack axis hdims hs (mem_box.mp hl)

/-- Shrinking the stack shrinks its layers. -/
theorem entry_prox_stack (hne : bs ≠ []) (hdims : ∀ b ∈ bs, b.dims = d)
    (hs : Tensor.stack bs = .ok s) (hus : prox axis (.blocked bs) t = .ok (.blocked us))
    (hr : prox 0 (.flat s) t = .ok (.flat r)) (hl : InBox d l) {j : ℕ} (hj : j < bs.length) :
    r.entry (j :: l) = layerEntry us j l := by
  obtain ⟨-, -, hlayers⟩ := prox_spec hus
  obtain ⟨-, -, hstack⟩ := prox_spec hr
  rw [groupDims_blocked axis hne hdims, groupSize_blocked] at hlayers
  rw [groupDims_stack hdims hs, groupSize_stack hdims hs] at hstack
  have hgroup : 0 :: l ∈ box (1 :: d) := mem_box.mpr ⟨Nat.one_pos, hl⟩
  have hlayer := hlayers l (mem_box.mpr hl) j hj
  have hmember := hstack (0 :: l) hgroup j hj
  rw [groupNorm_stack axis hdims hs hl, member_stack axis hdims hs hl hj, ← hlayer] at hmember
  exact val_injective hmember

theorem prox_stack (axis : ℕ) (t : ℝ) (hne : bs ≠ []) (hdims : ∀ b ∈ bs, b.dims = d)
    (hroom : Storable (bs.length :: d)) (hs : Tensor.stack bs = .ok s) :
    ∃ us r, prox axis (.blocked bs) t = .ok (.blocked us) ∧ prox 0 (.flat s) t = .ok (.flat r) ∧
      Tensor.stack us = .ok r := by
  have hsdims := Tensor.dims_stack hdims hs
  have hshape : (Signal.flat s).shape = .flat (bs.length :: d) := congrArg Shape.flat hsdims
  obtain ⟨u, hu, hushape⟩ : ∃ u, prox axis (.blocked bs) t = .ok u ∧ u.shape = _ :=
    exists_prox (hasRoom_blocked axis hne hdims)
  obtain ⟨z, hz, hzshape⟩ : ∃ z, prox 0 (.flat s) t = .ok z ∧ z.shape = _ :=
    exists_prox (hshape ▸ hasRoom_stack hne hroom)
  obtain ⟨us, rfl, husdims⟩ := Signal.exists_of_shape_blocked hushape
  obtain ⟨r, rfl, hrdims⟩ := Signal.exists_of_shape_flat hzshape
  obtain ⟨r', hr'⟩ := Tensor.stack_uniform husdims.symm hs
  have hlen : us.length = bs.length := by simpa using congrArg List.length husdims
  have hall : ∀ u ∈ us, u.dims = d := by
    intro u hu
    have hmem : u.dims ∈ bs.map (·.dims) := husdims ▸ List.mem_map_of_mem hu
    obtain ⟨b, hb, heq⟩ := List.mem_map.mp hmem
    exact heq ▸ hdims b hb
  have hr'dims : r'.dims = bs.length :: d := hlen ▸ Tensor.dims_stack hall hr'
  -- The stack of the shrunk blocks has the entries of the shrunk stack.
  have hsame : r' = r := by
    refine Tensor.ext_entry (hr'dims.trans (hrdims.trans hsdims).symm) fun idx hidx => ?_
    cases idx with
    | nil =>
      rw [hr'dims] at hidx
      exact absurd hidx id
    | cons j l =>
      have hbox : InBox (bs.length :: d) (j :: l) := hr'dims ▸ hidx
      rw [Tensor.entry_stack hr' hidx, entry_prox_stack hne hdims hs hu hz hbox.2 hbox.1]
  exact ⟨us, r, hu, hz, hsame ▸ hr'⟩

/-- **Layouts of the mixed norm.**  Arrays of the same extents, at least one, whose stack fits into
memory: the stack grouped along its first axis has the norm of the blocks, and its proximal point is
the stack of the proximal points of the blocks. -/
theorem stack_agrees_with_blocks (hne : bs ≠ []) (hdims : ∀ b ∈ bs, b.dims = d)
    (hroom : Storable (bs.length :: d)) (axis : ℕ) (t : ℝ) :
    ∃ s, Tensor.stack bs = .ok s ∧
      (∃ a, value axis (.blocked bs) = .ok a ∧ value 0 (.flat s) = .ok a) ∧
      ∃ us r, prox axis (.blocked bs) t = .ok (.blocked us) ∧
        prox 0 (.flat s) t = .ok (.flat r) ∧ Tensor.stack us = .ok r := by
  obtain ⟨s, hs⟩ := Tensor.exists_stack hne hdims hroom.1
  exact ⟨s, hs, value_stack axis hne hdims hroom hs, prox_stack axis t hne hdims hroom hs⟩

/-- Two complex vectors with two entries each. -/
def twoVectors (a b c : ℝ) : List (Tensor (ComplexOf ℝ)) :=
  [.ofArray #[⟨a, 0⟩, ⟨0, 0⟩], .ofArray #[⟨0, b⟩, ⟨0, c⟩]]

/-- The groups have the norms five and one, in either layout. -/
theorem stack_agrees_with_twoVectors :
    ∃ bs, bs = twoVectors 3 4 1 ∧ bs ≠ [] ∧ (∀ b ∈ bs, b.dims = [2]) ∧
      Storable (bs.length :: [2]) ∧
      ∃ s, Tensor.stack bs = .ok s ∧ value 0 (.flat s) = .ok 6 ∧
        ∃ us r, prox 1 (.blocked bs) 2 = .ok (.blocked us) ∧
          prox 0 (.flat s) 2 = .ok (.flat r) ∧ Tensor.stack us = .ok r := by
  let bs := twoVectors 3 4 1
  have hne : bs ≠ [] := List.cons_ne_nil _ _
  have hdims : ∀ b ∈ bs, b.dims = [2] := by simp [bs, twoVectors, Tensor.ofArray]
  have hroom : Storable (bs.length :: [2]) := by decide
  obtain ⟨s, hs, ⟨a, hblocked, hstack⟩, hprox⟩ := stack_agrees_with_blocks hne hdims hroom 1 2
  refine ⟨bs, rfl, hne, hdims, hroom, s, hs, ?_, hprox⟩
  have hnorm (i : ℕ) : groupNorm 1 (.blocked bs) [i] =
      √(‖val (layerEntry bs 0 [i])‖ ^ 2 + ‖val (layerEntry bs 1 [i])‖ ^ 2) := by
    show √(∑ j ∈ Finset.range 2, ‖val (layerEntry bs j [i])‖ ^ 2) = _
    rw [Finset.sum_range_succ, Finset.sum_range_one]
  have hfirst : groupNorm 1 (.blocked bs) [0] = 5 := by
    rw [hnorm, Real.sqrt_eq_iff_mul_self_eq_of_pos (by norm_num), Complex.sq_norm,
      Complex.sq_norm]
    show (5 : ℝ) * 5 = (3 * 3 + 0 * 0) + (0 * 0 + 4 * 4)
    norm_num
  have hsecond : groupNorm 1 (.blocked bs) [1] = 1 := by
    rw [hnorm, Real.sqrt_eq_iff_mul_self_eq_of_pos one_pos, Complex.sq_norm, Complex.sq_norm]
    show (1 : ℝ) * 1 = (0 * 0 + 0 * 0) + (0 * 0 + 1 * 1)
    norm_num
  have ha : a = 6 := by
    rw [(value_eq_ok_iff.mp hblocked).2, groupDims_blocked 1 hne hdims, sum_box_cons,
      Finset.sum_range_succ, Finset.sum_range_one, sum_box_nil, sum_box_nil, hfirst, hsecond]
    norm_num
  rw [hstack, ha]

end L21

end

end OperatorSplitting
