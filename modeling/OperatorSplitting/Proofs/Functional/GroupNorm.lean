import Mathlib
import OperatorSplitting.Proofs.Exact.Pairing
import OperatorSplitting.Proofs.Functional.Norms
import OperatorSplitting.Proofs.Tensor.Summing

/-!
# The proximal map of the mixed norm

The mixed norm adds the norms of groups.  The groups of one array are its lines along an axis; those
of a blocked signal collect the entries of all blocks at one index.  Both are described by the
members of a group: every element is a member of exactly one group (`sum_coord_members`), the norm of
a group is that of its members (`groupNorms_eq_ok_iff`), and the proximal map multiplies all members
of a group by the same factor (`prox_spec`).  Every group is then shrunk as one vector.
-/

namespace OperatorSplitting

open ExactScalar

noncomputable section

/-- Stretching along one axis reads that axis at zero. -/
theorem project_set_one {dims idx : List ℕ} (h : InBox dims idx) (axis : ℕ) :
    Tensor.project (dims.set axis 1) idx = idx.set axis 0 := by
  have hlen : idx.length - (dims.set axis 1).length = 0 := by
    rw [List.length_set, h.length_eq, Nat.sub_self]
  rw [Tensor.project, hlen, List.drop_zero]
  induction dims generalizing idx axis with
  | nil =>
    rw [inBox_nil_iff] at h
    subst h
    rfl
  | cons d ds ih =>
    cases idx with
    | nil => exact absurd h (by simp [InBox])
    | cons i is =>
      cases axis with
      | zero =>
        have hrest := project_self h.2
        rw [Tensor.project, InBox.length_eq h.2, Nat.sub_self, List.drop_zero] at hrest
        rw [List.set_cons_zero, List.set_cons_zero, List.zipWith_cons_cons, if_pos rfl, hrest]
      | succ axis =>
        rw [List.set_cons_succ, List.set_cons_succ, List.zipWith_cons_cons,
          ih h.2 axis (by rw [List.length_set, InBox.length_eq h.2, Nat.sub_self])]
        by_cases hd : d = 1
        · have hi := h.1
          rw [hd, Nat.lt_one_iff] at hi
          rw [if_pos hd, hi]
        · rw [if_neg hd]

namespace L21

variable {K : Type} [ExactScalar K] {axis : ℕ} {x v z p : Signal K} {t : ℝ}

/-! ### Groups -/

/-- The signals of a shape have groups: an array has the axis, and blocks have the same extents. -/
def CanGroup (axis : ℕ) : Shape → Prop
  | .flat dims => axis < dims.length ∧ Storable (dims.set axis 1)
  | .blocked [] => False
  | .blocked (d :: ds) => ∀ e ∈ ds, e = d

omit [ExactScalar K] in
theorem CanGroup.dims_eq {a : Tensor K} {as : List (Tensor K)}
    (h : CanGroup axis (Signal.blocked (a :: as)).shape) : ∀ s ∈ a :: as, s.dims = a.dims := by
  intro s hs
  rcases List.mem_cons.mp hs with rfl | hs
  · rfl
  · exact h s.dims (List.mem_map_of_mem hs)

/-- The box whose indices number the groups. -/
def groupDims (axis : ℕ) : Shape → List ℕ
  | .flat dims => dims.set axis 1
  | .blocked blocks => blocks.headD []

/-- The number of members of a group. -/
def groupSize (axis : ℕ) : Shape → ℕ
  | .flat dims => dims.getD axis 0
  | .blocked blocks => blocks.length

/-- The value of a member of a group. -/
def member (axis : ℕ) : Signal K → List ℕ → ℕ → ℂ
  | .flat t, l, j => val (t.entry (l.set axis j))
  | .blocked ts, l, j => val (layerEntry ts j l)

/-- The norm of a group. -/
def groupNorm (axis : ℕ) (x : Signal K) (l : List ℕ) : ℝ :=
  √(∑ j ∈ Finset.range (groupSize axis x.shape), ‖member axis x l j‖ ^ 2)

/-- An index of a group leads to an index of the array for every member. -/
theorem inBox_member {dims l : List ℕ} (h : InBox (dims.set axis 1) l) {j : ℕ}
    (hj : j < dims.getD axis 0) : InBox dims (l.set axis j) := by
  have hset : InBox ((dims.set axis 1).set axis (dims.getD axis 0)) (l.set axis j) := h.set hj
  rw [List.set_set] at hset
  rcases Nat.lt_or_ge axis dims.length with hlt | hge
  · rwa [list_set_getD hlt rfl] at hset
  · rwa [List.set_eq_of_length_le hge] at hset

/-- Every element of an array is a member of one group. -/
theorem sum_coord_flat {M : Type*} [AddCommMonoid M] {a b c : Tensor K} (hb : b.dims = a.dims)
    (hc : c.dims = a.dims) (haxis : axis < a.dims.length) (f : ℂ → ℂ → ℂ → M) :
    ∑ k ∈ Finset.range (Signal.flat a).size,
        f ((Signal.flat a).coord k) ((Signal.flat b).coord k) ((Signal.flat c).coord k) =
      ∑ l ∈ box (a.dims.set axis 1), ∑ j ∈ Finset.range (a.dims.getD axis 0),
        f (member axis (.flat a) l j) (member axis (.flat b) l j) (member axis (.flat c) l j) := by
  have hcoord {s : Tensor K} (hs : s.dims = a.dims) {k : ℕ} (hk : k < volume a.dims) :
      (Signal.flat s).coord k = val (s.entry (indexAt a.dims k)) := by
    rw [Tensor.entry, hs, offset_indexAt hk]
    rfl
  have hbox := sum_box_axis haxis fun idx =>
    f (val (a.entry idx)) (val (b.entry idx)) (val (c.entry idx))
  have hsize : (Signal.flat a).size = volume a.dims := a.size_entries
  rw [sum_box_eq_range] at hbox
  rw [hsize]
  refine Eq.trans (Finset.sum_congr rfl fun k hk => ?_) hbox
  rw [Finset.mem_range] at hk
  rw [hcoord rfl hk, hcoord hb hk, hcoord hc hk]

/-- Every element of blocks with the same extents is a member of one group. -/
theorem sum_coord_blocked {M : Type*} [AddCommMonoid M] {d : List ℕ} {as bs cs : List (Tensor K)}
    (ha : ∀ a ∈ as, a.dims = d) (hb : bs.map (·.dims) = as.map (·.dims))
    (hc : cs.map (·.dims) = as.map (·.dims)) (f : ℂ → ℂ → ℂ → M) :
    ∑ k ∈ Finset.range (Signal.blocked as).size,
        f ((Signal.blocked as).coord k) ((Signal.blocked bs).coord k)
          ((Signal.blocked cs).coord k) =
      ∑ l ∈ box d, ∑ j ∈ Finset.range as.length,
        f (member axis (.blocked as) l j) (member axis (.blocked bs) l j)
          (member axis (.blocked cs) l j) := by
  rw [Finset.sum_comm]
  induction as generalizing bs cs with
  | nil => simp [Signal.size, Signal.entries, Signal.blockEntries]
  | cons a as ih =>
    obtain ⟨b, bs, rfl, hbdims, hbs⟩ := List.map_eq_cons_iff.mp hb
    obtain ⟨c, cs, rfl, hcdims, hcs⟩ := List.map_eq_cons_iff.mp hc
    obtain ⟨hadims, has⟩ := List.forall_mem_cons.mp ha
    have hsize : (Signal.blocked (a :: as)).size = a.entries.size + (Signal.blocked as).size := by
      simp [Signal.size, Signal.entries, Signal.blockEntries]
    have hba : b.entries.size = a.entries.size := by rw [b.size_entries, a.size_entries, hbdims]
    have hca : c.entries.size = a.entries.size := by rw [c.size_entries, a.size_entries, hcdims]
    rw [hsize, Finset.sum_range_add, List.length_cons, Finset.sum_range_succ', add_comm]
    congr 1
    · refine Eq.trans (Finset.sum_congr rfl fun k _ => ?_) (ih has hbs hcs)
      rw [Signal.coord_blocked_cons_add, ← hba, Signal.coord_blocked_cons_add, hba, ← hca,
        Signal.coord_blocked_cons_add]
    · rw [← hadims, sum_box_eq_range, a.size_entries]
      apply Finset.sum_congr rfl
      intro k hk
      have hk' : k < volume a.dims := by simpa using hk
      have hentry {s : Tensor K} (hs : s.dims = a.dims) (ss : List (Tensor K)) :
          (Signal.blocked (s :: ss)).coord k =
            member axis (.blocked (s :: ss)) (indexAt a.dims k) 0 := by
        rw [Signal.coord_blocked_cons_of_lt (by rwa [s.size_entries, hs])]
        show val (s.entries.getD k 0) = val (s.entry (indexAt a.dims k))
        rw [Tensor.entry, hs, offset_indexAt hk']
      rw [hentry rfl as, hentry hbdims bs, hentry hcdims cs]

/-- Every element is a member of exactly one group. -/
theorem sum_coord_members {M : Type*} [AddCommMonoid M] (hgroup : CanGroup axis v.shape)
    (hz : z.shape = v.shape) (hp : p.shape = v.shape) (f : ℂ → ℂ → ℂ → M) :
    ∑ k ∈ Finset.range v.size, f (v.coord k) (z.coord k) (p.coord k) =
      ∑ l ∈ box (groupDims axis v.shape), ∑ j ∈ Finset.range (groupSize axis v.shape),
        f (member axis v l j) (member axis z l j) (member axis p l j) := by
  cases v with
  | flat a =>
    obtain ⟨b, rfl, hb⟩ := Signal.exists_of_shape_flat hz
    obtain ⟨c, rfl, hc⟩ := Signal.exists_of_shape_flat hp
    exact sum_coord_flat hb hc hgroup.1 f
  | blocked as =>
    obtain ⟨bs, rfl, hb⟩ := Signal.exists_of_shape_blocked hz
    obtain ⟨cs, rfl, hc⟩ := Signal.exists_of_shape_blocked hp
    cases as with
    | nil => exact absurd hgroup id
    | cons a as =>
      have hsize : groupSize axis (Signal.blocked (a :: as)).shape = (a :: as).length :=
        List.length_map _
      rw [hsize]
      exact sum_coord_blocked hgroup.dims_eq hb hc f

/-! ### Values -/

/-- The squared moduli of blocks are added to a sum entry by entry. -/
theorem addSquares_eq_ok_iff {first : List ℕ} {bs : List (Tensor K)} {sum r : Tensor ℝ} :
    addSquares first bs sum = .ok r ↔
      (∀ b ∈ bs, b.dims = sum.dims) ∧ r = .ofFn sum.dims fun idx =>
        sum.entry idx + ∑ j ∈ Finset.range bs.length, ‖val (layerEntry bs j idx)‖ ^ 2 := by
  induction bs generalizing sum with
  | nil =>
    have hself : sum = .ofFn sum.dims fun idx =>
        sum.entry idx + ∑ j ∈ Finset.range 0, ‖val (layerEntry ([] : List (Tensor K)) j idx)‖ ^ 2 := by
      conv_lhs => rw [← Tensor.ofFn_entry sum]
      exact Tensor.ofFn_congr fun idx _ => by rw [Finset.sum_range_zero, add_zero]
    rw [List.length_nil, ← hself]
    constructor
    · exact fun h => ⟨List.forall_mem_nil _, (Except.ok.inj h).symm⟩
    · intro h
      rw [h.2]
      rfl
  | cons b bs ih =>
    rw [addSquares]
    by_cases hdims : sum.dims = b.dims
    · rw [(Tensor.zip?_eq_some_iff (r := .ofFn sum.dims fun idx =>
        sum.entry idx + Scalar.modulusSqr (b.entry idx))).mpr ⟨hdims, rfl⟩]
      dsimp only
      rw [ih, List.forall_mem_cons, Tensor.dims_ofFn]
      have hentries : (Tensor.ofFn sum.dims fun idx =>
          (Tensor.ofFn sum.dims fun idx => sum.entry idx + Scalar.modulusSqr (b.entry idx)).entry idx
            + ∑ j ∈ Finset.range bs.length, ‖val (layerEntry bs j idx)‖ ^ 2) =
          .ofFn sum.dims fun idx => sum.entry idx +
            ∑ j ∈ Finset.range (b :: bs).length, ‖val (layerEntry (b :: bs) j idx)‖ ^ 2 := by
        refine Tensor.ofFn_congr fun idx hidx => ?_
        rw [Tensor.entry_ofFn _ hidx, List.length_cons, Finset.sum_range_succ', modulusSqr_eq,
          add_comm (∑ j ∈ Finset.range bs.length, _), ← add_assoc]
        rfl
      rw [hentries]
      exact ⟨fun h => ⟨⟨hdims.symm, h.1⟩, h.2⟩, fun h => ⟨h.1.2, h.2⟩⟩
    · have hnone : Tensor.zip? (fun s v => s + Scalar.modulusSqr v) sum b = none := by
        simp [Tensor.zip?, hdims]
      rw [hnone]
      constructor
      · intro h
        cases h
      · exact fun h => absurd (h.1 b List.mem_cons_self).symm hdims

theorem sqrt_entry {dims : List ℕ} {f g : List ℕ → ℝ}
    (h : ∀ idx, InBox dims idx → √(f idx) = g idx) :
    (Tensor.ofFn dims f).map RealArithmetic.sqrt = .ofFn dims g := by
  rw [Tensor.map_eq_ofFn, Tensor.dims_ofFn]
  refine Tensor.ofFn_congr fun idx hidx => ?_
  rw [Tensor.entry_ofFn _ hidx]
  exact h idx hidx

/-- The norms of the groups along an axis. -/
theorem groupNorms_flat_eq_ok_iff {a : Tensor K} {norms : Tensor ℝ} :
    groupNorms axis (.flat a) = .ok norms ↔
      (axis < a.rank ∧ Storable (a.dims.set axis 1)) ∧
        norms = .ofFn (a.dims.set axis 1) (groupNorm axis (.flat a)) := by
  simp only [groupNorms]
  by_cases haxis : a.rank ≤ axis
  · rw [if_pos haxis]
    constructor
    · intro h
      cases h
    · exact fun h => absurd h.1.1 (not_lt.mpr haxis)
  · rw [if_neg haxis, Except.bind_eq_ok_iff]
    simp only [orMisuse_eq_ok_iff, Tensor.sumAxis?_eq_some_iff]
    have hnorms : (Tensor.ofFn (a.dims.set axis 1) fun l => sumBelow
        (fun j => (a.map Scalar.modulusSqr).entry (l.set axis j)) (a.extent axis)).map
          RealArithmetic.sqrt = .ofFn (a.dims.set axis 1) (groupNorm axis (.flat a)) := by
      refine sqrt_entry fun l hl => ?_
      rw [groupNorm, map_sumBelow (φ := fun r : ℝ => r) rfl fun _ _ => rfl]
      congr 1
      apply Finset.sum_congr rfl
      intro j hj
      rw [Tensor.entry_map _ (inBox_member hl (Finset.mem_range.mp hj)), modulusSqr_eq]
      rfl
    constructor
    · rintro ⟨_, ⟨hroom, rfl⟩, h⟩
      exact ⟨⟨not_le.mp haxis, hroom⟩, (Except.ok.inj h).symm.trans hnorms⟩
    · rintro ⟨⟨-, hroom⟩, rfl⟩
      exact ⟨_, ⟨hroom, rfl⟩, congrArg Except.ok hnorms⟩

/-- The norms of the groups across blocks. -/
theorem groupNorms_blocked_eq_ok_iff {a : Tensor K} {as : List (Tensor K)} {norms : Tensor ℝ} :
    groupNorms axis (.blocked (a :: as)) = .ok norms ↔
      (∀ b ∈ as, b.dims = a.dims) ∧
        norms = .ofFn a.dims (groupNorm axis (.blocked (a :: as))) := by
  have hnorms : (Tensor.ofFn a.dims fun idx => (a.map Scalar.modulusSqr).entry idx +
      ∑ j ∈ Finset.range as.length, ‖val (layerEntry as j idx)‖ ^ 2).map
        RealArithmetic.sqrt = .ofFn a.dims (groupNorm axis (.blocked (a :: as))) := by
    refine sqrt_entry fun l hl => ?_
    have hsize : groupSize axis (Signal.blocked (a :: as)).shape = as.length + 1 :=
      List.length_map _
    rw [groupNorm, hsize, Finset.sum_range_succ', Tensor.entry_map _ hl, modulusSqr_eq, add_comm]
    rfl
  simp only [groupNorms]
  rw [Except.map_eq_ok_iff]
  simp only [addSquares_eq_ok_iff]
  constructor
  · rintro ⟨_, ⟨hall, rfl⟩, rfl⟩
    exact ⟨hall, hnorms⟩
  · rintro ⟨hall, rfl⟩
    exact ⟨_, ⟨hall, rfl⟩, hnorms⟩

/-- The norms of the groups. -/
theorem groupNorms_eq_ok_iff {norms : Tensor ℝ} :
    groupNorms axis x = .ok norms ↔
      CanGroup axis x.shape ∧ norms = .ofFn (groupDims axis x.shape) (groupNorm axis x) := by
  cases x with
  | flat a => exact groupNorms_flat_eq_ok_iff
  | blocked as =>
    cases as with
    | nil =>
      constructor
      · intro h
        cases h
      · exact fun h => absurd h.1 id
    | cons a as =>
      have hgroup : (∀ b ∈ as, b.dims = a.dims) ↔
          CanGroup axis (Signal.blocked (a :: as)).shape := by
        show _ ↔ ∀ e ∈ as.map (·.dims), e = a.dims
        rw [List.forall_mem_map]
      rw [groupNorms_blocked_eq_ok_iff, hgroup]
      rfl

/-- The mixed norm is the sum of the norms of the groups. -/
theorem value_eq_ok_iff {a : ℝ} :
    value axis x = .ok a ↔
      CanGroup axis x.shape ∧ a = ∑ l ∈ box (groupDims axis x.shape), groupNorm axis x l := by
  have hsum : sumEntries id (Tensor.ofFn (groupDims axis x.shape) (groupNorm axis x)).entries =
      ∑ l ∈ box (groupDims axis x.shape), groupNorm axis x l := by
    rw [map_sumEntries (φ := fun r : ℝ => r) rfl (fun _ _ => rfl) id 0]
    have hbox := Tensor.sum_box_entry (.ofFn (groupDims axis x.shape) (groupNorm axis x))
      fun _ (r : ℝ) => r
    refine Eq.trans hbox.symm (Finset.sum_congr rfl fun l hl => ?_)
    exact Tensor.entry_ofFn _ (mem_box.mp hl)
  rw [value, Except.bind_eq_ok_iff]
  simp only [groupNorms_eq_ok_iff]
  constructor
  · rintro ⟨_, ⟨hgroup, rfl⟩, h⟩
    exact ⟨hgroup, (Except.ok.inj h).symm.trans hsum⟩
  · rintro ⟨hgroup, rfl⟩
    exact ⟨_, ⟨hgroup, rfl⟩, congrArg Except.ok hsum⟩

/-! ### Proximal points -/

theorem val_factor (t n : ℝ) :
    val (factor t n : K) = if n ≤ t then 0 else (((n - t) / n : ℝ) : ℂ) := by
  unfold factor
  simp only [RealArithmetic.le, decide_eq_true_eq]
  split
  · exact val_zero
  · exact val_ofReal _

theorem scaleBlock_spec {factors b r : Tensor K} (h : scaleBlock factors b = .ok r) :
    r = .ofFn b.dims fun idx =>
      factors.entry (Tensor.project factors.dims idx) * b.entry idx := by
  unfold scaleBlock at h
  cases hf : factors.stretch? b.dims with
  | none => simp [hf] at h
  | some f =>
    obtain ⟨-, rfl⟩ := Tensor.stretch?_eq_some_iff.mp hf
    have hzip : Tensor.zip? (· * ·) (factors.stretched b.dims) b =
        some (.ofFn b.dims fun idx => (factors.stretched b.dims).entry idx * b.entry idx) :=
      Tensor.zip?_eq_some_iff.mpr ⟨rfl, rfl⟩
    simp only [hf, Option.bind_eq_bind, Option.bind_some, hzip] at h
    cases h
    refine Tensor.ofFn_congr fun idx hidx => ?_
    rw [Tensor.entry_stretched hidx]

theorem scaleBlocks_spec {factors : Tensor K} {bs rs : List (Tensor K)}
    (h : scaleBlocks factors bs = .ok rs) (hdims : ∀ b ∈ bs, b.dims = factors.dims) :
    rs.map (·.dims) = bs.map (·.dims) ∧ ∀ j < bs.length, ∀ l, InBox factors.dims l →
      layerEntry rs j l = factors.entry l * layerEntry bs j l := by
  induction bs generalizing rs with
  | nil =>
    cases h
    exact ⟨rfl, fun j hj => absurd hj (Nat.not_lt_zero j)⟩
  | cons b bs ih =>
    obtain ⟨r, hr, h⟩ := Except.bind_eq_ok_iff.mp h
    obtain ⟨rest, hrest, h⟩ := Except.bind_eq_ok_iff.mp h
    cases h
    obtain rfl := scaleBlock_spec hr
    obtain ⟨hb, hbs⟩ := List.forall_mem_cons.mp hdims
    obtain ⟨hrdims, hentries⟩ := ih hrest hbs
    refine ⟨by rw [List.map_cons, List.map_cons, hrdims, Tensor.dims_ofFn], fun j hj l hl => ?_⟩
    cases j with
    | zero =>
      have hl' : InBox b.dims l := hb ▸ hl
      show (Tensor.ofFn b.dims _).entry l = _
      rw [Tensor.entry_ofFn _ hl', project_self hl]
      rfl
    | succ j => exact hentries j (by simpa using hj) l hl

/-- The proximal map multiplies the members of a group by the factor of the group. -/
theorem prox_spec (h : prox axis v t = .ok z) :
    CanGroup axis v.shape ∧ z.shape = v.shape ∧
      ∀ l ∈ box (groupDims axis v.shape), ∀ j < groupSize axis v.shape,
        member axis z l j = val (factor t (groupNorm axis v l) : K) * member axis v l j := by
  obtain ⟨norms, hnorms, hz⟩ := Except.bind_eq_ok_iff.mp h
  obtain ⟨hgroup, rfl⟩ := groupNorms_eq_ok_iff.mp hnorms
  have hfactor {l : List ℕ} (hl : InBox (groupDims axis v.shape) l) :
      ((Tensor.ofFn (groupDims axis v.shape) (groupNorm axis v)).map (factor t) : Tensor K).entry l
        = factor t (groupNorm axis v l) := by
    rw [Tensor.entry_map _ hl, Tensor.entry_ofFn _ hl]
  refine ⟨hgroup, ?_⟩
  cases v with
  | flat a =>
    obtain ⟨r, hr, rfl⟩ := Except.map_eq_ok_iff.mp hz
    obtain rfl := scaleBlock_spec hr
    refine ⟨rfl, fun l hl j hj => ?_⟩
    have hl' : InBox (a.dims.set axis 1) l := mem_box.mp hl
    have hidx : InBox a.dims (l.set axis j) := inBox_member hl' hj
    have hone : (a.dims.set axis 1).getD axis 0 = 1 := by
      rw [List.getD_eq_getElem _ _ (by simpa using hgroup.1), List.getElem_set_self]
    have hproject : Tensor.project (a.dims.set axis 1) (l.set axis j) = l := by
      rw [project_set_one hidx, List.set_set, Tensor.set_zero_of_inBox hl' hone]
    show val ((Tensor.ofFn a.dims _).entry (l.set axis j)) = _ * val (a.entry (l.set axis j))
    rw [Tensor.entry_ofFn _ hidx, val_mul]
    congr 2
    show Tensor.entry _ (Tensor.project (a.dims.set axis 1) (l.set axis j)) = _
    rw [hproject]
    exact hfactor hl'
  | blocked as =>
    cases as with
    | nil => exact absurd hgroup id
    | cons a as =>
      obtain ⟨rs, hrs, rfl⟩ := Except.map_eq_ok_iff.mp hz
      obtain ⟨hdims, hentries⟩ := scaleBlocks_spec hrs hgroup.dims_eq
      refine ⟨congrArg Shape.blocked hdims, fun l hl j hj => ?_⟩
      have hl' : InBox a.dims l := mem_box.mp hl
      have hsize : groupSize axis (Signal.blocked (a :: as)).shape = (a :: as).length :=
        List.length_map _
      show val (layerEntry rs j l) = _ * val (layerEntry (a :: as) j l)
      rw [hentries j (hsize ▸ hj) l hl', val_mul]
      congr 2
      exact hfactor hl'

theorem subgradient_prox (ht : 0 < t) (h : prox axis v t = .ok z) :
    z.shape = v.shape ∧
      (Functional.l21 axis : Functional K ℝ ℝ).Subgradient ((1 / t) • (v.vec - z.vec)) z := by
  obtain ⟨hgroup, hshape, hmember⟩ := prox_spec h
  have hvalue {x : Signal K} (hx : x.shape = v.shape) :
      ((Functional.l21 axis : Functional K ℝ ℝ).value x : Eval K ℝ ℝ).outcome =
        .ok (∑ l ∈ box (groupDims axis v.shape), groupNorm axis x l) :=
    value_eq_ok_iff.mpr ⟨hx ▸ hgroup, by rw [hx]⟩
  refine ⟨hshape, Functional.subgradient_of_step ht (hvalue hshape) trivial fun p hp => ?_⟩
  have hpshape := hp.trans hshape
  refine ⟨_, hvalue hpshape, fun _ => ?_⟩
  -- The inner product is taken group by group, and each group is shrunk as one vector.
  rw [Signal.inner_sub_sub hshape,
    sum_coord_members hgroup hshape hpshape fun a b c => inner ℝ (a - b) (c - b),
    Finset.mul_sum, Finset.mul_sum, ← Finset.sum_add_distrib]
  apply Finset.sum_le_sum
  intro l hl
  rw [groupNorm, groupNorm, hshape, hpshape]
  apply group_shrinkage_spec ht.le
  intro j hj
  rw [hmember l hl j hj, val_factor, groupNorm]
  split
  · exact zero_mul _
  · rfl

end L21

end

end OperatorSplitting
