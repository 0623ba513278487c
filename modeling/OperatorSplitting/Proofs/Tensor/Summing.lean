import Mathlib
import OperatorSplitting.Proofs.Tensor.Entries

/-!
# Summing over what stretching repeats

An array can be summed down to extents from which its own extents are stretched: leading axes are
summed away, then every axis that was stretched from extent one.  Each entry of the sum collects the
entries that read it when the small box is stretched to the large one (`sum_box_sumTo?`), stated
against an arbitrary weight.

Intermediate sums have to be stored.  A box is *roomy* if the product of its extents other than zero
is below what memory holds; all boxes on the way are then roomy, too.
-/

namespace OperatorSplitting

/-! ### Roomy boxes -/

theorem list_set_getD {l : List ℕ} {axis v : ℕ} (haxis : axis < l.length)
    (h : l.getD axis 0 = v) : l.set axis v = l := by
  rw [List.getD_eq_getElem _ _ haxis] at h
  rw [← h, List.set_getElem_self]

/-- The extents that are not zero leave room for every box of smaller extents. -/
def Roomy (dims : List ℕ) : Prop := spread dims < storeRange

theorem Roomy.storable {dims : List ℕ} (h : Roomy dims) : Storable dims :=
  ⟨h.trans (by decide), (volume_le_spread dims).trans_lt h⟩

theorem spread_cons_ge (d : ℕ) (ds : List ℕ) : spread ds ≤ spread (d :: ds) := by
  rw [spread]
  refine Nat.le_mul_of_pos_left _ ?_
  split <;> omega

theorem le_spread_of_mem {dims : List ℕ} {d : ℕ} (h : d ∈ dims) : d ≤ spread dims := by
  induction dims with
  | nil => cases h
  | cons e ds ih =>
    rcases List.mem_cons.mp h with rfl | h
    · rw [spread]
      by_cases hd : d = 0
      · simp [hd]
      · rw [if_neg hd]
        exact Nat.le_mul_of_pos_right d (spread_pos ds)
    · exact (ih h).trans (spread_cons_ge e ds)

theorem spread_drop_le (dims : List ℕ) (n : ℕ) : spread (dims.drop n) ≤ spread dims := by
  induction n generalizing dims with
  | zero => exact le_rfl
  | succ n ih =>
    cases dims with
    | nil => exact le_rfl
    | cons d ds => exact (ih ds).trans (spread_cons_ge d ds)

theorem spread_set_one_le (dims : List ℕ) (axis : ℕ) : spread (dims.set axis 1) ≤ spread dims := by
  induction dims generalizing axis with
  | nil => exact le_rfl
  | cons d ds ih =>
    cases axis with
    | zero =>
      rw [List.set_cons_zero]
      simpa [spread] using spread_cons_ge d ds
    | succ axis => exact Nat.mul_le_mul_left _ (ih axis)

theorem Roomy.drop {dims : List ℕ} (h : Roomy dims) (n : ℕ) : Roomy (dims.drop n) :=
  (spread_drop_le dims n).trans_lt h

theorem Roomy.set_one {dims : List ℕ} (h : Roomy dims) (axis : ℕ) : Roomy (dims.set axis 1) :=
  (spread_set_one_le dims axis).trans_lt h

/-- The product of the extents that are not zero, added over the blocks. -/
def Shape.spread : Shape → ℕ
  | .flat dims => OperatorSplitting.spread dims
  | .blocked blocks => (blocks.map OperatorSplitting.spread).sum

/-- All blocks together leave room for boxes of smaller extents. -/
def Shape.Roomy (s : Shape) : Prop := s.spread < storeRange

theorem Shape.Roomy.blocks {blocks : List (List ℕ)} (h : (Shape.blocked blocks).Roomy) :
    ∀ dims ∈ blocks, OperatorSplitting.Roomy dims := by
  intro dims hdims
  exact (List.le_sum_of_mem (List.mem_map_of_mem hdims)).trans_lt h

theorem Shape.Roomy.storable {s : Shape} (h : s.Roomy) : s.Storable := by
  cases s with
  | flat dims => exact OperatorSplitting.Roomy.storable h
  | blocked blocks => exact fun dims hdims => (h.blocks dims hdims).storable

namespace Tensor

variable {α : Type} [Zero α] [Add α]

theorem sumLeading?_eq_some_iff {t r : Tensor α} {d : ℕ} {ds : List ℕ} (h : t.dims = d :: ds) :
    t.sumLeading? = some r ↔
      Storable ds ∧ r = ofFn ds fun idx => sumBelow (fun k => t.entry (k :: idx)) d := by
  unfold sumLeading?
  rw [h]
  exact build?_eq_some_iff

theorem sumAxis?_eq_some_iff {t r : Tensor α} {axis : ℕ} :
    t.sumAxis? axis = some r ↔
      Storable (t.dims.set axis 1) ∧
        r = ofFn (t.dims.set axis 1) fun idx =>
          sumBelow (fun k => t.entry (idx.set axis k)) (t.extent axis) :=
  build?_eq_some_iff

theorem dims_of_sumAxis? {t r : Tensor α} {axis : ℕ} (h : t.sumAxis? axis = some r) :
    r.dims = t.dims.set axis 1 := by
  obtain ⟨-, rfl⟩ := sumAxis?_eq_some_iff.mp h
  rfl

theorem rank_of_sumAxis? {t r : Tensor α} {axis : ℕ} (h : t.sumAxis? axis = some r) :
    r.rank = t.rank := by
  rw [rank, dims_of_sumAxis? h, List.length_set, rank]

/-! ### What is summed -/

/-- A list with `v` in the places, from the given one on, at which the target extent is one. -/
def setOnes (v : ℕ) : List ℕ → ℕ → List ℕ → List ℕ
  | [], _, l => l
  | n :: ns, axis, l => setOnes v ns (axis + 1) (if n = 1 then l.set axis v else l)

theorem setOnes_append (v : ℕ) (ns before l : List ℕ) (h : l.length = ns.length) :
    setOnes v ns before.length (before ++ l) =
      before ++ List.zipWith (fun n i => if n = 1 then v else i) ns l := by
  induction ns generalizing before l with
  | nil =>
    cases l with
    | nil => rfl
    | cons i is => simp at h
  | cons n ns ih =>
    cases l with
    | nil => simp at h
    | cons i is =>
      have hlen : is.length = ns.length := by simpa using h
      have hstep (j : ℕ) : setOnes v ns (before.length + 1) (before ++ j :: is) =
          before ++ j :: List.zipWith (fun n i => if n = 1 then v else i) ns is := by
        have hih := ih (before ++ [j]) is hlen
        simpa using hih
      rw [setOnes, List.zipWith_cons_cons]
      by_cases hn : n = 1
      · rw [if_pos hn, if_pos hn, List.set_append_right _ _ le_rfl, Nat.sub_self,
          List.set_cons_zero, hstep]
      · rw [if_neg hn, if_neg hn, hstep]

theorem setOnes_zero (v : ℕ) {ns l : List ℕ} (h : l.length = ns.length) :
    setOnes v ns 0 l = List.zipWith (fun n i => if n = 1 then v else i) ns l :=
  setOnes_append v ns [] l h

theorem zipWith_one_of_stretches {ns dims : List ℕ} (h : List.Forall₂ Stretches ns dims) :
    List.zipWith (fun n d => if n = 1 then 1 else d) ns dims = ns := by
  induction h with
  | nil => rfl
  | @cons n d ns ds hnd _ ih =>
    rw [List.zipWith_cons_cons, ih]
    by_cases hn : n = 1
    · rw [if_pos hn, hn]
    · rw [if_neg hn, hnd.resolve_right hn]

/-- An axis of extent one is read at zero already. -/
theorem set_zero_of_inBox {dims idx : List ℕ} {axis : ℕ} (h : InBox dims idx)
    (hone : dims.getD axis 0 = 1) : idx.set axis 0 = idx := by
  have haxis : axis < dims.length := by
    by_contra hge
    rw [List.getD_eq_default _ _ (by omega)] at hone
    cases hone
  have hlt := h.getD_lt haxis
  rw [hone, Nat.lt_one_iff] at hlt
  exact list_set_getD (h.length_eq ▸ haxis) hlt

section Weighted

variable {φ : α → ℂ} (hzero : φ 0 = 0) (hadd : ∀ a b, φ (a + b) = φ a + φ b)
include hzero hadd

theorem sum_box_sumLeading? {t r : Tensor α} {d : ℕ} {ds : List ℕ} (hdims : t.dims = d :: ds)
    (h : t.sumLeading? = some r) (g : List ℕ → ℂ) :
    ∑ i ∈ box ds, φ (r.entry i) * g i = ∑ m ∈ box t.dims, φ (t.entry m) * g (m.drop 1) := by
  obtain ⟨-, rfl⟩ := (sumLeading?_eq_some_iff hdims).mp h
  rw [hdims, sum_box_cons, Finset.sum_comm]
  apply Finset.sum_congr rfl
  intro i hi
  rw [entry_ofFn _ (mem_box.mp hi), map_sumBelow hzero hadd, Finset.sum_mul]
  rfl

theorem sum_box_sumAxis? {t r : Tensor α} {axis : ℕ} (haxis : axis < t.dims.length)
    (h : t.sumAxis? axis = some r) (g : List ℕ → ℂ) :
    ∑ i ∈ box (t.dims.set axis 1), φ (r.entry i) * g i =
      ∑ m ∈ box t.dims, φ (t.entry m) * g (m.set axis 0) := by
  obtain ⟨-, rfl⟩ := sumAxis?_eq_some_iff.mp h
  rw [sum_box_axis haxis]
  apply Finset.sum_congr rfl
  intro i hi
  rw [mem_box] at hi
  rw [entry_ofFn _ hi, map_sumBelow hzero hadd, Finset.sum_mul]
  apply Finset.sum_congr rfl
  intro k _
  have hone : (t.dims.set axis 1).getD axis 0 = 1 := by
    rw [List.getD_eq_getElem _ _ (by simpa using haxis), List.getElem_set_self]
  rw [List.set_set, set_zero_of_inBox hi hone]

/-- Leading axes beyond the rank `n` are summed away. -/
theorem sum_box_sumToRank {n steps : ℕ} {t r : Tensor α} (hsteps : t.rank ≤ n + steps)
    (h : sumToRank n steps t = some r) :
    r.dims = t.dims.drop (t.rank - n) ∧ ∀ g : List ℕ → ℂ,
      ∑ i ∈ box r.dims, φ (r.entry i) * g i =
        ∑ m ∈ box t.dims, φ (t.entry m) * g (m.drop (t.rank - n)) := by
  induction steps generalizing t with
  | zero =>
    cases h
    rw [Nat.sub_eq_zero_of_le (by omega)]
    exact ⟨rfl, fun g => rfl⟩
  | succ steps ih =>
    rw [sumToRank] at h
    by_cases hn : n < t.rank
    · rw [if_pos hn, Option.bind_eq_bind, Option.bind_eq_some_iff] at h
      obtain ⟨s, hs, hr⟩ := h
      cases hdims : t.dims with
      | nil => simp [rank, hdims] at hn
      | cons d ds =>
        have hrank : t.rank = ds.length + 1 := by simp [rank, hdims]
        have hsdims : s.dims = ds := by
          obtain ⟨-, rfl⟩ := (sumLeading?_eq_some_iff hdims).mp hs
          rfl
        have hsrank : s.rank = ds.length := by rw [rank, hsdims]
        obtain ⟨hrdims, hrsum⟩ := ih (by omega) hr
        have hdrop : t.rank - n = ds.length - n + 1 := by omega
        refine ⟨by rw [hrdims, hsdims, hsrank, hdrop, List.drop_succ_cons], fun g => ?_⟩
        rw [hrsum, hsdims, sum_box_sumLeading? hzero hadd hdims hs, hdims, hsrank, hdrop]
        apply Finset.sum_congr rfl
        intro m _
        rw [List.drop_drop, Nat.add_comm]
    · rw [if_neg hn] at h
      cases h
      rw [Nat.sub_eq_zero_of_le (by omega)]
      exact ⟨rfl, fun g => rfl⟩

/-- Axes whose target extent is one are summed, and read at zero afterwards. -/
theorem sum_box_sumToExtents {ns : List ℕ} {axis : ℕ} {t r : Tensor α}
    (hrank : axis + ns.length ≤ t.rank) (h : sumToExtents ns axis t = some r) :
    r.dims = setOnes 1 ns axis t.dims ∧ ∀ g : List ℕ → ℂ,
      ∑ i ∈ box r.dims, φ (r.entry i) * g i =
        ∑ m ∈ box t.dims, φ (t.entry m) * g (setOnes 0 ns axis m) := by
  induction ns generalizing axis t with
  | nil =>
    cases h
    exact ⟨rfl, fun g => rfl⟩
  | cons n ns ih =>
    have hlt : axis < t.rank := by
      rw [List.length_cons] at hrank
      omega
    have hrest : axis + 1 + ns.length ≤ t.rank := by
      rw [List.length_cons] at hrank
      omega
    rw [sumToExtents] at h
    simp only [setOnes]
    by_cases hn : n = 1
    · rw [if_pos hn, if_neg (by omega)] at h
      simp only [if_pos hn]
      by_cases hone : t.extent axis = 1
      · -- The axis has extent one already, and nothing is to be summed.
        rw [if_pos hone] at h
        obtain ⟨hrdims, hrsum⟩ := ih hrest h
        have hset : t.dims.set axis 1 = t.dims := list_set_getD hlt hone
        refine ⟨by rw [hrdims, hset], fun g => ?_⟩
        rw [hrsum]
        apply Finset.sum_congr rfl
        intro m hm
        rw [set_zero_of_inBox (mem_box.mp hm) hone]
      · rw [if_neg hone, Option.bind_eq_bind, Option.bind_eq_some_iff] at h
        obtain ⟨s, hs, hr⟩ := h
        have hsdims := dims_of_sumAxis? hs
        obtain ⟨hrdims, hrsum⟩ := ih (rank_of_sumAxis? hs ▸ hrest) hr
        refine ⟨by rw [hrdims, hsdims], fun g => ?_⟩
        rw [hrsum, hsdims, sum_box_sumAxis? hzero hadd hlt hs]
    · rw [if_neg hn] at h
      simp only [if_neg hn]
      exact ih hrest h

/-- The sum over everything that stretching repeats: against any weight of the small indices, it is
the array against the weights of the indices that are read. -/
theorem sum_box_sumTo? {t r : Tensor α} {target : List ℕ}
    (hs : stretches target t.dims = true) (h : t.sumTo? target = some r) :
    r.dims = target ∧ ∀ g : List ℕ → ℂ,
      ∑ i ∈ box target, φ (r.entry i) * g i =
        ∑ m ∈ box t.dims, φ (t.entry m) * g (project target m) := by
  obtain ⟨hle, hforall⟩ := (stretches_iff _ _).mp hs
  have hle' : target.length ≤ t.rank := hle
  rw [sumTo?, Option.bind_eq_bind, Option.bind_eq_some_iff] at h
  obtain ⟨s, hsum, hr⟩ := h
  obtain ⟨hsdims, hssum⟩ := sum_box_sumToRank hzero hadd (Nat.le_add_left _ _) hsum
  have hslen : s.dims.length = target.length := by
    rw [hsdims, List.length_drop]
    exact Nat.sub_sub_self hle'
  obtain ⟨hrdims, hrsum⟩ := sum_box_sumToExtents hzero hadd (by rw [rank, hslen, Nat.zero_add]) hr
  have hrtarget : r.dims = target := by
    rw [hrdims, setOnes_zero _ hslen, hsdims]
    exact zipWith_one_of_stretches hforall
  refine ⟨hrtarget, fun g => ?_⟩
  rw [← hrtarget, hrsum, hssum]
  apply Finset.sum_congr rfl
  intro m hm
  have hmlen : m.length = t.rank := (mem_box.mp hm).length_eq
  rw [setOnes_zero, project, hmlen, hrtarget]
  rw [List.length_drop, hmlen]
  exact Nat.sub_sub_self hle'

end Weighted

/-! ### Where sums are stored -/

/-- Whether an array can be summed is decided by its extents. -/
theorem sumToRank_uniform {n steps : ℕ} {t t' r : Tensor α} (hdims : t.dims = t'.dims)
    (h : sumToRank n steps t = some r) :
    ∃ r', sumToRank n steps t' = some r' ∧ r.dims = r'.dims := by
  induction steps generalizing t t' with
  | zero =>
    cases h
    exact ⟨t', rfl, hdims⟩
  | succ steps ih =>
    have hrank : t.rank = t'.rank := by rw [rank, rank, hdims]
    rw [sumToRank] at h ⊢
    rw [← hrank]
    by_cases hn : n < t.rank
    · rw [if_pos hn, Option.bind_eq_bind, Option.bind_eq_some_iff] at h
      obtain ⟨s, hs, hr⟩ := h
      cases hcons : t.dims with
      | nil => simp [rank, hcons] at hn
      | cons d ds =>
        obtain ⟨hroom, hsdims⟩ := (sumLeading?_eq_some_iff hcons).mp hs
        obtain ⟨s', hs', hsdims'⟩ : ∃ s', t'.sumLeading? = some s' ∧ s'.dims = ds :=
          ⟨_, (sumLeading?_eq_some_iff (hdims.symm.trans hcons)).mpr ⟨hroom, rfl⟩, rfl⟩
        have hss' : s.dims = s'.dims := by
          rw [hsdims, hsdims']
          rfl
        obtain ⟨r', hr', hrr'⟩ := ih hss' hr
        exact ⟨r', by rw [if_pos hn, hs']; exact hr', hrr'⟩
    · rw [if_neg hn] at h
      cases h
      exact ⟨t', by rw [if_neg hn], hdims⟩

theorem sumToExtents_uniform {ns : List ℕ} {axis : ℕ} {t t' r : Tensor α} (hdims : t.dims = t'.dims)
    (h : sumToExtents ns axis t = some r) : ∃ r', sumToExtents ns axis t' = some r' := by
  induction ns generalizing axis t t' with
  | nil => exact ⟨t', rfl⟩
  | cons n ns ih =>
    have hrank : t.rank = t'.rank := by rw [rank, rank, hdims]
    have hextent : t.extent axis = t'.extent axis := by rw [extent, extent, hdims]
    rw [sumToExtents] at h ⊢
    rw [← hrank, ← hextent]
    by_cases hn : n = 1
    · simp only [if_pos hn] at h ⊢
      by_cases hlt : t.rank ≤ axis
      · simp [hlt] at h
      · simp only [if_neg hlt] at h ⊢
        by_cases hone : t.extent axis = 1
        · simp only [if_pos hone] at h ⊢
          exact ih hdims h
        · simp only [if_neg hone, Option.bind_eq_bind, Option.bind_eq_some_iff] at h ⊢
          obtain ⟨s, hs, hr⟩ := h
          obtain ⟨hroom, hsdims⟩ := sumAxis?_eq_some_iff.mp hs
          obtain ⟨s', hs', hsdims'⟩ : ∃ s', t'.sumAxis? axis = some s' ∧
              s'.dims = t'.dims.set axis 1 :=
            ⟨_, sumAxis?_eq_some_iff.mpr ⟨hdims ▸ hroom, rfl⟩, rfl⟩
          have hss' : s.dims = s'.dims := by
            rw [hsdims, hsdims', ← hdims]
            rfl
          obtain ⟨r', hr'⟩ := ih hss' hr
          exact ⟨r', _, hs', hr'⟩
    · simp only [if_neg hn] at h ⊢
      exact ih hdims h

theorem sumTo?_uniform {t t' r : Tensor α} {target : List ℕ} (hdims : t.dims = t'.dims)
    (h : t.sumTo? target = some r) : ∃ r', t'.sumTo? target = some r' := by
  have hrank : t.rank = t'.rank := by rw [rank, rank, hdims]
  rw [sumTo?, Option.bind_eq_bind, Option.bind_eq_some_iff] at h
  obtain ⟨s, hs, hr⟩ := h
  obtain ⟨s', hs', hss'⟩ := sumToRank_uniform hdims hs
  obtain ⟨r', hr'⟩ := sumToExtents_uniform hss' hr
  exact ⟨r', by rw [sumTo?, ← hrank, Option.bind_eq_bind, Option.bind_eq_some_iff]
                exact ⟨s', hs', hr'⟩⟩

theorem sumToRank_of_roomy {n steps : ℕ} {t : Tensor α} (h : Roomy t.dims) :
    ∃ r, sumToRank n steps t = some r ∧ Roomy r.dims ∧ min n t.rank ≤ r.rank := by
  induction steps generalizing t with
  | zero => exact ⟨t, rfl, h, min_le_right _ _⟩
  | succ steps ih =>
    rw [sumToRank]
    by_cases hn : n < t.rank
    · cases hdims : t.dims with
      | nil => simp [rank, hdims] at hn
      | cons d ds =>
        have hds : Roomy ds := by
          have hdrop := h.drop 1
          rwa [hdims, List.drop_one, List.tail_cons] at hdrop
        obtain ⟨s, hs⟩ : ∃ s, t.sumLeading? = some s :=
          ⟨_, (sumLeading?_eq_some_iff hdims).mpr ⟨hds.storable, rfl⟩⟩
        have hsdims : s.dims = ds := by
          obtain ⟨-, rfl⟩ := (sumLeading?_eq_some_iff hdims).mp hs
          rfl
        obtain ⟨r, hr, hroom, hrank⟩ := ih (hsdims ▸ hds)
        refine ⟨r, by simp [hn, hs, hr], hroom, ?_⟩
        have htrank : t.rank = ds.length + 1 := by simp [rank, hdims]
        have hsrank : s.rank = ds.length := by rw [rank, hsdims]
        omega
    · exact ⟨t, by rw [if_neg hn], h, min_le_right _ _⟩

theorem sumToExtents_of_roomy {ns : List ℕ} {axis : ℕ} {t : Tensor α} (h : Roomy t.dims)
    (hrank : axis + ns.length ≤ t.rank) : ∃ r, sumToExtents ns axis t = some r := by
  induction ns generalizing axis t with
  | nil => exact ⟨t, rfl⟩
  | cons n ns ih =>
    have hlt : axis < t.rank := by
      rw [List.length_cons] at hrank
      omega
    have hrest : axis + 1 + ns.length ≤ t.rank := by
      rw [List.length_cons] at hrank
      omega
    rw [sumToExtents]
    by_cases hn : n = 1
    · rw [if_pos hn, if_neg (by omega)]
      by_cases hone : t.extent axis = 1
      · rw [if_pos hone]
        exact ih h hrest
      · rw [if_neg hone]
        obtain ⟨s, hs⟩ : ∃ s, t.sumAxis? axis = some s :=
          ⟨_, sumAxis?_eq_some_iff.mpr ⟨(h.set_one axis).storable, rfl⟩⟩
        obtain ⟨r, hr⟩ := ih (dims_of_sumAxis? hs ▸ h.set_one axis) (rank_of_sumAxis? hs ▸ hrest)
        exact ⟨r, by simp [hs, hr]⟩
    · rw [if_neg hn]
      exact ih h hrest

theorem sumTo?_of_roomy {t : Tensor α} {target : List ℕ} (h : Roomy t.dims)
    (hs : stretches target t.dims = true) : ∃ r, t.sumTo? target = some r := by
  have hle : target.length ≤ t.rank := ((stretches_iff _ _).mp hs).1
  obtain ⟨s, hsum, hroom, hrank⟩ : ∃ s, sumToRank target.length t.rank t = some s ∧
      Roomy s.dims ∧ min target.length t.rank ≤ s.rank := sumToRank_of_roomy h
  obtain ⟨r, hr⟩ : ∃ r, sumToExtents target 0 s = some r :=
    sumToExtents_of_roomy hroom (by rw [min_eq_left hle] at hrank; omega)
  exact ⟨r, by simp [sumTo?, hsum, hr]⟩

/-! ### Nothing is stretched -/

theorem sumToRank_of_rank_le {n steps : ℕ} {t : Tensor α} (h : t.rank ≤ n) :
    sumToRank n steps t = some t := by
  cases steps with
  | zero => rfl
  | succ steps => rw [sumToRank, if_neg (by omega)]

theorem sumToExtents_self {ns : List ℕ} {axis : ℕ} {t : Tensor α} (h : t.dims.drop axis = ns) :
    sumToExtents ns axis t = some t := by
  induction ns generalizing axis with
  | nil => rfl
  | cons n ns ih =>
    have hlt : axis < t.dims.length := by
      by_contra hge
      rw [List.drop_eq_nil_of_le (by omega)] at h
      cases h
    obtain ⟨hn, hrest⟩ := List.cons.inj ((List.drop_eq_getElem_cons hlt).symm.trans h)
    have hextent : t.extent axis = n := by rw [extent, List.getD_eq_getElem _ _ hlt, hn]
    rw [sumToExtents, ih hrest, rank, if_neg (by omega : ¬t.dims.length ≤ axis)]
    by_cases hone : n = 1
    · rw [if_pos hone, if_pos (hextent.trans hone)]
    · rw [if_neg hone]

/-- Nothing is summed where nothing is stretched. -/
theorem sumTo?_self (t : Tensor α) : t.sumTo? t.dims = some t := by
  have hrank : sumToRank t.dims.length t.rank t = some t := sumToRank_of_rank_le le_rfl
  rw [sumTo?, Option.bind_eq_bind, hrank]
  exact sumToExtents_self rfl

end Tensor

end OperatorSplitting
