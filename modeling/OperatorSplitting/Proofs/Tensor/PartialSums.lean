import Mathlib
import OperatorSplitting.Proofs.Exact.Scalar
import OperatorSplitting.Proofs.Tensor.Summing

/-!
# Partial sums

Summing an array to smaller extents goes axis by axis: the leading axes vanish one after the other,
and then the axes of extent one are summed.  Every partial sum is an array of its own, which memory
has to hold, and nothing else can fail (`exists_sumTo?_iff`).  An array without entries may have
partial sums that are larger than the array; with entries it has room for all of them
(`canSum_of_storable`).

In the end each entry is the sum of the entries that stretching would read there
(`val_sumTo?`).
-/

namespace OperatorSplitting

open ExactScalar

/-- Memory holds all partial sums of an array that is summed to smaller extents. -/
structure CanSum (dims target : List ℕ) : Prop where
  /-- Leading axes vanish. -/
  leading : ∀ k ≤ dims.length - target.length, Storable (dims.drop k)
  /-- Some of the other axes have been summed. -/
  inner : ∀ a ≤ target.length,
    Storable (target.take a ++ dims.drop (dims.length - target.length + a))

instance decidableCanSum (dims target : List ℕ) : Decidable (CanSum dims target) :=
  decidable_of_iff
    ((∀ k ≤ dims.length - target.length, Storable (dims.drop k)) ∧ ∀ a ≤ target.length,
      Storable (target.take a ++ dims.drop (dims.length - target.length + a)))
    ⟨fun h => ⟨h.1, h.2⟩, fun h => ⟨h.leading, h.inner⟩⟩

theorem forall_le_succ_iff {p : ℕ → Prop} {n : ℕ} :
    (∀ k ≤ n + 1, p k) ↔ p 0 ∧ ∀ k ≤ n, p (k + 1) := by
  simp only [← Nat.lt_succ_iff, Nat.forall_lt_succ_left]

theorem exists_bind_eq_some_iff {α β : Type} {o : Option α} {f : α → Option β} :
    (∃ r, o.bind f = some r) ↔ ∃ s, o = some s ∧ ∃ r, f s = some r := by
  simp only [Option.bind_eq_some_iff]
  exact ⟨fun ⟨r, s, hs, hr⟩ => ⟨s, hs, r, hr⟩, fun ⟨s, hs, r, hr⟩ => ⟨r, s, hs, hr⟩⟩

namespace Tensor

variable {α : Type} [Zero α] [Add α]

/-! ### Where a sum has a value -/

theorem exists_sumToRank_iff {n steps : ℕ} {t : Tensor α} (hsteps : t.rank ≤ n + steps)
    (hroom : Storable t.dims) :
    (∃ r, sumToRank n steps t = some r) ↔ ∀ k ≤ t.rank - n, Storable (t.dims.drop k) := by
  induction steps generalizing t with
  | zero =>
    rw [Nat.sub_eq_zero_of_le (by omega)]
    refine iff_of_true ⟨t, rfl⟩ fun k hk => ?_
    rwa [Nat.le_zero.mp hk]
  | succ steps ih =>
    rw [sumToRank]
    by_cases hn : n < t.rank
    · cases hdims : t.dims with
      | nil => simp [rank, hdims] at hn
      | cons d ds =>
        have hrank : t.rank = ds.length + 1 := by simp [rank, hdims]
        have hleft : t.rank - n = ds.length - n + 1 := by omega
        rw [hdims] at hroom
        rw [if_pos hn, Option.bind_eq_bind, exists_bind_eq_some_iff, hleft, forall_le_succ_iff,
          List.drop_zero, and_iff_right hroom]
        simp only [List.drop_succ_cons, sumLeading?_eq_some_iff hdims]
        have hnext (hds : Storable ds) (f : List ℕ → α) :
            (∃ r, sumToRank n steps (ofFn ds f) = some r) ↔
              ∀ k ≤ ds.length - n, Storable (ds.drop k) :=
          ih (show ds.length ≤ n + steps by omega) hds
        constructor
        · rintro ⟨_, ⟨hds, rfl⟩, hr⟩
          exact (hnext hds _).mp hr
        · intro hlater
          have hds : Storable ds := hlater 0 (Nat.zero_le _)
          exact ⟨_, ⟨hds, rfl⟩, (hnext hds _).mpr hlater⟩
    · rw [Nat.sub_eq_zero_of_le (by omega), if_neg hn]
      refine iff_of_true ⟨t, rfl⟩ fun k hk => ?_
      rwa [Nat.le_zero.mp hk]

/-- The axes after the first ones are summed where the target extent is one. -/
theorem exists_sumToExtents_iff {before ns rest : List ℕ} {t : Tensor α}
    (hs : List.Forall₂ Stretches ns rest) (hdims : t.dims = before ++ rest)
    (hroom : Storable t.dims) :
    (∃ r, sumToExtents ns before.length t = some r) ↔
      ∀ a ≤ ns.length, Storable (before ++ (ns.take a ++ rest.drop a)) := by
  induction hs generalizing before t with
  | nil =>
    refine iff_of_true ⟨t, rfl⟩ fun a _ => ?_
    rwa [List.take_nil, List.drop_nil, List.append_nil, ← hdims]
  | @cons n d ns rest hnd _ ih =>
    have hfirst : Storable (before ++ ((n :: ns).take 0 ++ (d :: rest).drop 0)) := hdims ▸ hroom
    have hlater : (∀ a ≤ ns.length,
        Storable (before ++ ((n :: ns).take (a + 1) ++ (d :: rest).drop (a + 1)))) ↔
        ∀ a ≤ ns.length, Storable ((before ++ [n]) ++ (ns.take a ++ rest.drop a)) := by
      simp only [List.take_succ_cons, List.drop_succ_cons, List.append_assoc, List.cons_append,
        List.nil_append]
    rw [List.length_cons, forall_le_succ_iff, and_iff_right hfirst, hlater, sumToExtents]
    -- Summed or not, the axis has its target extent afterwards and joins the first ones.
    have hnext {t : Tensor α} (hdims : t.dims = (before ++ [n]) ++ rest) (hroom : Storable t.dims) :
        (∃ r, sumToExtents ns (before.length + 1) t = some r) ↔
          ∀ a ≤ ns.length, Storable ((before ++ [n]) ++ (ns.take a ++ rest.drop a)) := by
      rw [← ih hdims hroom, List.length_append, List.length_singleton]
    have hkept (h : n = d) : t.dims = (before ++ [n]) ++ rest := by
      rw [hdims, h, List.append_assoc, List.singleton_append]
    by_cases hn : n = 1
    · have hrank : ¬t.rank ≤ before.length := by
        rw [rank, hdims, List.length_append, List.length_cons]
        omega
      have hextent : t.extent before.length = d := by
        rw [extent, hdims, List.getD_append_right _ _ _ _ le_rfl, Nat.sub_self,
          List.getD_cons_zero]
      rw [if_pos hn, if_neg hrank, hextent]
      by_cases hone : d = 1
      · rw [if_pos hone]
        exact hnext (hkept (hn.trans hone.symm)) hroom
      · have hset : t.dims.set before.length 1 = (before ++ [n]) ++ rest := by
          rw [hdims, List.set_append_right _ _ le_rfl, Nat.sub_self, List.set_cons_zero, hn,
            List.append_assoc, List.singleton_append]
        rw [if_neg hone, Option.bind_eq_bind, exists_bind_eq_some_iff]
        simp only [sumAxis?_eq_some_iff, hset]
        constructor
        · rintro ⟨_, ⟨hsum, rfl⟩, hr⟩
          exact (hnext rfl hsum).mp hr
        · intro hall
          have hsum : Storable ((before ++ [n]) ++ rest) := hall 0 (Nat.zero_le _)
          exact ⟨_, ⟨hsum, rfl⟩, (hnext rfl hsum).mpr hall⟩
    · rw [if_neg hn]
      exact hnext (hkept (hnd.resolve_right hn)) hroom

/-- An array can be summed exactly where memory holds the partial sums. -/
theorem exists_sumTo?_iff {t : Tensor α} {target : List ℕ} (hs : stretches target t.dims = true)
    (hroom : Storable t.dims) : (∃ r, t.sumTo? target = some r) ↔ CanSum t.dims target := by
  obtain ⟨hle, hforall⟩ := (stretches_iff _ _).mp hs
  have hleading : (∃ s, sumToRank target.length t.rank t = some s) ↔
      ∀ k ≤ t.dims.length - target.length, Storable (t.dims.drop k) :=
    exists_sumToRank_iff (Nat.le_add_left _ _) hroom
  have hinner {s : Tensor α} (h : sumToRank target.length t.rank t = some s)
      (hleft : Storable (t.dims.drop (t.dims.length - target.length))) :
      (∃ r, sumToExtents target 0 s = some r) ↔ ∀ a ≤ target.length,
        Storable (target.take a ++ t.dims.drop (t.dims.length - target.length + a)) := by
    -- Any additive weight gives the extents of the sum.
    have hsdims : s.dims = t.dims.drop (t.dims.length - target.length) :=
      (sum_box_sumToRank (φ := fun _ => 0) rfl (fun _ _ => (add_zero 0).symm)
        (Nat.le_add_left _ _) h).1
    have hsum : (∃ r, sumToExtents target ([] : List ℕ).length s = some r) ↔
        ∀ a ≤ target.length, Storable ([] ++
          (target.take a ++ (t.dims.drop (t.dims.length - target.length)).drop a)) :=
      exists_sumToExtents_iff hforall hsdims (hsdims ▸ hleft)
    simpa only [List.length_nil, List.nil_append, List.drop_drop] using hsum
  rw [sumTo?, Option.bind_eq_bind, exists_bind_eq_some_iff]
  constructor
  · rintro ⟨s, hsum, hr⟩
    have hall := hleading.mp ⟨s, hsum⟩
    exact ⟨hall, (hinner hsum (hall _ le_rfl)).mp hr⟩
  · intro h
    obtain ⟨s, hsum⟩ := hleading.mpr h.leading
    exact ⟨s, hsum, (hinner hsum (h.leading _ le_rfl)).mpr h.inner⟩

end Tensor

/-- An array with entries has room for its partial sums. -/
theorem canSum_of_storable {dims target : List ℕ} (hpos : 0 ∉ dims) (hroom : Storable dims)
    (hs : stretches target dims = true) : CanSum dims target := by
  have hroomy : Roomy dims := by
    rw [Roomy, ← volume_eq_spread hpos]
    exact hroom.2
  exact (Tensor.exists_sumTo?_iff (t := Tensor.replicate dims (0 : ℕ)) hs hroom).mp
    (Tensor.sumTo?_of_roomy hroomy hs)

/-! ### What a sum is -/

/-- An entry of the sum adds up the entries that are read there. -/
theorem Tensor.val_sumTo? {K : Type} [ExactScalar K] {t r : Tensor K} {target : List ℕ}
    (hs : stretches target t.dims = true) (h : t.sumTo? target = some r) {j : List ℕ}
    (hj : InBox target j) :
    val (r.entry j) = ∑ m ∈ box t.dims with Tensor.project target m = j, val (t.entry m) := by
  obtain ⟨-, hweighted⟩ := Tensor.sum_box_sumTo? val_zero val_add hs h
  have hpoint := hweighted fun i => if i = j then 1 else 0
  simp only [mul_ite, mul_one, mul_zero] at hpoint
  rw [Finset.sum_ite_eq' _ _ _, if_pos (mem_box.mpr hj)] at hpoint
  rw [hpoint, Finset.sum_filter]

end OperatorSplitting
