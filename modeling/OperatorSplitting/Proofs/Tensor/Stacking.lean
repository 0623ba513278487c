import Mathlib
import OperatorSplitting.Proofs.Tensor.Entries

/-!
# Stacking

Arrays of the same extents have a stack exactly where its extents can be addressed, and the array in
place `k` is then what the stack holds behind the index `k` of its first axis.
-/

namespace OperatorSplitting

namespace Tensor

variable {α : Type} [Zero α] {ts : List (Tensor α)} {r : Tensor α} {d : List ℕ}

theorem exists_stack (hne : ts ≠ []) (hdims : ∀ t ∈ ts, t.dims = d)
    (hroom : Addressable (ts.length :: d)) : ∃ r, stack ts = .ok r := by
  cases ts with
  | nil => exact absurd rfl hne
  | cons t ts =>
    obtain ⟨rfl, hrest⟩ := List.forall_mem_cons.mp hdims
    exact ⟨_, stack_eq_ok_iff.mpr ⟨hrest, hroom, rfl⟩⟩

theorem stack_eq_overflow (hne : ts ≠ []) (hdims : ∀ t ∈ ts, t.dims = d)
    (hroom : ¬Addressable (ts.length :: d)) : stack ts = .error .overflow := by
  cases ts with
  | nil => exact absurd rfl hne
  | cons t ts =>
    obtain ⟨rfl, hrest⟩ := List.forall_mem_cons.mp hdims
    have hequal : (ts.all fun s => s.dims = t.dims) = true := by
      rw [List.all_eq_true]
      exact fun s hs => decide_eq_true (hrest s hs)
    rw [List.length_cons] at hroom
    unfold stack
    dsimp only
    rw [if_pos hequal, if_neg hroom]

theorem dims_stack (hdims : ∀ t ∈ ts, t.dims = d) (hr : stack ts = .ok r) :
    r.dims = ts.length :: d := by
  cases ts with
  | nil => cases hr
  | cons t ts =>
    obtain ⟨-, -, rfl⟩ := stack_eq_ok_iff.mp hr
    rw [dims_ofFn, hdims t List.mem_cons_self, List.length_cons]

theorem entry_stack {k : ℕ} {idx : List ℕ} (hr : stack ts = .ok r)
    (hidx : InBox r.dims (k :: idx)) : r.entry (k :: idx) = layerEntry ts k idx := by
  cases ts with
  | nil => cases hr
  | cons t ts =>
    obtain ⟨-, -, rfl⟩ := stack_eq_ok_iff.mp hr
    exact entry_ofFn _ hidx

end Tensor

end OperatorSplitting
