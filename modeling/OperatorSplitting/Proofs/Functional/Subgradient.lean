import Mathlib
import OperatorSplitting.Proofs.Exact.Vector
import OperatorSplitting.Proofs.Functional.Evaluation
import OperatorSplitting.Proofs.Linear.AdjointMaps

/-!
# Subgradients

An indicator is infinite where it does not admit a signal.  Exact numbers have no infinity, so the
value of a functional in the extended sense is its computed value where it admits the signal and is
infinite elsewhere.  A vector is a subgradient at a signal if the functional stays above the affine
function with that slope that touches it there.  This is the only notion of optimality that is used:
proximal maps give subgradients, gradients are subgradients, and subgradients are monotone.
-/

namespace OperatorSplitting

open Eval ExactScalar

noncomputable section

namespace Functional

variable {K : Type} [ExactScalar K] {names : Naming K}

/-- No element is below zero, where the functional asks for that. -/
def Admits : Functional K ℝ ℝ → Signal K → Prop
  | .nonNegative, x => ∀ a ∈ x.entries, 0 ≤ Scalar.re a
  | .multiple _ f, x => f.Admits x
  | _, _ => True

open Classical in
/-- The value at a signal, infinite where the signal is not admitted. -/
def extended (g : Functional K ℝ ℝ) (x : Signal K) : Except Error (WithTop ℝ) :=
  (g.value x : Eval K ℝ ℝ).outcome.map fun a : ℝ => if g.Admits x then (a : WithTop ℝ) else ⊤

/-- The functional is finite at `z` and stays above the affine function of slope `q` through its
value there. -/
structure Subgradient (g : Functional K ℝ ℝ) (q : Vector) (z : Signal K) : Prop where
  exists_value : ∃ a : ℝ, g.extended z = .ok (a : WithTop ℝ) ∧
    ∀ p : Signal K, p.shape = z.shape → ∃ b, g.extended p = .ok b ∧
      ((a + inner ℝ q (p.vec - z.vec) : ℝ) : WithTop ℝ) ≤ b

variable {f g : Functional K ℝ ℝ} {q q' : Vector} {x z z' : Signal K}

theorem extended_of_admits {a : ℝ} (hvalue : (g.value x : Eval K ℝ ℝ).outcome = .ok a)
    (h : g.Admits x) : g.extended x = .ok (a : WithTop ℝ) := by
  rw [extended, hvalue]
  simp [Except.map, h]

theorem extended_of_not_admits {a : ℝ} (hvalue : (g.value x : Eval K ℝ ℝ).outcome = .ok a)
    (h : ¬g.Admits x) : g.extended x = .ok ⊤ := by
  rw [extended, hvalue]
  simp [Except.map, h]

/-- A finite extended value is the computed value at an admitted signal. -/
theorem extended_eq_coe {a : ℝ} (h : g.extended x = .ok (a : WithTop ℝ)) :
    g.Admits x ∧ (g.value x : Eval K ℝ ℝ).outcome = .ok a := by
  obtain ⟨b, hb, heq⟩ := Except.map_eq_ok_iff.mp h
  by_cases hadmits : g.Admits x
  · rw [if_pos hadmits] at heq
    have hab : b = a := WithTop.coe_inj.mp heq
    exact ⟨hadmits, hab ▸ hb⟩
  · rw [if_neg hadmits] at heq
    cases heq

/-- To give a subgradient it is enough to bound the values at admitted signals. -/
theorem subgradient_of_value {a : ℝ} (hvalue : (g.value z : Eval K ℝ ℝ).outcome = .ok a)
    (hadmits : g.Admits z)
    (h : ∀ p : Signal K, p.shape = z.shape → ∃ b, (g.value p : Eval K ℝ ℝ).outcome = .ok b ∧
      (g.Admits p → a + inner ℝ q (p.vec - z.vec) ≤ b)) : g.Subgradient q z := by
  refine ⟨a, extended_of_admits hvalue hadmits, fun p hp => ?_⟩
  obtain ⟨b, hb, hle⟩ := h p hp
  by_cases hpadmits : g.Admits p
  · exact ⟨b, extended_of_admits hb hpadmits, WithTop.coe_le_coe.mpr (hle hpadmits)⟩
  · exact ⟨⊤, extended_of_not_admits hb hpadmits, le_top⟩

/-- Subgradients at two signals of one shape are monotone. -/
theorem Subgradient.monotone (h : g.Subgradient q z) (h' : g.Subgradient q' z')
    (hshape : z.shape = z'.shape) : 0 ≤ inner ℝ (q - q') (z.vec - z'.vec) := by
  obtain ⟨a, ha, hbound⟩ := h
  obtain ⟨a', ha', hbound'⟩ := h'
  obtain ⟨b, hb, hle⟩ := hbound z' hshape.symm
  obtain ⟨b', hb', hle'⟩ := hbound' z hshape
  cases ha'.symm.trans hb
  cases ha.symm.trans hb'
  rw [WithTop.coe_le_coe] at hle hle'
  have hflip : inner ℝ q (z'.vec - z.vec) = -inner ℝ q (z.vec - z'.vec) := by
    rw [← neg_sub, inner_neg_right]
  rw [inner_sub_left]
  linarith

/-! ### Multiples -/

theorem extended_multiple (hf : f.Named names) (s : ℝ) (x : Signal K) :
    (multiple s f).extended x = (f.extended x).map (WithTop.map (s * ·)) := by
  rw [extended, extended, outcome_value_multiple hf]
  cases (f.value x : Eval K ℝ ℝ).outcome with
  | error e => rfl
  | ok a =>
    by_cases hadmits : f.Admits x
    · have hadmits' : (multiple s f).Admits x := hadmits
      simp [Except.map, hadmits, hadmits']
    · have hadmits' : ¬(multiple s f).Admits x := hadmits
      simp [Except.map, hadmits, hadmits']

/-- A positive multiple has the multiples of the subgradients. -/
theorem Subgradient.multiple (hf : f.Named names) {s : ℝ} (hs : 0 < s) (h : f.Subgradient q z) :
    (multiple s f).Subgradient (s • q) z := by
  obtain ⟨a, ha, hbound⟩ := h
  refine ⟨s * a, by rw [extended_multiple hf, ha]; rfl, fun p hp => ?_⟩
  obtain ⟨b, hb, hle⟩ := hbound p hp
  refine ⟨WithTop.map (s * ·) b, by rw [extended_multiple hf, hb]; rfl, ?_⟩
  cases b with
  | top => exact le_top
  | coe b =>
    rw [WithTop.coe_le_coe] at hle
    rw [WithTop.map_coe, WithTop.coe_le_coe, real_inner_smul_left, ← mul_add]
    exact mul_le_mul_of_nonneg_left hle hs.le

end Functional

end

end OperatorSplitting
