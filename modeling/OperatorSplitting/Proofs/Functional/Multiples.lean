import Mathlib
import OperatorSplitting.Proofs.Functional.Optimality

/-!
# Multiples of a squared loss

A positive multiple of a functional multiplies values and gradients from outside and takes its
factor into the step of the proximal map.  A multiple of a squared loss is recognized as another
squared loss, whose factor is part of the scale.  In exact arithmetic both are the same functional
(`Presents`): a single multiple keeps this (`Presents.multiple`), and so does a chain of multiples
of any length (`Presents.chain`).  The equations are between computations, so that errors and what
is left behind agree as well, and nothing is asked of the loss.
-/

namespace OperatorSplitting

noncomputable section

variable {K : Type} [ExactScalar K]

/-- Multiplying by two numbers is multiplying by their product. -/
theorem Signal.scaled_scaled (x : Signal K) (r s : ℝ) :
    (x.scaled (Scalar.ofReal r)).scaled (Scalar.ofReal s) =
      x.scaled (Scalar.ofReal (r * s) : K) := by
  apply Signal.vec_injective
  · rw [shape_scaled, shape_scaled, shape_scaled]
  · rw [vec_scaled, vec_scaled, vec_scaled, smul_smul, mul_comm]

namespace SquaredLoss

variable (l : SquaredLoss K ℝ) (s : ℝ)

omit [ExactScalar K] in
theorem rescaled_one : l.rescaled 1 = l := by
  rw [rescaled, mul_one]

omit [ExactScalar K] in
theorem rescaled_rescaled (r : ℝ) : (l.rescaled r).rescaled s = l.rescaled (r * s) := by
  rw [rescaled, rescaled, rescaled, mul_assoc]

theorem value_rescaled (x : Signal K) :
    ((l.rescaled s).value x : Eval K ℝ ℝ) = do return s * (← l.value x) := by
  have hscale (r : Signal K) : (l.rescaled s).scale * r.normSqr = s * (l.scale * r.normSqr) := by
    rw [rescaled]
    ring
  simp only [value, bind_assoc, pure_bind, hscale]
  rfl

theorem grad_rescaled (x : Signal K) :
    ((l.rescaled s).grad x : Eval K ℝ _) = do return (← l.grad x).scaled (Scalar.ofReal s) := by
  have hscale (g : Signal K) :
      g.scaled (Scalar.ofReal ((l.rescaled s).scale + (l.rescaled s).scale) : K) =
        (g.scaled (Scalar.ofReal (l.scale + l.scale))).scaled (Scalar.ofReal s) := by
    rw [Signal.scaled_scaled, rescaled, add_mul]
  simp only [grad, bind_assoc, pure_bind, hscale]
  rfl

/-- The proximal map depends on the product of the scale and the step alone. -/
theorem prox_rescaled (v : Signal K) (step : ℝ) :
    (l.rescaled s).prox v step = l.prox v (s * step) := by
  have hscale : (l.rescaled s).scale * step = l.scale * (s * step) := mul_assoc _ _ _
  have hdiagonal (d : Signal K) :
      (l.rescaled s).proxDiagonal d v step = l.proxDiagonal d v (s * step) := by
    unfold proxDiagonal
    rw [hscale]
    rfl
  unfold prox
  simp only [hdiagonal]
  rfl

end SquaredLoss

namespace Functional

/-! ### Chains -/

/-- Take multiples of a functional, one after the other. -/
def chain (f : Functional K ℝ ℝ) (scales : List ℝ) : Except Error (Functional K ℝ ℝ) :=
  scales.foldlM (fun f s => f.scaled s) f

/-- The functional under its multiples. -/
def under (f : Functional K ℝ ℝ) (scales : List ℝ) : Functional K ℝ ℝ :=
  scales.foldl (fun f s => .multiple s f) f

/-- The functional is no squared loss and no multiple of one; one given from outside does not say
that it is. -/
def IsOther : Functional K ℝ ℝ → Prop
  | .loss _ => False
  | .external e => e.squaredLoss? = none
  | .multiple _ f => f.IsOther
  | _ => True

variable {f F : Functional K ℝ ℝ} {l : SquaredLoss K ℝ}

omit [ExactScalar K] in
/-- A chain has a result if all its factors are positive. -/
theorem chain_eq_ok_iff {scales : List ℝ} :
    f.chain scales = .ok F ↔ (∀ s ∈ scales, 0 < s) ∧ F = f.under scales := by
  induction scales generalizing f with
  | nil =>
    constructor
    · intro h
      exact ⟨List.forall_mem_nil _, (Except.ok.inj h).symm⟩
    · rintro ⟨-, rfl⟩
      rfl
  | cons s scales ih =>
    rw [chain, List.foldlM_cons, Except.bind_eq_ok_iff, List.forall_mem_cons]
    constructor
    · rintro ⟨g, hg, hF⟩
      obtain ⟨hs, rfl⟩ := scaled_eq_ok_iff.mp hg
      obtain ⟨hscales, hF⟩ := ih.mp hF
      exact ⟨⟨hs, hscales⟩, hF⟩
    · rintro ⟨⟨hs, hscales⟩, hF⟩
      exact ⟨.multiple s f, scaled_eq_ok_iff.mpr ⟨hs, rfl⟩, ih.mpr ⟨hscales, hF⟩⟩

theorem IsOther.asSquaredLoss?_eq_none (h : f.IsOther) : f.asSquaredLoss? = none := by
  induction f with
  | loss l => exact h.elim
  | external e => exact h
  | multiple s f ih => exact Option.map_eq_none_iff.mpr (ih h)
  | _ => rfl

/-- The loss that a chain is recognized as has the product of all factors in its scale. -/
theorem asSquaredLoss?_under (f : Functional K ℝ ℝ) (scales : List ℝ) :
    (f.under scales).asSquaredLoss? = f.asSquaredLoss?.map (·.rescaled scales.prod) := by
  induction scales generalizing f with
  | nil =>
    simp only [under, List.foldl_nil, List.prod_nil, SquaredLoss.rescaled_one, Option.map_id']
  | cons s scales ih =>
    have hinner : (multiple s f).asSquaredLoss? = f.asSquaredLoss?.map (·.rescaled s) := rfl
    rw [under, List.foldl_cons, ← under, ih, hinner, Option.map_map, List.prod_cons]
    congr 1
    exact funext fun l => l.rescaled_rescaled scales.prod s

/-! ### Two views of one loss -/

/-- The functional is recognized as the loss and is the same functional as the loss. -/
structure Presents (f : Functional K ℝ ℝ) (l : SquaredLoss K ℝ) : Prop where
  recognized : f.asSquaredLoss? = some l
  value (x : Signal K) : (f.value x : Eval K ℝ ℝ) = (loss l).value x
  grad (x : Signal K) : (f.grad x : Eval K ℝ _) = (loss l).grad x
  prox (v : Signal K) (step : ℝ) : (f.prox v step : Eval K ℝ _) = (loss l).prox v step
  hasProx : f.hasProx = (loss l : Functional K ℝ ℝ).hasProx

theorem presents_loss (l : SquaredLoss K ℝ) : (loss l).Presents l :=
  ⟨rfl, fun _ => rfl, fun _ => rfl, fun _ _ => rfl, rfl⟩

/-- A multiple of a loss is the rescaled loss. -/
theorem Presents.multiple (h : f.Presents l) (s : ℝ) :
    (Functional.multiple s f).Presents (l.rescaled s) where
  recognized := Option.map_eq_some_iff.mpr ⟨l, h.recognized, rfl⟩
  value x := by
    show (do return s * (← f.value x) : Eval K ℝ ℝ) = _
    rw [h.value]
    exact (l.value_rescaled s x).symm
  grad x := by
    show (do return (← f.grad x).scaled (Scalar.ofReal s) : Eval K ℝ _) = _
    rw [h.grad]
    exact (l.grad_rescaled s x).symm
  prox v step := by
    show (f.prox v (s * step) : Eval K ℝ _) = _
    rw [h.prox, Functional.prox, Functional.prox, l.prox_rescaled]
  hasProx := h.hasProx

theorem Presents.under (h : f.Presents l) (scales : List ℝ) :
    (f.under scales).Presents (l.rescaled scales.prod) := by
  induction scales generalizing f l with
  | nil =>
    rw [List.prod_nil, SquaredLoss.rescaled_one]
    exact h
  | cons s scales ih =>
    have hrest := ih (h.multiple s)
    rwa [SquaredLoss.rescaled_rescaled, ← List.prod_cons] at hrest

/-- **A multiple of a loss is one loss in two views.**  Any chain of positive multiples over a
squared loss is recognized as a squared loss with the same observation, operator and factors, whose
scale is the product of all multiples and the scale of the loss.  Values, gradients and proximal
maps of both are the same computations, with the same results, errors and traces, and both or none
of them have a proximal map.  A chain over any other functional is not recognized as a loss. -/
theorem chain_presents {scales : List ℝ} (hscales : ∀ s ∈ scales, 0 < s) :
    (∀ l : SquaredLoss K ℝ, ∃ F l', (loss l).chain scales = .ok F ∧
      l' = { l with scale := scales.prod * l.scale } ∧ F.Presents l') ∧
    ∀ f : Functional K ℝ ℝ, ∃ F, f.chain scales = .ok F ∧
      F.asSquaredLoss? = f.asSquaredLoss?.map (·.rescaled scales.prod) ∧
      (f.IsOther → F.asSquaredLoss? = none) := by
  have hchain (f : Functional K ℝ ℝ) : f.chain scales = .ok (f.under scales) :=
    chain_eq_ok_iff.mpr ⟨hscales, rfl⟩
  refine ⟨fun l => ⟨_, l.rescaled scales.prod, hchain _, ?_, (presents_loss l).under scales⟩,
    fun f => ⟨_, hchain f, f.asSquaredLoss?_under scales, fun hf => ?_⟩⟩
  · rw [SquaredLoss.rescaled, mul_comm]
  · rw [asSquaredLoss?_under, hf.asSquaredLoss?_eq_none, Option.map_none]

/-- Half the squared distance of a pair to an observation. -/
def distanceLoss : SquaredLoss ℝ ℝ :=
  ⟨.ofArray #[1, 0], .leaf (.identity (.vector 2)), RealArithmetic.half, some (.ofArray #[1, 1])⟩

theorem chain_presents_distanceLoss : ∃ F l', (loss distanceLoss).chain [2, 3] = .ok F ∧
    l' = { distanceLoss with scale := [2, 3].prod * RealArithmetic.half } ∧ F.Presents l' ∧
    ∃ G, (l1 : Functional ℝ ℝ ℝ).chain [2, 3] = .ok G ∧ G.asSquaredLoss? = none := by
  have hscales : ∀ s ∈ [(2 : ℝ), 3], 0 < s :=
    List.forall_mem_cons.mpr ⟨two_pos, List.forall_mem_singleton.mpr three_pos⟩
  obtain ⟨hloss, hother⟩ := chain_presents (K := ℝ) hscales
  obtain ⟨F, l', hF, hl', hpresents⟩ := hloss distanceLoss
  obtain ⟨G, hG, -, hnone⟩ := hother l1
  exact ⟨F, l', hF, hl', hpresents, G, hG, hnone trivial⟩

end Functional

end

end OperatorSplitting
