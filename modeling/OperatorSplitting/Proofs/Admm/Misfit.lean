import Mathlib
import OperatorSplitting.Proofs.Admm.Inequalities
import OperatorSplitting.Proofs.Linear.PolarForm

/-!
# The objective of least squares

If the smooth functional is a squared loss, then the objective of the x-update is a sum of weighted
squared distances.  A loss is a coupling as well, of its operator to its observation, with twice its
scale as the weight (`SquaredLoss.coupling`), so that the objective is the `misfit` of a list of
couplings (`outcome_objective_of_loss`).

Along a line the misfit is a parabola.  Its slope is linear in the direction, and its curvature is the
polar form of the weighted operators (`misfit_combination`).  The normal equations are made of both:
the operator evaluates the polar form, and the right-hand side minus an image gives the slope
(`NormalEquations.ensures_describes`, `NormalEquations.inner_addCouplings`).
-/

namespace OperatorSplitting

open Eval LinearOperator

noncomputable section

variable {K : Type} [ExactScalar K] {names : Naming K}

/-! ### Couplings -/

namespace Coupling

variable {c : Coupling K ℝ} {x r : Signal K}

/-- The vector `C x - z + u`, where `C x` counts as zero if there is no image. -/
def gap (c : Coupling K ℝ) (x : Signal K) : Vector := c.operator.imageVec x - c.z.vec + c.u.vec

/-- The operators of some couplings with their weights. -/
def weighted (cs : List (Coupling K ℝ)) : List (LinearOperator K × ℝ) :=
  cs.map fun c => (c.operator, c.weight)

omit [ExactScalar K] in
theorem mem_weighted {cs : List (Coupling K ℝ)} (hc : c ∈ cs) :
    (c.operator, c.weight) ∈ weighted cs := List.mem_map_of_mem (f := fun c => (c.operator, c.weight)) hc

theorem isLinear_weighted {cs : List (Coupling K ℝ)}
    (hcs : ∀ c ∈ cs, c.operator.IsLinear names) : ∀ p ∈ weighted cs, p.1.IsLinear names := by
  intro p hp
  obtain ⟨c, hc, rfl⟩ := List.mem_map.mp hp
  exact hcs c hc

theorem vec_mismatch (hc : c.operator.Named names)
    (h : (c.mismatch x : Eval K ℝ _).outcome = .ok r) : r.vec = c.gap x := by
  obtain ⟨image, -, himage, -⟩ := (outcome_mismatch_eq_ok_iff hc).mp h
  rw [Solver.outcome_mismatch_eq_ok hc himage h, gap, imageVec_eq himage]

/-- The variables have the output shape of the operator. -/
structure Shaped (c : Coupling K ℝ) : Prop where
  z_shape : c.z.shape = c.operator.output
  u_shape : c.u.shape = c.operator.output

theorem Shaped.exists_mismatch (h : c.Shaped) (hc : c.operator.IsLinear names) {image : Signal K}
    (himage : (c.operator.apply x : Eval K ℝ _).outcome = .ok image) :
    ∃ r, (c.mismatch x : Eval K ℝ _).outcome = .ok r := by
  have hshape := (hc.shape_apply himage).2
  obtain ⟨d, hd, hdshape⟩ := Signal.exists_sub (hshape.trans h.z_shape.symm)
  obtain ⟨r, hr, -⟩ := Signal.exists_add ((hdshape.trans hshape).trans h.u_shape.symm)
  exact ⟨r, (outcome_mismatch_eq_ok_iff hc.named).mpr ⟨image, d, himage, hd, hr⟩⟩

/-! ### The misfit along a line -/

/-- The weighted squared gaps, halved and added. -/
def misfit (cs : List (Coupling K ℝ)) (x : Signal K) : ℝ :=
  (cs.map fun c => c.weight * ‖c.gap x‖ ^ 2 / (1 + 1)).sum

/-- The slope of the misfit at a signal in a direction. -/
def slope (cs : List (Coupling K ℝ)) (x v : Signal K) : ℝ :=
  (cs.map fun c => c.weight * inner ℝ (c.operator.imageVec v) (c.gap x)).sum

/-- The weighted inner products of the images of a signal with the points that the operators should
reach. -/
def pull (cs : List (Coupling K ℝ)) (v : Signal K) : ℝ :=
  (cs.map fun c => c.weight * inner ℝ (c.operator.imageVec v) (c.z.vec - c.u.vec)).sum

variable {cs : List (Coupling K ℝ)} {x' d v : Signal K}

/-- The slope is the polar form without the pull. -/
theorem slope_add_pull : slope cs x v + pull cs v = polar (weighted cs) v x := by
  rw [slope, pull, polar, weighted, List.map_map, ← List.sum_map_add]
  congr 1
  refine List.map_congr_left fun c _ => ?_
  rw [← mul_add, ← inner_add_right, gap, Function.comp]
  congr 2
  abel

/-- The gap moves with the image of the direction. -/
theorem gap_combination (hcs : ∀ c ∈ cs, c.operator.IsLinear names) (h : Reaches (weighted cs) x)
    (hd : d.shape = x.shape) (hx' : x'.shape = x.shape) {r : ℝ} (heq : x'.vec = x.vec + r • d.vec)
    (hc : c ∈ cs) : c.gap x' = c.gap x + r • c.operator.imageVec d := by
  have himage : c.operator.imageVec x' = c.operator.imageVec x + r • c.operator.imageVec d :=
    h.imageVec_combination (isLinear_weighted hcs) hd hx' heq (mem_weighted hc)
  rw [gap, gap, himage]
  abel

theorem slope_combination (hcs : ∀ c ∈ cs, c.operator.IsLinear names)
    (h : Reaches (weighted cs) x) (hd : d.shape = x.shape) (hx' : x'.shape = x.shape) {r : ℝ}
    (heq : x'.vec = x.vec + r • d.vec) :
    slope cs x' v = slope cs x v + r * polar (weighted cs) v d := by
  rw [slope, slope, polar, weighted, List.map_map, ← List.sum_map_mul_left, ← List.sum_map_add]
  congr 1
  refine List.map_congr_left fun c hc => ?_
  rw [gap_combination hcs h hd hx' heq hc, inner_add_right, real_inner_smul_right, Function.comp]
  ring

/-- Along a line the misfit is a parabola. -/
theorem misfit_combination (hcs : ∀ c ∈ cs, c.operator.IsLinear names)
    (h : Reaches (weighted cs) x) (hd : d.shape = x.shape) (hx' : x'.shape = x.shape) {r : ℝ}
    (heq : x'.vec = x.vec + r • d.vec) :
    misfit cs x' = misfit cs x + r * slope cs x d + r ^ 2 / 2 * polar (weighted cs) d d := by
  rw [misfit, misfit, slope, polar, weighted, List.map_map, ← List.sum_map_mul_left,
    ← List.sum_map_mul_left, ← List.sum_map_add, ← List.sum_map_add]
  congr 1
  refine List.map_congr_left fun c hc => ?_
  rw [gap_combination hcs h hd hx' heq hc, norm_add_sq_real, real_inner_smul_right, norm_smul,
    mul_pow, Real.norm_eq_abs, sq_abs, real_inner_comm, Function.comp,
    real_inner_self_eq_norm_sq]
  ring

/-- At the minimum along a line the misfit has fallen by half of what its slope promised. -/
theorem misfit_of_minimum (hcs : ∀ c ∈ cs, c.operator.IsLinear names)
    (h : Reaches (weighted cs) x) (hd : d.shape = x.shape) (hx' : x'.shape = x.shape) {r : ℝ}
    (heq : x'.vec = x.vec + r • d.vec) (hmin : r * polar (weighted cs) d d = -slope cs x d) :
    misfit cs x' = misfit cs x + r * slope cs x d / 2 := by
  calc misfit cs x'
      = misfit cs x + r * slope cs x d + r / 2 * (r * polar (weighted cs) d d) := by
        rw [misfit_combination hcs h hd hx' heq]
        ring
    _ = misfit cs x + r * slope cs x d / 2 := by
        rw [hmin]
        ring

/-! ### The objective -/

theorem outcome_addPenalties (hcs : ∀ c ∈ cs, c.operator.Named names)
    (h : ∀ c ∈ cs, ∃ r, (c.mismatch x : Eval K ℝ _).outcome = .ok r) (total : ℝ) :
    (XUpdate.addPenalties x cs total : Eval K ℝ ℝ).outcome = .ok (total + misfit cs x) := by
  induction cs generalizing total with
  | nil => exact congrArg Except.ok (add_zero total).symm
  | cons c cs ih =>
    obtain ⟨hc, hcs⟩ := List.forall_mem_cons.mp hcs
    obtain ⟨⟨r, hr⟩, h⟩ := List.forall_mem_cons.mp h
    have hterm : r.normSqr = ‖c.gap x‖ ^ 2 := by rw [Signal.normSqr_eq, vec_mismatch hc hr]
    rw [XUpdate.addPenalties, (steady_mismatch hc x).outcome_bind
      fun r _ => XUpdate.steady_addPenalties hcs x _, hr]
    show (XUpdate.addPenalties x cs _ : Eval K ℝ ℝ).outcome = _
    rw [ih hcs h, hterm, add_assoc]
    rfl

end Coupling

open Coupling

/-- The objective, if its parts can be evaluated. -/
theorem XUpdate.outcome_objective {p : XUpdate K ℝ ℝ} (hp : p.Named names) {x : Signal K} {a : ℝ}
    (ha : (p.f.value x : Eval K ℝ ℝ).outcome = .ok a)
    (h : ∀ c ∈ p.couplings, ∃ r, (c.mismatch x : Eval K ℝ _).outcome = .ok r) :
    (p.objective x).outcome = .ok (a + misfit p.couplings x) := by
  rw [XUpdate.objective, (Functional.steady_value hp.f x).outcome_bind
    fun a _ => XUpdate.steady_addPenalties hp.couplings x a, ha]
  exact outcome_addPenalties hp.couplings h a

/-- A squared loss as a coupling of its operator to its observation. -/
def SquaredLoss.coupling (l : SquaredLoss K ℝ) : Coupling K ℝ :=
  ⟨l.operator, l.scale + l.scale, l.observation, .zeros l.operator.output⟩

/-- The residual of a squared loss is the gap of its coupling. -/
theorem SquaredLoss.exists_residual {l : SquaredLoss K ℝ} (hl : l.IsLinear names)
    {x image : Signal K} (himage : (l.operator.apply x : Eval K ℝ _).outcome = .ok image) :
    ∃ r, (l.residual x : Eval K ℝ _).outcome = .ok r ∧ r.vec = l.coupling.gap x := by
  have hshape := (hl.operator.shape_apply himage).2
  obtain ⟨r, hr, -⟩ := Signal.exists_sub (hshape.trans hl.observation.symm)
  refine ⟨r, (outcome_residual_eq_ok_iff hl.operator.named).mpr ⟨image, himage, hr⟩, ?_⟩
  show r.vec = l.operator.imageVec x - l.observation.vec + (Signal.zeros l.operator.output : Signal K).vec
  rw [Signal.vec_zeros, add_zero, imageVec_eq himage, Signal.vec_sub hr]

/-- A fidelity term that is recognized as a squared loss has its values. -/
theorem Functional.IsFidelity.asSquaredLoss? {f : Functional K ℝ ℝ} (hf : f.IsFidelity names)
    {l : SquaredLoss K ℝ} (hl : f.asSquaredLoss? = some l) :
    l.IsLinear names ∧ ∀ x r, (l.residual x : Eval K ℝ _).outcome = .ok r →
      (f.value x : Eval K ℝ ℝ).outcome = .ok (l.scale * r.normSqr) := by
  induction f generalizing l with
  | loss l' =>
    cases hl
    refine ⟨hf, fun x r hr => ?_⟩
    show (l'.value x : Eval K ℝ ℝ).outcome = _
    rw [SquaredLoss.outcome_value hf.operator.named, hr]
    rfl
  | multiple s f ih =>
    obtain ⟨hs, hf⟩ := hf
    obtain ⟨l', hl', rfl⟩ := Option.map_eq_some_iff.mp hl
    obtain ⟨hlinear, hvalue⟩ := ih hf hl'
    refine ⟨⟨hlinear.operator, hlinear.observation, mul_pos hlinear.scale hs⟩, fun x r hr => ?_⟩
    rw [outcome_value_multiple hf.named, hvalue x r hr]
    show Except.ok (s * (l'.scale * r.normSqr)) = Except.ok (l'.scale * s * r.normSqr)
    rw [← mul_assoc, mul_comm s]
  | external e => exact absurd hf id
  | _ => cases hl

/-- With a squared loss the objective is the misfit of the loss and the couplings. -/
theorem outcome_objective_of_loss {p : XUpdate K ℝ ℝ} (hf : p.f.IsFidelity names)
    (hcs : ∀ c ∈ p.couplings, c.operator.IsLinear names) {l : SquaredLoss K ℝ}
    (hl : p.f.asSquaredLoss? = some l) {x : Signal K}
    (h : Reaches (weighted (l.coupling :: p.couplings)) x)
    (hshaped : ∀ c ∈ p.couplings, c.Shaped) :
    (p.objective x).outcome = .ok (misfit (l.coupling :: p.couplings) x) := by
  obtain ⟨hlinear, hvalue⟩ := hf.asSquaredLoss? hl
  obtain ⟨hfirst, hrest⟩ := List.forall_mem_cons.mp h
  obtain ⟨image, -, himage, -⟩ := hfirst
  obtain ⟨r, hr, hgap⟩ := SquaredLoss.exists_residual hlinear himage
  have hmismatch : ∀ c ∈ p.couplings, ∃ r, (c.mismatch x : Eval K ℝ _).outcome = .ok r := by
    intro c hc
    obtain ⟨u, -, hu, -⟩ := hrest _ (mem_weighted hc)
    exact (hshaped c hc).exists_mismatch (hcs c hc) hu
  have hnamed : p.Named names := ⟨hf.named, fun c hc => (hcs c hc).named⟩
  have hloss : l.scale * r.normSqr = l.coupling.weight * ‖l.coupling.gap x‖ ^ 2 / (1 + 1) := by
    rw [← hgap, Signal.normSqr_eq]
    show l.scale * ‖r.vec‖ ^ 2 = (l.scale + l.scale) * ‖r.vec‖ ^ 2 / (1 + 1)
    ring
  rw [XUpdate.outcome_objective hnamed (hvalue x r hr) hmismatch, hloss]
  rfl

/-! ### The normal equations -/

namespace NormalEquations

/-- Adding Gram operators adds polar forms. -/
theorem isPolar_addGrams {operators rest : List (LinearOperator K × ℝ)} {lhs lhs' : LinearOperator K}
    (hlhs : lhs.IsPolar names operators) (hrest : ∀ p ∈ rest, p.1.IsLinear names)
    (h : addGrams rest lhs = .ok lhs') : lhs'.IsPolar names (operators ++ rest) := by
  induction rest generalizing operators lhs with
  | nil =>
    cases h
    rwa [List.append_nil]
  | cons p rest ih =>
    obtain ⟨hp, hrest⟩ := List.forall_mem_cons.mp hrest
    obtain ⟨sum, hsum, h⟩ := Except.bind_eq_ok_iff.mp h
    obtain ⟨hinput, -, rfl⟩ := LinearOperator.add_eq_ok_iff.mp hsum
    have hpolar := ih (hlhs.sum (.gram hp p.2) hinput) hrest h
    rwa [List.append_assoc] at hpolar

/-- The equations of a loss and couplings: the operator evaluates their polar form, and the part of
the right-hand side that stays is the weighted pull of the loss. -/
structure Describes (names : Naming K) (l : SquaredLoss K ℝ) (cs : List (Coupling K ℝ))
    (n : NormalEquations K) : Prop where
  lhs : n.lhs.IsPolar names (weighted (l.coupling :: cs))
  rhs : ∃ pulled, (l.operator.adjoint l.observation : Eval K ℝ _).outcome = .ok pulled ∧
    n.rhsBase = pulled.scaled (Scalar.ofReal (l.scale + l.scale))

variable {l : SquaredLoss K ℝ} {cs : List (Coupling K ℝ)}

theorem ensures_describes (hl : l.IsLinear names) (hcs : ∀ c ∈ cs, c.operator.IsLinear names) :
    Ensures (Trace.Faithful names) (ofLoss l (weighted cs) : Eval K ℝ _) (Describes names l cs) := by
  refine (Ensures.liftExcept _).bind fun lhs hlhs =>
    (LinearOperator.steady_adjoint hl.operator.named _).ensures.bind fun pulled hpulled =>
      (Steady.report _).ensures.bind fun _ _ => .pure ⟨?_, pulled, hpulled, rfl⟩
  exact isPolar_addGrams (.gram hl.operator _) (isLinear_weighted hcs) hlhs

theorem addCouplings_cons_eq_ok_iff {c : Coupling K ℝ} (hc : c.operator.Named names)
    (hcs : ∀ c ∈ cs, c.operator.Named names) {rhs rhs' : Signal K} :
    (addCouplings (c :: cs) rhs : Eval K ℝ _).outcome = .ok rhs' ↔
      ∃ target back next, c.z.sub c.u = .ok target ∧
        (c.operator.adjoint target : Eval K ℝ _).outcome = .ok back ∧
        rhs.addScaled (Scalar.ofReal c.weight) back = .ok next ∧
        (addCouplings cs next : Eval K ℝ _).outcome = .ok rhs' := by
  have hrest (back : Signal K) : Steady names (do
      let rhs ← rhs.addScaled (Scalar.ofReal c.weight) back
      addCouplings cs rhs : Eval K ℝ _) :=
    (Steady.liftExcept _).bind fun next _ => steady_addCouplings hcs next
  rw [addCouplings, outcome_liftExcept_bind, Except.bind_eq_ok_iff]
  refine exists_congr fun target => ?_
  rw [(LinearOperator.steady_adjoint hc target).outcome_bind_eq_ok_iff fun back _ => hrest back]
  simp only [outcome_liftExcept_bind, Except.bind_eq_ok_iff, exists_and_left]

/-- The couplings add their pulls to the right-hand side, which takes variables of the output
shapes. -/
theorem inner_addCouplings (hcs : ∀ c ∈ cs, c.operator.IsLinear names) {rhs rhs' : Signal K}
    (h : (addCouplings cs rhs : Eval K ℝ _).outcome = .ok rhs') :
    (∀ c ∈ cs, c.Shaped) ∧ ∀ v, Reaches (weighted cs) v →
      inner ℝ v.vec rhs'.vec = inner ℝ v.vec rhs.vec + pull cs v := by
  induction cs generalizing rhs with
  | nil =>
    cases h
    exact ⟨List.forall_mem_nil _, fun v _ => (add_zero _).symm⟩
  | cons c cs ih =>
    obtain ⟨hc, hcs⟩ := List.forall_mem_cons.mp hcs
    obtain ⟨target, back, next, htarget, hback, hnext, hrest⟩ :=
      (addCouplings_cons_eq_ok_iff hc.named fun c hc => (hcs c hc).named).mp h
    obtain ⟨hshaped, hinner⟩ := ih hcs hrest
    obtain ⟨hzu, htshape, -⟩ := Signal.zipMap_spec htarget
    have hz := htshape.symm.trans (hc.shape_adjoint hback).1
    refine ⟨List.forall_mem_cons.mpr ⟨⟨hz, hzu.symm.trans hz⟩, hshaped⟩, fun v hv => ?_⟩
    obtain ⟨⟨image, -, himage, -⟩, hv⟩ := List.forall_mem_cons.mp hv
    have hmove : inner ℝ v.vec back.vec = inner ℝ (c.operator.imageVec v) (c.z.vec - c.u.vec) := by
      rw [imageVec_eq himage, ← Signal.vec_sub htarget, real_inner_comm,
        ← hc.inner_adjoint himage hback, real_inner_comm]
    have hpull : pull (c :: cs) v =
        c.weight * inner ℝ (c.operator.imageVec v) (c.z.vec - c.u.vec) + pull cs v := List.sum_cons
    rw [hinner v hv, Signal.vec_addScaled hnext, inner_add_right, real_inner_smul_right, hmove,
      hpull, add_assoc]

/-- The right-hand side for the current variables gives the pull of the loss and all couplings. -/
theorem Describes.inner_rhs {n : NormalEquations K} (h : n.Describes names l cs)
    (hl : l.IsLinear names) (hcs : ∀ c ∈ cs, c.operator.IsLinear names) {rhs : Signal K}
    (hrhs : (addCouplings cs n.rhsBase : Eval K ℝ _).outcome = .ok rhs) :
    (∀ c ∈ cs, c.Shaped) ∧ ∀ v, Reaches (weighted (l.coupling :: cs)) v →
      inner ℝ v.vec rhs.vec = pull (l.coupling :: cs) v := by
  obtain ⟨pulled, hpulled, hbase⟩ := h.rhs
  obtain ⟨hshaped, hinner⟩ := inner_addCouplings hcs hrhs
  refine ⟨hshaped, fun v hv => ?_⟩
  obtain ⟨⟨image, -, himage, -⟩, hrest⟩ := List.forall_mem_cons.mp hv
  have himage : (l.operator.apply v : Eval K ℝ _).outcome = .ok image := himage
  have hpull : pull (l.coupling :: cs) v = (l.scale + l.scale) *
      inner ℝ (l.operator.imageVec v)
        (l.observation.vec - (Signal.zeros l.operator.output : Signal K).vec) + pull cs v :=
    List.sum_cons
  rw [hinner v hrest, hbase, hpull, Signal.vec_zeros, sub_zero, Signal.vec_scaled,
    real_inner_smul_right, imageVec_eq himage, real_inner_comm, ← hl.operator.inner_adjoint himage hpulled,
    real_inner_comm]

end NormalEquations

end

end OperatorSplitting
