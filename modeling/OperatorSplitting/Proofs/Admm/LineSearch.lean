import Mathlib
import OperatorSplitting.Proofs.Admm.Expansion

/-!
# Line searches do not starve

Gradient descent carries its step size from one solve to the next.  A line search halves it until
the objective falls far enough, and an accepted step doubles it.  Suppose that beyond its linear
part the objective changes by at most `L / 2` times the squared length of a step.  Then every step
size up to `1 / L` is accepted (`XUpdate.IsSmooth.exists_accepted`), so that a line search which
halves at all stops above `1 / (2 L)` (`Descent.search_spec`).  The carried step size therefore
never falls below the smaller of `1` and `1 / L`, whatever is solved, wherever a solve fails, and
also where a line search gives up: that leaves the carried step size as it was.
-/

namespace OperatorSplitting

open Eval LinearOperator

noncomputable section

variable {K : Type} [ExactScalar K] {names : Naming K} {L : ℝ}

/-! ### Smooth objectives -/

namespace XUpdate

/-- Where there is a gradient, the objective has values at `x` and at every `x + h`, and beyond the
linear part it grows by at most `L / 2` times the squared norm of `h`. -/
structure IsSmooth (names : Naming K) (L : ℝ) (p : XUpdate K ℝ ℝ) : Prop where
  named : p.Named names
  remainder_le : ∀ {x h w g : Signal K}, (p.gradient x).outcome = .ok g → x.add h = .ok w →
    ∃ a b d, (p.objective x).outcome = .ok a ∧ (p.objective w).outcome = .ok b ∧
      g.vdot h = .ok d ∧ b - a - Scalar.re d ≤ L / 2 * h.normSqr

variable {p : XUpdate K ℝ ℝ} {x g : Signal K}

/-- A quadratic objective is smooth if its curvature is bounded. -/
theorem IsQuadratic.isSmooth (hp : p.IsQuadratic names)
    (hL : ∀ h, p.curvature h ≤ L / 2 * h.normSqr) : p.IsSmooth names L where
  named := hp.named
  remainder_le {x h w g} hg hw := by
    obtain ⟨hshape, a, b, ha, hb, hab⟩ := hp.value_add hw hg
    obtain ⟨d, hd, hval⟩ := Signal.vdot_eq_ok (hshape.trans (Signal.shape_eq_of_zipMap hw))
    refine ⟨a, b, d, ha, hb, hd, ?_⟩
    rw [ExactScalar.re_eq, hval, ← Signal.inner_vec, hab]
    linarith [hL h]

namespace IsSmooth

/-- The objective has a value where it has a gradient, which has the shape of the signal. -/
theorem exists_objective (hp : p.IsSmooth names L) (hg : (p.gradient x).outcome = .ok g) :
    g.shape = x.shape ∧ ∃ a, (p.objective x).outcome = .ok a := by
  obtain ⟨w, hw, -⟩ := Signal.exists_add (rfl : x.shape = x.shape)
  obtain ⟨a, -, d, ha, -, hd, -⟩ := hp.remainder_le hg hw
  refine ⟨?_, a, ha⟩
  by_contra hne
  rw [Signal.vdot, if_neg hne] at hd
  cases hd

/-- A step against the gradient has a value that is bounded by the value at its start. -/
theorem exists_candidate (hp : p.IsSmooth names L) (hg : (p.gradient x).outcome = .ok g) {a : ℝ}
    (ha : (p.objective x).outcome = .ok a) (s : ℝ) :
    ∃ y b, x.addScaled (-(Scalar.ofReal s : K)) g = .ok y ∧ (p.objective y).outcome = .ok b ∧
      b ≤ a - s * g.normSqr + L / 2 * s ^ 2 * g.normSqr := by
  obtain ⟨hshape, -⟩ := hp.exists_objective hg
  obtain ⟨y, hy, hyshape⟩ := Signal.exists_addScaled (-(Scalar.ofReal s : K)) hshape.symm
  obtain ⟨w, hw, hwshape⟩ :=
    Signal.exists_add (hshape.symm.trans (Signal.shape_scaled g (Scalar.ofReal (-s))).symm)
  have hsame : w = y := by
    apply Signal.vec_injective (hwshape.trans hyshape.symm)
    rw [Signal.vec_add hw, Signal.vec_scaled, Signal.vec_addScaled_neg hy]
  subst hsame
  obtain ⟨a', b, d, ha', hb, hd, hle⟩ := hp.remainder_le hg hw
  cases ha.symm.trans ha'
  obtain ⟨d', hd', hval⟩ :=
    Signal.vdot_eq_ok (Signal.shape_scaled g (Scalar.ofReal (-s) : K)).symm
  cases hd.symm.trans hd'
  have hslope : Scalar.re d = -s * g.normSqr := by
    rw [ExactScalar.re_eq, hval, ← Signal.inner_vec, Signal.vec_scaled, real_inner_smul_right,
      real_inner_self_eq_norm_sq, Signal.normSqr_eq]
  have hlength : (g.scaled (Scalar.ofReal (-s) : K)).normSqr = s ^ 2 * g.normSqr := by
    rw [Signal.normSqr_eq, Signal.normSqr_eq, Signal.vec_scaled, norm_smul, mul_pow,
      Real.norm_eq_abs, sq_abs, neg_sq]
  refine ⟨w, b, hy, hb, ?_⟩
  rw [hslope, hlength] at hle
  linarith

/-- Every step size up to `1 / L` leads to a value that is low enough. -/
theorem exists_accepted (hp : p.IsSmooth names L) (hg : (p.gradient x).outcome = .ok g) {a s : ℝ}
    (ha : (p.objective x).outcome = .ok a) (hs : 0 ≤ s) (hsL : s * L ≤ 1) :
    ∃ y b, x.addScaled (-(Scalar.ofReal s : K)) g = .ok y ∧ (p.objective y).outcome = .ok b ∧
      b ≤ a - 1 / 2 * s * g.normSqr := by
  obtain ⟨y, b, hy, hb, hle⟩ := hp.exists_candidate hg ha s
  refine ⟨y, b, hy, hb, hle.trans ?_⟩
  have hsqr : 0 ≤ g.normSqr := Signal.normSqr_eq g ▸ sq_nonneg _
  have hbend : 0 ≤ s * g.normSqr * (1 - s * L) :=
    mul_nonneg (mul_nonneg hs hsqr) (sub_nonneg.mpr hsL)
  linarith

end IsSmooth

end XUpdate

/-! ### One line search -/

namespace Descent

variable {p : XUpdate K ℝ ℝ} {x g : Signal K}

/-- The first candidate is accepted, or the search goes on with half the step size. -/
theorem outcome_search_succ (hp : p.Named names) {y : Signal K} {b t : ℝ}
    (hy : x.addScaled (-(Scalar.ofReal t : K)) g = .ok y) (hb : (p.objective y).outcome = .ok b)
    (phi gradientSqr : ℝ) (tries : ℕ) :
    (search p x g phi gradientSqr (tries + 1) t).outcome =
      if b ≤ phi - 1 / 2 * t * gradientSqr then .ok (some (y, t))
      else (search p x g phi gradientSqr tries (t / 2)).outcome := by
  have hrest (value : ℝ) : Steady names
      (if RealArithmetic.le value (phi - RealArithmetic.half * t * gradientSqr) then
        return some (y, t)
      else search p x g phi gradientSqr tries (t * RealArithmetic.half) : Eval K ℝ _) :=
    Steady.ite (.pure _) (steady_search hp _ _ _ _ _ _)
  rw [search, outcome_liftExcept_bind, hy]
  show ((p.objective y >>= fun value => _ : Eval K ℝ _)).outcome = _
  rw [(XUpdate.steady_objective hp y).outcome_bind fun value _ => hrest value, hb]
  have haccept : RealArithmetic.le b (phi - RealArithmetic.half * t * gradientSqr) = true ↔
      b ≤ phi - 1 / 2 * t * gradientSqr := by
    rw [RealArithmetic.half_eq]
    exact decide_eq_true_iff
  have hhalf : t * RealArithmetic.half = t / 2 := by
    rw [RealArithmetic.half_eq]
    ring
  show (if RealArithmetic.le b _ = true then _ else _ : Eval K ℝ _).outcome = _
  by_cases hle : b ≤ phi - 1 / 2 * t * gradientSqr
  · rw [if_pos (haccept.mpr hle), if_pos hle]
    rfl
  · rw [if_neg (mt haccept.mp hle), if_neg hle, hhalf]

/-- The candidate of a step size passes the test of the line search: its value is below `phi` by half
of what the step size and the gradient promise. -/
def IsDecrease (p : XUpdate K ℝ ℝ) (g : Signal K) (phi : ℝ) (q : Signal K × ℝ) : Prop :=
  ∃ value, (p.objective q.1).outcome = .ok value ∧ value ≤ phi - RealArithmetic.half * q.2 * g.normSqr

/-- What a line search of some tries finds from a step size: nothing, if all step sizes that it
tries are above `1 / L`, or else a candidate that passes the test, at a step size that is not below
`1 / (2 L)` unless it is the first. -/
theorem search_spec (hL : 0 < L) (hp : p.IsSmooth names L) (hg : (p.gradient x).outcome = .ok g)
    {phi : ℝ} (hphi : (p.objective x).outcome = .ok phi) (tries : ℕ) {t : ℝ} (ht : 0 < t) :
    ∃ found, (search p x g phi g.normSqr tries t).outcome = .ok found ∧
      (found = none → ∀ k < tries, 2 ^ k < t * L) ∧
      ∀ q ∈ found, ∃ k < tries, q.2 = t / 2 ^ k ∧
        x.addScaled (-(Scalar.ofReal q.2 : K)) g = .ok q.1 ∧ IsDecrease p g phi q ∧
        min t (1 / (2 * L)) ≤ q.2 := by
  induction tries generalizing t with
  | zero => exact ⟨none, rfl, fun _ k hk => absurd hk k.not_lt_zero, nofun⟩
  | succ tries ih =>
    obtain ⟨y, b, hy, hb, -⟩ := hp.exists_candidate hg hphi t
    have hstep := outcome_search_succ hp.named hy hb phi g.normSqr tries
    by_cases hle : b ≤ phi - 1 / 2 * t * g.normSqr
    · rw [if_pos hle] at hstep
      refine ⟨some (y, t), hstep, nofun, fun q hq => ?_⟩
      cases hq
      exact ⟨0, tries.succ_pos, by simp, hy, ⟨b, hb, RealArithmetic.half_eq.symm ▸ hle⟩,
        min_le_left _ _⟩
    · rw [if_neg hle] at hstep
      -- A rejected step size is above `1 / L`, so that half of it is above `1 / (2 L)`.
      have hlarge : 1 < t * L := by
        by_contra hsmall
        obtain ⟨y', b', hy', hb', hlow⟩ :=
          hp.exists_accepted hg hphi ht.le (not_lt.mp hsmall)
        cases hy.symm.trans hy'
        cases hb.symm.trans hb'
        exact hle hlow
      obtain ⟨found, hfound, hnone, hsome⟩ := ih (half_pos ht)
      refine ⟨found, hstep.trans hfound, fun h k hk => ?_, fun q hq => ?_⟩
      · cases k with
        | zero => simpa using hlarge
        | succ k =>
          have hk' := hnone h k (Nat.lt_of_succ_lt_succ hk)
          rw [pow_succ]
          linarith
      · obtain ⟨k, hk, hsize, hcandidate, hdecrease, hmin⟩ := hsome q hq
        have hhalf : 1 / (2 * L) ≤ t / 2 := by
          rw [div_le_div_iff₀ (by positivity) two_pos]
          linarith
        refine ⟨k + 1, Nat.succ_lt_succ hk, ?_, hcandidate, hdecrease, ?_⟩
        · rw [hsize, pow_succ]
          field_simp
        · rw [min_eq_right hhalf] at hmin
          exact (min_le_right _ _).trans hmin

/-! ### Gradient steps -/

/-- A step ends where the gradient vanishes, and is its line search elsewhere. -/
theorem outcome_step_eq_ok_iff (hp : p.Named names) {t : ℝ} {found : Option (Signal K × ℝ)} :
    (step p x t).outcome = .ok found ↔ ∃ g, (p.gradient x).outcome = .ok g ∧
      (g.normSqr = (0 : ℝ) ∧ found = none ∨ g.normSqr ≠ (0 : ℝ) ∧
        ∃ phi, (p.objective x).outcome = .ok phi ∧
          (search p x g phi g.normSqr maxTries t).outcome = .ok found) := by
  have hreport (found : Option (Signal K × ℝ)) : Steady names (do
      if found.isNone then report .searchStalled
      return found : Eval K ℝ _) :=
    Steady.ite ((Steady.report _).bind fun _ _ => .pure _) (.pure _)
  have hreported (found : Option (Signal K × ℝ)) : (do
      if found.isNone then report .searchStalled
      return found : Eval K ℝ _).outcome = .ok found := by
    cases found <;> rfl
  have hsearch (g : Signal K) (phi : ℝ) : Steady names (do
      let found ← search p x g phi g.normSqr maxTries t
      if found.isNone then report .searchStalled
      return found : Eval K ℝ _) :=
    (steady_search hp x g phi _ _ t).bind fun found _ => hreport found
  have hvalue (g : Signal K) : Steady names (do
      let phi ← p.objective x
      let found ← search p x g phi g.normSqr maxTries t
      if found.isNone then report .searchStalled
      return found : Eval K ℝ _) :=
    (XUpdate.steady_objective hp x).bind fun phi _ => hsearch g phi
  have hzero (g : Signal K) : RealArithmetic.beq (g.normSqr : ℝ) 0 = true ↔ g.normSqr = (0 : ℝ) :=
    decide_eq_true_iff
  rw [step, (XUpdate.steady_gradient hp x).outcome_bind_eq_ok_iff
    fun g _ => Steady.ite (.pure _) (hvalue g)]
  refine exists_congr fun g => and_congr_right fun _ => ?_
  by_cases hg : g.normSqr = (0 : ℝ)
  · rw [if_pos ((hzero g).mpr hg), outcome_pure, Except.ok.injEq]
    simp only [hg, true_and, ne_eq, not_true_eq_false, false_and, or_false]
    exact eq_comm
  · rw [if_neg (mt (hzero g).mp hg),
      (XUpdate.steady_objective hp x).outcome_bind_eq_ok_iff fun phi _ => hsearch g phi]
    simp only [hg, false_and, ne_eq, not_false_eq_true, true_and, false_or]
    refine exists_congr fun phi => and_congr_right fun _ => ?_
    rw [(steady_search hp x g phi _ _ t).outcome_bind_eq_ok_iff fun found _ => hreport found]
    simp only [hreported, Except.ok.injEq, exists_eq_right]

/-- An accepted step size is the one at which the line search began, or at least `1 / (2 L)`. -/
theorem le_of_step (hL : 0 < L) (hp : p.IsSmooth names L) {t : ℝ} (ht : 0 < t)
    {q : Signal K × ℝ} (hq : (step p x t).outcome = .ok (some q)) : min t (1 / (2 * L)) ≤ q.2 := by
  obtain ⟨g, hg, ⟨-, hnone⟩ | ⟨-, phi, hphi, hsearch⟩⟩ := (outcome_step_eq_ok_iff hp.named).mp hq
  · cases hnone
  · obtain ⟨found, hfound, -, hspec⟩ := search_spec hL hp hg hphi maxTries ht
    cases hsearch.symm.trans hfound
    obtain ⟨k, -, -, -, -, hmin⟩ := hspec q rfl
    exact hmin

/-- Twice an accepted step size is large enough again. -/
theorem le_add_self_of_min_le {t s : ℝ} (ht : min 1 (1 / L) ≤ t) (hpos : 0 < min 1 (1 / L))
    (hs : min t (1 / (2 * L)) ≤ s) : min 1 (1 / L) ≤ s + s := by
  rcases min_le_iff.mp hs with hts | hLs
  · linarith
  · have hsum : 1 / (2 * L) + 1 / (2 * L) = 1 / L := by
      ring
    linarith [min_le_right 1 (1 / L)]

/-- The step size after all steps of a solve. -/
theorem le_stepSize_of_run (hL : 0 < L) (hp : p.IsSmooth names L) (steps : ℕ) {x : Signal K}
    {stepSize : ℝ} (hsize : min 1 (1 / L) ≤ stepSize) {t : Trace K ℝ} (ht : t.Faithful names) :
    min 1 (1 / L) ≤ (run p steps x stepSize t).1.2 := by
  have hpos : 0 < min 1 (1 / L) := lt_min one_pos (one_div_pos.mpr hL)
  induction steps generalizing x stepSize t with
  | zero => exact hsize
  | succ steps ih =>
    obtain ⟨houtcome, hkeep⟩ := steady_step hp.named x stepSize t ht
    rw [run_succ]
    rcases hrun : (step p x stepSize).run t with ⟨r, t'⟩
    rw [hrun] at houtcome hkeep
    rcases r with e | (_ | ⟨next, size⟩)
    · exact hsize
    · exact hsize
    · have hmin := le_of_step hL hp (hpos.trans_le hsize) houtcome.symm
      exact ih (le_add_self_of_min_le hsize hpos hmin) hkeep

/-! ### Sequences of solves -/

/-- What gradient descent with some steps becomes over a sequence of solves of smooth x-updates from
any signals, whatever happened before each of them. -/
inductive Carried (names : Naming K) (L : ℝ) (steps : ℕ) : Strategy K ℝ ℝ → Prop
  | start : Carried names L steps (.ofSteps steps)
  | solve {s : Strategy K ℝ ℝ} {p : XUpdate K ℝ ℝ} {x : Signal K} {t : Trace K ℝ} :
      Carried names L steps s → p.IsSmooth names L → t.Faithful names →
      Carried names L steps (s.solve p x t).1.2

/-- **Line searches do not starve.**  Over any sequence of solves the carried step size stays at
least the smaller of `1` and `1 / L`, also when solves fail or line searches give up.  And a line
search from any step size up to `2 ^ 59 / L` accepts one of its sixty candidates, which passes the
test of decrease, at a step size that is the first one or at least `1 / (2 L)`. -/
theorem carried_search_accepts (hL : 0 < L) :
    (∀ steps (s : Strategy K ℝ ℝ), Carried names L steps s →
      ∃ stepSize, s = .descent steps stepSize ∧ min 1 (1 / L) ≤ stepSize) ∧
    ∀ p : XUpdate K ℝ ℝ, p.IsSmooth names L → ∀ (x g : Signal K) (stepSize : ℝ) (t : Trace K ℝ),
      t.Faithful names → (p.gradient x).outcome = .ok g → g.normSqr ≠ (0 : ℝ) → 0 < stepSize →
      stepSize * L ≤ 2 ^ 59 → ∃ k < 60, ∃ next size t',
        (step p x stepSize).run t = (.ok (some (next, size)), t') ∧ size = stepSize / 2 ^ k ∧
          x.addScaled (-(Scalar.ofReal size : K)) g = .ok next ∧
          (∃ phi value, (p.objective x).outcome = .ok phi ∧ (p.objective next).outcome = .ok value ∧
            value ≤ phi - 1 / 2 * size * g.normSqr) ∧
          min stepSize (1 / (2 * L)) ≤ size := by
  refine ⟨fun steps s hs => ?_, fun p hp x g stepSize t ht hg hne hpos hlarge => ?_⟩
  · induction hs with
    | start => exact ⟨1, rfl, min_le_left _ _⟩
    | @solve s p x t _ hp ht ih =>
      obtain ⟨stepSize, rfl, hsize⟩ := ih
      exact ⟨_, rfl, le_stepSize_of_run hL hp steps hsize ht⟩
  · obtain ⟨-, phi, hphi⟩ := hp.exists_objective hg
    obtain ⟨found, hfound, hnone, hsome⟩ := search_spec hL hp hg hphi maxTries hpos
    -- The last of the sixty step sizes is at most `1 / L`.
    have hne_none : found ≠ none := fun h => absurd (hnone h 59 (by decide)) (not_lt.mpr hlarge)
    obtain ⟨⟨next, size⟩, rfl⟩ := Option.ne_none_iff_exists'.mp hne_none
    obtain ⟨k, hk, hsize, hnext, ⟨value, hvalue, hle⟩, hmin⟩ := hsome (next, size) rfl
    rw [RealArithmetic.half_eq] at hle
    have houtcome := (outcome_step_eq_ok_iff hp.named).mpr ⟨g, hg, .inr ⟨hne, phi, hphi, hfound⟩⟩
    have hrun := (steady_step hp.named x stepSize t ht).1.trans houtcome
    exact ⟨k, hk, next, size, _, Prod.ext hrun rfl, hsize, hnext, ⟨phi, value, hphi, hvalue, hle⟩,
      hmin⟩

/-- Twice the squared norm, and a coupling of weight two that keeps its signal near zero. -/
def steepUpdate : XUpdate ℝ ℝ ℝ where
  f := .multiple RealArithmetic.two .squaredL2
  couplings := [⟨.leaf (.identity (.vector 1)), RealArithmetic.two, .single 0, .single 0⟩]

theorem isSmooth_steepUpdate : steepUpdate.IsSmooth anyNaming 6 := by
  have hquadratic : steepUpdate.IsQuadratic anyNaming := {
    fidelity := ⟨RealArithmetic.two_pos, trivial⟩
    linear := List.forall_mem_singleton.mpr (IsPlain.identity _).isLinear
    shaped := List.forall_mem_singleton.mpr ⟨rfl, rfl⟩
    weight_pos := List.forall_mem_singleton.mpr RealArithmetic.two_pos }
  refine hquadratic.isSmooth fun h => ?_
  have himage : ‖(leaf (.identity (.vector 1)) : LinearOperator ℝ).imageVec h‖ ≤ ‖h.vec‖ := by
    unfold imageVec
    split
    · next u hu =>
        obtain ⟨-, hu⟩ := outcome_apply_eq_ok_iff.mp hu
        cases hu
        exact le_rfl
    · simp
  have hcurvature : steepUpdate.curvature h =
      RealArithmetic.two * ‖h.vec‖ ^ 2 + (RealArithmetic.two / 2 *
        ‖(leaf (.identity (.vector 1)) : LinearOperator ℝ).imageVec h‖ ^ 2 + 0) :=
    XUpdate.curvature_eq_sum steepUpdate h
  have hsquare := pow_le_pow_left₀ (norm_nonneg _) himage 2
  rw [hcurvature, Signal.normSqr_eq, RealArithmetic.two_eq]
  linarith

theorem gradient_steepUpdate :
    (steepUpdate.gradient (.single 1)).outcome = .ok (.single 6) := by
  have hnamed : (leaf (.identity (.vector 1)) : LinearOperator ℝ).Named anyNaming := trivial
  have hmismatch : (Coupling.mismatch ⟨.leaf (.identity (.vector 1)), (RealArithmetic.two : ℝ),
      .single 0, .single 0⟩ (.single 1) : Eval ℝ ℝ _).outcome = .ok (.single 1) := by
    refine (Coupling.outcome_mismatch_eq_ok_iff hnamed).mpr ⟨.single 1, .single 1, rfl, ?_, ?_⟩
    · rw [Signal.sub, Signal.zipMap_single, sub_zero]
    · rw [Signal.add, Signal.zipMap_single, add_zero]
  refine (XUpdate.outcome_gradient_eq_ok_iff isSmooth_steepUpdate.named).mpr ⟨.single 4, ?_, ?_⟩
  · have hscaled : ((Signal.single 1).scaled (Scalar.ofReal (RealArithmetic.two : ℝ) : ℝ)).scaled
        (Scalar.ofReal (RealArithmetic.two : ℝ)) = .single 4 := by
      rw [Signal.scaled, Signal.scaled, Signal.map_single, Signal.map_single]
      congr 1
      rw [RealArithmetic.two_eq]
      show (1 : ℝ) * 2 * 2 = 4
      norm_num
    exact congrArg Except.ok hscaled
  · refine (XUpdate.addGradients_cons_eq_ok_iff hnamed (List.forall_mem_nil _)).mpr
      ⟨.single 1, .single 1, .single 6, hmismatch, rfl, ?_, rfl⟩
    rw [Signal.addScaled, Signal.zipMap_single]
    congr 2
    rw [RealArithmetic.two_eq]
    show (4 : ℝ) + 2 * 1 = 6
    norm_num

theorem carried_search_accepts_steepUpdate :
    steepUpdate.IsSmooth anyNaming 6 ∧
    (∃ stepSize, ((Strategy.ofSteps 3).solve steepUpdate (.single 1) .empty).1.2 =
      .descent 3 stepSize ∧ min 1 (1 / 6) ≤ stepSize) ∧
    ∃ k < 60, ∃ next size t', (step steepUpdate (.single 1) 1).run .empty =
      (.ok (some (next, size)), t') ∧ size = 1 / 2 ^ k ∧
        (Signal.single 1).addScaled (-(Scalar.ofReal size : ℝ)) (.single 6) = .ok next ∧
        (∃ phi value, (steepUpdate.objective (.single 1)).outcome = .ok phi ∧
          (steepUpdate.objective next).outcome = .ok value ∧
          value ≤ phi - 1 / 2 * size * (Signal.single (6 : ℝ)).normSqr) ∧
        min 1 (1 / (2 * 6)) ≤ size := by
  have hempty : (Trace.empty : Trace ℝ ℝ).Faithful anyNaming := Trace.faithful_empty _
  have hsix : (0 : ℝ) < 6 := by norm_num
  refine ⟨isSmooth_steepUpdate, ?_, ?_⟩
  · exact (carried_search_accepts hsix).1 3 _ (.solve .start isSmooth_steepUpdate hempty)
  · refine (carried_search_accepts hsix).2 steepUpdate isSmooth_steepUpdate _ _ 1 .empty hempty
      gradient_steepUpdate ?_ one_pos (by norm_num)
    rw [Signal.normSqr_single]
    norm_num

end Descent

end

end OperatorSplitting
