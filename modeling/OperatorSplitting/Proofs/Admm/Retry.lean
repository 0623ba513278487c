import Mathlib
import OperatorSplitting.Proofs.Admm.Lifecycle

/-!
# Retrying a failed step

A step that fails leaves the variables, the iteration number and the history as they were, but the
x-update has run by then, and what its strategy carries to the next solve is kept.  Conjugate gradients
carry nothing: when they solve the x-update, a failed step fails again, with the same error.  Gradient
descent carries the step size at which its next line search starts.  Every gradient step that was
accepted before the failure has doubled it, so that a retry may take other steps and even succeed; it
fails with the same error if the step size is the same.

The retry may start from any faithful trace: what else has been evaluated in between does not matter.
-/

namespace OperatorSplitting

open Eval

variable {K R W : Type} [Scalar K R W] {names : Naming K}

/-! ### What a solve of the x-update depends on -/

namespace Descent

variable [RealArithmetic R] {p : XUpdate K R W}

/-- A gradient step from a point with a step size leads to a point with the step size that is carried
from there. -/
def Accepts (p : XUpdate K R W) (a b : Signal K × R) : Prop :=
  ∃ size, (step p a.1 a.2).outcome = .ok (some (b.1, size)) ∧ b.2 = size + size

variable [RealArithmetic W] [Widening R W]

/-- What gradient steps compute does not depend on the trace. -/
theorem run_eq (h : p.Named names) (steps : ℕ) (x : Signal K) (stepSize : R) {t t' : Trace K W}
    (ht : t.Faithful names) (ht' : t'.Faithful names) :
    (run p steps x stepSize t).1 = (run p steps x stepSize t').1 := by
  induction steps generalizing x stepSize t t' with
  | zero => rfl
  | succ steps ih =>
    obtain ⟨hresult, hkeep⟩ := steady_step h x stepSize t ht
    obtain ⟨hresult', hkeep'⟩ := steady_step h x stepSize t' ht'
    rw [run_succ, run_succ]
    rcases hrun : (step p x stepSize).run t with ⟨r, t₁⟩
    rcases hrun' : (step p x stepSize).run t' with ⟨r', t₁'⟩
    rw [hrun] at hresult hkeep
    rw [hrun'] at hresult' hkeep'
    cases hresult.trans hresult'.symm
    rcases r with e | (_ | ⟨next, size⟩)
    · rfl
    · rfl
    · exact ih next (size + size) hkeep hkeep'

/-- The step size that is carried on is that of the accepted steps, also when a later step fails. -/
theorem accepts_run (h : p.Named names) (steps : ℕ) (x : Signal K) (stepSize : R) {t : Trace K W}
    (ht : t.Faithful names) :
    ∃ y, Relation.ReflTransGen (Accepts p) (x, stepSize) (y, (run p steps x stepSize t).1.2) := by
  induction steps generalizing x stepSize t with
  | zero => exact ⟨x, .refl⟩
  | succ steps ih =>
    obtain ⟨hresult, hkeep⟩ := steady_step h x stepSize t ht
    rw [run_succ]
    rcases hrun : (step p x stepSize).run t with ⟨r, t'⟩
    rw [hrun] at hresult hkeep
    rcases r with e | (_ | ⟨next, size⟩)
    · exact ⟨x, .refl⟩
    · exact ⟨x, .refl⟩
    · obtain ⟨y, hy⟩ := ih next (size + size) hkeep
      exact ⟨y, .head ⟨size, hresult.symm, rfl⟩ hy⟩

end Descent

namespace Strategy

/-- What a strategy of the library carries from a solve of an x-update to the next one. -/
def Carries [RealArithmetic R] (p : XUpdate K R W) (x : Signal K) :
    Strategy K R W → Strategy K R W → Prop
  | .descent steps stepSize, s' => ∃ y stepSize', s' = .descent steps stepSize' ∧
      Relation.ReflTransGen (Descent.Accepts p) (x, stepSize) (y, stepSize')
  | .leastSquares options equations, s' => s' = .leastSquares options equations
  | .external _ _, _ => True

variable [RealArithmetic R] [RealArithmetic W] [Widening R W] {s : Strategy K R W}
  {p : XUpdate K R W}

theorem carries_solve (hp : p.Named names) (x : Signal K) {t : Trace K W} (ht : t.Faithful names) :
    s.Carries p x (s.solve p x t).1.2 := by
  cases s with
  | descent steps stepSize =>
    obtain ⟨y, hy⟩ := Descent.accepts_run hp steps x stepSize ht
    exact ⟨y, _, rfl, hy⟩
  | leastSquares options equations => cases equations <;> rfl
  | external e solves => trivial

/-- A solve by a strategy of the library does not depend on the trace. -/
theorem solve_eq (hs : s.IsBuiltIn) (hready : s.Ready names) (hp : p.Named names) (x : Signal K)
    {t t' : Trace K W} (ht : t.Faithful names) (ht' : t'.Faithful names) :
    (s.solve p x t).1 = (s.solve p x t').1 := by
  cases s with
  | descent steps stepSize =>
    show ((Descent.run p steps x stepSize t).1.1.map _,
      Strategy.descent steps (Descent.run p steps x stepSize t).1.2) = _
    rw [Descent.run_eq hp steps x stepSize ht ht']
    rfl
  | leastSquares options equations =>
    cases equations with
    | none => rfl
    | some equations =>
      have hsteady := NormalEquations.steady_solve hready options hp.couplings x
      have hresult := (hsteady t ht).1.trans (hsteady t' ht').1.symm
      exact congrArg (fun r => (r, Strategy.leastSquares options (some equations))) hresult
  | external e solves => exact hs.elim

end Strategy

/-! ### Reachable solvers -/

variable [RealArithmetic R] [RealArithmetic W] [Widening R W]

/-- Everything in the problem uses the closures that their numbers stand for, and functionals given
from outside always give the same results. -/
structure Problem.Named (names : Naming K) (p : Problem K R W) : Prop where
  f : p.f.Named names
  penalties : ∀ g ∈ p.penalties, g.Named names
  operators : ∀ c ∈ p.operators, c.Named names

namespace Solver

variable {p : Problem K R W} {config : Config W} {strategy : Strategy K R W} {s s' : Solver K R W}
  {t t' : Trace K W}

omit [Widening R W] in
theorem named_create (hp : p.Named names) (hstrategy : strategy.Keeps names)
    (ht : t.Faithful names) (h : (create p config strategy).run t = (.ok s, t')) :
    s.Named names ∧ t'.Faithful names := by
  obtain ⟨-, -, strategy', t₁, hsetup, ts, hterms, rfl⟩ := run_create_eq_ok_iff.mp h
  have hoperators : ∀ q ∈ p.operators.zip p.weights, q.1.Named names :=
    fun q hq => hp.operators q.1 (List.of_mem_zip hq).1
  obtain ⟨ht₁, hready⟩ := (Strategy.ensures_setup hstrategy hp.f hoperators).of_run hsetup ht
  obtain ⟨ht', hts⟩ := (Problem.ensures_terms_mem p.start hp.operators).of_run hterms ht₁
  refine ⟨⟨hp.f, fun t ht => ?_, hready⟩, ht'⟩
  obtain ⟨hpenalty, hoperator, -⟩ := hts t ht
  exact ⟨hp.operators _ hoperator, hp.penalties _ hpenalty⟩

theorem Named.step (hs : s.Named names) (ht : t.Faithful names) {result : Except Error Unit}
    (h : s.step t = ((result, s'), t')) : s'.Named names ∧ t'.Faithful names := by
  obtain ⟨ht', hready, hcases⟩ := step_cases hs ht h
  refine ⟨?_, ht'⟩
  rcases hcases with ⟨e, state, strategy, timing, -, rfl⟩ | ⟨r, strategy, timing, -, -, hr, rfl⟩
  · exact ⟨hs.f, hs.terms, hready⟩
  · refine ⟨hs.f, fun t ht => ?_, hready⟩
    obtain ⟨update, hupdate, rfl⟩ := List.mem_map.mp ht
    have hbefore := named_before hs hr.before update hupdate
    exact ⟨hbefore.operator, hbefore.penalty⟩

/-- Every solver that is reachable from a problem uses the closures of the problem. -/
theorem Reached.named (hp : p.Named names) (hstrategy : strategy.Keeps names)
    (h : Reached names p config strategy s t) : s.Named names ∧ t.Faithful names :=
  h.invariant (P := fun s t => s.Named names ∧ t.Faithful names) (named_create hp hstrategy)
    (fun hs hstep => hs.1.step hs.2 hstep)
    (fun hs => ⟨⟨hs.1.f, hs.1.terms, hs.1.strategy⟩, hs.2⟩) fun hs ht => ⟨hs.1, ht⟩

theorem Reached.reachable (h : Reached names p config strategy s t) :
    s.Reachable p config strategy := by
  induction h with
  | create _ hcreate => exact .create hcreate
  | step _ hstep ih => exact ih.step hstep
  | solve _ hsolve ih => exact ih.solve hsolve
  | elsewhere _ _ ih => exact ih

theorem Reachable.isBuiltIn (hstrategy : strategy.IsBuiltIn) (h : s.Reachable p config strategy) :
    s.strategy.IsBuiltIn := by
  refine h.invariant (P := fun s => s.strategy.IsBuiltIn) (fun hcreate => ?_)
    (fun {s s' t t' result} hs hstep => ?_) fun hs => hs
  · obtain ⟨-, -, strategy', t₁, hsetup, ts, -, rfl⟩ := run_create_eq_ok_iff.mp hcreate
    exact builtIn_of_setup hstrategy hsetup
  · rcases strategy_of_step hstep with hsame | hsolved
    · exact hsame ▸ hs
    · exact hsolved ▸ (Strategy.solve_builtIn hs s.xUpdate s.x t).1

/-- A run whose x-updates are to be solved by conjugate gradients never changes to another
strategy. -/
theorem Reachable.strategy_eq {options : CgOptions W} {equations : Option (NormalEquations K)}
    (h : s.Reachable p config (.leastSquares options equations)) :
    ∃ equations', s.strategy = .leastSquares options equations' := by
  refine h.invariant (P := fun s => ∃ equations', s.strategy = .leastSquares options equations')
    (fun hcreate => ?_) (fun {s s' t t' result} hs hstep => ?_) fun hs => hs
  · obtain ⟨-, -, strategy', t₁, hsetup, ts, -, rfl⟩ := run_create_eq_ok_iff.mp hcreate
    have hkind : Ensures (fun _ => True)
        ((Strategy.leastSquares options equations).setup p.f (p.operators.zip p.weights))
        fun strategy' : Strategy K R W =>
          ∃ equations', strategy' = .leastSquares options equations' := by
      unfold Strategy.setup
      dsimp only
      split
      · exact .throw _
      · exact (Ensures.trivial _).bind fun n _ => .pure ⟨some n, rfl⟩
    exact (hkind.of_run hsetup trivial).2
  · obtain ⟨equations', hs⟩ := hs
    rcases strategy_of_step hstep with hsame | hsolved
    · exact ⟨equations', hsame.trans hs⟩
    · refine ⟨equations', hsolved.trans ?_⟩
      rw [solved, hs]
      cases equations' <;> rfl

/-! ### Failed steps -/

theorem steady_finish {f : Functional K R W} (hf : f.Named names) {ts : List (Term K R W)}
    (hts : ∀ t ∈ ts, t.Named names) (number : ℕ) (report : SubproblemReport K W) :
    Steady names (Iterate.finish f ts number report) := by
  have hsplits : Steady names (do splitUpdates (← images report.x ts) : Eval K W _) :=
    (steady_images hts report.x).bind fun _ hps => steady_splitUpdates (named_images hts hps)
  refine Steady.ite (hsplits.bind fun qs hqs => (Steady.liftExcept _).bind fun us hus => ?_)
    (.throw _)
  have hbefore : ∀ u ∈ us, u.before.Named names := by
    intro u hu
    apply hts
    rw [← (updates_follow_of_splits hts hqs hus).1]
    exact List.mem_map_of_mem hu
  exact (steady_diagnostics hf hbefore report.x).bind fun _ _ => .pure _

/-- The results of a step do not depend on the trace. -/
theorem finished_eq (hs : s.Named names) (hbuiltIn : s.strategy.IsBuiltIn) (ht : t.Faithful names)
    (ht' : t'.Faithful names) : (s.finished t).1 = (s.finished t').1 := by
  have hsolved : (s.solved t).1 = (s.solved t').1 :=
    Strategy.solve_eq hbuiltIn hs.strategy hs.xUpdate s.x ht ht'
  have hkeep : (s.solved t).2.Faithful names :=
    (Strategy.solve_ready hs.strategy hs.xUpdate s.x ht).1
  have hkeep' : (s.solved t').2.Faithful names :=
    (Strategy.solve_ready hs.strategy hs.xUpdate s.x ht').1
  unfold finished
  rcases hrun : s.solved t with ⟨⟨result, strategy⟩, t₁⟩
  rcases hrun' : s.solved t' with ⟨⟨result', strategy'⟩, t₁'⟩
  rw [hrun] at hsolved hkeep
  rw [hrun'] at hsolved hkeep'
  cases hsolved
  cases result with
  | error e => rfl
  | ok report =>
    have hfinish := steady_finish hs.f hs.terms (s.iteration + 1) report
    exact (hfinish t₁ hkeep).1.trans (hfinish t₁' hkeep').1.symm

/-- A step that starts from the same data as a failed one fails as well: the state and the timing do
not matter, nor what else has been evaluated. -/
theorem Named.step_again (hs : s.Named names) (hbuiltIn : s.strategy.IsBuiltIn)
    (ht : t.Faithful names) (ht' : t'.Faithful names) {e : Error} {t₁ : Trace K W}
    (hfinished : s.finished t = (.error e, t₁)) (timing : Timing W) :
    ∃ s₁ t₂, ({ s with state := .running, timing := timing } : Solver K R W).step t' =
      ((.error e, s₁), t₂) ∧ s₁.strategy = (s.solved t).1.2 := by
  obtain ⟨timing', hstep⟩ :=
    step_running (s := { s with state := .running, timing := timing }) rfl t'
  have hsolved : (s.solved t').1 = (s.solved t).1 :=
    Strategy.solve_eq hbuiltIn hs.strategy hs.xUpdate s.x ht' ht
  have hagain : (s.finished t').1 = .error e := by
    rw [finished_eq hs hbuiltIn ht' ht, hfinished]
  rcases hrun : s.finished t' with ⟨result, t₂⟩
  rw [hrun] at hagain
  cases hagain
  have hrun' : ({ s with state := .running, timing := timing } : Solver K R W).finished t' =
      (.error e, t₂) := hrun
  rw [hrun'] at hstep
  exact ⟨_, _, hstep, congrArg Prod.snd hsolved⟩

/-- A failed step and its retry, with a strategy of the library, wherever the run stands.

* The failed step leaves the iterates, the iteration number and the history as they were.
* The strategy carries what the x-update has left, at most another step size: twice the one of the
  last gradient step that was accepted.
* With conjugate gradients nothing is carried.
* If the strategy is the same, a retry fails with the same error, from any faithful trace. -/
theorem retry_of_failed_step (hp : p.Named names) (hstrategy : strategy.IsBuiltIn)
    (h : Reached names p config strategy s t) (hstate : s.state.isTerminal = false) {e : Error}
    (hstep : s.step t = ((.error e, s'), t')) :
    (s'.f = s.f ∧ s'.config = s.config ∧ s'.x = s.x ∧ s'.terms = s.terms ∧
      s'.iteration = s.iteration ∧ s'.history = s.history ∧ s'.state = .running) ∧
    s.strategy.Carries s.xUpdate s.x s'.strategy ∧
    (∀ options equations, strategy = .leastSquares options equations → s'.strategy = s.strategy) ∧
    (s'.strategy = s.strategy → ∀ t₁, t₁.Faithful names →
      ∃ s₁ t₂, s'.step t₁ = ((.error e, s₁), t₂) ∧ s₁.strategy = s.strategy) := by
  have hkeeps : strategy.Keeps names := by
    cases strategy with
    | external e solves => exact hstrategy.elim
    | _ => trivial
  obtain ⟨hs, ht⟩ := h.named hp hkeeps
  have hbuiltIn := h.reachable.isBuiltIn hstrategy
  have hcarries : s.strategy.Carries s.xUpdate s.x (s.solved t).1.2 :=
    Strategy.carries_solve hs.xUpdate s.x ht
  obtain ⟨timing, hrunning⟩ := step_running hstate t
  rcases hfinished : s.finished t with ⟨result, t₂⟩
  rw [hrunning, hfinished] at hstep
  cases result with
  | ok r => cases hstep
  | error e' =>
    cases hstep
    refine ⟨⟨rfl, rfl, rfl, rfl, rfl, rfl, rfl⟩, hcarries, ?_, fun hsame t₁ ht₁ => ?_⟩
    · rintro options equations rfl
      obtain ⟨equations', heq⟩ := h.reachable.strategy_eq
      rw [heq] at hcarries
      exact hcarries.trans heq.symm
    -- Only the state and the timing differ from those before the failed step.
    · have hsame : (s.solved t).1.2 = s.strategy := hsame
      obtain ⟨s₁, t₃, hretry, hcarried⟩ := hs.step_again hbuiltIn ht ht₁ hfinished timing
      rw [hsame]
      exact ⟨s₁, t₃, hretry, hcarried.trans hsame⟩

end Solver

/-! ### A retry that succeeds -/

noncomputable section

namespace Solver

open Signal

open Classical in
/-- A penalty that fails at one number. -/
def brittlePenalty (bad : ℝ) : ExternalFunctional ℝ ℝ ℝ where
  name := "Brittle"
  isSmooth := false
  hasEval := false
  hasProx := true
  squaredLoss? := none
  value _ := return 0
  prox v _ := if v = single bad then throw (.numerical (.reported "no proximal point")) else return v
  grad x := return x

/-- Minimize a square whose slope is one at the start `a`, and a penalty that fails at `a - 1`. -/
def brittleProblem (a : ℝ) : Problem ℝ ℝ ℝ where
  f := .multiple (1 / (a + a)) .squaredL2
  penalties := [.external (brittlePenalty (a - 1))]
  operators := [.leaf (.identity (.vector 1))]
  weights := [1 / a]
  start := single a

def brittleTerm (a : ℝ) : Term ℝ ℝ ℝ where
  penalty := .external (brittlePenalty (a - 1))
  operator := .leaf (.identity (.vector 1))
  weight := 1 / a
  z := single a
  u := .zeros (.vector 1)

/-- The solver of the problem, by one gradient step in every x-update. -/
def brittleSolver (a : ℝ) : Solver ℝ ℝ ℝ where
  f := .multiple (1 / (a + a)) .squaredL2
  terms := [brittleTerm a]
  config := .default
  strategy := .descent 1 1
  x := single a
  iteration := 0
  state := .initialized
  history := .empty
  timing := Timing.empty.mark "setup"

variable {a size : ℝ}

theorem run_create_brittle (ha : 0 < a) :
    ∃ t, (create (brittleProblem a) .default (.ofSteps 1)).run .empty =
      (.ok (brittleSolver a), t) := by
  have hfault : (brittleProblem a).fault? = none := by
    simp [Problem.fault?, brittleProblem, Problem.operatorFault?, Problem.weightFault?,
      Functional.isSmooth, Functional.hasProx, Problem.isPositive_iff, LinearOperator.input,
      Leaf.input, brittlePenalty, ha]
    rfl
  unfold create
  rw [hfault]
  exact ⟨_, rfl⟩

/-! ### The x-update of the brittle problem -/

theorem run_mismatch (x : ℝ) (t : Trace ℝ ℝ) :
    ((brittleTerm a).coupling.mismatch (single x) : Eval ℝ ℝ _).run t =
      (.ok (single (x - a)), t) := by
  have hadd : (single (x - a)).add (.zeros (.vector 1)) = .ok (single (x - a)) := by
    rw [zeros_vector_one, add, zipMap_single, add_zero]
  exact Coupling.run_mismatch_identity rfl (zipMap_single _ _ _ _) hadd t

theorem run_objective (x : ℝ) (t : Trace ℝ ℝ) :
    ((brittleSolver a).xUpdate.objective (single x) : Eval ℝ ℝ _).run t =
      (.ok ((x * x + (x - a) * (x - a)) / (a + a)), t) := by
  have hvalue : ((Functional.multiple (1 / (a + a)) (.squaredL2 : Functional ℝ ℝ ℝ)).value
      (single x)).run t = (.ok (1 / (a + a) * (x * x)), t) := by
    rw [← normSqr_single]
    rfl
  have hsum : 1 / (a + a) * (x * x) + (brittleTerm a).coupling.weight *
      (single (x - a)).normSqr / (1 + 1) = (x * x + (x - a) * (x - a)) / (a + a) := by
    rw [normSqr_single]
    show _ + 1 / a * _ / (1 + 1) = _
    ring
  exact (XUpdate.run_objective_one hvalue (run_mismatch x t)).trans (by rw [hsum])

theorem run_gradient (ha : 0 < a) (t : Trace ℝ ℝ) :
    ((brittleSolver a).xUpdate.gradient (single a) : Eval ℝ ℝ _).run t = (.ok (single 1), t) := by
  have hsum : (((single a).scaled RealArithmetic.two).scaled (1 / (a + a))).addScaled (1 / a)
      (single (a - a)) = .ok (single 1) := by
    have hone : a * (1 + 1) * (1 / (a + a)) + 1 / a * (a - a) = 1 := by
      field_simp
      ring
    rw [scaled, scaled, addScaled, map_single, map_single, zipMap_single, RealArithmetic.two, hone]
  exact XUpdate.run_gradient_identity rfl (run_mismatch a t) rfl hsum

/-- A step along the gradient that is not too long lowers the objective enough. -/
theorem accepts_brittle (ha : 0 < a) (hpos : 0 ≤ size) (hle : size + size ≤ a) :
    ((a - size) * (a - size) + (a - size - a) * (a - size - a)) / (a + a) ≤
      (a * a + (a - a) * (a - a)) / (a + a) - RealArithmetic.half * size * 1 := by
  have hgain : 0 ≤ size * (a - (size + size)) := mul_nonneg hpos (sub_nonneg.mpr hle)
  calc ((a - size) * (a - size) + (a - size - a) * (a - size - a)) / (a + a)
      = (a * a + (a - a) * (a - a)) / (a + a) - RealArithmetic.half * size * 1 -
          size * (a - (size + size)) / (a + a) := by
        rw [RealArithmetic.half]
        field_simp
        ring
    _ ≤ (a * a + (a - a) * (a - a)) / (a + a) - RealArithmetic.half * size * 1 :=
        sub_le_self _ (div_nonneg hgain (add_pos ha ha).le)

/-- The line search accepts its first point if that is not too far. -/
theorem run_step_brittle (ha : 0 < a) (hpos : 0 ≤ size) (hle : size + size ≤ a) (t : Trace ℝ ℝ) :
    (Descent.step (brittleSolver a).xUpdate (single a) size : Eval ℝ ℝ _).run t =
      (.ok (some (single (a - size), size)), t) := by
  have hone : ((single 1).normSqr : ℝ) = 1 := by rw [normSqr_single, mul_one]
  have hnonzero : ¬RealArithmetic.beq ((single 1).normSqr : ℝ) 0 = true := by
    simp [hone, RealArithmetic.beq]
  have hcandidate : (single a).addScaled (-(Scalar.ofReal size : ℝ)) (single 1) =
      .ok (single (a - size)) := by
    rw [addScaled, zipMap_single, mul_one, ← sub_eq_add_neg]
    rfl
  have haccept : RealArithmetic.le
      (((a - size) * (a - size) + (a - size - a) * (a - size - a)) / (a + a))
      ((a * a + (a - a) * (a - a)) / (a + a) -
        RealArithmetic.half * size * (single 1).normSqr) = true := by
    rw [hone]
    exact decide_eq_true (accepts_brittle ha hpos hle)
  have hsearch : (Descent.search (brittleSolver a).xUpdate (single a) (single 1)
      ((a * a + (a - a) * (a - a)) / (a + a)) (single 1).normSqr Descent.maxTries size :
        Eval ℝ ℝ _).run t = (.ok (some (single (a - size), size)), t) := by
    rw [Descent.maxTries, Descent.run_search_succ hcandidate (run_objective _ t), if_pos haccept]
  exact Descent.run_step_of_search (run_gradient ha t) hnonzero (run_objective a t) hsearch

theorem solve_brittle (ha : 0 < a) (hpos : 0 ≤ size) (hle : size + size ≤ a) (t : Trace ℝ ℝ) :
    (Strategy.descent 1 size).solve (brittleSolver a).xUpdate (single a) t =
      ((.ok ⟨single (a - size), none⟩, .descent 1 (size + size)), t) := by
  rw [Descent.solve_one, run_step_brittle ha hpos hle]

/-! ### The phases after it -/

open Classical in
theorem prox_brittle (bad x step : ℝ) : (brittlePenalty bad).prox (single x) step =
    if x = bad then throw (.numerical (.reported "no proximal point")) else return single x :=
  if_congr single_injective.eq_iff rfl rfl

/-- The split update fails where the penalty does. -/
theorem run_splits_bad (t : Trace ℝ ℝ) :
    (do splitUpdates (← images (single (a - 1)) (brittleSolver a).terms) : Eval ℝ ℝ _).run t =
      (.error (.numerical (.reported "no proximal point")), t) := by
  have hadd : (single (a - 1)).add (.zeros (.vector 1)) = .ok (single (a - 1)) := by
    rw [zeros_vector_one, add, zipMap_single, add_zero]
  show ((do
    let v ← (single (a - 1)).add (.zeros (.vector 1))
    let z ← (brittlePenalty (a - 1)).prox v (1 / (1 / a))
    pure [(brittleTerm a, single (a - 1), z)] : Eval ℝ ℝ _).run t) = _
  rw [hadd]
  show ((do
    let z ← (brittlePenalty (a - 1)).prox (single (a - 1)) (1 / (1 / a))
    pure [(brittleTerm a, single (a - 1), z)] : Eval ℝ ℝ _).run t) = _
  rw [prox_brittle, if_pos rfl]
  rfl

theorem run_finish_bad (t : Trace ℝ ℝ) :
    (Iterate.finish (brittleSolver a).f (brittleSolver a).terms 1 ⟨single (a - 1), none⟩ :
      Eval ℝ ℝ _).run t = (.error (.numerical (.reported "no proximal point")), t) := by
  rw [Iterate.finish, if_pos (allFinite_eq_true _), Iterate.couple, run_bind, run_splits_bad]

/-- The phases after the x-update succeed everywhere else. -/
theorem succeeds_finish_brittle {x : ℝ} (hx : x ≠ a - 1) :
    Succeeds (Iterate.finish (brittleSolver a).f (brittleSolver a).terms 1 ⟨single x, none⟩ :
      Eval ℝ ℝ _) fun _ => True := by
  have hv : (single x).add (.zeros (.vector 1)) = .ok (single x) := by
    rw [zeros_vector_one, add, zipMap_single, add_zero]
  have hz (t : Trace ℝ ℝ) : ((Functional.external (brittlePenalty (a - 1))).prox (single x)
      (1 / (1 / a))).run t = (.ok (single x), t) := by
    rw [Functional.prox, prox_brittle, if_neg hx]
    rfl
  have hgap : (single x).sub (single x) = .ok (single 0) := by rw [sub, zipMap_single, sub_self]
  have hu : (zeros (.vector 1) : Signal ℝ).add (single 0) = .ok (single 0) := by
    rw [zeros_vector_one, add, zipMap_single, add_zero]
  rw [Iterate.finish, if_pos (allFinite_eq_true _)]
  exact ⟨_, fun t => Iterate.run_couple_identity rfl hv (hz t) hgap hu (zipMap_single _ _ _ _) rfl
    rfl, trivial⟩

/-! ### Steps from the start -/

theorem solved_brittle (ha : 0 < a) (hpos : 0 ≤ size) (hle : size + size ≤ a) (state : RunState)
    (timing : Timing ℝ) (t : Trace ℝ ℝ) :
    ({ brittleSolver a with state := state, strategy := .descent 1 size, timing := timing } :
      Solver ℝ ℝ ℝ).solved t = ((.ok ⟨single (a - size), none⟩, .descent 1 (size + size)), t) :=
  solve_brittle ha hpos hle t

theorem finished_brittle (ha : 0 < a) (hpos : 0 ≤ size) (hle : size + size ≤ a) (state : RunState)
    (timing : Timing ℝ) (t : Trace ℝ ℝ) :
    ({ brittleSolver a with state := state, strategy := .descent 1 size, timing := timing } :
      Solver ℝ ℝ ℝ).finished t = (Iterate.finish (brittleSolver a).f (brittleSolver a).terms 1
        ⟨single (a - size), none⟩).run t := by
  rw [finished, solved_brittle ha hpos hle]
  rfl

/-- The first step fails, as its x-update reaches the number where the penalty does. -/
theorem step_brittle (ha : 1 + 1 ≤ a) (t : Trace ℝ ℝ) : ∃ timing, (brittleSolver a).step t =
    ((.error (.numerical (.reported "no proximal point")), { brittleSolver a with
      state := .running, strategy := .descent 1 (1 + 1), timing := timing }), t) := by
  have hpos : 0 < a := lt_of_lt_of_le (by norm_num) ha
  obtain ⟨timing, hstep⟩ := step_running (s := brittleSolver a) rfl t
  have hsolved : (brittleSolver a).solved t =
      ((.ok ⟨single (a - 1), none⟩, .descent 1 (1 + 1)), t) :=
    solved_brittle hpos zero_le_one ha .initialized (brittleSolver a).timing t
  have hfinished : (brittleSolver a).finished t =
      (.error (.numerical (.reported "no proximal point")), t) :=
    (finished_brittle hpos zero_le_one ha .initialized (brittleSolver a).timing t).trans
      (run_finish_bad t)
  rw [hfinished, hsolved] at hstep
  exact ⟨timing, hstep⟩

theorem named_brittleProblem (names : Naming ℝ) (a : ℝ) : (brittleProblem a).Named names where
  f := trivial
  penalties := List.forall_mem_singleton.mpr {
    value := fun _ => .pure _
    prox := fun _ _ => by classical exact .ite (.throw _) (.pure _)
    grad := fun _ => .pure _
    squaredLoss := fun _ h => nomatch h }
  operators := List.forall_mem_singleton.mpr trivial

theorem retry_brittle : ∃ s' t t', (brittleSolver 4).step t =
    ((.error (.numerical (.reported "no proximal point")), s'), t') ∧ s'.x = single 4 ∧
      s'.iteration = 0 ∧
      (brittleSolver 4).strategy.Carries (brittleSolver 4).xUpdate (brittleSolver 4).x
        s'.strategy := by
  let names : Naming ℝ := fun id => ⟨id, .vector 1, .vector 1, .ok, none⟩
  obtain ⟨t, hcreate⟩ := run_create_brittle four_pos
  obtain ⟨timing, hstep⟩ := step_brittle (a := 4) (by norm_num) t
  have hreached : Reached names (brittleProblem 4) .default (.ofSteps 1) (brittleSolver 4) t :=
    .create (Trace.faithful_empty names) hcreate
  have hbuiltIn : (Strategy.ofSteps 1 : Strategy ℝ ℝ ℝ).IsBuiltIn := trivial
  obtain ⟨⟨-, -, hx, -, hiteration, -⟩, hcarries, -⟩ :=
    retry_of_failed_step (named_brittleProblem names 4) hbuiltIn hreached rfl hstep
  exact ⟨_, t, t, hstep, hx, hiteration, hcarries⟩

/-- A step fails and its retry succeeds, although nothing else has been evaluated in between and every
part of the problem always gives the same results. -/
theorem exists_retry_succeeds : (∀ names, (brittleProblem 4).Named names) ∧
    ∃ s t, (create (brittleProblem 4) .default (.ofSteps 1)).run .empty = (.ok s, t) ∧
      ∃ e s₁ t₁, s.step t = ((.error e, s₁), t₁) ∧ ∃ s₂ t₂, s₁.step t₁ = ((.ok (), s₂), t₂) := by
  obtain ⟨t, hcreate⟩ := run_create_brittle four_pos
  obtain ⟨timing, hstep⟩ := step_brittle (a := 4) (by norm_num) t
  refine ⟨fun names => named_brittleProblem names 4, _, t, hcreate, _, _, t, hstep, ?_⟩
  obtain ⟨timing', hretry⟩ := step_running (s := { brittleSolver 4 with
    state := .running, strategy := .descent 1 (1 + 1), timing := timing }) rfl t
  -- The retry starts at twice the step size, and so does not meet the number where the penalty fails.
  obtain ⟨r, hr, -⟩ := succeeds_finish_brittle (a := 4) (x := 4 - (1 + 1)) (by norm_num)
  have htwo : (0 : ℝ) ≤ 1 + 1 := by norm_num
  have hfour : (1 + 1 : ℝ) + (1 + 1) ≤ 4 := by norm_num
  have hfinished := finished_brittle four_pos htwo hfour .running timing t
  rw [hr] at hfinished
  rw [hfinished] at hretry
  exact ⟨_, _, hretry⟩

end Solver

end

end OperatorSplitting
