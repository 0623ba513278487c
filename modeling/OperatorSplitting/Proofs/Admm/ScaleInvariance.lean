import Mathlib
import OperatorSplitting.Proofs.Admm.LeastSquares
import OperatorSplitting.Proofs.Admm.Rescaling

/-!
# Multiplying the objective by a number

Multiply the objective of a problem and all its weights by a positive number.  In exact arithmetic, with
a relative tolerance for the linear solves and none for the run, the new problem has the same run as the
old one: every call fails or succeeds as before and leaves the same iterate, split and dual variables
behind.  In the history the objective, the dual residual and the residual of the linear solve are
multiplied, and everything else is the same (`IterationStats.rescaled`).

The number drops out of every proximal map, as its step is divided by the weight (`prox_rescaled`).  So
the phases after the x-update make the same variables as before (`Iterate.finish_rescaled`).
-/

namespace OperatorSplitting

open Eval

noncomputable section

variable {K : Type} [ExactScalar K] {names : Naming K} {c : ℝ}

/-! ### Terms -/

/-- The term of the problem that has been multiplied. -/
def Term.rescaled (c : ℝ) (t : Term K ℝ ℝ) : Term K ℝ ℝ :=
  { t with penalty := .multiple c t.penalty, weight := c * t.weight }

/-- The number drops out of the step of a proximal map. -/
theorem Term.prox_rescaled (hc : c ≠ 0) (t : Term K ℝ ℝ) (v : Signal K) :
    (t.rescaled c).penalty.prox v (1 / (t.rescaled c).weight) = t.penalty.prox v (1 / t.weight) := by
  have hstep : c * (1 / (c * t.weight)) = 1 / t.weight := by
    rw [one_div, mul_inv, ← mul_assoc, mul_inv_cancel₀ hc, one_mul, one_div]
  show t.penalty.prox v (c * (1 / (c * t.weight))) = _
  rw [hstep]

namespace Solver

/-! ### The phases of a step -/

/-- The new variables of a term, beside the term of the problem that has been multiplied. -/
def TermUpdate.rescaled (c : ℝ) (t : TermUpdate K ℝ ℝ) : TermUpdate K ℝ ℝ :=
  { t with before := t.before.rescaled c }

/-- The objective and the dual residual are multiplied. -/
def Diagnostics.rescaled (c : ℝ) (d : Diagnostics ℝ) : Diagnostics ℝ :=
  ⟨d.objective.map (c * ·), d.primalResidual, c * d.dualResidual⟩

/-- The results of a step for the problem that has been multiplied. -/
def StepResult.rescaled (c : ℝ) (r : StepResult K ℝ ℝ) : StepResult K ℝ ℝ :=
  ⟨r.report.rescaled c, r.updates.map (·.rescaled c), r.diagnostics.rescaled c⟩

theorem images_rescaled (x : Signal K) (ts : List (Term K ℝ ℝ)) :
    images x (ts.map (·.rescaled c)) = (do
      let ps ← images x ts
      return ps.map fun p => (p.1.rescaled c, p.2) : Eval K ℝ _) := by
  induction ts with
  | nil => rfl
  | cons t ts ih =>
    simp only [List.map_cons, images, ih, bind_assoc, pure_bind]
    rfl

theorem splitUpdates_rescaled (hc : c ≠ 0) (ps : List (Term K ℝ ℝ × Signal K)) :
    splitUpdates (ps.map fun p => (p.1.rescaled c, p.2)) = (do
      let qs ← splitUpdates ps
      return qs.map fun q => (q.1.rescaled c, q.2) : Eval K ℝ _) := by
  induction ps with
  | nil => rfl
  | cons p ps ih =>
    obtain ⟨t, image⟩ := p
    simp only [List.map_cons, splitUpdates, Term.prox_rescaled hc, ih, bind_assoc, pure_bind]
    rfl

theorem dualUpdates_rescaled (qs : List (Term K ℝ ℝ × Signal K × Signal K)) :
    dualUpdates (qs.map fun q => (q.1.rescaled c, q.2)) =
      (dualUpdates qs).map (·.map (·.rescaled c)) := by
  induction qs with
  | nil => rfl
  | cons q qs ih =>
    obtain ⟨t, image, z⟩ := q
    simp only [List.map_cons, dualUpdates, ih]
    show (image.sub z >>= fun gap => t.u.add gap >>= _) = _
    cases image.sub z with
    | error e => rfl
    | ok gap =>
      show (t.u.add gap >>= _) = Except.map _ (t.u.add gap >>= _)
      cases t.u.add gap with
      | error e => rfl
      | ok u => cases dualUpdates qs <;> rfl

theorem addValues_rescaled (us : List (TermUpdate K ℝ ℝ)) (total : ℝ) :
    addValues (us.map (·.rescaled c)) (c * total) =
      (do return c * (← addValues us total) : Eval K ℝ ℝ) := by
  induction us generalizing total with
  | nil => rfl
  | cons t us ih =>
    have hvalue : (t.rescaled c).before.penalty.value (t.rescaled c).image =
        (do return c * (← t.before.penalty.value t.image) : Eval K ℝ ℝ) := rfl
    have hsum (v : ℝ) : c * total + Widening.widen (c * v) = c * (total + Widening.widen v) :=
      (mul_add _ _ _).symm
    simp only [List.map_cons, addValues, hvalue, bind_assoc, pure_bind, hsum, ih]

theorem objective_rescaled (f : Functional K ℝ ℝ) (x : Signal K) (us : List (TermUpdate K ℝ ℝ)) :
    objective (.multiple c f) x (us.map (·.rescaled c)) =
      (do return (← objective f x us).map (c * ·) : Eval K ℝ _) := by
  have hall : ((us.map (·.rescaled c)).all fun t => t.before.penalty.hasEval) =
      us.all fun t => t.before.penalty.hasEval := by
    rw [List.all_map]
    rfl
  have hvalue : (Functional.multiple c f).value x = (do return c * (← f.value x) : Eval K ℝ ℝ) := rfl
  have hsum (v : ℝ) : addValues (us.map (·.rescaled c)) (Widening.widen (c * v)) =
      (do return c * (← addValues us (Widening.widen v)) : Eval K ℝ ℝ) := addValues_rescaled us v
  unfold objective
  rw [hall, show (Functional.multiple c f).hasEval = f.hasEval from rfl]
  split
  · simp only [hvalue, hsum, bind_assoc, pure_bind, Option.map_some]
  · rfl

theorem addResiduals_rescaled (us : List (TermUpdate K ℝ ℝ)) (primal dual : ℝ) :
    addResiduals (us.map (·.rescaled c)) primal (c ^ 2 * dual) = (do
      let r ← addResiduals us primal dual
      return (r.1, c ^ 2 * r.2) : Eval K ℝ (ℝ × ℝ)) := by
  induction us generalizing primal dual with
  | nil => rfl
  | cons t us ih =>
    have hdual (back : Signal K) : c ^ 2 * dual +
        (back.scaled (Scalar.ofReal (c * t.before.weight))).normSqr =
          c ^ 2 * (dual + (back.scaled (Scalar.ofReal t.before.weight)).normSqr) := by
      rw [(Signal.isMultiple_scaled back c t.before.weight).normSqr, mul_add]
    have hcons : addResiduals (t.rescaled c :: us.map (·.rescaled c)) primal (c ^ 2 * dual) = (do
        let gap ← t.image.sub t.z
        let change ← t.z.sub t.before.z
        let back ← t.before.operator.adjoint change
        addResiduals (us.map (·.rescaled c)) (primal + gap.normSqr) (c ^ 2 * dual +
          (back.scaled (Scalar.ofReal (c * t.before.weight))).normSqr) : Eval K ℝ _) := rfl
    rw [List.map_cons, hcons]
    simp only [hdual, ih, addResiduals, bind_assoc]
    rfl

theorem diagnostics_rescaled (hc : 0 < c) (f : Functional K ℝ ℝ) (x : Signal K)
    (us : List (TermUpdate K ℝ ℝ)) : diagnostics (.multiple c f) x (us.map (·.rescaled c)) =
      (do return (← diagnostics f x us).rescaled c : Eval K ℝ _) := by
  have hsqrt (dual : ℝ) : (RealArithmetic.sqrt (c ^ 2 * dual) : ℝ) = c * RealArithmetic.sqrt dual := by
    show √(c ^ 2 * dual) = c * √dual
    rw [Real.sqrt_mul (sq_nonneg c), Real.sqrt_sq hc.le]
  have hresiduals : addResiduals (us.map (·.rescaled c)) 0 0 = (do
      let r ← addResiduals us 0 0
      return (r.1, c ^ 2 * r.2) : Eval K ℝ (ℝ × ℝ)) := by
    have hfirst := addResiduals_rescaled (c := c) us 0 0
    rwa [mul_zero] at hfirst
  unfold diagnostics
  simp only [objective_rescaled, hresiduals, bind_assoc, pure_bind, hsqrt]
  rfl

end Solver

namespace Iterate

theorem couple_rescaled (hc : 0 < c) (f : Functional K ℝ ℝ) (ts : List (Term K ℝ ℝ))
    (report : SubproblemReport K ℝ) :
    couple (.multiple c f) (ts.map (·.rescaled c)) (report.rescaled c) =
      (do return (← couple f ts report).rescaled c : Eval K ℝ _) := by
  have hduals (qs : List (Term K ℝ ℝ × Signal K × Signal K)) :
      (liftM (Solver.dualUpdates (qs.map fun q => (q.1.rescaled c, q.2))) : Eval K ℝ _) =
        (do return (← Solver.dualUpdates qs).map (·.rescaled c)) := by
    rw [Solver.dualUpdates_rescaled]
    cases Solver.dualUpdates qs <;> rfl
  have hx : (report.rescaled c).x = report.x := rfl
  unfold couple
  simp only [hx, Solver.images_rescaled, Solver.splitUpdates_rescaled hc.ne', hduals,
    Solver.diagnostics_rescaled hc, bind_assoc, pure_bind]
  rfl

/-- The phases after the x-update make the same variables. -/
theorem finish_rescaled (hc : 0 < c) (f : Functional K ℝ ℝ) (ts : List (Term K ℝ ℝ)) (number : ℕ)
    (report : SubproblemReport K ℝ) :
    finish (.multiple c f) (ts.map (·.rescaled c)) number (report.rescaled c) =
      (do return (← finish f ts number report).rescaled c : Eval K ℝ _) := by
  unfold finish
  rw [couple_rescaled hc, show (report.rescaled c).x = report.x from rfl]
  split <;> rfl

/-- The updates that are made belong to the terms. -/
theorem ensures_before {f : Functional K ℝ ℝ} (hf : f.Named names) {ts : List (Term K ℝ ℝ)}
    (hts : ∀ t ∈ ts, t.Named names) (number : ℕ) (report : SubproblemReport K ℝ) :
    Ensures (Trace.Faithful names) (finish f ts number report) fun r =>
      r.updates.map (·.before) = ts := by
  have hsplits : Steady names (do Solver.splitUpdates (← Solver.images report.x ts) : Eval K ℝ _) :=
    (Solver.steady_images hts report.x).bind fun _ hps =>
      Solver.steady_splitUpdates (Solver.named_images hts hps)
  refine Ensures.ite (hsplits.ensures.bind fun qs hqs => (Ensures.liftExcept _).bind fun us hus => ?_)
    (.throw _)
  have hbefore := (Solver.updates_follow_of_splits hts hqs hus).1
  have hnamed : ∀ u ∈ us, u.before.Named names :=
    fun u hu => hts _ (hbefore ▸ List.mem_map_of_mem hu)
  exact (Solver.steady_diagnostics hf hnamed report.x).ensures.bind fun _ _ => .pure hbefore

end Iterate

/-! ### Problems -/

namespace Problem

/-- The problem with its objective and all weights multiplied by a number. -/
def rescaled (c : ℝ) (p : Problem K ℝ ℝ) : Problem K ℝ ℝ :=
  { p with
    f := .multiple c p.f
    penalties := p.penalties.map (.multiple c)
    weights := p.weights.map (c * ·) }

/-- The functionals always give the same results, and the operators are linear, also that of the loss if
the smooth functional is one. -/
structure IsScalable (names : Naming K) (p : Problem K ℝ ℝ) : Prop where
  f : p.f.Named names
  loss : ∀ l, p.f.asSquaredLoss? = some l → l.operator.IsLinear names
  penalties : ∀ g ∈ p.penalties, g.Named names
  operators : ∀ a ∈ p.operators, a.IsLinear names

variable {p : Problem K ℝ ℝ}

/-- One problem is accepted if the other one is. -/
theorem fault?_rescaled (hc : 0 < c) : (p.rescaled c).fault? = none ↔ p.fault? = none := by
  have hweights : (∀ r ∈ (p.rescaled c).weights, RealArithmetic.isPositive r = true) ↔
      ∀ r ∈ p.weights, RealArithmetic.isPositive r = true := by
    show (∀ r ∈ p.weights.map (c * ·), _) ↔ _
    simp [isPositive_iff, hc]
  have hpenalties : (∀ g ∈ (p.rescaled c).penalties, g.hasProx = true) ↔
      ∀ g ∈ p.penalties, g.hasProx = true := by
    show (∀ g ∈ p.penalties.map (Functional.multiple c), g.hasProx = true) ↔ _
    simp [Functional.hasProx]
  rw [fault?_eq_none_iff, fault?_eq_none_iff, hweights, hpenalties]
  simp [rescaled, Functional.isSmooth]

theorem terms_rescaled (start : Signal K) (gs : List (Functional K ℝ ℝ)) (as : List (LinearOperator K))
    (weights : List ℝ) : terms start (gs.map (.multiple c)) as (weights.map (c * ·)) =
      (do return (← terms start gs as weights).map (·.rescaled c) : Eval K ℝ _) := by
  induction gs generalizing as weights with
  | nil => rfl
  | cons g gs ih =>
    cases as with
    | nil => rfl
    | cons a as =>
      cases weights with
      | nil => rfl
      | cons weight weights =>
        simp only [List.map_cons, terms, ih, bind_assoc, pure_bind]
        rfl

theorem steady_terms (start : Signal K) {gs : List (Functional K ℝ ℝ)} {as : List (LinearOperator K)}
    {weights : List ℝ} (has : ∀ a ∈ as, a.Named names) :
    Steady names (terms start gs as weights : Eval K ℝ _) := by
  induction gs generalizing as weights with
  | nil => exact .pure _
  | cons g gs ih =>
    cases as with
    | nil => exact .pure _
    | cons a as =>
      cases weights with
      | nil => exact .pure _
      | cons weight weights =>
        obtain ⟨ha, has⟩ := List.forall_mem_cons.mp has
        exact (LinearOperator.steady_apply ha start).bind fun _ _ => (ih has).map _

end Problem

/-! ### Histories -/

/-- A row of the history of the problem that has been multiplied. -/
def IterationStats.rescaled (c : ℝ) (row : IterationStats ℝ) : IterationStats ℝ :=
  { row with
    objective := row.objective.map (c * ·)
    dualResidual := c * row.dualResidual
    innerResidual := row.innerResidual.map (c * ·) }

namespace Solver

omit [ExactScalar K] in
theorem statistics_rescaled (iteration : ℕ) (r : StepResult K ℝ ℝ) :
    statistics iteration (r.rescaled c) = (statistics iteration r).rescaled c := by
  obtain ⟨⟨x, linearSolve⟩, updates, diagnostics⟩ := r
  cases linearSolve <;> rfl

/-! ### Solvers side by side -/

/-- The second solver has the terms of the first one with penalties and weights multiplied, and stands
where that one stands. -/
structure IsRescaling (names : Naming K) (c : ℝ) (s s' : Solver K ℝ ℝ) : Prop where
  f : s'.f = .multiple c s.f
  terms : s'.terms = s.terms.map (·.rescaled c)
  config : s'.config = s.config
  tolerance : s.config.stopTolerance = none
  strategy : s.strategy.IsRescaling names c s'.strategy
  x : s'.x = s.x
  iteration : s'.iteration = s.iteration
  state : s'.state = s.state
  newest : s'.history.newest = s.history.newest.map (·.rescaled c)
  named_f : s.f.Named names
  named_terms : ∀ t ∈ s.terms, t.Named names

variable {p : Problem K ℝ ℝ} {config : Config ℝ} {options : CgOptions ℝ} {s s' : Solver K ℝ ℝ}

theorem alike_create_rescaled (hc : 0 < c) (hp : p.IsScalable names) (hatol : options.atol = 0)
    (htol : config.stopTolerance = none) :
    Alike names (IsRescaling names c) (create p config (.ofOptions options))
      (create (p.rescaled c) config (.ofOptions options)) := by
  have hrefuse : Corresponds Eq (refuse p.fault?) (refuse (p.rescaled c).fault?) := by
    have hiff := Problem.fault?_rescaled (p := p) hc
    cases hfault : p.fault? with
    | none =>
      rw [hiff.mpr hfault]
      exact .refl
    | some fault =>
      cases hfault' : (p.rescaled c).fault? with
      | none => cases hfault.symm.trans (hiff.mp hfault')
      | some fault' => exact .error
  have hpairs : (p.rescaled c).operators.zip (p.rescaled c).weights =
      (p.operators.zip p.weights).map (rescaledWeight c) := List.zip_map_right
  have hoperators : ∀ q ∈ p.operators.zip p.weights, q.1.IsLinear names :=
    fun q hq => hp.operators q.1 (List.of_mem_zip hq).1
  have hnamed : ∀ a ∈ p.operators, a.Named names := fun a ha => (hp.operators a ha).named
  unfold create
  refine (Alike.liftExcept .refl).bind fun _ _ _ => (Alike.liftExcept hrefuse).bind fun _ _ _ => ?_
  rw [hpairs]
  refine (Strategy.alike_setup_rescaled hatol hp.loss hoperators).bind fun strategy strategy' hstrategy => ?_
  have hterms : Alike names
      (fun ts ts' => ts' = ts.map (·.rescaled c) ∧ ∀ t ∈ ts, t.Named names)
      (Problem.terms p.start p.penalties p.operators p.weights : Eval K ℝ _)
      (Problem.terms (p.rescaled c).start (p.rescaled c).penalties (p.rescaled c).operators
        (p.rescaled c).weights) := by
    show Alike names _ _ (Problem.terms p.start (p.penalties.map (.multiple c)) p.operators
      (p.weights.map (c * ·)))
    rw [Problem.terms_rescaled]
    refine ((Problem.steady_terms p.start hnamed).alike_map _).and_ensures
      ((Problem.ensures_terms_mem p.start hnamed).mono fun ts hts t ht => ?_)
    obtain ⟨hpenalty, hoperator, -⟩ := hts t ht
    exact ⟨hnamed _ hoperator, hp.penalties _ hpenalty⟩
  refine hterms.bind ?_
  rintro ts _ ⟨rfl, hts⟩
  exact .pure ⟨rfl, rfl, rfl, htol, hstrategy, rfl, rfl, rfl, rfl, hp.f, hts⟩

namespace IsRescaling

/-- Results of which the second ones are multiplied are taken over. -/
theorem commit (h : s.IsRescaling names c s') {r r' : StepResult K ℝ ℝ} (hr : r' = r.rescaled c)
    (hbefore : r.updates.map (·.before) = s.terms) :
    (Solver.commit s r).IsRescaling names c (Solver.commit s' r') := by
  subst hr
  have hstate (iteration : ℕ) : nextState s'.config iteration (r.rescaled c).diagnostics =
      nextState s.config iteration r.diagnostics := by
    unfold nextState
    rw [h.config, h.tolerance]
  refine ⟨h.f, ?_, h.config, h.tolerance, h.strategy, rfl, ?_, ?_, ?_, h.named_f, fun t ht => ?_⟩
  · show (r.updates.map (·.rescaled c)).map TermUpdate.after =
      (r.updates.map TermUpdate.after).map (·.rescaled c)
    rw [List.map_map, List.map_map]
    rfl
  · show s'.iteration + 1 = s.iteration + 1
    rw [h.iteration]
  · show nextState s'.config (s'.iteration + 1) (r.rescaled c).diagnostics =
      nextState s.config (s.iteration + 1) r.diagnostics
    rw [hstate, h.iteration]
  · rw [history_commit, history_commit, hstate, h.config, h.iteration, statistics_rescaled]
    split
    · exact congrArg (((statistics (s.iteration + 1) r).rescaled c) :: ·) h.newest
    · exact h.newest
  · obtain ⟨update, hupdate, rfl⟩ := List.mem_map.mp ht
    have hmem : update.before ∈ s.terms := hbefore ▸ List.mem_map_of_mem hupdate
    exact ⟨(h.named_terms _ hmem).operator, (h.named_terms _ hmem).penalty⟩

/-- Solvers with their states, strategies and timings replaced. -/
theorem replace (h : s.IsRescaling names c s') (state : RunState) {strategy strategy' : Strategy K ℝ ℝ}
    (hstrategy : strategy.IsRescaling names c strategy') (timing timing' : Timing ℝ) :
    ({ s with state := state, strategy := strategy, timing := timing } : Solver K ℝ ℝ).IsRescaling
      names c { s' with state := state, strategy := strategy', timing := timing' } :=
  ⟨h.f, h.terms, h.config, h.tolerance, hstrategy, h.x, h.iteration, rfl, h.newest, h.named_f,
    h.named_terms⟩

theorem alikeCalls_step (hc : 0 < c) (h : s.IsRescaling names c s') :
    AlikeCalls names Eq (IsRescaling names c) s.step s'.step := by
  have hcouplings : s'.xUpdate.couplings = s.xUpdate.couplings.map (Coupling.rescaled c) := by
    show s'.terms.map Term.coupling = (s.terms.map Term.coupling).map (Coupling.rescaled c)
    rw [h.terms, List.map_map, List.map_map]
    rfl
  have hnamed : ∀ k ∈ s.xUpdate.couplings, k.operator.Named names := by
    intro k hk
    obtain ⟨t, ht, rfl⟩ := List.mem_map.mp hk
    exact (h.named_terms t ht).operator
  have hsolve : AlikeCalls names (fun r r' => r' = r.rescaled c) (Strategy.IsRescaling names c)
      (s.strategy.solve s.xUpdate s.x) (s'.strategy.solve s'.xUpdate s'.x) := by
    rw [h.x]
    exact h.strategy.alikeCalls_solve hc hcouplings hnamed s.x
  refine Solver.alikeCalls_step
    (q := fun r r' => r' = r.rescaled c ∧ r.updates.map (·.before) = s.terms) h.state.symm h hsolve ?_
    (fun _ _ _ _ hstrategy => h.replace .running hstrategy _ _)
    (fun _ _ _ _ _ _ hstrategy hr => (h.replace .running hstrategy _ _).commit hr.1 hr.2)
  rintro report _ rfl
  rw [h.f, h.terms, h.iteration, Iterate.finish_rescaled hc]
  exact ((steady_finish h.named_f h.named_terms _ report).alike_map _).and_ensures
    (Iterate.ensures_before h.named_f h.named_terms _ report)

end IsRescaling

theorem isLockstep_isRescaling (names : Naming K) (hc : 0 < c) :
    IsLockstep names (IsRescaling names c) where
  x h := h.x.symm
  state h := h.state.symm
  iteration h := h.iteration.symm
  config h := h.config.symm
  step h := h.alikeCalls_step hc
  ended h := h.replace .maxIterReached h.strategy _ _

/-- A run does not change when the objective is multiplied by a positive number, and all weights with
it.  The x-updates are linear solves with a relative tolerance, and the run has no tolerance.

* The positive multiples of functionals are those that the library makes.
* A solver is made for the one problem if it is made for the other one.
* After the same calls both solvers have the same iterate, split and dual variables, state and iteration
  number.  The rows of the histories are the same up to the objective, the dual residual and the
  residual of the linear solve, which are multiplied.
* The next call fails for the one problem if it fails for the other one. -/
theorem rescaled_run (hc : 0 < c) (hp : p.IsScalable names) (hatol : options.atol = 0)
    (htol : config.stopTolerance = none) :
    (∀ f : Functional K ℝ ℝ, f.scaled c = .ok (.multiple c f)) ∧
    (∀ t t' : Trace K ℝ, t.Faithful names → t'.Faithful names →
      ((∃ s, ((create p config (.ofOptions options)).run t).1 = .ok s) ↔
        ∃ s', ((create (p.rescaled c) config (.ofOptions options)).run t').1 = .ok s')) ∧
    ∀ (s s' : Solver K ℝ ℝ) (t t' : Trace K ℝ),
      Abreast names p (p.rescaled c) config config (.ofOptions options) (.ofOptions options) s t s' t' →
        s'.x = s.x ∧ s'.terms.map (·.z) = s.terms.map (·.z) ∧
        s'.terms.map (·.u) = s.terms.map (·.u) ∧ s'.state = s.state ∧
        s'.iteration = s.iteration ∧
        s'.history.records = s.history.records.map (·.rescaled c) ∧
        Corresponds Eq (s.step t).1.1 (s'.step t').1.1 ∧
        Corresponds Eq (s.solve t).1.1 (s'.solve t').1.1 := by
  have hcreate : Alike names (IsRescaling names c) (create p config (.ofOptions options))
      (create (p.rescaled c) config (.ofOptions options)) := alike_create_rescaled hc hp hatol htol
  refine ⟨fun f => ?_, fun t t' ht ht' => (hcreate t t' ht ht').1.isOk_iff,
    fun s s' t t' habreast => ?_⟩
  · rw [Functional.scaled, if_pos ((Problem.isPositive_iff c).mpr hc)]
  have hlockstep := isLockstep_isRescaling names hc
  obtain ⟨h, ht, ht'⟩ := hlockstep.related hcreate habreast
  have hz : s'.terms.map (·.z) = s.terms.map (·.z) := by
    rw [h.terms, List.map_map]
    rfl
  have hu : s'.terms.map (·.u) = s.terms.map (·.u) := by
    rw [h.terms, List.map_map]
    rfl
  have hrecords : s'.history.records = s.history.records.map (·.rescaled c) := by
    rw [History.records, History.records, h.newest, List.map_reverse]
  exact ⟨h.x, hz, hu, h.state, h.iteration, hrecords, (hlockstep.step h t t' ht ht').1,
    (hlockstep.solve h t t' ht ht').1⟩

theorem isScalable_singularProblem : singularProblem.IsScalable LinearOperator.anyNaming where
  f := isPlain_pairDifference.isLinear.named
  loss l hl := by
    cases hl
    exact isPlain_pairDifference.isLinear
  penalties := List.forall_mem_singleton.mpr trivial
  operators := List.forall_mem_singleton.mpr isPlain_pairDifference.isLinear

/-- Two solvers, one of a problem with singular normal equations and one of three times this problem,
after a successful step. -/
theorem rescaled_run_singularProblem : (0 : ℝ) < 3 ∧
    singularProblem.IsScalable LinearOperator.anyNaming ∧
    (CgOptions.default : CgOptions ℝ).atol = 0 ∧
    (Config.default : Config ℝ).stopTolerance = none ∧
    ∃ (s s₁ s₁' : Solver ℝ ℝ ℝ) (t t₁ t₁' : Trace ℝ ℝ), s.step t = ((.ok (), s₁), t₁) ∧
      Abreast LinearOperator.anyNaming singularProblem (singularProblem.rescaled 3) .default .default
        (.ofOptions .default) (.ofOptions .default) s₁ t₁ s₁' t₁' ∧
      s₁'.x = s₁.x ∧ s₁'.terms.map (·.z) = s₁.terms.map (·.z) ∧
      s₁'.terms.map (·.u) = s₁.terms.map (·.u) ∧
      s₁'.history.records = s₁.history.records.map (·.rescaled 3) := by
  have hthree : (0 : ℝ) < 3 := by norm_num
  have hatol : (CgOptions.default : CgOptions ℝ).atol = 0 := rfl
  have hdefault : (Config.default : Config ℝ).fault? = none := rfl
  have htol : (Config.default : Config ℝ).stopTolerance = none := rfl
  obtain ⟨s, t, hcreate, hrunning⟩ := exists_create isLeastSquares_singularProblem.toHasEquations
    hdefault fault?_singularProblem .default .empty
  have hreachable : Reachable singularProblem .default (.ofOptions .default) s := .create hcreate
  obtain ⟨s₁, t₁, hstep⟩ :=
    hreachable.exists_step isLeastSquares_singularProblem hatol.ge hrunning t
  have hempty : (Trace.empty : Trace ℝ ℝ).Faithful LinearOperator.anyNaming :=
    Trace.faithful_empty _
  obtain ⟨s', hmade⟩ := ((rescaled_run hthree isScalable_singularProblem hatol htol).2.1
    _ _ hempty hempty).mp ⟨s, congrArg Prod.fst hcreate⟩
  have habreast := (Abreast.create hempty hempty hcreate (Prod.ext hmade rfl)).step hstep rfl
  obtain ⟨hx, hz, hu, -, -, hrecords, -⟩ :=
    (rescaled_run hthree isScalable_singularProblem hatol htol).2.2 _ _ _ _ habreast
  exact ⟨hthree, isScalable_singularProblem, hatol, htol, s, s₁, _, t, t₁, _, hstep, habreast, hx, hz,
    hu, hrecords⟩

end Solver

end

end OperatorSplitting
