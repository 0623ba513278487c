import Mathlib
import OperatorSplitting.Proofs.Admm.Solve
import OperatorSplitting.Proofs.Linear.ShapeSoundness

/-!
# The life of a solver

A solver that was made from an accepted problem may be stepped and solved in any order, and any of
these calls may fail in any phase.  Nothing is asked of the functionals, of the closures, of an
external strategy or of the traces that the calls start from; only the operators must have shapes
that fit together.  What a single step can do is said once (`step_effect`): it refuses a finished run,
or it fails and leaves the variables as they were, or it takes over variables of the same shapes.  The
invariant `Sound` follows for every reachable solver (`Reachable.sound`).

A wrong shape of a proximal point does not reach the solver, as the dual update refuses it.
-/

namespace OperatorSplitting

open Eval

variable {K R W : Type} [Scalar K R W]

/-! ### The x-update keeps the shape -/

/-- The strategy is one of the library. -/
def Strategy.IsBuiltIn : Strategy K R W → Prop
  | .external _ _ => False
  | _ => True

section Strategies

variable [RealArithmetic R]

theorem CgState.ensures_step (a : LinearOperator K) (s : CgState K R) :
    Ensures (fun _ => True) (s.step a : Eval K W _) fun s' => s'.x.shape = s.x.shape := by
  refine (Ensures.trivial _).bind fun image _ => (Ensures.trivial _).bind fun d _ =>
    Ensures.ite (.throw _) ?_
  refine (Ensures.liftExcept _).bind fun x hx => (Ensures.trivial _).bind fun residual _ => ?_
  exact (Ensures.trivial _).bind fun direction _ => .pure (Signal.shape_of_zipMap hx)

namespace Descent

/-- A line search finds a point of the same shape. -/
theorem ensures_search (p : XUpdate K R W) (x g : Signal K) (phi gradientSqr : R) (tries : ℕ)
    (t : R) : Ensures (fun _ => True) (search p x g phi gradientSqr tries t) fun found =>
      ∀ q ∈ found, q.1.shape = x.shape := by
  induction tries generalizing t with
  | zero => exact .pure (by simp)
  | succ tries ih =>
    refine (Ensures.liftExcept _).bind fun candidate hcandidate =>
      (Ensures.trivial _).bind fun value _ => Ensures.ite (.pure ?_) (ih _)
    intro q hq
    cases Option.mem_some_iff.mp hq
    exact Signal.shape_of_zipMap hcandidate

theorem ensures_step (p : XUpdate K R W) (x : Signal K) (stepSize : R) :
    Ensures (fun _ => True) (step p x stepSize) fun found => ∀ q ∈ found, q.1.shape = x.shape := by
  refine (Ensures.trivial _).bind fun g _ => Ensures.ite (.pure (by simp)) ?_
  refine (Ensures.trivial _).bind fun phi _ =>
    (ensures_search p x g phi _ _ stepSize).bind fun found hfound => ?_
  exact Ensures.ite ((Ensures.trivial _).bind fun _ _ => .pure hfound) (.pure hfound)

/-- Gradient steps do not change the shape. -/
theorem shape_run (p : XUpdate K R W) (steps : ℕ) (x : Signal K) (stepSize : R) (t : Trace K W)
    {x' : Signal K} (h : (run p steps x stepSize t).1.1 = .ok x') : x'.shape = x.shape := by
  induction steps generalizing x stepSize t with
  | zero =>
    cases h
    rfl
  | succ steps ih =>
    have hstep := ((ensures_step p x stepSize) t trivial).2
    rw [run_succ] at h
    rcases hrun : (step p x stepSize).run t with ⟨r, t'⟩
    rw [hrun] at h hstep
    rcases r with e | (_ | ⟨next, size⟩)
    · cases h
    · cases h
      rfl
    · exact (ih next (size + size) t' h).trans (hstep _ rfl (next, size) rfl)

end Descent

variable [RealArithmetic W] [Widening R W]

theorem CgState.ensures_iterate (a : LinearOperator K) (threshold : W) (n : ℕ) (s : CgState K R) :
    Ensures (fun _ => True) (s.iterate a threshold n : Eval K W _) fun s' =>
      s'.x.shape = s.x.shape := by
  induction n generalizing s with
  | zero => exact .pure rfl
  | succ n ih =>
    unfold iterate
    refine Ensures.ite ((ensures_step a s).bind fun s' hs' => ?_) (.pure rfl)
    exact (ih s').mono fun s'' hs'' => hs''.trans hs'

/-- A linear solve does not change the shape. -/
theorem ensures_conjugateGradient (a : LinearOperator K) (b x : Signal K) (options : CgOptions W) :
    Ensures (fun _ => True) (conjugateGradient a b x options : Eval K W _) fun r =>
      r.1.shape = x.shape := by
  have hstart : Ensures (fun _ => True) (CgState.start a b x : Eval K W (CgState K R)) fun s =>
      s.x = x :=
    (Ensures.trivial _).bind fun _ _ => (Ensures.trivial _).bind fun _ _ => .pure rfl
  unfold conjugateGradient
  refine Ensures.ite (.throw _) (Ensures.ite (.throw _) (hstart.bind fun s hs => ?_))
  refine (CgState.ensures_iterate a _ _ s).bind fun s' hs' => .pure ?_
  rw [hs', hs]

/-- A strategy of the library stays one and keeps the shape. -/
theorem Strategy.solve_builtIn {s : Strategy K R W} (hs : s.IsBuiltIn) (p : XUpdate K R W)
    (x : Signal K) (t : Trace K W) :
    (s.solve p x t).1.2.IsBuiltIn ∧
      ∀ report, (s.solve p x t).1.1 = .ok report → report.x.shape = x.shape := by
  cases s with
  | descent steps stepSize =>
    refine ⟨trivial, fun report h => ?_⟩
    obtain ⟨x', hx', rfl⟩ := Except.map_eq_ok_iff.mp
      (show (Descent.run p steps x stepSize t).1.1.map _ = .ok report from h)
    exact Descent.shape_run p steps x stepSize t hx'
  | leastSquares options equations =>
    cases equations with
    | none =>
      refine ⟨trivial, fun report h => ?_⟩
      cases h
    | some equations =>
      have hsolve : Ensures (fun _ => True) (equations.solve options p.couplings x) fun report =>
          report.x.shape = x.shape := by
        refine (Ensures.trivial _).bind fun rhs _ =>
          (ensures_conjugateGradient _ rhs x options).bind fun solved hsolved => ?_
        exact Ensures.ite ((Ensures.trivial _).bind fun _ _ => .pure hsolved) (.pure hsolved)
      exact ⟨trivial, (hsolve t trivial).2⟩
  | external e solves => exact hs.elim

/-- A strategy after any number of solves. -/
def Strategy.Follows : Strategy K R W → Strategy K R W → Prop :=
  Relation.ReflTransGen fun s s' => ∃ p x t, (s.solve p x t).1.2 = s'

theorem Strategy.Follows.isBuiltIn {s s' : Strategy K R W} (h : s.Follows s') (hs : s.IsBuiltIn) :
    s'.IsBuiltIn := by
  induction h with
  | refl => exact hs
  | tail _ hstep ih =>
    obtain ⟨p, x, t, rfl⟩ := hstep
    exact (Strategy.solve_builtIn ih p x t).1

end Strategies

/-! ### Accepted problems -/

namespace Problem

omit [Scalar K R W] in
theorem operatorFault?_eq_none_iff {start : Shape} {cs : List (LinearOperator K)} {i : ℕ} :
    operatorFault? start cs i = none ↔ ∀ c ∈ cs, c.input = start := by
  induction cs generalizing i with
  | nil => exact iff_of_true rfl (List.forall_mem_nil _)
  | cons c cs ih =>
    rw [operatorFault?, List.forall_mem_cons]
    split
    · next hc => rw [ih, and_iff_right hc]
    · next hc => exact iff_of_false (Option.some_ne_none _) fun h => hc h.1

variable [RealArithmetic R]

omit [Scalar K R W] in
theorem weightFault?_eq_none_iff {rs : List R} {i : ℕ} :
    weightFault? rs i = none ↔ ∀ r ∈ rs, RealArithmetic.isPositive r = true := by
  induction rs generalizing i with
  | nil => exact iff_of_true rfl (List.forall_mem_nil _)
  | cons r rs ih =>
    rw [weightFault?, List.forall_mem_cons]
    split
    · next hr => rw [ih, and_iff_right hr]
    · next hr => exact iff_of_false (Option.some_ne_none _) fun h => hr h.1

/-- What is asked of a problem. -/
theorem fault?_eq_none_iff {p : Problem K R W} : p.fault? = none ↔
    (p.penalties.length = p.operators.length ∧ p.penalties.length = p.weights.length) ∧
      (∀ c ∈ p.operators, c.input = p.start.shape) ∧
      (∀ r ∈ p.weights, RealArithmetic.isPositive r = true) ∧ p.f.isSmooth = true ∧
      ∀ g ∈ p.penalties, g.hasProx = true := by
  have hprox : (p.penalties.find? fun g => !g.hasProx) = none ↔
      ∀ g ∈ p.penalties, g.hasProx = true := by
    simp
  rw [← operatorFault?_eq_none_iff (i := 0), ← weightFault?_eq_none_iff (i := 0), ← hprox]
  unfold fault?
  dsimp only
  split
  · next hlength => exact iff_of_false (Option.some_ne_none _) fun h => by omega
  · next hlength =>
    rw [and_iff_right (by omega)]
    cases operatorFault? p.start.shape p.operators 0 with
    | some fault => exact iff_of_false (Option.some_ne_none _) fun h => Option.some_ne_none _ h.1
    | none =>
      cases weightFault? p.weights 0 with
      | some fault => exact iff_of_false (Option.some_ne_none _) fun h => Option.some_ne_none _ h.2.1
      | none => cases p.f.isSmooth <;> simp

end Problem

namespace Solver

variable [RealArithmetic R] [RealArithmetic W] [Widening R W]

/-! ### Shapes in the phases of a step -/

omit [RealArithmetic R] [RealArithmetic W] [Widening R W] in
theorem ensures_images (x : Signal K) {ts : List (Term K R W)}
    (h : ∀ t ∈ ts, t.operator.WellShaped) :
    Ensures (fun _ => True) (images x ts : Eval K W _) fun ps =>
      ps.map Prod.fst = ts ∧ ∀ p ∈ ps, p.2.shape = p.1.operator.output := by
  induction ts with
  | nil => exact .pure ⟨rfl, List.forall_mem_nil _⟩
  | cons t ts ih =>
    obtain ⟨ht, hts⟩ := List.forall_mem_cons.mp h
    refine (LinearOperator.ensures_apply ht x).bind fun image himage =>
      (ih hts).bind fun ps hps => .pure ⟨?_, ?_⟩
    · rw [List.map_cons, hps.1]
    · exact List.forall_mem_cons.mpr ⟨himage, hps.2⟩

/-- Nothing is known of the proximal points. -/
theorem ensures_splitUpdates (ps : List (Term K R W × Signal K)) :
    Ensures (fun _ => True) (splitUpdates ps : Eval K W _) fun qs =>
      qs.map (fun q => (q.1, q.2.1)) = ps := by
  induction ps with
  | nil => exact .pure rfl
  | cons p ps ih =>
    refine (Ensures.trivial _).bind fun v _ => (Ensures.trivial _).bind fun z _ =>
      ih.bind fun qs hqs => .pure ?_
    rw [List.map_cons, hqs]

omit [RealArithmetic R] [RealArithmetic W] [Widening R W] in
/-- The dual updates go through only if the proximal points have the shapes of the images. -/
theorem shapes_of_dualUpdates {qs : List (Term K R W × Signal K × Signal K)}
    {us : List (TermUpdate K R W)} (h : dualUpdates qs = .ok us) :
    us.map (fun t => (t.before, t.image)) = qs.map (fun q => (q.1, q.2.1)) ∧
      ∀ t ∈ us, t.z.shape = t.image.shape ∧ t.u.shape = t.before.u.shape := by
  induction qs generalizing us with
  | nil =>
    cases h
    exact ⟨rfl, List.forall_mem_nil _⟩
  | cons q qs ih =>
    obtain ⟨gap, hgap, h⟩ := Except.bind_eq_ok_iff.mp h
    obtain ⟨u, hu, h⟩ := Except.bind_eq_ok_iff.mp h
    obtain ⟨rest, hrest, h⟩ := Except.bind_eq_ok_iff.mp h
    cases h
    obtain ⟨hmap, hall⟩ := ih hrest
    refine ⟨by rw [List.map_cons, List.map_cons, hmap], List.forall_mem_cons.mpr ⟨?_, hall⟩⟩
    exact ⟨(Signal.shape_eq_of_zipMap hgap).symm, Signal.shape_of_zipMap hu⟩

/-- The results of a step belong to the terms before it and have the shapes of their variables. -/
structure StepResult.Fits (s : Solver K R W) (r : StepResult K R W) : Prop where
  before : r.updates.map (·.before) = s.terms
  z_shape : ∀ t ∈ r.updates, t.z.shape = t.before.operator.output
  u_shape : ∀ t ∈ r.updates, t.u.shape = t.before.u.shape
  x_shape : s.strategy.IsBuiltIn → r.report.x.shape = s.x.shape

/-- The split and dual updates fit the terms that they are made from. -/
theorem ensures_updates (x : Signal K) {ts : List (Term K R W)}
    (h : ∀ t ∈ ts, t.operator.WellShaped) :
    Ensures (fun _ => True) (do splitUpdates (← images x ts) : Eval K W _) fun qs =>
      ∀ us, dualUpdates qs = .ok us → us.map (·.before) = ts ∧
        ∀ t ∈ us, t.z.shape = t.before.operator.output ∧ t.u.shape = t.before.u.shape := by
  refine (ensures_images x h).bind fun ps hps =>
    (ensures_splitUpdates ps).mono fun qs hqs us hus => ?_
  obtain ⟨hmap, hall⟩ := shapes_of_dualUpdates hus
  rw [hqs] at hmap
  refine ⟨?_, fun t ht => ⟨?_, (hall t ht).2⟩⟩
  · rw [← hps.1, ← hmap, List.map_map]
    rfl
  · have hmem : (t.before, t.image) ∈ ps := by
      rw [← hmap]
      exact List.mem_map_of_mem ht
    exact (hall t ht).1.trans (hps.2 _ hmem)

/-! ### Computations inside a step -/

/-- The strategy is the first one after some solves. -/
def Carried.Follows (first : Strategy K R W) (c : Carried K R W) : Prop := first.Follows c.strategy

namespace Attempt

variable {α : Type} {first : Strategy K R W}

theorem follows_timed (phase : String) {m : Attempt K R W α} {p : α → Prop}
    (hm : Ensures (Carried.Follows first) m p) :
    Ensures (Carried.Follows first) (timed phase m) p := hm

/-- An evaluation does not touch the strategy. -/
theorem follows_lift {m : Eval K W α} {p : α → Prop} (hm : Ensures (fun _ => True) m p) :
    Ensures (Carried.Follows first) (lift m : Attempt K R W α) p :=
  fun c hc => ⟨hc, (hm c.trace trivial).2⟩

end Attempt

/-- All phases of a step. -/
theorem attempt_fits {s : Solver K R W} (h : ∀ t ∈ s.terms, t.operator.WellShaped) :
    Ensures (Carried.Follows s.strategy) (attempt s) (StepResult.Fits s) := by
  have hmodify : Ensures (Carried.Follows s.strategy)
      (modify fun c => { c with timing := c.timing.startIteration } : Attempt K R W PUnit)
      fun _ => True := fun c hc => ⟨hc, fun _ _ => trivial⟩
  have hsolve : Ensures (Carried.Follows s.strategy)
      (Attempt.solve s.xUpdate s.x) fun report =>
        s.strategy.IsBuiltIn → report.x.shape = s.x.shape := by
    intro c hc
    exact ⟨hc.tail ⟨s.xUpdate, s.x, c.trace, rfl⟩, fun report hreport hs =>
      (Strategy.solve_builtIn (hc.isBuiltIn hs) s.xUpdate s.x c.trace).2 report hreport⟩
  refine hmodify.bind fun _ _ => ?_
  refine (Attempt.follows_timed "update_x" hsolve).bind fun report hreport =>
    Ensures.ite (.throw _) ?_
  refine (Attempt.follows_timed "update_z"
    (Attempt.follows_lift (ensures_updates report.x h))).bind fun splits hsplits => ?_
  refine (Attempt.follows_timed "update_u"
    (Attempt.follows_lift (.liftExcept _))).bind fun updates hduals => ?_
  refine (Attempt.follows_timed "diagnostics"
    (Attempt.follows_lift (.trivial _))).bind fun d _ => .pure ?_
  obtain ⟨hbefore, hall⟩ := hsplits updates hduals
  exact ⟨hbefore, fun t ht => (hall t ht).1, fun t ht => (hall t ht).2, hreport⟩

/-! ### Steps -/

/-- What a step can do, whatever fails in it.  A finished run is refused; otherwise the run is
running, and either the step has failed and only the strategy and the timing have changed, or its
results have been taken over. -/
theorem step_effect {s s' : Solver K R W} {t t' : Trace K W} {result : Except Error Unit}
    (hs : ∀ t ∈ s.terms, t.operator.WellShaped) (h : s.step t = ((result, s'), t')) :
    (s.state.isTerminal = true ∧ s' = s ∧ t' = t ∧
      result = .error (.configuration (.alreadyTerminated s.state s.iteration))) ∨
    (s.state.isTerminal = false ∧ ∃ strategy timing,
      s.strategy.Follows strategy ∧
      ((∃ e, result = .error e ∧
          s' = { s with state := .running, strategy := strategy, timing := timing }) ∨
        ∃ r, result = .ok () ∧ r.Fits s ∧
          s' = commit { s with state := .running, strategy := strategy, timing := timing } r)) := by
  unfold step at h
  by_cases hterminal : s.state.isTerminal = true
  · rw [if_pos hterminal] at h
    cases h
    exact .inl ⟨hterminal, rfl, rfl, rfl⟩
  · rw [if_neg hterminal] at h
    obtain ⟨hkeep, hpost⟩ := attempt_fits hs ⟨s.strategy, s.timing, t⟩ .refl
    rcases hrun : (attempt s).run ⟨s.strategy, s.timing, t⟩ with ⟨r, c⟩
    rw [hrun] at hkeep hpost h
    refine .inr ⟨by simpa using hterminal, c.strategy, c.timing, hkeep, ?_⟩
    cases r with
    | error e =>
      cases h
      exact .inl ⟨e, rfl, rfl⟩
    | ok r =>
      cases h
      exact .inr ⟨r, rfl, hpost r rfl, rfl⟩

/-! ### Reachable solvers -/

/-- A solver that was made from a problem and then stepped or solved any number of times, each time
from any trace, whether the calls succeeded or failed. -/
inductive Reachable (p : Problem K R W) (config : Config W) (strategy : Strategy K R W) :
    Solver K R W → Prop
  | create {s t t'} : (create p config strategy).run t = (.ok s, t') →
      Reachable p config strategy s
  | step {s s' t t' result} : Reachable p config strategy s →
      s.step t = ((result, s'), t') → Reachable p config strategy s'
  | solve {s s' t t' result} : Reachable p config strategy s →
      s.solve t = ((result, s'), t') → Reachable p config strategy s'

/-- What holds of every reachable solver: it has the terms of the problem with variables of the
output shapes, a run that goes on has iterations left, and only a tolerance lets a run converge. -/
structure Sound (p : Problem K R W) (config : Config W) (strategy : Strategy K R W)
    (s : Solver K R W) : Prop where
  f_eq : s.f = p.f
  config_eq : s.config = config
  penalties : s.terms.map (·.penalty) = p.penalties
  operators : s.terms.map (·.operator) = p.operators
  weights : s.terms.map (·.weight) = p.weights
  z_shape : ∀ t ∈ s.terms, t.z.shape = t.operator.output
  u_shape : ∀ t ∈ s.terms, t.u.shape = t.operator.output
  builtIn : strategy.IsBuiltIn → s.strategy.IsBuiltIn
  x_shape : strategy.IsBuiltIn → s.x.shape = p.start.shape
  iteration_lt : s.state.isTerminal = false → 1 ≤ s.iteration → s.iteration < config.maxIter
  tolerance : s.state = .converged → config.stopTolerance ≠ none

omit [RealArithmetic W] [Widening R W] in
/-- An accepted problem has operators that take signals of the shape of its starting point. -/
theorem inputs_of_fault? {p : Problem K R W} (h : p.fault? = none) :
    ∀ c ∈ p.operators, c.input = p.start.shape :=
  (Problem.fault?_eq_none_iff.mp h).2.1

omit [RealArithmetic W] [Widening R W] in
/-- An accepted problem has as many penalties as operators and weights. -/
theorem length_of_fault? {p : Problem K R W} (h : p.fault? = none) :
    p.penalties.length = p.operators.length ∧ p.penalties.length = p.weights.length :=
  (Problem.fault?_eq_none_iff.mp h).1

omit [RealArithmetic R] [RealArithmetic W] [Widening R W] in
/-- The terms at a starting point. -/
theorem ensures_terms_fit (start : Signal K) {gs : List (Functional K R W)}
    {cs : List (LinearOperator K)} {weights : List R} (hcs : gs.length = cs.length)
    (hweights : gs.length = weights.length) (hshaped : ∀ c ∈ cs, c.WellShaped) :
    Ensures (fun _ => True) (Problem.terms start gs cs weights : Eval K W _) fun ts =>
      (ts.map (·.penalty) = gs ∧ ts.map (·.operator) = cs ∧ ts.map (·.weight) = weights) ∧
        ∀ t ∈ ts, t.z.shape = t.operator.output ∧ t.u.shape = t.operator.output := by
  induction gs generalizing cs weights with
  | nil =>
    cases List.length_eq_zero_iff.mp hcs.symm
    cases List.length_eq_zero_iff.mp hweights.symm
    exact .pure ⟨⟨rfl, rfl, rfl⟩, List.forall_mem_nil _⟩
  | cons g gs ih =>
    cases cs with
    | nil => cases hcs
    | cons c cs =>
      cases weights with
      | nil => cases hweights
      | cons weight weights =>
        obtain ⟨hc, hshaped⟩ := List.forall_mem_cons.mp hshaped
        refine (LinearOperator.ensures_apply hc start).bind fun z hz =>
          (ih (Nat.succ.inj hcs) (Nat.succ.inj hweights) hshaped).bind fun ts hts => .pure ?_
        obtain ⟨⟨hg, hop, hw⟩, hall⟩ := hts
        refine ⟨⟨?_, ?_, ?_⟩, List.forall_mem_cons.mpr ⟨⟨hz, Signal.shape_replicate _ _⟩, hall⟩⟩
        · rw [List.map_cons, hg]
        · rw [List.map_cons, hop]
        · rw [List.map_cons, hw]

omit [RealArithmetic W] [Widening R W] in
theorem builtIn_of_setup {strategy strategy' : Strategy K R W} {f : Functional K R W}
    {operators : List (LinearOperator K × R)} {t t' : Trace K W} (hs : strategy.IsBuiltIn)
    (h : (strategy.setup f operators).run t = (.ok strategy', t')) : strategy'.IsBuiltIn := by
  have hsetup : Ensures (fun _ => True) (strategy.setup f operators) Strategy.IsBuiltIn := by
    cases strategy with
    | descent steps stepSize =>
      exact Ensures.ite (.throw _) ((Ensures.trivial _).bind fun _ _ => .pure trivial)
    | leastSquares options equations =>
      unfold Strategy.setup
      dsimp only
      split
      · exact .throw _
      · exact (Ensures.trivial _).bind fun _ _ => .pure trivial
    | external e solves => exact hs.elim
  exact (hsetup.of_run h trivial).2

variable {p : Problem K R W} {config : Config W} {strategy : Strategy K R W}

omit [Widening R W] in
/-- A solver that is made from a problem is sound. -/
theorem sound_create (hp : ∀ c ∈ p.operators, c.WellShaped) {s : Solver K R W} {t t' : Trace K W}
    (h : (create p config strategy).run t = (.ok s, t')) : s.Sound p config strategy := by
  obtain ⟨-, hfault, strategy', t₁, hsetup, ts, hterms, rfl⟩ := run_create_eq_ok_iff.mp h
  obtain ⟨hcs, hweights⟩ := length_of_fault? hfault
  obtain ⟨-, ⟨hg, hop, hw⟩, hall⟩ :=
    (ensures_terms_fit p.start hcs hweights hp).of_run hterms trivial
  exact {
    f_eq := rfl
    config_eq := rfl
    penalties := hg
    operators := hop
    weights := hw
    z_shape := fun t ht => (hall t ht).1
    u_shape := fun t ht => (hall t ht).2
    builtIn := fun hs => builtIn_of_setup hs hsetup
    x_shape := fun _ => rfl
    iteration_lt := fun _ h => absurd h (Nat.not_succ_le_zero 0)
    tolerance := fun h => nomatch h }

omit [Scalar K R W] [RealArithmetic R] [RealArithmetic W] [Widening R W] in
theorem Sound.wellShaped (hp : ∀ c ∈ p.operators, c.WellShaped) {s : Solver K R W}
    (h : s.Sound p config strategy) : ∀ t ∈ s.terms, t.operator.WellShaped := by
  intro t ht
  apply hp
  rw [← h.operators]
  exact List.mem_map_of_mem ht

omit [Scalar K R W] [RealArithmetic R] [Widening R W] in
/-- A run that goes on after an iteration has iterations left. -/
theorem lt_maxIter_of_nextState {iteration : ℕ} {d : Diagnostics W}
    (h : (nextState config iteration d).isTerminal = false) : iteration < config.maxIter := by
  unfold nextState at h
  dsimp only at h
  split_ifs at h with hreached hmax
  · cases h
  · cases h
  · exact not_le.mp hmax

omit [Scalar K R W] [RealArithmetic R] [Widening R W] in
/-- Only a tolerance lets a run converge. -/
theorem stopTolerance_of_nextState {iteration : ℕ} {d : Diagnostics W}
    (h : nextState config iteration d = .converged) : config.stopTolerance ≠ none := by
  intro hnone
  unfold nextState at h
  rw [hnone] at h
  simp only [Bool.false_eq_true, if_false] at h
  split at h <;> cases h

omit [Scalar K R W] [RealArithmetic R] [RealArithmetic W] [Widening R W] in
/-- The terms that a step leaves behind are the terms before it with other variables. -/
theorem StepResult.Fits.map_after {s : Solver K R W} {r : StepResult K R W} (h : r.Fits s)
    {β : Type} (f : Term K R W → β) (hf : ∀ t : TermUpdate K R W, f t.after = f t.before) :
    (r.updates.map TermUpdate.after).map f = s.terms.map f := by
  rw [← h.before, List.map_map, List.map_map]
  exact List.map_congr_left fun t _ => hf t

/-- A step keeps a solver sound. -/
theorem Sound.step (hp : ∀ c ∈ p.operators, c.WellShaped) {s s' : Solver K R W} {t t' : Trace K W}
    {result : Except Error Unit} (hs : s.Sound p config strategy)
    (h : s.step t = ((result, s'), t')) : s'.Sound p config strategy := by
  rcases step_effect (hs.wellShaped hp) h with
    ⟨-, rfl, -⟩ | ⟨hrunning, strategy', timing, hfollows, hcases⟩
  · exact hs
  · rcases hcases with ⟨e, -, rfl⟩ | ⟨r, -, hr, rfl⟩
    -- A failed step leaves a running solver, whose bounds hold as they did before.
    · exact { hs with
        builtIn := fun h => hfollows.isBuiltIn (hs.builtIn h)
        iteration_lt := fun _ => hs.iteration_lt hrunning
        tolerance := fun h => nomatch h }
    · have hbefore : ∀ t ∈ r.updates, t.before ∈ s.terms := by
        intro t ht
        rw [← hr.before]
        exact List.mem_map_of_mem ht
      exact {
        f_eq := hs.f_eq
        config_eq := hs.config_eq
        penalties := (hr.map_after (·.penalty) fun _ => rfl).trans hs.penalties
        operators := (hr.map_after (·.operator) fun _ => rfl).trans hs.operators
        weights := (hr.map_after (·.weight) fun _ => rfl).trans hs.weights
        z_shape := by
          intro t ht
          obtain ⟨update, hupdate, rfl⟩ := List.mem_map.mp ht
          exact hr.z_shape update hupdate
        u_shape := by
          intro t ht
          obtain ⟨update, hupdate, rfl⟩ := List.mem_map.mp ht
          exact (hr.u_shape update hupdate).trans (hs.u_shape _ (hbefore update hupdate))
        builtIn := fun h => hfollows.isBuiltIn (hs.builtIn h)
        x_shape := fun h => (hr.x_shape (hs.builtIn h)).trans (hs.x_shape h)
        iteration_lt := by
          intro h _
          rw [← hs.config_eq]
          exact lt_maxIter_of_nextState h
        tolerance := by
          intro h
          rw [← hs.config_eq]
          exact stopTolerance_of_nextState h }

omit [Scalar K R W] [RealArithmetic R] [RealArithmetic W] [Widening R W] in
/-- A run that has ended is as sound as before. -/
theorem Sound.ended {s : Solver K R W} (hs : s.Sound p config strategy) :
    ({ s with state := .maxIterReached } : Solver K R W).Sound p config strategy :=
  { hs with
    iteration_lt := fun h => nomatch h
    tolerance := fun h => nomatch h }

/-- What holds of a solver when it is made, and is kept by steps and by the end of a run, holds of
every reachable solver. -/
theorem Reachable.invariant {P : Solver K R W → Prop}
    (hcreate : ∀ {s t t'}, (Solver.create p config strategy).run t = (.ok s, t') → P s)
    (hstep : ∀ {s s' t t' result}, P s → s.step t = ((result, s'), t') → P s')
    (hend : ∀ {s : Solver K R W}, P s → P { s with state := .maxIterReached })
    {s : Solver K R W} (h : s.Reachable p config strategy) : P s := by
  induction h with
  | create hmade => exact hcreate hmade
  | step _ hrun ih => exact hstep ih hrun
  | @solve s s' t t' result _ hsolve ih =>
    have hstart : P (if s.config.maxIter ≤ s.iteration && !s.state.isTerminal then
        { s with state := .maxIterReached } else s) := by
      split
      · exact hend ih
      · exact ih
    exact solveWithin_preserves (P := fun s _ => P s) hstep hstart hsolve

/-- Every reachable solver is sound. -/
theorem Reachable.sound (hp : ∀ c ∈ p.operators, c.WellShaped) {s : Solver K R W}
    (h : s.Reachable p config strategy) : s.Sound p config strategy :=
  h.invariant (sound_create hp) (fun hs hstep => hs.step hp hstep) fun hs => hs.ended

/-- The life of a solver, whatever calls came before and whatever failed in them.

* The split and dual variables are as many as the operators and have their output shapes; with a
  strategy of the library the iterate has the shape of the starting point.
* A step that succeeds is one iteration; a step that fails changes no variable, neither the iteration
  number nor the history.
* A run that goes on after an iteration has iterations left, and only a tolerance lets a run converge.
* A finished run refuses steps and returns its iterate when it is solved; neither changes anything. -/
theorem reachable_lifecycle (hp : ∀ c ∈ p.operators, c.WellShaped) {s : Solver K R W}
    (h : s.Reachable p config strategy) :
    (s.terms.map (·.z.shape) = p.operators.map (·.output) ∧
      s.terms.map (·.u.shape) = p.operators.map (·.output) ∧
      (strategy.IsBuiltIn → s.x.shape = p.start.shape)) ∧
    (∀ s' t t', s.step t = ((.ok (), s'), t') → s'.iteration = s.iteration + 1) ∧
    (∀ e s' t t', s.step t = ((.error e, s'), t') → s'.x = s.x ∧ s'.terms = s.terms ∧
      s'.iteration = s.iteration ∧ s'.history = s.history) ∧
    (s.state.isTerminal = false → 1 ≤ s.iteration → s.iteration < config.maxIter) ∧
    (s.state = .converged → config.stopTolerance ≠ none) ∧
    (s.state.isTerminal = true → ∀ t,
      s.step t = ((.error (.configuration (.alreadyTerminated s.state s.iteration)), s), t) ∧
        s.solve t = ((.ok s.x, s), t)) := by
  have hs := h.sound hp
  have hshaped := hs.wellShaped hp
  refine ⟨⟨?_, ?_, hs.x_shape⟩, fun s' t t' hstep => ?_, fun e s' t t' hstep => ?_,
    hs.iteration_lt, hs.tolerance, fun hterminal t => ⟨?_, ?_⟩⟩
  · rw [← hs.operators, List.map_map]
    exact List.map_congr_left hs.z_shape
  · rw [← hs.operators, List.map_map]
    exact List.map_congr_left hs.u_shape
  · rcases step_effect hshaped hstep with ⟨-, -, -, hrefused⟩ | ⟨-, strategy', timing, -, hcases⟩
    · cases hrefused
    · rcases hcases with ⟨e, herror, -⟩ | ⟨r, -, -, rfl⟩
      · cases herror
      · rfl
  · rcases step_effect hshaped hstep with ⟨-, rfl, -⟩ | ⟨-, strategy', timing, -, hcases⟩
    · exact ⟨rfl, rfl, rfl, rfl⟩
    · rcases hcases with ⟨e, -, rfl⟩ | ⟨r, hok, -⟩
      · exact ⟨rfl, rfl, rfl, rfl⟩
      · cases hok
  · unfold step
    rw [if_pos hterminal]
  · rw [solve_of_isTerminal hterminal, solveWithin_of_isTerminal hterminal]

end Solver

noncomputable section

namespace Solver

/-- The x-update stays where it is. -/
def restingStrategy : ExternalStrategy ℝ ℝ ℝ where
  setup _ _ := return ()
  solve _ _ x := return ⟨x, none⟩

/-- A functional whose proximal points have another shape than its arguments. -/
def misshapenPenalty : ExternalFunctional ℝ ℝ ℝ where
  name := "Misshapen"
  isSmooth := false
  hasEval := false
  hasProx := true
  squaredLoss? := none
  value _ := return 0
  prox _ _ := return .zeros (.vector 2)
  grad x := return x

/-- A problem that is accepted, although no step of it can succeed. -/
def misshapenProblem : Problem ℝ ℝ ℝ where
  f := .squaredL2
  penalties := [.external misshapenPenalty]
  operators := [.leaf (.identity (.vector 1))]
  weights := [1]
  start := .zeros (.vector 1)

/-- The solver that the problem makes. -/
def misshapenSolver : Solver ℝ ℝ ℝ where
  f := .squaredL2
  terms := [⟨.external misshapenPenalty, .leaf (.identity (.vector 1)), 1, .zeros (.vector 1),
    .zeros (.vector 1)⟩]
  config := .default
  strategy := .external restingStrategy []
  x := .zeros (.vector 1)
  iteration := 0
  state := .initialized
  history := .empty
  timing := Timing.empty.mark "setup"

theorem run_create_misshapen :
    (create misshapenProblem .default (.external restingStrategy [])).run .empty =
      (.ok misshapenSolver, .empty) := by
  have hfault : misshapenProblem.fault? = none := by
    simp [Problem.fault?, misshapenProblem, Problem.operatorFault?, Problem.weightFault?,
      Problem.isPositive_iff, Functional.isSmooth, Functional.hasProx, LinearOperator.input,
      Leaf.input, Signal.zeros, misshapenPenalty]
  unfold create
  rw [hfault]
  rfl

theorem step_misshapen : ∃ s t, misshapenSolver.step .empty =
    ((.error (.shapeMismatch "array subtraction" (.vector 1) (.vector 2)), s), t) := by
  unfold step attempt
  simp only [allFinite_eq_true]
  exact ⟨_, _, rfl⟩

theorem lifecycle_misshapen : ∃ s t, misshapenSolver.step .empty =
    ((.error (.shapeMismatch "array subtraction" (.vector 1) (.vector 2)), s), t) ∧
      s.x = .zeros (.vector 1) ∧ s.iteration = 0 ∧ s.terms.map (·.z.shape) = [.vector 1] := by
  have hshaped : ∀ c ∈ misshapenProblem.operators, c.WellShaped :=
    List.forall_mem_singleton.mpr trivial
  have hmade : misshapenSolver.Reachable misshapenProblem .default
      (.external restingStrategy []) := .create run_create_misshapen
  obtain ⟨s, t, hstep⟩ := step_misshapen
  obtain ⟨-, -, hfailed, -⟩ := reachable_lifecycle hshaped hmade
  obtain ⟨⟨hshapes, -⟩, -⟩ := reachable_lifecycle hshaped (hmade.step hstep)
  obtain ⟨hx, -, hiteration, -⟩ := hfailed _ s .empty t hstep
  exact ⟨s, t, hstep, hx, hiteration, hshapes⟩

end Solver

end

end OperatorSplitting
