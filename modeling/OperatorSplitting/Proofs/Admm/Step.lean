import OperatorSplitting.Proofs.Admm.Evaluation
import OperatorSplitting.Proofs.Linear.AdjointMaps

/-!
# What a step does

A step runs its phases one after the other, each on what the earlier ones left behind.  Its results
are described by outcomes alone: for every term the image of the new `x`, the proximal point and the
new dual variable, and the diagnostics of all of these (`StepResult.Follows`).  A step that fails
leaves the iterates, the iteration number and the history as they were (`step_cases`).
-/

namespace OperatorSplitting

open Eval RealArithmetic

variable {K R W : Type} [Scalar K R W] {names : Naming K}

/-- The operator and the penalty of a term use the closures that their numbers stand for. -/
structure Term.Named (names : Naming K) (t : Term K R W) : Prop where
  operator : t.operator.Named names
  penalty : t.penalty.Named names

namespace Solver

/-! ### Phases -/

section Phases

variable [RealArithmetic R] [RealArithmetic W] [Widening R W]

/-- The variables of a term after a step are made from those before it and the new `x`, in this
order: the image, the proximal point, and the dual variable. -/
structure TermUpdate.Follows (x : Signal K) (t : TermUpdate K R W) : Prop where
  image : (t.before.operator.apply x : Eval K W _).outcome = .ok t.image
  split : ∃ v, t.image.add t.before.u = .ok v ∧
    (t.before.penalty.prox v (1 / t.before.weight)).outcome = .ok t.z
  dual : ∃ gap, t.image.sub t.z = .ok gap ∧ t.before.u.add gap = .ok t.u

omit [RealArithmetic R] [RealArithmetic W] [Widening R W] in
theorem steady_images {ts : List (Term K R W)} (h : ∀ t ∈ ts, t.Named names) (x : Signal K) :
    Steady names (images x ts : Eval K W _) := by
  induction ts with
  | nil => exact .pure _
  | cons t ts ih =>
    obtain ⟨ht, hts⟩ := List.forall_mem_cons.mp h
    exact (LinearOperator.steady_apply ht.operator x).bind fun _ _ => (ih hts).bind fun _ _ =>
      .pure _

theorem steady_splitUpdates {ps : List (Term K R W × Signal K)} (h : ∀ p ∈ ps, p.1.Named names) :
    Steady names (splitUpdates ps : Eval K W _) := by
  induction ps with
  | nil => exact .pure _
  | cons p ps ih =>
    obtain ⟨hp, hps⟩ := List.forall_mem_cons.mp h
    exact (Steady.liftExcept _).bind fun v _ =>
      (Functional.steady_prox hp.penalty v _).bind fun _ _ => (ih hps).bind fun _ _ => .pure _

omit [RealArithmetic R] [RealArithmetic W] [Widening R W] in
theorem images_cons_eq_ok_iff {t : Term K R W} {ts : List (Term K R W)} {x : Signal K}
    {ps : List (Term K R W × Signal K)} (ht : t.Named names) (hts : ∀ t ∈ ts, t.Named names) :
    (images x (t :: ts) : Eval K W _).outcome = .ok ps ↔
      ∃ image rest, (t.operator.apply x : Eval K W _).outcome = .ok image ∧
        (images x ts : Eval K W _).outcome = .ok rest ∧ ps = (t, image) :: rest := by
  rw [images, (LinearOperator.steady_apply ht.operator x).outcome_bind
    fun _ _ => (steady_images hts x).bind fun _ _ => .pure _, Except.bind_eq_ok_iff]
  constructor
  · rintro ⟨image, himage, h⟩
    rw [(steady_images hts x).outcome_bind fun _ _ => .pure _, Except.bind_eq_ok_iff] at h
    obtain ⟨rest, hrest, h⟩ := h
    cases h
    exact ⟨image, rest, himage, hrest, rfl⟩
  · rintro ⟨image, rest, himage, hrest, rfl⟩
    refine ⟨image, himage, ?_⟩
    rw [(steady_images hts x).outcome_bind fun _ _ => .pure _, hrest]
    rfl

omit [RealArithmetic R] [RealArithmetic W] [Widening R W] in
theorem map_fst_images {ts : List (Term K R W)} {x : Signal K} {ps : List (Term K R W × Signal K)}
    (h : ∀ t ∈ ts, t.Named names) (himages : (images x ts : Eval K W _).outcome = .ok ps) :
    ps.map Prod.fst = ts := by
  induction ts generalizing ps with
  | nil =>
    cases himages
    rfl
  | cons t ts ih =>
    obtain ⟨ht, hts⟩ := List.forall_mem_cons.mp h
    obtain ⟨image, rest, -, hrest, rfl⟩ := (images_cons_eq_ok_iff ht hts).mp himages
    rw [List.map_cons, ih hts hrest]

omit [RealArithmetic R] [RealArithmetic W] [Widening R W] in
theorem named_images {ts : List (Term K R W)} {x : Signal K} {ps : List (Term K R W × Signal K)}
    (h : ∀ t ∈ ts, t.Named names) (himages : (images x ts : Eval K W _).outcome = .ok ps) :
    ∀ p ∈ ps, p.1.Named names := by
  intro p hp
  apply h
  rw [← map_fst_images h himages]
  exact List.mem_map_of_mem hp

theorem splitUpdates_cons_eq_ok_iff {t : Term K R W} {image : Signal K}
    {ps : List (Term K R W × Signal K)} {qs : List (Term K R W × Signal K × Signal K)}
    (ht : t.Named names) (hps : ∀ p ∈ ps, p.1.Named names) :
    (splitUpdates ((t, image) :: ps) : Eval K W _).outcome = .ok qs ↔
      ∃ v z rest, image.add t.u = .ok v ∧ (t.penalty.prox v (1 / t.weight)).outcome = .ok z ∧
        (splitUpdates ps : Eval K W _).outcome = .ok rest ∧ qs = (t, image, z) :: rest := by
  have hrest (z : Signal K) : Steady names (do
      let rest ← splitUpdates ps
      return (t, image, z) :: rest : Eval K W _) := (steady_splitUpdates hps).map _
  rw [splitUpdates, outcome_liftExcept_bind, Except.bind_eq_ok_iff]
  constructor
  · rintro ⟨v, hv, h⟩
    rw [(Functional.steady_prox ht.penalty v _).outcome_bind fun z _ => hrest z,
      Except.bind_eq_ok_iff] at h
    obtain ⟨z, hz, h⟩ := h
    rw [(steady_splitUpdates hps).outcome_map, Except.map_eq_ok_iff] at h
    obtain ⟨rest, hrest, rfl⟩ := h
    exact ⟨v, z, rest, hv, hz, hrest, rfl⟩
  · rintro ⟨v, z, rest, hv, hz, hsplit, rfl⟩
    refine ⟨v, hv, ?_⟩
    rw [(Functional.steady_prox ht.penalty v _).outcome_bind fun z _ => hrest z,
      Except.bind_eq_ok_iff]
    refine ⟨z, hz, ?_⟩
    rw [(steady_splitUpdates hps).outcome_map, hsplit]
    rfl

/-- What the phases make of the terms. -/
theorem updates_follow {ts : List (Term K R W)} {x : Signal K} {ps : List (Term K R W × Signal K)}
    {qs : List (Term K R W × Signal K × Signal K)} {us : List (TermUpdate K R W)}
    (h : ∀ t ∈ ts, t.Named names) (himages : (images x ts : Eval K W _).outcome = .ok ps)
    (hsplits : (splitUpdates ps : Eval K W _).outcome = .ok qs) (hduals : dualUpdates qs = .ok us) :
    us.map (·.before) = ts ∧ ∀ t ∈ us, t.Follows x := by
  induction ts generalizing ps qs us with
  | nil =>
    cases himages
    cases hsplits
    cases hduals
    exact ⟨rfl, List.forall_mem_nil _⟩
  | cons t ts ih =>
    obtain ⟨ht, hts⟩ := List.forall_mem_cons.mp h
    obtain ⟨image, rest, himage, hrest, rfl⟩ := (images_cons_eq_ok_iff ht hts).mp himages
    obtain ⟨v, z, rest', hv, hz, hrest', rfl⟩ :=
      (splitUpdates_cons_eq_ok_iff ht (named_images hts hrest)).mp hsplits
    obtain ⟨gap, hgap, hduals⟩ := Except.bind_eq_ok_iff.mp hduals
    obtain ⟨u, hu, hduals⟩ := Except.bind_eq_ok_iff.mp hduals
    obtain ⟨rest'', hrest'', hduals⟩ := Except.bind_eq_ok_iff.mp hduals
    cases hduals
    obtain ⟨hbefore, hfollows⟩ := ih hts hrest hrest' hrest''
    refine ⟨by rw [List.map_cons, hbefore], ?_⟩
    rw [List.forall_mem_cons]
    exact ⟨⟨himage, ⟨v, hv, hz⟩, ⟨gap, hgap, hu⟩⟩, hfollows⟩

/-- The same, with the images and the split updates as one computation. -/
theorem updates_follow_of_splits {ts : List (Term K R W)} {x : Signal K}
    {qs : List (Term K R W × Signal K × Signal K)} {us : List (TermUpdate K R W)}
    (h : ∀ t ∈ ts, t.Named names)
    (hsplits : (do splitUpdates (← images x ts) : Eval K W _).outcome = .ok qs)
    (hduals : dualUpdates qs = .ok us) : us.map (·.before) = ts ∧ ∀ t ∈ us, t.Follows x := by
  rw [(steady_images h x).outcome_bind fun ps hps => steady_splitUpdates (named_images h hps),
    Except.bind_eq_ok_iff] at hsplits
  obtain ⟨ps, hps, hsplits⟩ := hsplits
  exact updates_follow h hps hsplits hduals

theorem steady_addValues {us : List (TermUpdate K R W)} (h : ∀ t ∈ us, t.before.Named names)
    (total : W) : Steady names (addValues us total : Eval K W _) := by
  induction us generalizing total with
  | nil => exact .pure _
  | cons t us ih =>
    obtain ⟨ht, hus⟩ := List.forall_mem_cons.mp h
    exact (Functional.steady_value ht.penalty _).bind fun value _ => ih hus _

theorem steady_objective {f : Functional K R W} (hf : f.Named names)
    {us : List (TermUpdate K R W)} (h : ∀ t ∈ us, t.before.Named names) (x : Signal K) :
    Steady names (objective f x us : Eval K W _) :=
  Steady.ite ((Functional.steady_value hf x).bind fun _ _ =>
    (steady_addValues h _).bind fun _ _ => .pure _) (.pure _)

theorem steady_addResiduals {us : List (TermUpdate K R W)} (h : ∀ t ∈ us, t.before.Named names)
    (primal dual : W) : Steady names (addResiduals us primal dual : Eval K W _) := by
  induction us generalizing primal dual with
  | nil => exact .pure _
  | cons t us ih =>
    obtain ⟨ht, hus⟩ := List.forall_mem_cons.mp h
    exact (Steady.liftExcept _).bind fun gap _ => (Steady.liftExcept _).bind fun change _ =>
      (LinearOperator.steady_adjoint ht.operator change).bind fun _ _ => ih hus _ _

theorem steady_diagnostics {f : Functional K R W} (hf : f.Named names)
    {us : List (TermUpdate K R W)} (h : ∀ t ∈ us, t.before.Named names) (x : Signal K) :
    Steady names (diagnostics f x us : Eval K W _) :=
  (steady_objective hf h x).bind fun _ _ => (steady_addResiduals h 0 0).bind fun _ _ => .pure _

end Phases

/-! ### Computations inside a step -/

/-- A faithful trace, and a strategy that keeps it so. -/
structure Carried.Ready (names : Naming K) (c : Carried K R W) : Prop where
  trace : c.trace.Faithful names
  strategy : c.strategy.Ready names

namespace Attempt

variable {α : Type}

theorem ensures_timed [RealArithmetic W] (phase : String) {m : Attempt K R W α} {p : α → Prop}
    (hm : Ensures (Carried.Ready names) m p) :
    Ensures (Carried.Ready names) (timed phase m) p :=
  fun c hc => ⟨⟨(hm c hc).1.trace, (hm c hc).1.strategy⟩, (hm c hc).2⟩

/-- An evaluation gives its outcome. -/
theorem ensures_lift {m : Eval K W α} (hm : Steady names m) :
    Ensures (Carried.Ready names) (lift m : Attempt K R W α) fun a => m.outcome = .ok a :=
  fun c hc => ⟨⟨(hm c.trace hc.trace).2, hc.strategy⟩,
    fun _ ha => ((hm c.trace hc.trace).1).symm.trans ha⟩

theorem ensures_solve [RealArithmetic R] [RealArithmetic W] [Widening R W] {p : XUpdate K R W}
    (hp : p.Named names) (x : Signal K) :
    Ensures (Carried.Ready names) (solve p x) fun _ => True := by
  intro c hc
  obtain ⟨htrace, hstrategy⟩ := Strategy.solve_ready hc.strategy hp x hc.trace
  exact ⟨⟨htrace, hstrategy⟩, fun _ _ => trivial⟩

end Attempt

/-! ### Steps -/

/-- Everything in the solver uses the closures that their numbers stand for. -/
structure Named (names : Naming K) (s : Solver K R W) : Prop where
  f : s.f.Named names
  terms : ∀ t ∈ s.terms, t.Named names
  strategy : s.strategy.Ready names

theorem Named.xUpdate {s : Solver K R W} (h : s.Named names) : s.xUpdate.Named names where
  f := h.f
  couplings c hc := by
    obtain ⟨t, ht, rfl⟩ := List.mem_map.mp hc
    exact (h.terms t ht).operator

theorem named_before {s : Solver K R W} (h : s.Named names) {us : List (TermUpdate K R W)}
    (hbefore : us.map (·.before) = s.terms) : ∀ t ∈ us, t.before.Named names := by
  intro t ht
  apply h.terms
  rw [← hbefore]
  exact List.mem_map_of_mem ht

variable [RealArithmetic R] [RealArithmetic W] [Widening R W]

/-- The results of a step are made from the variables before it. -/
structure StepResult.Follows (s : Solver K R W) (r : StepResult K R W) : Prop where
  before : r.updates.map (·.before) = s.terms
  updates : ∀ t ∈ r.updates, t.Follows r.report.x
  diagnostics : (Solver.diagnostics s.f r.report.x r.updates : Eval K W _).outcome = .ok r.diagnostics

/-- All phases of a step. -/
theorem attempt_ensures {s : Solver K R W} (h : s.Named names) :
    Ensures (Carried.Ready names) (attempt s) (StepResult.Follows s) := by
  have hmodify : Ensures (Carried.Ready names)
      (modify fun c => { c with timing := c.timing.startIteration } : Attempt K R W PUnit)
      fun _ => True := fun c hc => ⟨⟨hc.trace, hc.strategy⟩, fun _ _ => trivial⟩
  refine hmodify.bind fun _ _ => ?_
  refine (Attempt.ensures_timed "update_x" (Attempt.ensures_solve h.xUpdate s.x)).bind
    fun report _ => Ensures.ite (.throw _) ?_
  have hsplit : Steady names (do splitUpdates (← images report.x s.terms) : Eval K W _) :=
    (steady_images h.terms report.x).bind fun ps hps =>
      steady_splitUpdates (named_images h.terms hps)
  refine (Attempt.ensures_timed "update_z" (Attempt.ensures_lift hsplit)).bind
    fun splits hsplits => ?_
  refine (Attempt.ensures_timed "update_u" (Attempt.ensures_lift (.liftExcept _))).bind
    fun updates hduals => ?_
  obtain ⟨hbefore, hfollows⟩ := updates_follow_of_splits h.terms hsplits hduals
  have hdiagnostics := steady_diagnostics h.f (named_before h hbefore) report.x
  refine (Attempt.ensures_timed "diagnostics" (Attempt.ensures_lift hdiagnostics)).bind
    fun d hd => ?_
  exact .pure ⟨hbefore, hfollows, hd⟩

/-- What a step can do: it fails and leaves everything but the state, the strategy and the timing as
it was, or it takes over results that follow from the variables before it. -/
theorem step_cases {s s' : Solver K R W} {t t' : Trace K W} {result : Except Error Unit}
    (hs : s.Named names) (ht : t.Faithful names) (h : s.step t = ((result, s'), t')) :
    t'.Faithful names ∧ s'.strategy.Ready names ∧
      ((∃ e state strategy timing, result = .error e ∧
          s' = { s with state := state, strategy := strategy, timing := timing }) ∨
        ∃ r strategy timing, result = .ok () ∧ s.state.isTerminal = false ∧ r.Follows s ∧
          s' = commit { s with state := .running, strategy := strategy, timing := timing } r) := by
  unfold step at h
  by_cases hterminal : s.state.isTerminal = true
  · rw [if_pos hterminal] at h
    cases h
    exact ⟨ht, hs.strategy, .inl ⟨_, s.state, s.strategy, s.timing, rfl, rfl⟩⟩
  · rw [if_neg hterminal] at h
    obtain ⟨hready, hpost⟩ := attempt_ensures hs ⟨s.strategy, s.timing, t⟩ ⟨ht, hs.strategy⟩
    rcases hrun : (attempt s).run ⟨s.strategy, s.timing, t⟩ with ⟨r, c⟩
    rw [hrun] at hready hpost h
    cases r with
    | error e =>
      cases h
      exact ⟨hready.trace, hready.strategy, .inl ⟨e, _, _, _, rfl, rfl⟩⟩
    | ok r =>
      cases h
      exact ⟨hready.trace, hready.strategy,
        .inr ⟨r, _, _, rfl, by simpa using hterminal, hpost r rfl, rfl⟩⟩

/-- A step that succeeds takes over results that follow from the variables before it. -/
theorem follows_of_step {s s' : Solver K R W} {t t' : Trace K W} (hs : s.Named names)
    (ht : t.Faithful names) (h : s.step t = ((.ok (), s'), t')) :
    ∃ r strategy timing, r.Follows s ∧
      s' = commit { s with state := .running, strategy := strategy, timing := timing } r := by
  obtain ⟨-, -, ⟨e, _, _, _, herror, -⟩ | ⟨r, strategy, timing, -, -, hr, hs'⟩⟩ := step_cases hs ht h
  · cases herror
  · exact ⟨r, strategy, timing, hr, hs'⟩

end Solver

end OperatorSplitting
