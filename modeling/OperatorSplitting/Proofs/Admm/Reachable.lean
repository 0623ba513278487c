import Mathlib
import OperatorSplitting.Proofs.Admm.Step
import OperatorSplitting.Proofs.Functional.Optimality

/-!
# Reachable solvers

A solver is reachable if it was made from an accepted problem and then stepped or solved any number
of times, whether these calls succeeded or failed.  Between the calls anything else may be evaluated,
as long as the traces stay faithful.

Over exact numbers, a convex problem makes convex solvers: weights are positive, and the split and
dual variables have the output shapes of their operators.  These facts hold of every reachable solver
(`Reached.isConvex`).
-/

namespace OperatorSplitting

open Eval

noncomputable section

/-! ### Reachability -/

namespace Solver

section Reachability

variable {K R W : Type} [RealArithmetic R] [RealArithmetic W] [Widening R W] [Scalar K R W]

/-- A solver with a trace that can be reached from a problem, its settings and a strategy. -/
inductive Reached (names : Naming K) (p : Problem K R W) (config : Config W)
    (strategy : Strategy K R W) : Solver K R W → Trace K W → Prop
  | create {s t t'} : t.Faithful names → (create p config strategy).run t = (.ok s, t') →
      Reached names p config strategy s t'
  | step {s s' t t' result} : Reached names p config strategy s t →
      s.step t = ((result, s'), t') → Reached names p config strategy s' t'
  | solve {s s' t t' result} : Reached names p config strategy s t →
      s.solve t = ((result, s'), t') → Reached names p config strategy s' t'
  | elsewhere {s t t'} : Reached names p config strategy s t → t'.Faithful names →
      Reached names p config strategy s t'

/-- What steps preserve, iterating preserves. -/
theorem solveWithin_preserves {P : Solver K R W → Trace K W → Prop}
    (hstep : ∀ {s s' t t' result}, P s t → s.step t = ((result, s'), t') → P s' t') {n : ℕ}
    {s s' : Solver K R W} {t t' : Trace K W} {result : Except Error (Signal K)} (h : P s t)
    (hsolve : solveWithin n s t = ((result, s'), t')) : P s' t' := by
  induction n generalizing s t with
  | zero =>
    cases hsolve
    exact h
  | succ n ih =>
    unfold solveWithin at hsolve
    by_cases hterminal : s.state.isTerminal = true
    · rw [if_pos hterminal] at hsolve
      cases hsolve
      exact h
    · rw [if_neg hterminal] at hsolve
      rcases hrun : s.step t with ⟨⟨r, s₁⟩, t₁⟩
      have hnext := hstep h hrun
      simp only [bind, StateT.bind, hrun] at hsolve
      cases r with
      | error e =>
        cases hsolve
        exact hnext
      | ok u => exact ih hnext hsolve

/-- What holds of a solver when it is made, and is kept by steps, by the end of a run and by evaluations
elsewhere, holds of every solver with a trace that can be reached. -/
theorem Reached.invariant {names : Naming K} {p : Problem K R W} {config : Config W}
    {strategy : Strategy K R W} {P : Solver K R W → Trace K W → Prop}
    (hcreate : ∀ {s t t'}, t.Faithful names → (Solver.create p config strategy).run t = (.ok s, t') →
      P s t')
    (hstep : ∀ {s s' t t' result}, P s t → s.step t = ((result, s'), t') → P s' t')
    (hend : ∀ {s : Solver K R W} {t}, P s t → P { s with state := .maxIterReached } t)
    (helsewhere : ∀ {s t t'}, P s t → t'.Faithful names → P s t') {s : Solver K R W} {t : Trace K W}
    (h : Reached names p config strategy s t) : P s t := by
  induction h with
  | create ht hmade => exact hcreate ht hmade
  | step _ hrun ih => exact hstep ih hrun
  | @solve s s' t t' result _ hsolve ih =>
    have hstart : P (if s.config.maxIter ≤ s.iteration && !s.state.isTerminal then
        { s with state := .maxIterReached } else s) t := by
      split
      · exact hend ih
      · exact ih
    exact solveWithin_preserves hstep hstart hsolve
  | elsewhere _ ht ih => exact helsewhere ih ht

omit [RealArithmetic R] [Widening R W] [Scalar K R W] in
/-- Every row that a step leaves in the history was there before, or is the row of the step. -/
theorem mem_history_commit {s : Solver K R W} {r : StepResult K R W} {row : IterationStats W}
    (h : row ∈ (commit s r).history.newest) :
    row ∈ s.history.newest ∨ row = statistics (s.iteration + 1) r := by
  unfold commit at h
  dsimp only at h
  split at h
  · exact (List.mem_cons.mp h).symm
  · exact .inl h

end Reachability

end Solver

namespace Problem

/-- The terms at a starting point belong to the parts of the problem. -/
theorem ensures_terms_mem {K R W : Type} [Scalar K R W] {names : Naming K} (start : Signal K)
    {gs : List (Functional K R W)} {cs : List (LinearOperator K)} {weights : List R}
    (hcs : ∀ c ∈ cs, c.Named names) :
    Ensures (Trace.Faithful names) (terms start gs cs weights : Eval K W _) fun ts => ∀ t ∈ ts,
      t.penalty ∈ gs ∧ t.operator ∈ cs ∧ t.weight ∈ weights ∧
        (t.operator.apply start : Eval K W _).outcome = .ok t.z ∧ t.u = .zeros t.operator.output := by
  induction gs generalizing cs weights with
  | nil => exact .pure (List.forall_mem_nil _)
  | cons g gs ih =>
    cases cs with
    | nil => exact .pure (List.forall_mem_nil _)
    | cons c cs =>
      cases weights with
      | nil => exact .pure (List.forall_mem_nil _)
      | cons weight weights =>
        obtain ⟨hc, hcs⟩ := List.forall_mem_cons.mp hcs
        refine (LinearOperator.steady_apply hc start).ensures.bind fun z hz =>
          (ih hcs).bind fun ts hts => .pure (List.forall_mem_cons.mpr ⟨?_, fun t ht => ?_⟩)
        · exact ⟨List.mem_cons_self, List.mem_cons_self, List.mem_cons_self, hz, rfl⟩
        · obtain ⟨hpenalty, hoperator, hweight, hvariables⟩ := hts t ht
          exact ⟨List.mem_cons_of_mem _ hpenalty, List.mem_cons_of_mem _ hoperator,
            List.mem_cons_of_mem _ hweight, hvariables⟩

end Problem

/-! ### Convex problems over exact numbers -/

variable {K : Type} [ExactScalar K] {names : Naming K}

/-- The smooth functional is a fidelity term, the others are penalties, and the operators are
linear. -/
structure Problem.IsConvex (names : Naming K) (p : Problem K ℝ ℝ) : Prop where
  f : p.f.IsFidelity names
  penalties : ∀ g ∈ p.penalties, g.IsPenalty
  operators : ∀ c ∈ p.operators, c.IsLinear names

/-- A penalty of a linear operator with a positive weight, and variables of the output shape. -/
structure Term.IsConvex (names : Naming K) (t : Term K ℝ ℝ) : Prop where
  operator : t.operator.IsLinear names
  penalty : t.penalty.IsPenalty
  weight : 0 < t.weight
  z_shape : t.z.shape = t.operator.output
  u_shape : t.u.shape = t.operator.output

theorem Term.IsConvex.named {t : Term K ℝ ℝ} (h : t.IsConvex names) : t.Named names :=
  ⟨h.operator.named, h.penalty.named⟩

namespace Problem

theorem isPositive_iff (r : ℝ) : RealArithmetic.isPositive r = true ↔ 0 < r := by
  simp [RealArithmetic.isPositive, RealArithmetic.lt, RealArithmetic.isFinite]

theorem weights_pos {weights : List ℝ} {i : ℕ} (h : weightFault? weights i = none) :
    ∀ r ∈ weights, 0 < r := by
  induction weights generalizing i with
  | nil => exact List.forall_mem_nil _
  | cons r rs ih =>
    unfold weightFault? at h
    split at h
    · next hr => exact List.forall_mem_cons.mpr ⟨(isPositive_iff r).mp hr, ih h⟩
    · cases h

/-- An accepted problem has positive weights. -/
theorem weights_pos_of_fault? {p : Problem K ℝ ℝ} (h : p.fault? = none) :
    ∀ r ∈ p.weights, 0 < r := by
  unfold fault? at h
  dsimp only at h
  split at h
  · cases h
  · split at h
    · cases h
    · split at h
      · cases h
      · next hweights => exact weights_pos hweights

/-- The terms at a starting point. -/
theorem ensures_terms (start : Signal K) {gs : List (Functional K ℝ ℝ)}
    {cs : List (LinearOperator K)} {weights : List ℝ} (hgs : ∀ g ∈ gs, g.IsPenalty)
    (hcs : ∀ c ∈ cs, c.IsLinear names) (hweights : ∀ r ∈ weights, 0 < r) :
    Ensures (Trace.Faithful names) (terms start gs cs weights : Eval K ℝ _) fun ts =>
      ∀ t ∈ ts, t.IsConvex names := by
  refine (ensures_terms_mem start fun c hc => (hcs c hc).named).mono fun ts hts t ht => ?_
  obtain ⟨hpenalty, hoperator, hweight, hz, hu⟩ := hts t ht
  refine ⟨hcs _ hoperator, hgs _ hpenalty, hweights _ hweight,
    ((hcs _ hoperator).shape_apply hz).2, ?_⟩
  rw [hu]
  exact Signal.shape_replicate _ _

end Problem

namespace Solver

/-- What holds of every solver made from a convex problem. -/
structure IsConvex (names : Naming K) (s : Solver K ℝ ℝ) : Prop where
  f : s.f.IsFidelity names
  terms : ∀ t ∈ s.terms, t.IsConvex names
  strategy : s.strategy.Ready names
  history : ∀ row ∈ s.history.newest, row.iteration ≤ s.iteration

theorem IsConvex.named {s : Solver K ℝ ℝ} (h : s.IsConvex names) : s.Named names where
  f := h.f.named
  terms t ht := (h.terms t ht).named
  strategy := h.strategy

/-- Making a solver. -/
theorem ensures_create {p : Problem K ℝ ℝ} (hp : p.IsConvex names) (config : Config ℝ)
    {strategy : Strategy K ℝ ℝ} (hstrategy : strategy.Keeps names) :
    Ensures (Trace.Faithful names) (create p config strategy) fun s =>
      s.IsConvex names ∧ s.iteration = 0 := by
  have hoperators : ∀ q ∈ p.operators.zip p.weights, q.1.Named names := by
    intro q hq
    exact (hp.operators q.1 (List.of_mem_zip hq).1).named
  refine (Ensures.liftExcept _).bind fun _ _ => ?_
  refine (Ensures.liftExcept _).bind fun _ haccept => ?_
  refine (Strategy.ensures_setup hstrategy hp.f.named hoperators).bind fun s hs => ?_
  have hfault : p.fault? = none := by
    cases hfault : p.fault? with
    | none => rfl
    | some fault =>
      rw [hfault] at haccept
      cases haccept
  have hterms := Problem.ensures_terms p.start hp.penalties hp.operators
    (Problem.weights_pos_of_fault? hfault)
  exact hterms.bind fun ts hts =>
    .pure ⟨⟨hp.f, hts, hs, List.forall_mem_nil _⟩, rfl⟩

namespace TermUpdate

variable {t : TermUpdate K ℝ ℝ} {x : Signal K}

/-- The new split variable has the output shape of the operator, and so has the new dual variable. -/
theorem Follows.isConvex_after (h : t.Follows x) (ht : t.before.IsConvex names) :
    t.after.IsConvex names := by
  obtain ⟨v, hv, hz⟩ := h.split
  obtain ⟨gap, -, hu⟩ := h.dual
  have himage := (ht.operator.shape_apply h.image).2
  have hvshape : v.shape = t.before.operator.output := (Signal.shape_add hv).trans himage
  have hzshape := (Functional.subgradient_of_prox names ht.penalty
    (one_div_pos.mpr ht.weight) hz).1.trans hvshape
  exact ⟨ht.operator, ht.penalty, ht.weight, hzshape, (Signal.shape_add hu).trans ht.u_shape⟩

end TermUpdate

theorem StepResult.Follows.isConvex_before {s : Solver K ℝ ℝ} {r : StepResult K ℝ ℝ}
    (h : r.Follows s) (hs : s.IsConvex names) : ∀ t ∈ r.updates, t.before.IsConvex names := by
  intro t ht
  apply hs.terms
  rw [← h.before]
  exact List.mem_map_of_mem ht

/-- A step keeps a solver convex. -/
theorem IsConvex.step {s s' : Solver K ℝ ℝ} {t t' : Trace K ℝ} {result : Except Error Unit}
    (hs : s.IsConvex names) (ht : t.Faithful names) (h : s.step t = ((result, s'), t')) :
    s'.IsConvex names ∧ t'.Faithful names := by
  obtain ⟨ht', hready, hcases⟩ := step_cases hs.named ht h
  refine ⟨?_, ht'⟩
  rcases hcases with ⟨e, state, strategy, timing, -, rfl⟩ | ⟨r, strategy, timing, -, -, hr, rfl⟩
  · exact ⟨hs.f, hs.terms, hready, hs.history⟩
  · refine ⟨hs.f, fun t ht => ?_, hready, fun row hrow => ?_⟩
    · obtain ⟨update, hupdate, rfl⟩ := List.mem_map.mp ht
      exact (hr.updates update hupdate).isConvex_after (hr.isConvex_before hs update hupdate)
    · rcases mem_history_commit hrow with hold | rfl
      · exact (hs.history row hold).trans (Nat.le_succ _)
      · exact le_rfl

/-- Every solver that is reachable from a convex problem is convex. -/
theorem Reached.isConvex {p : Problem K ℝ ℝ} {config : Config ℝ} {strategy : Strategy K ℝ ℝ}
    (hp : p.IsConvex names) (hstrategy : strategy.Keeps names) {s : Solver K ℝ ℝ} {t : Trace K ℝ}
    (h : Reached names p config strategy s t) : s.IsConvex names ∧ t.Faithful names := by
  refine h.invariant (P := fun s t => s.IsConvex names ∧ t.Faithful names) (fun ht hcreate => ?_)
    (fun hs hstep => hs.1.step hs.2 hstep)
    (fun hs => ⟨⟨hs.1.f, hs.1.terms, hs.1.strategy, hs.1.history⟩, hs.2⟩) fun hs ht => ⟨hs.1, ht⟩
  obtain ⟨hkeep, hpost⟩ := (ensures_create hp config hstrategy).of_run hcreate ht
  exact ⟨hpost.1, hkeep⟩

/-- Exact numbers are finite. -/
theorem allFinite_eq_true (x : Signal K) : x.allFinite = true := by
  unfold Signal.allFinite
  rw [Array.all_eq_true']
  intro a _
  rfl

end Solver

end

end OperatorSplitting
