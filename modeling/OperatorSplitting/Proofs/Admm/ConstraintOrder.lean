import Mathlib
import OperatorSplitting.Proofs.Admm.Retry
import OperatorSplitting.Proofs.Admm.LeastSquares
import OperatorSplitting.Proofs.Admm.Reordering

/-!
# The order of the constraints

The constraints of a problem may be given in any order.  In exact arithmetic two solvers, made for two
orders of the same constraints, stand at the same iterate after the same calls, have the same state and
the same history, and their split and dual variables differ only in their order.  Calls also fail
together.

The split and dual variables are made one by one, each from the operator, the penalty and the weight at
its own position (`Iterate.alike_couple`).  What is summed over the constraints does not depend on their
order.
-/

namespace OperatorSplitting

open Eval

noncomputable section

variable {K : Type} [ExactScalar K] {names : Naming K} {order : List ℕ}

/-! ### The phases of a step -/

namespace Solver

variable {ts : List (Term K ℝ ℝ)}

theorem alike_images (hts : ∀ t ∈ ts, t.Named names) (horder : order.Perm (List.range ts.length))
    (x : Signal K) :
    Alike names (fun ps ps' => (images x ts : Eval K ℝ _).outcome = .ok ps ∧
      ps.length = ts.length ∧ ps' = rearrange order ps) (images x ts : Eval K ℝ _)
        (images x (rearrange order ts)) :=
  Alike.traverse_rearrange
    (fun t : Term K ℝ ℝ => do return (t, ← t.operator.apply x)) (images x) rfl
    (fun t ts => by simp only [images, bind_assoc, pure_bind])
    (fun t ht => (LinearOperator.steady_apply (hts t ht).operator x).map _) horder

/-- The proximal point of a term at its image, beside both. -/
def splitUpdate (p : Term K ℝ ℝ × Signal K) : Eval K ℝ (Term K ℝ ℝ × Signal K × Signal K) := do
  let v ← p.2.add p.1.u
  let z ← p.1.penalty.prox v (1 / p.1.weight)
  return (p.1, p.2, z)

theorem alike_splitUpdates {ps : List (Term K ℝ ℝ × Signal K)} (hps : ∀ p ∈ ps, p.1.Named names)
    (horder : order.Perm (List.range ps.length)) :
    Alike names (fun qs qs' => (splitUpdates ps : Eval K ℝ _).outcome = .ok qs ∧
      qs.length = ps.length ∧ qs' = rearrange order qs) (splitUpdates ps : Eval K ℝ _)
        (splitUpdates (rearrange order ps)) :=
  Alike.traverse_rearrange splitUpdate splitUpdates rfl
    (fun p ps => by simp only [splitUpdates, splitUpdate, bind_assoc, pure_bind])
    (fun p hp => (Steady.liftExcept _).bind fun v _ =>
      (Functional.steady_prox (hps p hp).penalty v _).map _) horder

/-- The dual variable of a term after its proximal point. -/
def dualUpdate (q : Term K ℝ ℝ × Signal K × Signal K) : Except Error (TermUpdate K ℝ ℝ) := do
  let gap ← q.2.1.sub q.2.2
  let u ← q.1.u.add gap
  return ⟨q.1, q.2.1, q.2.2, u⟩

theorem alike_dualUpdates {qs : List (Term K ℝ ℝ × Signal K × Signal K)}
    (horder : order.Perm (List.range qs.length)) :
    Alike names (fun us us' => dualUpdates qs = .ok us ∧ us.length = qs.length ∧
      us' = rearrange order us) (liftM (dualUpdates qs) : Eval K ℝ _)
        (liftM (dualUpdates (rearrange order qs))) :=
  Alike.traverse_rearrange (fun q => liftM (dualUpdate q)) (fun qs => liftM (dualUpdates qs)) rfl
    (fun q qs => by
      rw [dualUpdates, dualUpdate]
      rcases q.2.1.sub q.2.2 with e | gap
      · rfl
      · show (liftM (q.1.u.add gap >>= _) : Eval K ℝ _) = liftM (q.1.u.add gap >>= _) >>= _
        rcases q.1.u.add gap with e | u
        · rfl
        · show (liftM (dualUpdates qs >>= _) : Eval K ℝ _) = liftM (dualUpdates qs) >>= _
          rcases dualUpdates qs with e | us <;> rfl)
    (fun q _ => .liftExcept _) horder

theorem alike_diagnostics {f : Functional K ℝ ℝ} (hf : f.Named names)
    {us us' : List (TermUpdate K ℝ ℝ)} (h : us.Perm us') (hus : ∀ t ∈ us, t.before.Named names)
    (x : Signal K) : Alike names Eq (diagnostics f x us : Eval K ℝ _) (diagnostics f x us') := by
  have hobjective : Alike names Eq (objective f x us : Eval K ℝ _) (objective f x us') := by
    unfold objective
    rw [h.all_eq]
    refine .ite Iff.rfl ((Functional.steady_value hf x).alike.bind ?_) (.pure rfl)
    rintro value _ rfl
    exact (alike_addValues h hus _).bind fun _ _ htotal => .pure (congrArg some htotal)
  refine hobjective.bind ?_
  rintro value _ rfl
  refine (alike_addResiduals h hus 0 0).bind ?_
  rintro residuals _ rfl
  exact .pure rfl

/-- The results of a step for terms in another order. -/
structure StepResult.Reordered (order : List ℕ) (ts : List (Term K ℝ ℝ))
    (r r' : StepResult K ℝ ℝ) : Prop where
  report : r'.report = r.report
  before : r.updates.map (·.before) = ts
  updates : r'.updates = rearrange order r.updates
  diagnostics : r'.diagnostics = r.diagnostics

end Solver

theorem Iterate.alike_couple {f : Functional K ℝ ℝ} (hf : f.Named names) {ts : List (Term K ℝ ℝ)}
    (hts : ∀ t ∈ ts, t.Named names) (horder : order.Perm (List.range ts.length))
    (report : SubproblemReport K ℝ) :
    Alike names (Solver.StepResult.Reordered order ts) (couple f ts report)
      (couple f (rearrange order ts) report) := by
  have hsplits : Alike names (fun qs qs' => qs' = rearrange order qs ∧ qs.length = ts.length ∧
      ∀ us, Solver.dualUpdates qs = .ok us → us.map (·.before) = ts)
      (do Solver.splitUpdates (← Solver.images report.x ts) : Eval K ℝ _)
      (do Solver.splitUpdates (← Solver.images report.x (rearrange order ts))) := by
    refine (Solver.alike_images hts horder report.x).bind ?_
    rintro ps _ ⟨hps, hlength, rfl⟩
    refine (Solver.alike_splitUpdates (Solver.named_images hts hps) (hlength ▸ horder)).mono ?_
    rintro qs _ ⟨hqs, hlength', rfl⟩
    exact ⟨rfl, hlength'.trans hlength, fun us hus => (Solver.updates_follow hts hps hqs hus).1⟩
  refine hsplits.bind ?_
  rintro qs _ ⟨rfl, hlength, hbefore⟩
  refine (Solver.alike_dualUpdates (hlength ▸ horder)).bind ?_
  rintro us _ ⟨hus, hlength', rfl⟩
  have hbefore := hbefore us hus
  have hnamed : ∀ t ∈ us, t.before.Named names :=
    fun t ht => hts _ (hbefore ▸ List.mem_map_of_mem ht)
  have hperm : us.Perm (rearrange order us) :=
    (rearrange_perm (by rwa [hlength', hlength])).symm
  refine (Solver.alike_diagnostics hf hperm hnamed report.x).bind ?_
  rintro d _ rfl
  exact .pure ⟨rfl, hbefore, rfl, rfl⟩

/-! ### Problems in another order -/

namespace Problem

/-- The problem with its constraints in another order. -/
def rearranged (order : List ℕ) (p : Problem K ℝ ℝ) : Problem K ℝ ℝ :=
  { p with
    penalties := rearrange order p.penalties
    operators := rearrange order p.operators
    weights := rearrange order p.weights }

variable {p : Problem K ℝ ℝ}

/-- It is accepted, too. -/
theorem fault?_rearranged (hfault : p.fault? = none)
    (horder : order.Perm (List.range p.penalties.length)) : (p.rearranged order).fault? = none := by
  obtain ⟨⟨hoperators, hweights⟩, hinputs, hpositive, hsmooth, hprox⟩ :=
    fault?_eq_none_iff.mp hfault
  have hpenalties := rearrange_perm horder
  have hperm := rearrange_perm (l := p.operators) (hoperators ▸ horder)
  have hperm' := rearrange_perm (l := p.weights) (hweights ▸ horder)
  refine fault?_eq_none_iff.mpr ⟨⟨?_, ?_⟩, fun c hc => hinputs c (hperm.mem_iff.mp hc),
    fun r hr => hpositive r (hperm'.mem_iff.mp hr), hsmooth,
    fun g hg => hprox g (hpenalties.mem_iff.mp hg)⟩
  · exact hpenalties.length_eq.trans (hoperators.trans hperm.length_eq.symm)
  · exact hpenalties.length_eq.trans (hweights.trans hperm'.length_eq.symm)

/-- The term of a penalty, an operator and a weight at a starting point. -/
def termAt (start : Signal K) (q : Functional K ℝ ℝ × LinearOperator K × ℝ) :
    Eval K ℝ (Term K ℝ ℝ) := do
  let z ← q.2.1.apply start
  return ⟨q.1, q.2.1, q.2.2, z, .zeros q.2.1.output⟩

theorem alike_terms (hp : p.Named names) (hfault : p.fault? = none)
    (horder : order.Perm (List.range p.penalties.length)) :
    Alike names (fun ts ts' => order.Perm (List.range ts.length) ∧ (∀ t ∈ ts, t.Named names) ∧
      ts' = rearrange order ts)
        (terms p.start p.penalties p.operators p.weights : Eval K ℝ _)
        (terms p.start (rearrange order p.penalties) (rearrange order p.operators)
          (rearrange order p.weights)) := by
  obtain ⟨hoperators, hweights⟩ := Solver.length_of_fault? hfault
  have hlength : (p.operators.zip p.weights).length = p.penalties.length := by
    rw [List.length_zip, ← hoperators, ← hweights, Nat.min_self]
  let parts := p.penalties.zip (p.operators.zip p.weights)
  have hparts : parts.length = p.penalties.length := by
    rw [List.length_zip, hlength, Nat.min_self]
  have horder' : order.Perm (List.range parts.length) := hparts ▸ horder
  have hfst : parts.map (·.1) = p.penalties := List.map_fst_zip hlength.ge
  have hsnd : parts.map (·.2) = p.operators.zip p.weights := List.map_snd_zip hlength.le
  have hoperator : parts.map (·.2.1) = p.operators :=
    calc parts.map (·.2.1) = (parts.map (·.2)).map Prod.fst := List.map_map.symm
      _ = p.operators := by rw [hsnd, List.map_fst_zip (by omega)]
  have hweight : parts.map (·.2.2) = p.weights :=
    calc parts.map (·.2.2) = (parts.map (·.2)).map Prod.snd := List.map_map.symm
      _ = p.weights := by rw [hsnd, List.map_snd_zip (by omega)]
  have hsteady : ∀ q ∈ parts, Steady names (termAt p.start q) := by
    intro q hq
    have hmem : q.2.1 ∈ p.operators := hoperator ▸ List.mem_map_of_mem hq
    exact (LinearOperator.steady_apply (hp.operators _ hmem) p.start).map _
  have halike := Alike.traverse_rearrange (termAt p.start)
    (fun l => terms p.start (l.map (·.1)) (l.map (·.2.1)) (l.map (·.2.2))) rfl
    (fun q l => by
      simp only [List.map_cons, terms, termAt, bind_assoc, pure_bind])
    hsteady horder'
  simp only [← rearrange_map, hfst, hoperator, hweight] at halike
  refine halike.mono ?_
  rintro ts _ ⟨hts, hlengths, rfl⟩
  refine ⟨hlengths.trans hparts ▸ horder, fun t ht => ?_, rfl⟩
  obtain ⟨hpenalty, hmem, -⟩ :=
    (ensures_terms_mem p.start hp.operators .empty (Trace.faithful_empty names)).2 ts hts t ht
  exact ⟨hp.operators _ hmem, hp.penalties _ hpenalty⟩

end Problem

/-! ### Solvers side by side -/

namespace Solver

/-- The second solver has the terms of the first one in another order; otherwise they cannot be told
apart by what they compute. -/
structure IsReordering (names : Naming K) (order : List ℕ) (s s' : Solver K ℝ ℝ) : Prop where
  f : s'.f = s.f
  terms : s'.terms = rearrange order s.terms
  config : s'.config = s.config
  strategy : s.strategy.Agrees names s'.strategy
  x : s'.x = s.x
  iteration : s'.iteration = s.iteration
  state : s'.state = s.state
  history : s'.history = s.history
  order_perm : order.Perm (List.range s.terms.length)
  named_f : s.f.Named names
  named_terms : ∀ t ∈ s.terms, t.Named names

variable {p : Problem K ℝ ℝ} {config : Config ℝ} {strategy : Strategy K ℝ ℝ} {s s' : Solver K ℝ ℝ}

theorem alike_create (hp : p.Named names) (hstrategy : strategy.IsBuiltIn)
    (hfault : p.fault? = none) (horder : order.Perm (List.range p.penalties.length)) :
    Alike names (IsReordering names order) (create p config strategy)
      (create (p.rearranged order) config strategy) := by
  obtain ⟨hoperators, hweights⟩ := length_of_fault? hfault
  have hlength : p.operators.length = p.weights.length := hoperators.symm.trans hweights
  have horder' : order.Perm (List.range (p.operators.zip p.weights).length) := by
    rwa [List.length_zip, ← hlength, Nat.min_self, ← hoperators]
  have hpairs : (p.operators.zip p.weights).Perm
      ((rearrange order p.operators).zip (rearrange order p.weights)) := by
    rw [← rearrange_zip order hlength]
    exact (rearrange_perm horder').symm
  have hnamed : ∀ q ∈ p.operators.zip p.weights, q.1.Named names :=
    fun q hq => hp.operators q.1 (List.of_mem_zip hq).1
  unfold create
  rw [hfault, Problem.fault?_rearranged hfault horder]
  refine (Alike.liftExcept .refl).bind fun _ _ _ => (Alike.liftExcept .refl).bind fun _ _ _ => ?_
  refine (Strategy.alike_setup hstrategy hp.f hpairs hnamed).bind fun strategy' strategy'' hagrees => ?_
  refine (Problem.alike_terms hp hfault horder).bind ?_
  rintro ts _ ⟨hperm, hts, rfl⟩
  exact .pure ⟨rfl, rfl, rfl, hagrees, rfl, rfl, rfl, rfl, hperm, hp.f, hts⟩

namespace IsReordering

theorem xUpdate (h : s.IsReordering names order s') :
    s.xUpdate.IsReordering names s'.xUpdate where
  f := h.f
  couplings := by
    rw [Solver.xUpdate, Solver.xUpdate, h.terms, ← rearrange_map]
    exact (rearrange_perm (by rw [List.length_map]; exact h.order_perm)).symm
  named := by
    refine ⟨h.named_f, fun c hc => ?_⟩
    obtain ⟨t, ht, rfl⟩ := List.mem_map.mp hc
    exact (h.named_terms t ht).operator

/-- Results that differ only in their order are taken over. -/
theorem commit (h : s.IsReordering names order s') {r r' : StepResult K ℝ ℝ}
    (hr : r.Reordered order s.terms r') :
    (Solver.commit s r).IsReordering names order (Solver.commit s' r') := by
  have hlength : r.updates.length = s.terms.length := by rw [← hr.before, List.length_map]
  have hstatistics (iteration : ℕ) : statistics iteration r' = statistics iteration r := by
    rw [statistics, statistics, hr.report, hr.diagnostics]
  refine ⟨h.f, ?_, h.config, h.strategy, congrArg SubproblemReport.x hr.report, ?_, ?_, ?_, ?_,
    h.named_f, fun t ht => ?_⟩
  · show r'.updates.map TermUpdate.after = rearrange order (r.updates.map TermUpdate.after)
    rw [hr.updates, rearrange_map]
  · show s'.iteration + 1 = s.iteration + 1
    rw [h.iteration]
  · show nextState s'.config (s'.iteration + 1) r'.diagnostics =
      nextState s.config (s.iteration + 1) r.diagnostics
    rw [h.config, h.iteration, hr.diagnostics]
  · rw [history_commit, history_commit, h.config, h.iteration, hr.diagnostics, h.history, hstatistics]
  · show order.Perm (List.range (r.updates.map TermUpdate.after).length)
    rw [List.length_map, hlength]
    exact h.order_perm
  · obtain ⟨update, hupdate, rfl⟩ := List.mem_map.mp ht
    have hbefore : update.before ∈ s.terms := hr.before ▸ List.mem_map_of_mem hupdate
    exact ⟨(h.named_terms _ hbefore).operator, (h.named_terms _ hbefore).penalty⟩

/-- Solvers with their states, strategies and timings replaced. -/
theorem replace (h : s.IsReordering names order s') (state : RunState)
    {strategy strategy' : Strategy K ℝ ℝ} (hstrategy : strategy.Agrees names strategy')
    (timing timing' : Timing ℝ) :
    ({ s with state := state, strategy := strategy, timing := timing } :
      Solver K ℝ ℝ).IsReordering names order
        { s' with state := state, strategy := strategy', timing := timing' } :=
  ⟨h.f, h.terms, h.config, hstrategy, h.x, h.iteration, rfl, h.history, h.order_perm, h.named_f,
    h.named_terms⟩

theorem alikeCalls_step (h : s.IsReordering names order s') :
    AlikeCalls names Eq (IsReordering names order) s.step s'.step := by
  have hsolve : AlikeCalls names Eq (Strategy.Agrees names) (s.strategy.solve s.xUpdate s.x)
      (s'.strategy.solve s'.xUpdate s'.x) := by
    rw [h.x]
    exact h.strategy.alikeCalls_solve h.xUpdate s.x
  refine Solver.alikeCalls_step (q := StepResult.Reordered order s.terms) h.state.symm h hsolve ?_
    (fun _ _ _ _ hstrategy => h.replace .running hstrategy _ _)
    (fun _ _ _ _ _ _ hstrategy hr => (h.replace .running hstrategy _ _).commit hr)
  rintro report _ rfl
  refine Iterate.alike_finish rfl ?_
  rw [h.f, h.terms]
  exact Iterate.alike_couple h.named_f h.named_terms h.order_perm report

end IsReordering

theorem isLockstep_isReordering (names : Naming K) (order : List ℕ) :
    IsLockstep names (IsReordering names order) where
  x h := h.x.symm
  state h := h.state.symm
  iteration h := h.iteration.symm
  config h := h.config.symm
  step h := h.alikeCalls_step
  ended h := h.replace .maxIterReached h.strategy _ _

/-- The order of the constraints does not matter.  For every accepted problem, every settings and both
strategies of the library, take the penalties, the operators and the weights in another order.

* A solver is made for the one order if it is made for the other one.
* After the same calls both solvers have the same iterate, state, iteration number and history, and the
  terms, hence also the split and dual variables, are those of the other one in that order.
* The next call fails for the one order if it fails for the other one. -/
theorem reordered_run (hp : p.Named names) (hstrategy : strategy.IsBuiltIn)
    (hfault : p.fault? = none) (horder : order.Perm (List.range p.penalties.length)) :
    (∀ t t' : Trace K ℝ, t.Faithful names → t'.Faithful names →
      ((∃ s, ((create p config strategy).run t).1 = .ok s) ↔
        ∃ s', ((create (p.rearranged order) config strategy).run t').1 = .ok s')) ∧
    ∀ (s s' : Solver K ℝ ℝ) (t t' : Trace K ℝ),
      Abreast names p (p.rearranged order) config config strategy strategy s t s' t' →
        s'.x = s.x ∧ s'.state = s.state ∧ s'.iteration = s.iteration ∧ s'.history = s.history ∧
        s'.terms = rearrange order s.terms ∧
        s'.terms.map (·.z) = rearrange order (s.terms.map (·.z)) ∧
        s'.terms.map (·.u) = rearrange order (s.terms.map (·.u)) ∧
        Corresponds Eq (s.step t).1.1 (s'.step t').1.1 ∧
        Corresponds Eq (s.solve t).1.1 (s'.solve t').1.1 := by
  have hcreate : Alike names (IsReordering names order) (create p config strategy)
      (create (p.rearranged order) config strategy) := alike_create hp hstrategy hfault horder
  refine ⟨fun t t' ht ht' => (hcreate t t' ht ht').1.isOk_iff, fun s s' t t' habreast => ?_⟩
  have hlockstep := isLockstep_isReordering names order
  obtain ⟨h, ht, ht'⟩ := hlockstep.related hcreate habreast
  have hz : s'.terms.map (·.z) = rearrange order (s.terms.map (·.z)) := by
    rw [h.terms, rearrange_map]
  have hu : s'.terms.map (·.u) = rearrange order (s.terms.map (·.u)) := by
    rw [h.terms, rearrange_map]
  exact ⟨h.x, h.state, h.iteration, h.history, h.terms, hz, hu, (hlockstep.step h t t' ht ht').1,
    (hlockstep.solve h t t' ht ht').1⟩

/-- Fit a difference, with two penalties of different operators and weights. -/
def pairProblem : Problem ℝ ℝ ℝ where
  f := .loss ⟨.ofArray #[1], pairDifference, RealArithmetic.half, none⟩
  penalties := [.l1, .squaredL2]
  operators := [pairDifference, .leaf (.identity (.vector 2))]
  weights := [1, 1 + 1]
  start := .ofArray #[1, 0]

theorem isLeastSquares_pairProblem : pairProblem.IsLeastSquares where
  f := SquaredLoss.isPlainOn_of_ofObservation (y := .ofArray #[1]) isPlain_pairDifference rfl
  operators := List.forall_mem_cons.mpr
    ⟨isPlain_pairDifference, List.forall_mem_singleton.mpr (.identity _)⟩
  penalties := List.forall_mem_cons.mpr ⟨trivial, List.forall_mem_singleton.mpr trivial⟩

theorem fault?_pairProblem : pairProblem.fault? = none := by
  have hinput : pairDifference.input = (Signal.ofArray #[(1 : ℝ), 0]).shape := rfl
  have hinput' : Shape.vector 2 = (Signal.ofArray #[(1 : ℝ), 0]).shape := rfl
  simp [Problem.fault?, pairProblem, Problem.operatorFault?, Problem.weightFault?,
    Problem.isPositive_iff, Functional.isSmooth, Functional.hasProx, LinearOperator.input, Leaf.input,
    hinput, hinput']

theorem named_pairProblem : pairProblem.Named LinearOperator.anyNaming where
  f := isPlain_pairDifference.isLinear.named
  penalties := List.forall_mem_cons.mpr ⟨trivial, List.forall_mem_singleton.mpr trivial⟩
  operators a ha := (isLeastSquares_pairProblem.operators a ha).isLinear.named

/-- Two solvers of this problem, one with its constraints exchanged, after a successful step. -/
theorem reordered_run_pair : pairProblem.fault? = none ∧
    pairProblem.Named LinearOperator.anyNaming ∧
    [1, 0].Perm (List.range pairProblem.penalties.length) ∧
    ∃ (s s₁ s₁' : Solver ℝ ℝ ℝ) (t t₁ t₁' : Trace ℝ ℝ), s.step t = ((.ok (), s₁), t₁) ∧
      Abreast LinearOperator.anyNaming pairProblem (pairProblem.rearranged [1, 0]) .default .default
        (.ofOptions .default) (.ofOptions .default) s₁ t₁ s₁' t₁' ∧
      s₁.terms.map (·.penalty) = [.l1, .squaredL2] ∧
      s₁'.terms.map (·.penalty) = [.squaredL2, .l1] ∧ s₁'.x = s₁.x ∧
      s₁'.history = s₁.history ∧
      s₁'.terms.map (·.z) = rearrange [1, 0] (s₁.terms.map (·.z)) := by
  have horder : [1, 0].Perm (List.range pairProblem.penalties.length) := by
    show [1, 0].Perm [0, 1]
    decide
  have hatol : (0 : ℝ) ≤ (CgOptions.default : CgOptions ℝ).atol := le_refl (0 : ℝ)
  have hdefault : (Config.default : Config ℝ).fault? = none := rfl
  have hbuiltIn : (Strategy.ofOptions .default : Strategy ℝ ℝ ℝ).IsBuiltIn := trivial
  obtain ⟨s, t, hcreate, hrunning⟩ := exists_create isLeastSquares_pairProblem.toHasEquations
    hdefault fault?_pairProblem .default .empty
  have hreachable : Reachable pairProblem .default (.ofOptions .default) s := .create hcreate
  obtain ⟨s₁, t₁, hstep⟩ := hreachable.exists_step isLeastSquares_pairProblem hatol hrunning t
  have hempty : (Trace.empty : Trace ℝ ℝ).Faithful LinearOperator.anyNaming :=
    Trace.faithful_empty _
  obtain ⟨s', hmade⟩ := ((reordered_run named_pairProblem hbuiltIn fault?_pairProblem horder).1
    _ _ hempty hempty).mp ⟨s, congrArg Prod.fst hcreate⟩
  have habreast := (Abreast.create hempty hempty hcreate (Prod.ext hmade rfl)).step hstep rfl
  obtain ⟨hx, -, -, hhistory, hterms, hz, -⟩ :=
    (reordered_run named_pairProblem hbuiltIn fault?_pairProblem horder).2 _ _ _ _ habreast
  have hpenalties : s₁.terms.map (·.penalty) = [.l1, .squaredL2] :=
    ((hreachable.step hstep).sound isLeastSquares_pairProblem.wellShaped).penalties
  have hpenalties' : rearrange [1, 0] (s₁.terms.map (·.penalty)) = [.squaredL2, .l1] := by
    rw [hpenalties]
    rfl
  rw [rearrange_map, ← hterms] at hpenalties'
  exact ⟨fault?_pairProblem, named_pairProblem, horder, s, s₁, _, t, t₁, _, hstep, habreast,
    hpenalties, hpenalties', hx, hhistory, hz⟩

end Solver

end

end OperatorSplitting
