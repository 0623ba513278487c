import Mathlib
import OperatorSplitting.Proofs.Correspondence
import OperatorSplitting.Proofs.Admm.Solve

/-!
# Two solvers in lockstep

Two solvers are run side by side: they are made from two problems, and then the same calls are made to
both, in the same order (`Abreast`).  A relation between solvers is kept in *lockstep* if it fixes the
iterate, the iteration number and the state, and if a step of both either fails twice or succeeds twice
and leaves related solvers behind (`IsLockstep`).  Solving then does the same, as it is made of steps, and
the relation holds between the two solvers at all times (`IsLockstep.related`).

What a step does beside another one is put together from the x-updates and from what is made of their
solutions (`alikeCalls_step`).
-/

namespace OperatorSplitting

open Eval

variable {K R W : Type} [Scalar K R W] {names : Naming K}

/-! ### Calls that leave something behind -/

/-- Two calls that change a state, also when they fail.  From faithful traces their results correspond,
the states are related, and the traces stay faithful. -/
def AlikeCalls {α β σ τ : Type} (names : Naming K) (r : α → β → Prop) (S : σ → τ → Prop)
    (m : StateM (Trace K W) (Except Error α × σ)) (m' : StateM (Trace K W) (Except Error β × τ)) :
    Prop :=
  ∀ t t', t.Faithful names → t'.Faithful names → Corresponds r (m t).1.1 (m' t').1.1 ∧
    S (m t).1.2 (m' t').1.2 ∧ (m t).2.Faithful names ∧ (m' t').2.Faithful names

namespace AlikeCalls

variable {α β σ τ : Type} {r : α → β → Prop} {S : σ → τ → Prop}
  {m : StateM (Trace K W) (Except Error α × σ)} {m' : StateM (Trace K W) (Except Error β × τ)}

/-- The results of two calls. -/
theorem of_run (h : AlikeCalls names r S m m') {t t' t₁ t₁' : Trace K W} {x : Except Error α}
    {y : Except Error β} {a : σ} {b : τ} (ht : t.Faithful names) (ht' : t'.Faithful names)
    (hrun : m t = ((x, a), t₁)) (hrun' : m' t' = ((y, b), t₁')) :
    Corresponds r x y ∧ S a b ∧ t₁.Faithful names ∧ t₁'.Faithful names := by
  have hboth := h t t' ht ht'
  rw [hrun, hrun'] at hboth
  exact hboth

end AlikeCalls

variable [RealArithmetic R] [RealArithmetic W] [Widening R W]

/-! ### Steps -/

theorem Iterate.alike_finish {f f' : Functional K R W} {terms terms' : List (Term K R W)}
    {number number' : ℕ} {report report' : SubproblemReport K W}
    {q : Solver.StepResult K R W → Solver.StepResult K R W → Prop} (hx : report.x = report'.x)
    (hcouple : Alike names q (couple f terms report) (couple f' terms' report')) :
    Alike names q (finish f terms number report) (finish f' terms' number' report') := by
  unfold finish
  rw [hx]
  split
  · exact hcouple
  · exact .throw _ _

namespace Solver

variable {s s' : Solver K R W}

omit [Scalar K R W] [RealArithmetic R] [Widening R W] in
/-- A row is recorded in every period and at the end. -/
theorem history_commit (s : Solver K R W) (r : StepResult K R W) : (commit s r).history =
    if (s.iteration + 1) % s.config.record.period = 0 ||
        (nextState s.config (s.iteration + 1) r.diagnostics).isTerminal then
      s.history.push (statistics (s.iteration + 1) r)
    else s.history := rfl

/-- A step beside another one.  The x-updates are solved side by side, then the new variables are made
side by side from their solutions. -/
theorem alikeCalls_step {S : Solver K R W → Solver K R W → Prop}
    {r : SubproblemReport K W → SubproblemReport K W → Prop}
    {T : Strategy K R W → Strategy K R W → Prop}
    {q : StepResult K R W → StepResult K R W → Prop} (hstate : s.state = s'.state) (hS : S s s')
    (hsolve : AlikeCalls names r T (s.strategy.solve s.xUpdate s.x) (s'.strategy.solve s'.xUpdate s'.x))
    (hfinish : ∀ report report', r report report' →
      Alike names q (Iterate.finish s.f s.terms (s.iteration + 1) report)
        (Iterate.finish s'.f s'.terms (s'.iteration + 1) report'))
    (hfail : ∀ strategy strategy' timing timing', T strategy strategy' →
      S { s with state := .running, strategy := strategy, timing := timing }
        { s' with state := .running, strategy := strategy', timing := timing' })
    (hcommit : ∀ strategy strategy' timing timing' result result', T strategy strategy' →
      q result result' →
      S (commit { s with state := .running, strategy := strategy, timing := timing } result)
        (commit { s' with state := .running, strategy := strategy', timing := timing' } result')) :
    AlikeCalls names Eq S s.step s'.step := by
  intro t t' ht ht'
  by_cases hterminal : s.state.isTerminal = true
  · have hterminal' : s'.state.isTerminal = true := hstate ▸ hterminal
    rw [step, if_pos hterminal, step, if_pos hterminal']
    exact ⟨.error, hS, ht, ht'⟩
  · rw [Bool.not_eq_true] at hterminal
    obtain ⟨timing, hstep⟩ := step_running hterminal t
    obtain ⟨timing', hstep'⟩ := step_running (hstate ▸ hterminal) t'
    rw [hstep, hstep']
    have hsolved : Corresponds r (s.solved t).1.1 (s'.solved t').1.1 ∧
        T (s.solved t).1.2 (s'.solved t').1.2 ∧ (s.solved t).2.Faithful names ∧
        (s'.solved t').2.Faithful names := hsolve t t' ht ht'
    unfold finished
    rcases hrun : s.solved t with ⟨⟨result, strategy⟩, t₁⟩
    rcases hrun' : s'.solved t' with ⟨⟨result', strategy'⟩, t₁'⟩
    rw [hrun, hrun'] at hsolved
    obtain ⟨hresult, hstrategy, ht₁, ht₁'⟩ := hsolved
    cases hresult with
    | error => exact ⟨.error, hfail _ _ _ _ hstrategy, ht₁, ht₁'⟩
    | @ok report report' hreport =>
      obtain ⟨hfinished, ht₂, ht₂'⟩ := hfinish report report' hreport t₁ t₁' ht₁ ht₁'
      dsimp only
      rcases hf : (Iterate.finish s.f s.terms (s.iteration + 1) report).run t₁ with ⟨x, t₂⟩
      rcases hf' : (Iterate.finish s'.f s'.terms (s'.iteration + 1) report').run t₁' with ⟨y, t₂'⟩
      rw [hf, hf'] at hfinished
      rw [hf] at ht₂
      rw [hf'] at ht₂'
      cases hfinished with
      | error => exact ⟨.error, hfail _ _ _ _ hstrategy, ht₂, ht₂'⟩
      | ok hq => exact ⟨.ok rfl, hcommit _ _ _ _ _ _ hstrategy hq, ht₂, ht₂'⟩

/-! ### Solving -/

/-- A relation between solvers that steps keep and that fixes what the course of a run depends on. -/
structure IsLockstep (names : Naming K) (S : Solver K R W → Solver K R W → Prop) : Prop where
  x : ∀ {s s'}, S s s' → s.x = s'.x
  state : ∀ {s s'}, S s s' → s.state = s'.state
  iteration : ∀ {s s'}, S s s' → s.iteration = s'.iteration
  config : ∀ {s s'}, S s s' → s.config = s'.config
  step : ∀ {s s'}, S s s' → AlikeCalls names Eq S s.step s'.step
  ended : ∀ {s s'}, S s s' →
    S { s with state := .maxIterReached } { s' with state := .maxIterReached }

namespace IsLockstep

variable {S : Solver K R W → Solver K R W → Prop}

theorem solveWithin (hS : IsLockstep names S) (n : ℕ) (h : S s s') :
    AlikeCalls names Eq S (solveWithin n s) (solveWithin n s') := by
  induction n generalizing s s' with
  | zero => exact fun t t' ht ht' => ⟨.ok (hS.x h), h, ht, ht'⟩
  | succ n ih =>
    intro t t' ht ht'
    by_cases hterminal : s.state.isTerminal = true
    · rw [solveWithin_of_isTerminal hterminal, solveWithin_of_isTerminal (hS.state h ▸ hterminal)]
      exact ⟨.ok (hS.x h), h, ht, ht'⟩
    · rw [Bool.not_eq_true] at hterminal
      rw [solveWithin_succ hterminal, solveWithin_succ (hS.state h ▸ hterminal)]
      obtain ⟨hresult, hnext, ht₁, ht₁'⟩ := hS.step h t t' ht ht'
      rcases hrun : s.step t with ⟨⟨x, s₁⟩, t₁⟩
      rcases hrun' : s'.step t' with ⟨⟨y, s₁'⟩, t₁'⟩
      rw [hrun] at hresult hnext ht₁
      rw [hrun'] at hresult hnext ht₁'
      cases hresult with
      | error => exact ⟨.error, hnext, ht₁, ht₁'⟩
      | ok _ => exact ih hnext t₁ t₁' ht₁ ht₁'

theorem solve (hS : IsLockstep names S) (h : S s s') :
    AlikeCalls names Eq S s.solve s'.solve := by
  have hcount : s'.config.maxIter - s'.iteration = s.config.maxIter - s.iteration := by
    rw [hS.config h, hS.iteration h]
  have hend : (s'.config.maxIter ≤ s'.iteration && !s'.state.isTerminal) =
      (s.config.maxIter ≤ s.iteration && !s.state.isTerminal) := by
    rw [hS.config h, hS.iteration h, hS.state h]
  unfold Solver.solve
  rw [hend]
  split
  · show AlikeCalls names Eq S (Solver.solveWithin (s.config.maxIter - s.iteration) _)
      (Solver.solveWithin (s'.config.maxIter - s'.iteration) _)
    rw [hcount]
    exact hS.solveWithin _ (hS.ended h)
  · dsimp only
    rw [hcount]
    exact hS.solveWithin _ h

end IsLockstep

/-! ### Runs side by side -/

/-- Two solvers with their traces, made from two problems, to which the same calls have been made.
Elsewhere, anything may have been evaluated. -/
inductive Abreast (names : Naming K) (p p' : Problem K R W) (config config' : Config W)
    (strategy strategy' : Strategy K R W) :
    Solver K R W → Trace K W → Solver K R W → Trace K W → Prop
  | create {s s' t t' t₁ t₁'} : t.Faithful names → t'.Faithful names →
      (create p config strategy).run t = (.ok s, t₁) →
      (create p' config' strategy').run t' = (.ok s', t₁') →
      Abreast names p p' config config' strategy strategy' s t₁ s' t₁'
  | step {s s' s₁ s₁' t t' t₁ t₁' result result'} :
      Abreast names p p' config config' strategy strategy' s t s' t' →
      s.step t = ((result, s₁), t₁) → s'.step t' = ((result', s₁'), t₁') →
      Abreast names p p' config config' strategy strategy' s₁ t₁ s₁' t₁'
  | solve {s s' s₁ s₁' t t' t₁ t₁' result result'} :
      Abreast names p p' config config' strategy strategy' s t s' t' →
      s.solve t = ((result, s₁), t₁) → s'.solve t' = ((result', s₁'), t₁') →
      Abreast names p p' config config' strategy strategy' s₁ t₁ s₁' t₁'
  | elsewhere {s s' t t' t₁ t₁'} :
      Abreast names p p' config config' strategy strategy' s t s' t' →
      t₁.Faithful names → t₁'.Faithful names →
      Abreast names p p' config config' strategy strategy' s t₁ s' t₁'

variable {p p' : Problem K R W} {config config' : Config W} {strategy strategy' : Strategy K R W}
  {t t' : Trace K W}

/-- A relation that is kept in lockstep holds at all times, if it holds of solvers when they are made. -/
theorem IsLockstep.related {S : Solver K R W → Solver K R W → Prop} (hS : IsLockstep names S)
    (hcreate : Alike names S (Solver.create p config strategy) (Solver.create p' config' strategy'))
    (h : Abreast names p p' config config' strategy strategy' s t s' t') :
    S s s' ∧ t.Faithful names ∧ t'.Faithful names := by
  induction h with
  | create ht ht' hmade hmade' =>
    obtain ⟨hresult, hkeep, hkeep'⟩ := hcreate.of_run ht ht' hmade hmade'
    cases hresult with
    | ok h => exact ⟨h, hkeep, hkeep'⟩
  | step _ hstep hstep' ih =>
    obtain ⟨h, ht, ht'⟩ := ih
    exact ((hS.step h).of_run ht ht' hstep hstep').2
  | solve _ hsolve hsolve' ih =>
    obtain ⟨h, ht, ht'⟩ := ih
    exact ((hS.solve h).of_run ht ht' hsolve hsolve').2
  | elsewhere _ ht ht' ih => exact ⟨ih.1, ht, ht'⟩

end Solver

end OperatorSplitting
