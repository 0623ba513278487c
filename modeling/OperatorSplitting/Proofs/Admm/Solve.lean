import Mathlib
import OperatorSplitting.Proofs.Admm.IdentityTerm

/-!
# What solving computes

A run visits the iterates of the orbit of its solver one after the other.  It ends at the first iterate
whose residuals are within the tolerance, or when the iterations are used up (`length`).  The settings
decide where the run ends and which rows it records, and nothing else.
-/

namespace OperatorSplitting

open Eval

variable {K R W : Type} [RealArithmetic R] [RealArithmetic W] [Widening R W] [Scalar K R W]

/-- Whether the residuals of an iterate are within a tolerance.  The starting point has none. -/
def Iterate.meets (tolerance : Option W) (q : Iterate K R W) : Bool :=
  match tolerance, q.result with
  | some tol, some r =>
    RealArithmetic.le (r.diagnostics.primalResidual + r.diagnostics.dualResidual) tol
  | _, _ => false

namespace Solver

/-! ### The end of a run -/

/-- Whether the run has an iterate of this number that is within the tolerance. -/
def meets (s : Solver K R W) (t : Trace K W) (k : ℕ) : Bool :=
  match s.orbit t k with
  | .ok q => q.meets s.config.stopTolerance
  | .error _ => false

theorem exists_end (s : Solver K R W) (t : Trace K W) :
    ∃ k, k = s.config.maxIter ∨ s.meets t k = true := ⟨s.config.maxIter, .inl rfl⟩

/-- The number of the iterate at which a run ends: the first one within the tolerance, or the last one
that the settings allow. -/
def length (s : Solver K R W) (t : Trace K W) : ℕ := Nat.find (s.exists_end t)

section Length

variable {s : Solver K R W} {t : Trace K W}

theorem meets_zero : s.meets t 0 = false := by
  show (s.point t).meets s.config.stopTolerance = false
  unfold Iterate.meets
  cases s.config.stopTolerance <;> rfl

theorem length_le : s.length t ≤ s.config.maxIter := Nat.find_min' (s.exists_end t) (.inl rfl)

theorem length_le_of_meets {k : ℕ} (h : s.meets t k = true) : s.length t ≤ k :=
  Nat.find_min' (s.exists_end t) (.inr h)

theorem length_spec : s.length t = s.config.maxIter ∨ s.meets t (s.length t) = true :=
  Nat.find_spec (s.exists_end t)

/-- The first iterate within the tolerance is the end of the run. -/
theorem length_eq_of_meets {k : ℕ} (hk : k ≤ s.config.maxIter) (hmeets : s.meets t k = true)
    (hbefore : ∀ j < k, s.meets t j = false) : s.length t = k := by
  refine (Nat.find_eq_iff (s.exists_end t)).mpr ⟨.inr hmeets, fun j hj hend => ?_⟩
  rcases hend with hmax | hend
  · exact absurd (hmax ▸ hj) hk.not_gt
  · exact Bool.false_ne_true ((hbefore j hj).symm.trans hend)

/-- Before the end no iterate is within the tolerance. -/
theorem meets_of_lt_length {k : ℕ} (h : k < s.length t) : s.meets t k = false := by
  have hnot := Nat.find_min (s.exists_end t) h
  exact eq_false_of_ne_true fun hmeets => hnot (.inr hmeets)

/-- A run that some iterate within the bound stops, stops at such an iterate. -/
theorem meets_length_iff :
    s.meets t (s.length t) = true ↔ ∃ k, 1 ≤ k ∧ k ≤ s.config.maxIter ∧ s.meets t k = true := by
  constructor
  · intro h
    refine ⟨s.length t, Nat.one_le_iff_ne_zero.mpr fun hzero => ?_, length_le, h⟩
    rw [hzero, meets_zero] at h
    cases h
  · rintro ⟨k, -, hk, hmeets⟩
    rcases length_spec (s := s) (t := t) with hmax | hlast
    · have hend := length_le_of_meets hmeets
      rwa [le_antisymm hend (hmax ▸ hk)]
    · exact hlast

theorem meets_of_stopTolerance_eq_none (h : s.config.stopTolerance = none) (k : ℕ) :
    s.meets t k = false := by
  unfold meets Iterate.meets
  rw [h]
  split <;> rfl

/-- Without a tolerance a run uses up its iterations. -/
theorem length_of_stopTolerance_eq_none (h : s.config.stopTolerance = none) :
    s.length t = s.config.maxIter := by
  rcases length_spec (s := s) (t := t) with hmax | hmeets
  · exact hmax
  · rw [meets_of_stopTolerance_eq_none h] at hmeets
    cases hmeets

/-- Other settings with the same tolerance accept the same iterates. -/
theorem meets_config {config : Config W} (h : config.stopTolerance = s.config.stopTolerance)
    (k : ℕ) :
    ({ s with config := config } : Solver K R W).meets t k = s.meets t k := by
  unfold meets
  rw [h]
  rfl

/-- With fewer iterations allowed and the same tolerance, a run ends at the bound or where it did. -/
theorem length_config {config : Config W} (h : config.stopTolerance = s.config.stopTolerance)
    (hmax : config.maxIter ≤ s.config.maxIter) :
    ({ s with config := config } : Solver K R W).length t = min (s.length t) config.maxIter := by
  apply le_antisymm
  · apply le_min _ length_le
    rcases length_spec (s := s) (t := t) with hend | hend
    · exact length_le.trans (hend ▸ hmax)
    · exact length_le_of_meets ((meets_config h _).trans hend)
  · rcases length_spec (s := ({ s with config := config } : Solver K R W)) (t := t) with hend | hend
    · rw [hend]
      exact min_le_right _ _
    · rw [meets_config h] at hend
      exact (min_le_left _ _).trans (length_le_of_meets hend)

end Length

/-! ### The states of a run -/

/-- The state of a run at an iterate. -/
def stateAt (s : Solver K R W) (t : Trace K W) : ℕ → RunState
  | 0 => .initialized
  | k + 1 =>
    if s.meets t (k + 1) then .converged
    else if k + 1 = s.length t then .maxIterReached else .running

/-- Whether the run records an iteration of this number. -/
def records (s : Solver K R W) (t : Trace K W) (k : ℕ) : Bool :=
  k % s.config.record.period = 0 || k = s.length t

section States

variable {s : Solver K R W} {t : Trace K W} {k : ℕ}

theorem stateAt_succ : s.stateAt t (k + 1) =
    if s.meets t (k + 1) = true then .converged
    else if k + 1 = s.length t then .maxIterReached else .running := rfl

/-- A run is in a terminal state at its end only. -/
theorem isTerminal_stateAt_succ (hk : k + 1 ≤ s.length t) :
    (s.stateAt t (k + 1)).isTerminal = decide (k + 1 = s.length t) := by
  rw [stateAt_succ]
  rcases hk.lt_or_eq with hlt | heq
  · rw [meets_of_lt_length hlt, if_neg Bool.noConfusion, if_neg hlt.ne, decide_eq_false hlt.ne]
    rfl
  · rw [if_pos heq, decide_eq_true heq]
    split <;> rfl

theorem isTerminal_stateAt (hk : k < s.length t) : (s.stateAt t k).isTerminal = false := by
  cases k with
  | zero => rfl
  | succ k => rw [isTerminal_stateAt_succ hk.le, decide_eq_false hk.ne]

omit [RealArithmetic R] [Widening R W] [Scalar K R W] in
theorem nextState_eq_ite {q : Iterate K R W} {r : StepResult K R W} (h : q.result = some r)
    (config : Config W) (number : ℕ) :
    nextState config number r.diagnostics =
      if q.meets config.stopTolerance = true then .converged
      else if config.maxIter ≤ number then .maxIterReached else .running := by
  unfold nextState Iterate.meets
  rw [h]
  cases config.stopTolerance <;> rfl

/-- The state that a step enters. -/
theorem nextState_eq {q : Iterate K R W} {r : StepResult K R W} (hk : k + 1 ≤ s.length t)
    (hq : s.orbit t (k + 1) = .ok q) (hr : q.result = some r) :
    nextState s.config (k + 1) r.diagnostics = s.stateAt t (k + 1) := by
  have hmeets : s.meets t (k + 1) = q.meets s.config.stopTolerance := by
    unfold meets
    rw [hq]
  rw [nextState_eq_ite hr, stateAt_succ, ← hmeets]
  cases hend : s.meets t (k + 1) with
  | true => rfl
  | false =>
    have hmax : s.config.maxIter ≤ k + 1 ↔ k + 1 = s.length t := by
      constructor
      · exact fun hle => le_antisymm hk (length_le.trans hle)
      · intro heq
        rcases length_spec (s := s) (t := t) with hmax | hlast
        · exact (heq.trans hmax).ge
        · rw [← heq, hend] at hlast
          cases hlast
    simp only [hmax]

end States

/-! ### The run of a fresh solver -/

/-- Nothing has been done since the solver was made. -/
structure Fresh (s : Solver K R W) : Prop where
  iteration : s.iteration = 0
  state : s.state = .initialized
  history : s.history = .empty

/-- A row has the values of the iterate of its number. -/
def IsRow (s : Solver K R W) (t : Trace K W) (row : IterationStats W) : Prop :=
  ∃ q r, s.orbit t row.iteration = .ok q ∧ q.result = some r ∧ row = statistics row.iteration r

/-- What holds of a solver that has taken `k` steps since it was fresh. -/
structure OnOrbit (s₀ : Solver K R W) (t₀ : Trace K W) (k : ℕ) (s : Solver K R W) (t : Trace K W) :
    Prop where
  f : s.f = s₀.f
  config : s.config = s₀.config
  iteration : s.iteration = k
  iterate : ∃ q, s₀.orbit t₀ k = .ok q ∧ s.point t = { q with result := none }
  state : s.state = s₀.stateAt t₀ k
  rows : ∀ row ∈ s.history.records, s₀.IsRow t₀ row
  recorded : s.history.records.map (·.iteration) = (List.range' 1 k).filter (s₀.records t₀)

section Run

variable {s₀ s : Solver K R W} {t₀ t : Trace K W} {k : ℕ}

theorem Fresh.onOrbit (h : s₀.Fresh) (t₀ : Trace K W) : OnOrbit s₀ t₀ 0 s₀ t₀ where
  f := rfl
  config := rfl
  iteration := h.iteration
  iterate := ⟨_, rfl, rfl⟩
  state := h.state
  rows row hrow := by
    rw [h.history] at hrow
    cases hrow
  recorded := by
    rw [h.history]
    rfl

/-- The update from where the solver stands makes the next iterate. -/
theorem OnOrbit.update_eq (h : OnOrbit s₀ t₀ k s t) :
    (s.point t).update s.f (s.iteration + 1) = s₀.orbit t₀ (k + 1) := by
  obtain ⟨q, hq, hpoint⟩ := h.iterate
  have hsucc : s₀.orbit t₀ (k + 1) = s₀.orbit t₀ k >>= fun q => q.update s₀.f (k + 1) := rfl
  rw [hsucc, hq, hpoint, h.f, h.iteration]
  rfl

/-- The step that makes the next iterate. -/
theorem OnOrbit.step (h : OnOrbit s₀ t₀ k s t) (hk : k < s₀.length t₀) {q : Iterate K R W}
    (hq : s₀.orbit t₀ (k + 1) = .ok q) :
    ∃ s' t', s.step t = ((.ok (), s'), t') ∧ OnOrbit s₀ t₀ (k + 1) s' t' := by
  have hrunning : s.state.isTerminal = false := h.state ▸ isTerminal_stateAt hk
  obtain ⟨r, strategy, timing, trace, rfl, hstep⟩ :=
    step_of_update hrunning (h.update_eq.trans hq)
  have hstate : nextState s.config (s.iteration + 1) r.diagnostics = s₀.stateAt t₀ (k + 1) := by
    rw [h.config, h.iteration]
    exact nextState_eq hk hq rfl
  have hrow : s₀.IsRow t₀ (statistics (s.iteration + 1) r) := by
    refine ⟨⟨r.updates.map TermUpdate.after, r.report.x, strategy, trace, some r⟩, r, ?_, rfl, rfl⟩
    rw [← hq, ← h.iteration]
    rfl
  have hrecords : ((s.iteration + 1) % s.config.record.period = 0 ||
      (nextState s.config (s.iteration + 1) r.diagnostics).isTerminal) =
        s₀.records t₀ (k + 1) := by
    rw [hstate, isTerminal_stateAt_succ hk, h.iteration, h.config]
    rfl
  have hhistory : (commit { s with state := .running, strategy := strategy, timing := timing }
      r).history.records = if s₀.records t₀ (k + 1) then
        s.history.records ++ [statistics (s.iteration + 1) r] else s.history.records := by
    rw [← hrecords, ← History.records_push, ← apply_ite History.records]
    rfl
  refine ⟨_, _, hstep, h.f, h.config, ?_, ⟨_, hq, rfl⟩, hstate, fun row hmem => ?_, ?_⟩
  · rw [← h.iteration]
    rfl
  · rw [hhistory] at hmem
    split at hmem
    · rcases List.mem_append.mp hmem with hold | hnew
      · exact h.rows row hold
      · rwa [List.mem_singleton.mp hnew]
    · exact h.rows row hmem
  · rw [hhistory, List.range'_1_concat, List.filter_append, ← h.recorded, Nat.add_comm 1 k]
    cases hnew : s₀.records t₀ (k + 1) with
    | true =>
      rw [if_pos rfl, List.map_append, List.filter_singleton, hnew, ← h.iteration]
      rfl
    | false =>
      rw [if_neg Bool.noConfusion, List.filter_singleton, hnew]
      exact (List.append_nil _).symm

/-- The step whose update fails. -/
theorem OnOrbit.step_error (h : OnOrbit s₀ t₀ k s t) (hk : k < s₀.length t₀) {e : Error}
    (he : s₀.orbit t₀ (k + 1) = .error e) :
    ∃ strategy timing t', s.step t =
      ((.error e, { s with state := .running, strategy := strategy, timing := timing }), t') :=
  step_of_update_error (h.state ▸ isTerminal_stateAt hk) (h.update_eq.trans he)

end Run

/-! ### Steps in a row -/

/-- Take some steps, until one fails. -/
def steps : ℕ → Solver K R W → StateM (Trace K W) (Except Error Unit × Solver K R W)
  | 0, s => return (.ok (), s)
  | k + 1, s => do
    match ← steps k s with
    | (.error e, s) => return (.error e, s)
    | (.ok (), s) => s.step

/-- Take some steps and then solve, unless a step fails. -/
def solveAfter (k : ℕ) (s : Solver K R W) :
    StateM (Trace K W) (Except Error (Signal K) × Solver K R W) := do
  match ← steps k s with
  | (.error e, s) => return (.error e, s)
  | (.ok (), s) => s.solve

section Steps

variable {s₀ s : Solver K R W} {t₀ t : Trace K W} {j k : ℕ}

/-- The solver has the variables of an iterate. -/
structure StandsAt (iterates : ℕ → Except Error (Iterate K R W)) (k : ℕ) (s : Solver K R W) :
    Prop where
  iteration : s.iteration = k
  iterate : ∃ q, iterates k = .ok q ∧ s.x = q.x ∧ s.terms = q.terms

/-- Update `j + 1` is the first one to fail, and the solver stands at the iterate before it. -/
structure FailsAt (iterates : ℕ → Except Error (Iterate K R W)) (j : ℕ) (e : Error)
    (s : Solver K R W) : Prop where
  error : iterates (j + 1) = .error e
  standsAt : StandsAt iterates j s

theorem OnOrbit.standsAt (h : OnOrbit s₀ t₀ k s t) : StandsAt (s₀.orbit t₀) k s := by
  obtain ⟨q, hq, hpoint⟩ := h.iterate
  exact ⟨h.iteration, q, hq, congrArg Iterate.x hpoint, congrArg Iterate.terms hpoint⟩

theorem orbit_error_of_le {e : Error} (h : s₀.orbit t₀ j = .error e) (hjk : j ≤ k) :
    s₀.orbit t₀ k = .error e := by
  induction k, hjk using Nat.le_induction with
  | base => exact h
  | succ k _ ih =>
    show (s₀.orbit t₀ k >>= fun q => q.update s₀.f (k + 1)) = _
    rw [ih]
    rfl

theorem steps_succ (k : ℕ) (s : Solver K R W) (t : Trace K W) :
    steps (k + 1) s t = match steps k s t with
      | ((.error e, s), t) => ((.error e, s), t)
      | ((.ok (), s), t) => s.step t := by
  rw [steps]
  simp only [bind, StateT.bind]
  rcases steps k s t with ⟨⟨result, s'⟩, t'⟩
  cases result <;> rfl

theorem solveAfter_eq (k : ℕ) (s : Solver K R W) (t : Trace K W) :
    solveAfter k s t = match steps k s t with
      | ((.error e, s), t) => ((.error e, s), t)
      | ((.ok (), s), t) => s.solve t := by
  rw [solveAfter]
  simp only [bind, StateT.bind]
  rcases steps k s t with ⟨⟨result, s'⟩, t'⟩
  cases result <;> rfl

/-- Steps visit the iterates of the orbit, up to the first update that fails. -/
theorem Fresh.steps_cases (h : s₀.Fresh) (t₀ : Trace K W) (hk : k ≤ s₀.length t₀) :
    (∃ s t, steps k s₀ t₀ = ((.ok (), s), t) ∧ OnOrbit s₀ t₀ k s t) ∨
      ∃ j e s t, j < k ∧ steps k s₀ t₀ = ((.error e, s), t) ∧ FailsAt (s₀.orbit t₀) j e s := by
  induction k with
  | zero => exact .inl ⟨s₀, t₀, rfl, h.onOrbit t₀⟩
  | succ k ih =>
    rcases ih (Nat.le_of_succ_le hk) with ⟨s, t, hsteps, hon⟩ | ⟨j, e, s, t, hj, hsteps, hfails⟩
    · rw [steps_succ, hsteps]
      dsimp only
      cases hnext : s₀.orbit t₀ (k + 1) with
      | ok q =>
        exact .inl (hon.step hk hnext)
      | error e =>
        obtain ⟨strategy, timing, t', hstep⟩ := hon.step_error hk hnext
        obtain ⟨hiteration, hiterate⟩ := hon.standsAt
        exact .inr ⟨k, e, _, t', k.lt_succ_self, hstep, hnext, hiteration, hiterate⟩
    · rw [steps_succ, hsteps]
      exact .inr ⟨j, e, s, t, hj.trans k.lt_succ_self, rfl, hfails⟩

/-- Only a run whose iterations are used up ends without a step. -/
theorem solve_of_lt {s : Solver K R W} (h : s.iteration < s.config.maxIter) :
    s.solve = solveWithin (s.config.maxIter - s.iteration) s := by
  unfold solve
  rw [if_neg]
  simp [h]

theorem solve_of_isTerminal {s : Solver K R W} (h : s.state.isTerminal = true) :
    s.solve = solveWithin (s.config.maxIter - s.iteration) s := by
  unfold solve
  rw [if_neg]
  simp [h]

theorem solveWithin_of_isTerminal {s : Solver K R W} (h : s.state.isTerminal = true) (n : ℕ)
    (t : Trace K W) : solveWithin n s t = ((.ok s.x, s), t) := by
  cases n with
  | zero => rfl
  | succ n =>
    rw [solveWithin, if_pos h]
    rfl

theorem solveWithin_succ {s : Solver K R W} (h : s.state.isTerminal = false) (n : ℕ)
    (t : Trace K W) : solveWithin (n + 1) s t = match s.step t with
      | ((.error e, s), t) => ((.error e, s), t)
      | ((.ok (), s), t) => solveWithin n s t := by
  rw [solveWithin, if_neg (by rw [h]; exact Bool.noConfusion)]
  simp only [bind, StateT.bind]
  rcases s.step t with ⟨⟨result, s'⟩, t'⟩
  cases result <;> rfl

/-- Solving takes a step first, unless the run has ended. -/
theorem OnOrbit.solve_eq (h : OnOrbit s₀ t₀ k s t) (hk : k < s₀.length t₀) :
    s.solve t = match s.step t with
      | ((.error e, s), t) => ((.error e, s), t)
      | ((.ok (), s), t) => s.solve t := by
  have hrunning : s.state.isTerminal = false := h.state ▸ isTerminal_stateAt hk
  have hmax : s.iteration < s.config.maxIter := by
    rw [h.iteration, h.config]
    exact hk.trans_le length_le
  obtain ⟨n, hn⟩ := Nat.exists_eq_add_of_lt hmax
  have hcount : s.config.maxIter - s.iteration = n + 1 := by omega
  rw [solve_of_lt hmax, hcount, solveWithin_succ hrunning]
  cases hnext : s₀.orbit t₀ (k + 1) with
  | error e =>
    obtain ⟨strategy, timing, t', hstep⟩ := h.step_error hk hnext
    rw [hstep]
  | ok q =>
    obtain ⟨s', t', hstep, hon⟩ := h.step hk hnext
    rw [hstep]
    have hleft : s'.config.maxIter - s'.iteration = n := by
      rw [hon.config, hon.iteration, ← h.config, ← h.iteration]
      omega
    have hsolve : s'.solve = solveWithin (s'.config.maxIter - s'.iteration) s' := by
      rcases hk.nat_succ_le.lt_or_eq with hlt | heq
      · apply solve_of_lt
        rw [hon.iteration, hon.config]
        exact hlt.trans_le length_le
      · apply solve_of_isTerminal
        rw [hon.state, isTerminal_stateAt_succ hk, decide_eq_true heq]
    show solveWithin n s' t' = s'.solve t'
    rw [hsolve, hleft]

/-- Solving at the end of the run changes nothing but the state. -/
theorem OnOrbit.solve_end (h : OnOrbit s₀ t₀ k s t) (hk : k = s₀.length t₀) :
    ∃ state, (state = if s₀.meets t₀ k = true then RunState.converged else .maxIterReached) ∧
      s.solve t = ((.ok s.x, { s with state := state }), t) := by
  cases k with
  | zero =>
    have hinitialized : s.state = .initialized := h.state
    have hmax : s.config.maxIter = 0 := by
      rw [h.config]
      rcases length_spec (s := s₀) (t := t₀) with hmax | hmeets
      · exact hmax.symm.trans hk.symm
      · rw [← hk, meets_zero] at hmeets
        cases hmeets
    refine ⟨.maxIterReached, by rw [meets_zero]; rfl, ?_⟩
    unfold solve
    rw [if_pos]
    · exact solveWithin_of_isTerminal rfl _ _
    · simp [hmax, hinitialized, RunState.isTerminal]
  | succ k =>
    have hterminal : s.state.isTerminal = true := by
      rw [h.state, isTerminal_stateAt_succ hk.le, decide_eq_true hk]
    refine ⟨s.state, ?_, ?_⟩
    · rw [h.state, stateAt_succ, if_pos hk]
    · rw [solve_of_isTerminal hterminal, solveWithin_of_isTerminal hterminal]

/-- Taking steps of the run before solving makes no difference. -/
theorem Fresh.solveAfter_eq_solve (h : s₀.Fresh) (t₀ : Trace K W) (hk : k ≤ s₀.length t₀) :
    solveAfter k s₀ t₀ = s₀.solve t₀ := by
  induction k with
  | zero => rfl
  | succ k ih =>
    rw [← ih (Nat.le_of_succ_le hk), solveAfter_eq, solveAfter_eq, steps_succ]
    rcases h.steps_cases t₀ (Nat.le_of_succ_le hk) with ⟨s, t, hsteps, hon⟩ |
      ⟨j, e, s, t, -, hsteps, -⟩
    · rw [hsteps]
      exact (hon.solve_eq hk).symm
    · rw [hsteps]

/-- A fresh solver runs to its end, or to the first update that fails. -/
theorem Fresh.solve_cases (h : s₀.Fresh) (t₀ : Trace K W) :
    (∃ s t state, OnOrbit s₀ t₀ (s₀.length t₀) s t ∧
        (state = if s₀.meets t₀ (s₀.length t₀) = true then RunState.converged
          else .maxIterReached) ∧
        s₀.solve t₀ = ((.ok s.x, { s with state := state }), t)) ∨
      ∃ j e s t, j < s₀.length t₀ ∧ FailsAt (s₀.orbit t₀) j e s ∧
        s₀.solve t₀ = ((.error e, s), t) := by
  rw [← h.solveAfter_eq_solve t₀ le_rfl, solveAfter_eq]
  rcases h.steps_cases t₀ le_rfl with ⟨s, t, hsteps, hon⟩ | ⟨j, e, s, t, hj, hsteps, hfails⟩
  · obtain ⟨state, hstate, hsolve⟩ := hon.solve_end rfl
    rw [hsteps]
    exact .inl ⟨s, t, state, hon, hstate, hsolve⟩
  · rw [hsteps]
    exact .inr ⟨j, e, s, t, hj, hfails, rfl⟩

/-- There is only one first failure. -/
theorem FailsAt.unique {e e' : Error} {s : Solver K R W} {j' : ℕ} {q' : Iterate K R W}
    (h : FailsAt (s₀.orbit t₀) j e s) (hq' : s₀.orbit t₀ j' = .ok q')
    (he' : s₀.orbit t₀ (j' + 1) = .error e') : j = j' ∧ e = e' := by
  obtain ⟨q, hq, -⟩ := h.standsAt.iterate
  have hj : j = j' := by
    rcases lt_trichotomy j j' with hlt | heq | hgt
    · cases hq'.symm.trans (orbit_error_of_le h.error hlt)
    · exact heq
    · cases hq.symm.trans (orbit_error_of_le he' hgt)
  subst hj
  cases h.error.symm.trans he'
  exact ⟨rfl, rfl⟩

theorem FailsAt.orbit_ne_ok {e : Error} (h : FailsAt (s₀.orbit t₀) j e s) (hj : j < k)
    (q : Iterate K R W) :
    s₀.orbit t₀ k ≠ .ok q := by
  intro hq
  cases hq.symm.trans (orbit_error_of_le h.error hj)

/-- The numbers of the rows at the end of a run. -/
theorem OnOrbit.rows_at_end (h : OnOrbit s₀ t₀ (s₀.length t₀) s t) :
    (s.history.records.map (·.iteration)).Pairwise (· < ·) ∧
      ∀ i, i ∈ s.history.records.map (·.iteration) ↔
        1 ≤ i ∧ i ≤ s₀.length t₀ ∧ (i % s₀.config.record.period = 0 ∨ i = s₀.length t₀) := by
  rw [h.recorded]
  refine ⟨(List.pairwise_lt_range' 1 (Nat.le_refl 1)).filter _, fun i => ?_⟩
  rw [List.mem_filter, List.mem_range'_1, records, Bool.or_eq_true, decide_eq_true_iff,
    decide_eq_true_iff]
  omega

theorem StandsAt.agree {s s' : Solver K R W} (h : StandsAt (s₀.orbit t₀) k s)
    (h' : StandsAt (s₀.orbit t₀) k s') :
    s.iteration = s'.iteration ∧ s.x = s'.x ∧ s.terms = s'.terms := by
  obtain ⟨q, hq, hx, hterms⟩ := h.iterate
  obtain ⟨q', hq', hx', hterms'⟩ := h'.iterate
  cases hq.symm.trans hq'
  exact ⟨h.iteration.trans h'.iteration.symm, hx.trans hx'.symm, hterms.trans hterms'.symm⟩

/-- Other settings do not change what the steps of a run compute. -/
theorem Fresh.steps_config (h : s₀.Fresh) (t₀ : Trace K W) {config : Config W}
    (hk : k ≤ s₀.length t₀) (hk' : k ≤ ({ s₀ with config := config } : Solver K R W).length t₀) :
    ∃ result s s' t t', steps k s₀ t₀ = ((result, s), t) ∧
      steps k { s₀ with config := config } t₀ = ((result, s'), t') ∧
      s.iteration = s'.iteration ∧ s.x = s'.x ∧ s.terms = s'.terms := by
  have h' : ({ s₀ with config := config } : Solver K R W).Fresh := ⟨h.iteration, h.state, h.history⟩
  rcases h.steps_cases t₀ hk with ⟨s, t, hsteps, hon⟩ | ⟨j, e, s, t, hj, hsteps, hfails⟩ <;>
    rcases h'.steps_cases t₀ hk' with ⟨s', t', hsteps', hon'⟩ |
      ⟨j', e', s', t', hj', hsteps', hfails'⟩
  · exact ⟨_, s, s', t, t', hsteps, hsteps', hon.standsAt.agree hon'.standsAt⟩
  · obtain ⟨q, hq, -⟩ := hon.iterate
    exact absurd hq (hfails'.orbit_ne_ok hj' q)
  · obtain ⟨q, hq, -⟩ := hon'.iterate
    exact absurd hq (hfails.orbit_ne_ok hj q)
  · obtain ⟨q', hq', -⟩ := hfails'.standsAt.iterate
    obtain ⟨rfl, rfl⟩ := hfails.unique hq' hfails'.error
    exact ⟨_, s, s', t, t', hsteps, hsteps', hfails.standsAt.agree hfails'.standsAt⟩

/-- With as many iterations allowed and the same tolerance, other settings do not change what solving
computes. -/
theorem Fresh.solve_config (h : s₀.Fresh) (t₀ : Trace K W) {config : Config W}
    (htol : config.stopTolerance = s₀.config.stopTolerance)
    (hmax : config.maxIter = s₀.config.maxIter) :
    ∃ result s s' t t', s₀.solve t₀ = ((result, s), t) ∧
      ({ s₀ with config := config } : Solver K R W).solve t₀ = ((result, s'), t') ∧
      s.iteration = s'.iteration ∧ s.x = s'.x ∧ s.terms = s'.terms := by
  have h' : ({ s₀ with config := config } : Solver K R W).Fresh := ⟨h.iteration, h.state, h.history⟩
  have hlength : ({ s₀ with config := config } : Solver K R W).length t₀ = s₀.length t₀ := by
    rw [length_config htol hmax.le, hmax]
    exact min_eq_left length_le
  rcases h.solve_cases t₀ with ⟨s, t, state, hon, -, hsolve⟩ | ⟨j, e, s, t, hj, hfails, hsolve⟩ <;>
    rcases h'.solve_cases t₀ with ⟨s', t', state', hon', -, hsolve'⟩ |
      ⟨j', e', s', t', hj', hfails', hsolve'⟩
  · rw [hlength] at hon'
    obtain ⟨hiteration, hx, hterms⟩ := hon.standsAt.agree hon'.standsAt
    exact ⟨_, { s with state := state }, { s' with state := state' }, t, t', hsolve, hx ▸ hsolve',
      hiteration, hx, hterms⟩
  · obtain ⟨q, hq, -⟩ := hon.iterate
    exact absurd hq (hfails'.orbit_ne_ok (hlength ▸ hj') q)
  · obtain ⟨q, hq, -⟩ := hon'.iterate
    rw [hlength] at hq
    exact absurd hq (hfails.orbit_ne_ok hj q)
  · obtain ⟨q', hq', -⟩ := hfails'.standsAt.iterate
    obtain ⟨rfl, rfl⟩ := hfails.unique hq' hfails'.error
    exact ⟨_, s, s', t, t', hsolve, hsolve', hfails.standsAt.agree hfails'.standsAt⟩

end Steps

/-! ### Solving -/

omit [RealArithmetic R] [RealArithmetic W] [Widening R W] [Scalar K R W] in
theorem run_refuse_bind_eq_ok_iff {α : Type} {fault? : Option ConfigurationFault}
    {f : Unit → Eval K W α} {t t' : Trace K W} {a : α} :
    ((liftM (refuse fault?) : Eval K W Unit) >>= f).run t = (.ok a, t') ↔
      fault? = none ∧ (f ()).run t = (.ok a, t') := by
  rw [run_bind]
  cases fault? with
  | none =>
    constructor
    · intro h
      exact ⟨rfl, h⟩
    · intro h
      exact h.2
  | some fault =>
    constructor
    · intro h
      cases h
    · intro h
      cases h.1

omit [Widening R W] in
/-- Making a solver: the settings are accepted and kept, and play no other part. -/
theorem run_create_eq_ok_iff {p : Problem K R W} {config : Config W} {strategy : Strategy K R W}
    {s : Solver K R W} {t t' : Trace K W} :
    (create p config strategy).run t = (.ok s, t') ↔ config.fault? = none ∧ p.fault? = none ∧
      ∃ strategy' t₁, (strategy.setup p.f (p.operators.zip p.weights)).run t = (.ok strategy', t₁) ∧
        ∃ terms, (Problem.terms p.start p.penalties p.operators p.weights).run t₁ =
            (.ok terms, t') ∧
          s = ⟨p.f, terms, config, strategy', p.start, 0, .initialized, .empty,
            Timing.empty.mark "setup"⟩ := by
  rw [create, run_refuse_bind_eq_ok_iff, run_refuse_bind_eq_ok_iff]
  simp only [run_bind_eq_ok_iff]
  constructor
  · rintro ⟨hconfig, hproblem, strategy', t₁, hsetup, terms, t₂, hterms, hs⟩
    cases hs
    exact ⟨hconfig, hproblem, strategy', t₁, hsetup, terms, hterms, rfl⟩
  · rintro ⟨hconfig, hproblem, strategy', t₁, hsetup, terms, hterms, rfl⟩
    exact ⟨hconfig, hproblem, strategy', t₁, hsetup, terms, t', hterms, rfl⟩

/-- What solving computes, for every accepted problem with accepted settings and every strategy.

* If no update up to the end of the run fails, solving returns the iterate at the end.  The run has
  converged exactly if some iterate within the bound is within the tolerance.  The history has the
  multiples of the period and the last iteration, in order, with their values.
* If an update before that fails, solving returns its error and stands at the iterate before.
* Taking steps of the run before solving makes no difference.
* Other accepted settings with the same tolerance and no more iterations make a prefix of the run. -/
theorem solve_follows_orbit {p : Problem K R W} {config : Config W} {strategy : Strategy K R W}
    {s₀ : Solver K R W} {t₀ t₁ : Trace K W}
    (hcreate : (create p config strategy).run t₀ = (.ok s₀, t₁)) (t : Trace K W) :
    s₀.x = p.start ∧
    (∀ q, s₀.orbit t (s₀.length t) = .ok q → ∃ s t', s₀.solve t = ((.ok q.x, s), t') ∧
      s.iteration = s₀.length t ∧ s.x = q.x ∧ s.terms = q.terms ∧
      (s.state = .converged ∨ s.state = .maxIterReached) ∧
      (s.state = .converged ↔ ∃ k, 1 ≤ k ∧ k ≤ config.maxIter ∧ s₀.meets t k = true) ∧
      (s.history.records.map (·.iteration)).Pairwise (· < ·) ∧
      (∀ k, k ∈ s.history.records.map (·.iteration) ↔ 1 ≤ k ∧ k ≤ s₀.length t ∧
        (k % config.record.period = 0 ∨ k = s₀.length t)) ∧
      ∀ row ∈ s.history.records, s₀.IsRow t row) ∧
    (∀ j q e, j < s₀.length t → s₀.orbit t j = .ok q → s₀.orbit t (j + 1) = .error e →
      ∃ s t', s₀.solve t = ((.error e, s), t') ∧ s.iteration = j ∧ s.x = q.x ∧ s.terms = q.terms) ∧
    (∀ m ≤ s₀.length t, solveAfter m s₀ t = s₀.solve t) ∧
    ∀ config' : Config W, config'.fault? = none → config'.stopTolerance = config.stopTolerance →
      config'.maxIter ≤ config.maxIter → ∃ s₀' : Solver K R W,
        (create p config' strategy).run t₀ = (.ok s₀', t₁) ∧
        s₀'.length t = min (s₀.length t) config'.maxIter ∧
        (∀ k ≤ s₀'.length t, ∃ result s s' t₂ t₂', steps k s₀ t = ((result, s), t₂) ∧
          steps k s₀' t = ((result, s'), t₂') ∧
          s.iteration = s'.iteration ∧ s.x = s'.x ∧ s.terms = s'.terms) ∧
        (config'.maxIter = config.maxIter → ∃ result s s' t₂ t₂',
          s₀.solve t = ((result, s), t₂) ∧ s₀'.solve t = ((result, s'), t₂') ∧
          s.iteration = s'.iteration ∧ s.x = s'.x ∧ s.terms = s'.terms) := by
  obtain ⟨hconfig, hproblem, strategy', t', hsetup, terms, hterms, hs₀⟩ :=
    run_create_eq_ok_iff.mp hcreate
  have hfresh : s₀.Fresh := by
    rw [hs₀]
    exact ⟨rfl, rfl, rfl⟩
  obtain rfl : s₀.config = config := by rw [hs₀]
  refine ⟨by rw [hs₀], fun q hq => ?_, fun j q e hj hq he => ?_,
    fun m hm => hfresh.solveAfter_eq_solve t hm, fun config' hconfig' htol hmax => ?_⟩
  · rcases hfresh.solve_cases t with ⟨s, t', state, hon, hstate, hsolve⟩ |
      ⟨j, e, s, t', hj, hfails, -⟩
    · obtain ⟨hiteration, q', hq', hx, hterms⟩ := hon.standsAt
      cases hq.symm.trans hq'
      obtain ⟨hsorted, hnumbers⟩ := hon.rows_at_end
      refine ⟨{ s with state := state }, t', hx ▸ hsolve, hiteration, hx, hterms, ?_, ?_, hsorted,
        hnumbers, hon.rows⟩
      · show state = _ ∨ state = _
        rw [hstate]
        split
        · exact .inl rfl
        · exact .inr rfl
      · show state = _ ↔ _
        rw [← meets_length_iff, hstate]
        split
        · next hmeets => exact iff_of_true rfl hmeets
        · next hmeets => exact iff_of_false (by simp) hmeets
    · exact absurd hq (hfails.orbit_ne_ok hj q)
  · rcases hfresh.solve_cases t with ⟨s, t', state, hon, -, -⟩ | ⟨j', e', s, t', -, hfails, hsolve⟩
    · obtain ⟨q', hq', -⟩ := hon.iterate
      cases hq'.symm.trans (orbit_error_of_le he hj)
    · obtain ⟨rfl, rfl⟩ := hfails.unique hq he
      obtain ⟨hiteration, q', hq', hx, hterms⟩ := hfails.standsAt
      cases hq.symm.trans hq'
      exact ⟨s, t', hsolve, hiteration, hx, hterms⟩
  · have hcreate' : (create p config' strategy).run t₀ =
        (.ok { s₀ with config := config' }, t₁) := by
      refine run_create_eq_ok_iff.mpr ⟨hconfig', hproblem, strategy', t', hsetup, terms, hterms, ?_⟩
      rw [hs₀]
    have hlength := length_config (t := t) htol hmax
    refine ⟨{ s₀ with config := config' }, hcreate', hlength, fun k hk => ?_, fun heq => ?_⟩
    · exact hfresh.steps_config t (hk.trans (hlength.le.trans (min_le_left _ _))) hk
    · exact hfresh.solve_config t htol heq

/-! ### A run that meets its tolerance -/

noncomputable section

variable {config : Config ℝ} {a b tol : ℝ}

theorem meets_number_one (hb : 1 ≤ b) (ha : 2 ≤ b + a) (htol : config.stopTolerance = some tol)
    (t : Trace ℝ ℝ) : (numberSolver b config a).meets t 1 = true ↔
      |(1 : ℝ) - 0| + |(b + a) / 2 + 0 - 1 - a| ≤ tol := by
  unfold meets
  rw [(orbit_number config hb ha t).1]
  show Iterate.meets config.stopTolerance _ = true ↔ _
  rw [htol]
  exact decide_eq_true_iff

/-- From the second iterate on the only residual is the change of the split variable. -/
theorem meets_number_add_two (hb : 1 ≤ b) (ha : 2 ≤ b + a) (htol : config.stopTolerance = some tol)
    (t : Trace ℝ ℝ) (k : ℕ) : (numberSolver b config a).meets t (k + 2) = true ↔
      |(1 : ℝ) - 1| + |numberSplit b a (k + 2) + 1 - 1 - numberSplit b a (k + 1)| ≤ tol := by
  unfold meets
  rw [(orbit_number config hb ha t).2 k]
  show Iterate.meets config.stopTolerance _ = true ↔ _
  rw [htol]
  exact decide_eq_true_iff

/-- At most five iterations, of which every second one is recorded, up to residuals of one half. -/
def untilHalf : Config ℝ := ⟨5, ⟨2, false⟩, some RealArithmetic.half⟩

theorem fault?_of_half (maxIter period : ℕ) (hperiod : period ≠ 0) (verbose : Bool) :
    (⟨maxIter, ⟨period, verbose⟩, some RealArithmetic.half⟩ : Config ℝ).fault? = none := by
  have hhalf : RealArithmetic.isNonNegative (RealArithmetic.half : ℝ) = true := by
    simp [RealArithmetic.isNonNegative, RealArithmetic.le, RealArithmetic.isFinite,
      RealArithmetic.half_eq]
  unfold Config.fault?
  rw [if_neg hperiod]
  exact if_pos hhalf

theorem meets_untilHalf (t : Trace ℝ ℝ) : (numberSolver 3 untilHalf 7).meets t 3 = true := by
  refine (meets_number_add_two (by norm_num) (by norm_num) rfl t 1).mpr ?_
  norm_num [numberSplit, RealArithmetic.half_eq, abs_of_neg]

/-- From seven, the residuals of the first three iterates are four, one and one half together. -/
theorem length_untilHalf (t : Trace ℝ ℝ) : (numberSolver 3 untilHalf 7).length t = 3 := by
  have hb : (1 : ℝ) ≤ 3 := by norm_num
  have ha : (2 : ℝ) ≤ 3 + 7 := by norm_num
  refine length_eq_of_meets (Nat.le_add_left 3 2) (meets_untilHalf t) fun k hk => ?_
  apply eq_false_of_ne_true
  match k, hk with
  | 0, _ =>
    rw [meets_zero]
    exact Bool.false_ne_true
  | 1, _ =>
    rw [meets_number_one hb ha rfl, RealArithmetic.half_eq]
    norm_num [abs_of_neg]
  | 2, _ =>
    rw [meets_number_add_two hb ha rfl t 0, numberSplit, numberSplit, RealArithmetic.half_eq]
    norm_num [abs_of_neg]

/-- That run converges at the third of its five iterations and records two.  Two steps of it make no
difference, and with two iterations it ends after these. -/
theorem solve_untilHalf : ∃ (s s₁ : Solver ℝ ℝ ℝ) (t t' : Trace ℝ ℝ),
    (numberSolver 3 untilHalf 7).solve t = ((.ok (.single (5 / 2)), s), t') ∧ s.iteration = 3 ∧
    s.x = .single (5 / 2) ∧ s.terms = [modulusTerm (5 / 2) 1] ∧ s.state = .converged ∧
    (∀ k, k ∈ s.history.records.map (·.iteration) ↔ k = 2 ∨ k = 3) ∧
    (∀ row ∈ s.history.records, (numberSolver 3 untilHalf 7).IsRow t row) ∧
    solveAfter 2 (numberSolver 3 untilHalf 7) t = (numberSolver 3 untilHalf 7).solve t ∧
    (create (numberProblem 3 7) ⟨2, .default, some RealArithmetic.half⟩ (.ofSteps 1)).run .empty =
      (.ok s₁, t) ∧
    s₁.length t = 2 ∧ ∃ result s₂ s₂' t₂ t₂',
      steps 2 (numberSolver 3 untilHalf 7) t = ((result, s₂), t₂) ∧
      steps 2 s₁ t = ((result, s₂'), t₂') ∧
      s₂.iteration = s₂'.iteration ∧ s₂.x = s₂'.x ∧ s₂.terms = s₂'.terms := by
  have hconfig : untilHalf.fault? = none := fault?_of_half 5 2 two_ne_zero false
  obtain ⟨t, hcreate⟩ := run_create_number hconfig 3 7
  obtain ⟨-, hrun, -, hsplit, hprefix⟩ := solve_follows_orbit hcreate t
  have hlength := length_untilHalf t
  have hlast : numberSplit 3 7 (1 + 2) = 5 / 2 := by norm_num [numberSplit, RealArithmetic.half_eq]
  have horbit := (orbit_number untilHalf (b := 3) (a := 7) (by norm_num) (by norm_num) t).2 1
  rw [hlast] at horbit
  rw [hlength] at hrun hsplit
  obtain ⟨s, t', hsolve, hiteration, hx, hterms, -, hconverged, -, hnumbers, hrows⟩ :=
    hrun _ horbit
  obtain ⟨s₁, hcreate', hlength', hsteps, -⟩ := hprefix ⟨2, .default, some RealArithmetic.half⟩
    (fault?_of_half 2 1 one_ne_zero _) rfl (Nat.le_add_right 2 3)
  rw [hlength] at hlength'
  refine ⟨s, s₁, t, t', hsolve, hiteration, hx, hterms,
    hconverged.mpr ⟨3, Nat.le_add_left 1 2, Nat.le_add_right 3 2, meets_untilHalf t⟩, fun k => ?_,
    hrows, hsplit 2 (Nat.le_succ 2), hcreate', hlength', hsteps 2 hlength'.ge⟩
  rw [hnumbers]
  show 1 ≤ k ∧ k ≤ 3 ∧ (k % 2 = 0 ∨ k = 3) ↔ k = 2 ∨ k = 3
  omega

end

end Solver

end OperatorSplitting
