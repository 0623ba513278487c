import Mathlib
import OperatorSplitting.Proofs.Admm.Phases
import OperatorSplitting.Proofs.ConjugateGradient
import OperatorSplitting.Proofs.Functional.Totality

/-!
# Runs on the normal equations

For a squared loss the x-update is solved by conjugate gradients on the normal equations.  They may
be singular: nothing is asked of the ranks of the operators.  The right-hand side is made of images
of the adjoints, so it is in the range of the normal operator (`NormalEquations.Fits`), and the
linear solve never fails.  With penalties that have values and proximal points on the output shapes,
no other phase of a step fails either (`Solver.Reachable.exists_step`), and a run comes to its end
(`leastSquares_completes`).  The mixed norm has none where its group norms are too many to be kept.
-/

namespace OperatorSplitting

open Eval LinearOperator

noncomputable section

/-- From every trace the computation has a result with a property; it may leave something behind. -/
abbrev Eval.Completes {K W α : Type} (m : Eval K W α) (p : α → Prop) : Prop :=
  EndsIn (fun _ => False) m p

/-! ### The normal equations -/

variable [ExactScalar K]

namespace NormalEquations

/-- The left-hand side evaluates the normal operator of the loss and the weighted operators, and the
part of the right-hand side that stays is in its range. -/
structure Fits (l : SquaredLoss K ℝ) (operators : List (LinearOperator K × ℝ))
    (n : NormalEquations K) : Prop where
  normal : n.lhs.IsNormal ((l.operator, l.scale + l.scale) :: operators)
  input : n.lhs.input = l.operator.input
  rhs_shape : n.rhsBase.shape = l.operator.input
  rhs_range : InRange ((l.operator, l.scale + l.scale) :: operators) n.rhsBase

/-- Weighted Gram operators of one input shape can be added, and this adds their operators. -/
theorem exists_addGrams {operators rest : List (LinearOperator K × ℝ)} {lhs : LinearOperator K}
    (hlhs : lhs.IsNormal operators) (hrest : ∀ p ∈ rest, p.1.IsPlain ∧ p.1.input = lhs.input) :
    ∃ lhs', addGrams rest lhs = .ok lhs' ∧ lhs'.IsNormal (operators ++ rest) ∧
      lhs'.input = lhs.input := by
  induction rest generalizing operators lhs with
  | nil => exact ⟨lhs, rfl, by rwa [List.append_nil], rfl⟩
  | cons p rest ih =>
    obtain ⟨⟨hp, hinput⟩, hrest⟩ := List.forall_mem_cons.mp hrest
    have hgram : (multiple (Scalar.ofReal p.2) p.1.gramOperator).IsNormal [(p.1, p.2)] :=
      .gram hp p.2
    obtain ⟨lhs', hlhs', hnormal, hsame⟩ := ih (hlhs.sum hgram hinput.symm) hrest
    rw [List.append_assoc] at hnormal
    exact ⟨lhs', Except.bind_eq_ok_iff.mpr ⟨_, hlhs.add_eq_ok hgram hinput.symm, hlhs'⟩, hnormal,
      hsame⟩

variable {l : SquaredLoss K ℝ} {operators : List (LinearOperator K × ℝ)}

/-- The normal equations of a loss can be set up, and fit the loss. -/
theorem completes_ofLoss {s : Shape} (hl : l.IsPlainOn s)
    (h : ∀ p ∈ operators, p.1.IsPlain ∧ p.1.input = s) :
    Completes (ofLoss l operators : Eval K ℝ _) (Fits l operators) := by
  have hgram : (multiple (Scalar.ofReal (l.scale + l.scale)) l.operator.gramOperator).IsNormal
      [(l.operator, l.scale + l.scale)] := .gram hl.operator _
  obtain ⟨lhs, hlhs, hnormal, hinput⟩ := exists_addGrams hgram
    fun p hp => ⟨(h p hp).1, (h p hp).2.trans hl.input.symm⟩
  have hsum : Succeeds (liftM (addGrams operators
      (multiple (Scalar.ofReal (l.scale + l.scale)) l.operator.gramOperator)) : Eval K ℝ _)
      fun lhs' => lhs' = lhs := .liftExcept ⟨lhs, hlhs, rfl⟩
  refine (EndsIn.of_succeeds hsum).bind fun lhs' hlhs' => ?_
  refine (EndsIn.of_succeeds (hl.operator.succeeds_adjoint hl.observation)).bind
    fun pulled ⟨hpulled, hshape⟩ => ?_
  refine (EndsIn.report _).bind fun _ _ => .pure ?_
  exact {
    normal := hlhs' ▸ hnormal
    input := hlhs' ▸ hinput
    rhs_shape := (Signal.shape_scaled _ _).trans hshape
    rhs_range := (inRange_adjoint hl.operator List.mem_cons_self hpulled).scaled _ }

/-- A coupling whose operator is one of the list, with variables of its output shape. -/
structure Joins (operators : List (LinearOperator K × ℝ)) (s : Shape) (c : Coupling K ℝ) :
    Prop where
  plain : c.operator.IsPlain
  input : c.operator.input = s
  mem : (c.operator, c.weight) ∈ operators
  z_shape : c.z.shape = c.operator.output
  u_shape : c.u.shape = c.operator.output

/-- The couplings keep the right-hand side in the range. -/
theorem succeeds_addCouplings {s : Shape} {cs : List (Coupling K ℝ)}
    (hcs : ∀ c ∈ cs, Joins operators s c) {rhs : Signal K} (hshape : rhs.shape = s)
    (hrange : InRange operators rhs) :
    Succeeds (addCouplings cs rhs : Eval K ℝ _) fun rhs' =>
      rhs'.shape = s ∧ InRange operators rhs' := by
  induction cs generalizing rhs with
  | nil => exact .pure ⟨hshape, hrange⟩
  | cons c cs ih =>
    obtain ⟨hc, hcs⟩ := List.forall_mem_cons.mp hcs
    refine (Signal.succeeds_zipMap _ _ (hc.z_shape.trans hc.u_shape.symm)).bind
      fun target htarget => ?_
    have htshape := (Signal.shape_of_zipMap htarget).trans hc.z_shape
    refine (hc.plain.succeeds_adjoint htshape).bind fun back ⟨hback, hbshape⟩ => ?_
    have hsame : rhs.shape = back.shape := hshape.trans (hbshape.trans hc.input).symm
    refine (Signal.succeeds_zipMap _ _ hsame).bind fun rhs' hrhs' => ?_
    exact ih hcs ((Signal.shape_of_zipMap hrhs').trans hshape)
      (hrange.addScaled (inRange_adjoint hc.plain hc.mem hback) hrhs')

/-- The normal equations have a solution from every starting point. -/
theorem Fits.completes_solve {n : NormalEquations K} (hn : n.Fits l operators)
    (hscale : 0 < l.scale) (hpos : ∀ p ∈ operators, 0 < p.2) {options : CgOptions ℝ}
    (hatol : 0 ≤ options.atol) {cs : List (Coupling K ℝ)}
    (hcs : ∀ c ∈ cs, Joins operators l.operator.input c) {x : Signal K}
    (hx : x.shape = l.operator.input) :
    Completes (n.solve options cs x) fun report => report.x.shape = l.operator.input := by
  have hall : ∀ p ∈ (l.operator, l.scale + l.scale) :: operators, 0 < p.2 :=
    List.forall_mem_cons.mpr ⟨add_pos hscale hscale, hpos⟩
  have hjoins : ∀ c ∈ cs,
      Joins ((l.operator, l.scale + l.scale) :: operators) l.operator.input c := fun c hc =>
    { hcs c hc with mem := List.mem_cons_of_mem _ (hcs c hc).mem }
  refine (EndsIn.of_succeeds (succeeds_addCouplings hjoins hn.rhs_shape hn.rhs_range)).bind
    fun rhs ⟨hshape, hrange⟩ => ?_
  have hsolve := succeeds_conjugateGradient hn.normal hall (hshape.trans hn.input.symm)
    (hx.trans hn.input.symm) hrange hatol
  refine (EndsIn.of_succeeds hsolve).bind fun ⟨solution, info⟩ hsolved => ?_
  have hdone : solution.shape = l.operator.input := Eq.trans hsolved hn.input
  exact EndsIn.ite ((EndsIn.report _).bind fun _ _ => .pure hdone) (.pure hdone)

end NormalEquations

/-- Conjugate gradients that have been set up solve their normal equations. -/
theorem Strategy.solve_of_run {options : CgOptions ℝ} {n : NormalEquations K}
    {p : XUpdate K ℝ ℝ} {x : Signal K} {t t' : Trace K ℝ}
    {result : Except Error (SubproblemReport K ℝ)}
    (h : (n.solve options p.couplings x).run t = (result, t')) :
    (Strategy.leastSquares options (some n)).solve p x t =
      ((result, .leastSquares options (some n)), t') := by
  show (let (result, t) := (n.solve options p.couplings x).run t
    ((result, Strategy.leastSquares options (some n)), t)) = _
  rw [h]

namespace Iterate

variable {shape : Shape}

/-- An update by the normal equations does what the later phases do at some solution. -/
theorem update_eq {q : Iterate K ℝ ℝ} {options : CgOptions ℝ} {n : NormalEquations K}
    (hstrategy : q.strategy = .leastSquares options (some n))
    (hsolve : Completes (n.solve options (q.terms.map Term.coupling) q.x) fun report =>
      report.x.shape = shape) (f : Functional K ℝ ℝ) (number : ℕ) :
    ∃ (report : SubproblemReport K ℝ) (t : Trace K ℝ), report.x.shape = shape ∧
      q.update f number = match (couple f q.terms report).run t with
        | (.error e, _) => .error e
        | (.ok r, t) =>
          .ok ⟨r.updates.map Solver.TermUpdate.after, r.report.x, q.strategy, t, some r⟩ := by
  obtain ⟨report, t, hrun, hshape⟩ := hsolve.exists_run q.trace
  refine ⟨report, t, hshape, ?_⟩
  have hresult : q.strategy.solve ⟨f, q.terms.map Term.coupling⟩ q.x q.trace =
      ((.ok report, q.strategy), t) := by
    rw [hstrategy]
    exact Strategy.solve_of_run hrun
  unfold update
  rw [hresult]
  dsimp only
  rw [if_pos (Solver.allFinite_eq_true report.x)]
  rcases (couple f q.terms report).run t with ⟨result, t'⟩
  cases result <;> rfl

end Iterate

/-! ### Reachable solvers -/

/-- A penalty that has values and proximal points. -/
theorem Functional.IsPenaltyOn.endsOn {g : Functional K ℝ ℝ} {shape : Shape}
    (h : g.IsPenaltyOn shape) : g.EndsOn (fun _ => False) shape where
  value hx := .of_succeeds (IsPenaltyOn.succeeds_value (hx ▸ h))
  prox step hv := .of_succeeds (IsPenaltyOn.succeeds_prox (hv ▸ h) step)

/-- The conjugate gradients of a strategy are kept by its solves. -/
theorem Strategy.Follows.leastSquares {options : CgOptions ℝ} {n : NormalEquations K}
    {s : Strategy K ℝ ℝ} (h : (Strategy.leastSquares options (some n)).Follows s) :
    s = .leastSquares options (some n) := by
  induction h with
  | refl => rfl
  | tail _ hstep ih =>
    obtain ⟨p, x, t, rfl⟩ := hstep
    rw [ih]
    rfl

/-- The smooth functional is a squared loss, or a positive multiple of one, and no operator has
closures. -/
structure Problem.HasEquations (p : Problem K ℝ ℝ) : Prop where
  f : p.f.IsLeastSquaresOn p.start.shape
  operators : ∀ c ∈ p.operators, c.IsPlain

/-- Besides, every penalty has values and proximal points on the output shape of its operator. -/
structure Problem.IsLeastSquares (p : Problem K ℝ ℝ) : Prop extends p.HasEquations where
  penalties : ∀ q ∈ p.penalties.zip p.operators, q.1.IsPenaltyOn q.2.output

/-- The strategy solves normal equations of the problem. -/
def Strategy.SolvesEquations (s : Strategy K ℝ ℝ) (p : Problem K ℝ ℝ) (options : CgOptions ℝ) :
    Prop :=
  ∃ l n, l.IsPlainOn p.start.shape ∧ n.Fits l (p.operators.zip p.weights) ∧
    s = .leastSquares options (some n)

namespace Problem

omit [ExactScalar K] in
theorem HasEquations.wellShaped {p : Problem K ℝ ℝ} (hp : p.HasEquations) :
    ∀ c ∈ p.operators, c.WellShaped := fun c hc => (hp.operators c hc).wellShaped

theorem HasEquations.completes_setup {p : Problem K ℝ ℝ} (hp : p.HasEquations)
    (hfault : p.fault? = none) (options : CgOptions ℝ) (equations : Option (NormalEquations K)) :
    Completes ((Strategy.leastSquares options equations).setup p.f (p.operators.zip p.weights))
      fun s => s.SolvesEquations p options := by
  obtain ⟨l, hl, hplain⟩ := hp.f.exists_loss
  have hoperators : ∀ q ∈ p.operators.zip p.weights, q.1.IsPlain ∧ q.1.input = p.start.shape :=
    fun q hq =>
      have hmem := (List.of_mem_zip hq).1
      ⟨hp.operators q.1 hmem, Solver.inputs_of_fault? hfault q.1 hmem⟩
  unfold Strategy.setup
  rw [hl]
  exact (NormalEquations.completes_ofLoss hplain hoperators).bind fun n hn =>
    .pure ⟨l, n, hplain, hn, rfl⟩

end Problem

namespace Solver

variable {p : Problem K ℝ ℝ} {config : Config ℝ} {options : CgOptions ℝ}
  {equations : Option (NormalEquations K)} {s : Solver K ℝ ℝ}

/-- The solver stands on the normal equations of its problem. -/
def StandsOn (p : Problem K ℝ ℝ) (options : CgOptions ℝ) (s : Solver K ℝ ℝ) : Prop :=
  p.fault? = none ∧ s.strategy.SolvesEquations p options

/-- Making a solver sets up the normal equations. -/
theorem standsOn_create (hp : p.HasEquations) {t t' : Trace K ℝ}
    (h : (create p config (.leastSquares options equations)).run t = (.ok s, t')) :
    s.StandsOn p options := by
  obtain ⟨-, hfault, strategy, t₁, hsetup, terms, -, rfl⟩ := run_create_eq_ok_iff.mp h
  obtain ⟨strategy', t₂, hrun, hstands⟩ :=
    (hp.completes_setup hfault options equations).exists_run t
  rw [hsetup] at hrun
  cases hrun
  exact ⟨hfault, hstands⟩

/-- An accepted problem makes a solver. -/
theorem exists_create (hp : p.HasEquations) (hconfig : config.fault? = none)
    (hfault : p.fault? = none) (options : CgOptions ℝ) (t : Trace K ℝ) :
    ∃ s t', (create p config (.ofOptions options)).run t = (.ok s, t') ∧
      s.state.isTerminal = false := by
  obtain ⟨strategy, t₁, hsetup, -⟩ := (hp.completes_setup hfault options none).exists_run t
  obtain ⟨terms, t₂, hterms, -⟩ := (Problem.endsIn_terms p.penalties p.weights
    fun c hc => ⟨hp.operators c hc, inputs_of_fault? hfault c hc⟩).exists_run t₁
  exact ⟨_, t₂, run_create_eq_ok_iff.mpr
    ⟨hconfig, hfault, strategy, t₁, hsetup, terms, hterms, rfl⟩, rfl⟩

/-- A step keeps the normal equations. -/
theorem StandsOn.step (hs : s.StandsOn p options) (hshaped : ∀ t ∈ s.terms, t.operator.WellShaped)
    {s' : Solver K ℝ ℝ} {t t' : Trace K ℝ} {result : Except Error Unit}
    (h : s.step t = ((result, s'), t')) : s'.StandsOn p options := by
  obtain ⟨hfault, l, n, hl, hn, hstrategy⟩ := hs
  refine ⟨hfault, l, n, hl, hn, ?_⟩
  rcases step_effect hshaped h with ⟨-, rfl, -⟩ | ⟨-, strategy', timing, hfollows, hcases⟩
  · exact hstrategy
  · rw [hstrategy] at hfollows
    rcases hcases with ⟨e, -, rfl⟩ | ⟨r, -, -, rfl⟩
    · exact hfollows.leastSquares
    · exact hfollows.leastSquares

/-- Every reachable solver stands on the normal equations of its problem. -/
theorem Reachable.standsOn (hp : p.HasEquations)
    (h : s.Reachable p config (.leastSquares options equations)) : s.StandsOn p options := by
  have hwell := hp.wellShaped
  refine (h.invariant (P := fun s => s.Sound p config (.leastSquares options equations) ∧
    s.StandsOn p options) ?_ ?_ ?_).2
  · exact fun hcreate => ⟨sound_create hwell hcreate, standsOn_create hp hcreate⟩
  · exact fun hs hstep => ⟨hs.1.step hwell hstep, hs.2.step (hs.1.wellShaped hwell) hstep⟩
  · exact fun hs => ⟨hs.1.ended, hs.2⟩

/-- The couplings of a sound solver. -/
theorem Sound.joins {strategy : Strategy K ℝ ℝ} (hs : s.Sound p config strategy)
    (hp : p.HasEquations) (hfault : p.fault? = none) :
    ∀ c ∈ s.xUpdate.couplings,
      NormalEquations.Joins (p.operators.zip p.weights) p.start.shape c := by
  intro c hc
  obtain ⟨t, ht, rfl⟩ := List.mem_map.mp hc
  have hoperator : t.operator ∈ p.operators := hs.operators ▸ List.mem_map_of_mem ht
  refine ⟨hp.operators _ hoperator, Solver.inputs_of_fault? hfault _ hoperator, ?_,
    hs.z_shape t ht, hs.u_shape t ht⟩
  rw [← hs.operators, ← hs.weights, List.zip_map']
  exact List.mem_map_of_mem (f := fun t : Term K ℝ ℝ => (t.operator, t.weight)) ht

/-- The terms of a sound solver of a least-squares problem. -/
theorem Sound.fitsOn_of_isLeastSquares {strategy : Strategy K ℝ ℝ}
    (hs : s.Sound p config strategy) (hp : p.IsLeastSquares) (hfault : p.fault? = none) :
    ∀ t ∈ s.terms, t.FitsOn (fun _ => False) p.start.shape :=
  hs.fitsOn hfault hp.operators fun q hq => (hp.penalties q hq).endsOn

/-- The x-update of a reachable solver has a solution, whatever the penalties are. -/
theorem Reachable.completes_solve (hp : p.HasEquations) (hatol : 0 ≤ options.atol)
    (h : s.Reachable p config (.leastSquares options equations)) :
    ∃ n, s.strategy = .leastSquares options (some n) ∧
      Completes (n.solve options s.xUpdate.couplings s.x) fun report =>
        report.x.shape = p.start.shape := by
  obtain ⟨hfault, l, n, hl, hn, hstrategy⟩ := h.standsOn hp
  have hs := h.sound hp.wellShaped
  have hpos : ∀ q ∈ p.operators.zip p.weights, 0 < q.2 := fun q hq =>
    Problem.weights_pos_of_fault? hfault q.2 (List.of_mem_zip hq).2
  have hjoins := hs.joins hp hfault
  have hx := hs.x_shape trivial
  rw [← hl.input] at hjoins hx ⊢
  exact ⟨n, hstrategy, hn.completes_solve hl.scale hpos hatol hjoins hx⟩

/-- A step that is not refused succeeds. -/
theorem Reachable.exists_step (hp : p.IsLeastSquares) (hatol : 0 ≤ options.atol)
    (h : s.Reachable p config (.leastSquares options equations))
    (hrunning : s.state.isTerminal = false) (t : Trace K ℝ) : ∃ s' t', s.step t = ((.ok (), s'), t') := by
  have hs := h.sound hp.wellShaped
  obtain ⟨n, hstrategy, hsolve⟩ := h.completes_solve hp.toHasEquations hatol
  obtain ⟨report, t₁, hshape, hupdate⟩ :=
    Iterate.update_eq (q := s.point t) hstrategy hsolve s.f (s.iteration + 1)
  have hf : s.f.IsLeastSquaresOn report.x.shape := hshape ▸ hs.f_eq ▸ hp.f
  have hterms := hs.fitsOn_of_isLeastSquares hp (h.standsOn hp.toHasEquations).1
  obtain ⟨r, t₂, hcouple, -⟩ :=
    (Iterate.endsIn_couple hterms hshape (.of_succeeds hf.succeeds_value)).exists_run t₁
  have hpoint : (s.point t).terms = s.terms := rfl
  rw [hpoint, hcouple] at hupdate
  obtain ⟨r', strategy, timing, t', -, hstep⟩ := step_of_update hrunning hupdate
  exact ⟨_, t', hstep⟩

/-- Steps come to an end: each of them is an iteration, and these are bounded. -/
theorem Reachable.exists_solveWithin (hp : p.IsLeastSquares) (hatol : 0 ≤ options.atol) {n : ℕ}
    (h : s.Reachable p config (.leastSquares options equations))
    (hn : config.maxIter ≤ s.iteration + n)
    (hleft : s.state.isTerminal = false → s.iteration < config.maxIter) (t : Trace K ℝ) :
    ∃ x s' t', solveWithin n s t = ((.ok x, s'), t') ∧ s'.state.isTerminal = true := by
  -- The induction is on the steps that are left; `hn` and `hleft` carry over as each counts as one.
  induction n generalizing s t with
  | zero =>
    cases hstate : s.state.isTerminal with
    | true => exact ⟨s.x, s, t, rfl, hstate⟩
    | false => exact absurd (hleft hstate) (not_lt.mpr hn)
  | succ n ih =>
    cases hstate : s.state.isTerminal with
    | true => exact ⟨s.x, s, t, solveWithin_of_isTerminal hstate _ t, hstate⟩
    | false =>
      have hwell := hp.wellShaped
      obtain ⟨s', t', hstep⟩ := h.exists_step hp hatol hstate t
      have hiteration : s'.iteration = s.iteration + 1 := by
        rcases step_effect ((h.sound hwell).wellShaped hwell) hstep with
          ⟨-, -, -, hrefused⟩ | ⟨-, strategy, timing, -, ⟨e, herror, -⟩ | ⟨r, -, -, rfl⟩⟩
        · cases hrefused
        · cases herror
        · rfl
      have hs' := (h.step hstep).sound hwell
      rw [solveWithin_succ hstate, hstep]
      exact ih (h.step hstep) (by omega) (fun hrunning => hs'.iteration_lt hrunning (by omega)) t'

/-- A least-squares run never fails, even if the normal equations are singular: every step that is
not refused succeeds, whatever was evaluated before, and solving comes to an end and returns its
iterate.  Nothing is asked of the ranks of the operators or of the number of iterations of a linear
solve. -/
theorem leastSquares_completes (hp : p.IsLeastSquares) (hatol : 0 ≤ options.atol)
    (h : s.Reachable p config (.leastSquares options equations)) :
    (s.state.isTerminal = false → ∀ t, ∃ s' t', s.step t = ((.ok (), s'), t')) ∧
      ∀ t, ∃ x s' t', s.solve t = ((.ok x, s'), t') ∧ s'.state.isTerminal = true := by
  refine ⟨fun hrunning t => h.exists_step hp hatol hrunning t, fun t => ?_⟩
  have hconfig := (h.sound hp.wellShaped).config_eq
  unfold solve
  split
  · exact ⟨s.x, { s with state := .maxIterReached }, t, solveWithin_of_isTerminal rfl _ t, rfl⟩
  · next hnot =>
    simp only [Bool.and_eq_true, decide_eq_true_eq, Bool.not_eq_true', not_and] at hnot
    rw [hconfig] at hnot ⊢
    refine h.exists_solveWithin hp hatol (by omega) (fun hrunning => ?_) t
    exact not_le.mp fun hle => hnot hle hrunning

/-- The difference of two entries.  It sends constant signals to zero. -/
def pairDifference : LinearOperator ℝ :=
  .leaf (.difference ⟨[2], [0], .truncate, by decide, by decide⟩)

theorem isPlain_pairDifference : pairDifference.IsPlain where
  wellShaped := trivial
  closureFree := trivial
  roomy := ⟨by unfold Shape.Roomy; decide, by unfold Shape.Roomy; decide⟩

/-- A problem with singular normal equations: all operators send constant signals to zero. -/
def singularProblem : Problem ℝ ℝ ℝ where
  f := .loss ⟨.ofArray #[1], pairDifference, RealArithmetic.half, none⟩
  penalties := [.l1]
  operators := [pairDifference]
  weights := [1]
  start := .ofArray #[1, 0]

theorem isLeastSquares_singularProblem : singularProblem.IsLeastSquares where
  f := SquaredLoss.isPlainOn_of_ofObservation (y := .ofArray #[1]) isPlain_pairDifference rfl
  operators := List.forall_mem_singleton.mpr isPlain_pairDifference
  penalties := List.forall_mem_singleton.mpr trivial

theorem fault?_singularProblem : singularProblem.fault? = none := by
  have hinput : pairDifference.input = (Signal.ofArray #[(1 : ℝ), 0]).shape := rfl
  simp [Problem.fault?, singularProblem, Problem.operatorFault?, Problem.weightFault?,
    Problem.isPositive_iff, Functional.isSmooth, Functional.hasProx, hinput]

theorem leastSquares_singularProblem : ∃ s t,
    (create singularProblem .default (.ofOptions .default)).run .empty = (.ok s, t) ∧
      (∃ s' t', s.step t = ((.ok (), s'), t')) ∧
      ∃ x s' t', s.solve t = ((.ok x, s'), t') ∧ s'.state.isTerminal = true := by
  have hatol : (0 : ℝ) ≤ (CgOptions.default : CgOptions ℝ).atol := le_refl (0 : ℝ)
  have hdefault : (Config.default : Config ℝ).fault? = none := rfl
  obtain ⟨s, t, hcreate, hrunning⟩ := exists_create isLeastSquares_singularProblem.toHasEquations
    hdefault fault?_singularProblem .default .empty
  obtain ⟨hstep, hsolve⟩ :=
    leastSquares_completes isLeastSquares_singularProblem hatol (.create hcreate)
  exact ⟨s, t, hcreate, hstep hrunning t, hsolve t⟩

/-! ### Arrays that are too long -/

/-- A shape of arrays without entries that have too many groups along the second axis. -/
def longShape : Shape := .flat [2 ^ 60, 0]

def longStart : Signal ℝ := .flat ⟨[2 ^ 60, 0], #[], rfl⟩

/-- A problem whose only penalty is the mixed norm of such arrays. -/
def longProblem : Problem ℝ ℝ ℝ where
  f := .loss ⟨longStart, .leaf (.identity longShape), RealArithmetic.half, some longStart⟩
  penalties := [.l21 1]
  operators := [.leaf (.identity longShape)]
  weights := [1]
  start := longStart

theorem hasEquations_longProblem : longProblem.HasEquations where
  f := SquaredLoss.isPlainOn_of_ofObservation (y := longStart) (.identity longShape) rfl
  operators := List.forall_mem_singleton.mpr (.identity longShape)

theorem fault?_longProblem : longProblem.fault? = none := by
  simp [Problem.fault?, longProblem, Problem.operatorFault?, Problem.weightFault?,
      Problem.isPositive_iff, Functional.isSmooth, Functional.hasProx, LinearOperator.input,
      Leaf.input]
  rfl

theorem eq_longStart {x : Signal ℝ} (h : x.shape = longShape) : x = longStart := by
  obtain ⟨⟨dims, entries, hsize⟩, rfl, hdims⟩ := Signal.exists_of_shape_flat h
  cases hdims
  have hempty : entries = #[] := Array.eq_empty_of_size_eq_zero hsize
  subst hempty
  rfl

/-- The mixed norm has no proximal point there. -/
theorem run_couple_longStart (f : Functional ℝ ℝ ℝ) (info : Option (CgReport ℝ)) (t : Trace ℝ ℝ) :
    (Iterate.couple f [⟨.l21 1, .leaf (.identity longShape), 1, longStart, .zeros longShape⟩]
      ⟨longStart, info⟩).run t = (.error .misuse, t) := rfl

/-- Not every run goes on: the group norms of arrays without entries may be too many to be kept. -/
theorem exists_step_eq_misuse : ∃ s s' t t',
    (create longProblem .default (.ofOptions .default)).run .empty = (.ok s, t) ∧
      s.state.isTerminal = false ∧ s.step t = ((.error .misuse, s'), t') := by
  have hatol : (0 : ℝ) ≤ (CgOptions.default : CgOptions ℝ).atol := le_refl (0 : ℝ)
  have hdefault : (Config.default : Config ℝ).fault? = none := rfl
  obtain ⟨s, t, hcreate, hrunning⟩ := exists_create hasEquations_longProblem hdefault
    fault?_longProblem .default .empty
  obtain ⟨n, hstrategy, hsolve⟩ := Reachable.completes_solve hasEquations_longProblem hatol
    (.create hcreate)
  obtain ⟨⟨x, info⟩, t₁, hshape, hupdate⟩ :=
    Iterate.update_eq (q := s.point t) hstrategy hsolve s.f (s.iteration + 1)
  have hterms : (s.point t).terms =
      [⟨.l21 1, .leaf (.identity longShape), 1, longStart, .zeros longShape⟩] := by
    obtain ⟨-, -, strategy, t₂, -, terms, hrun, rfl⟩ := run_create_eq_ok_iff.mp hcreate
    cases hrun
    rfl
  obtain rfl : x = longStart := eq_longStart hshape
  rw [hterms, run_couple_longStart] at hupdate
  obtain ⟨strategy, timing, t', hstep⟩ := step_of_update_error hrunning hupdate
  exact ⟨s, _, t, t', hcreate, hrunning, hstep⟩

end Solver

end

end OperatorSplitting
