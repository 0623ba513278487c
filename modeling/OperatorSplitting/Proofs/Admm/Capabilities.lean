import Mathlib
import OperatorSplitting.Proofs.Admm.Shapes
import OperatorSplitting.Proofs.Functional.Capabilities

/-!
# What a run asks of its functionals

A solver looks at the flags of its functionals once, when it is made: the smooth functional must have
a gradient and every penalty a proximal map.  Later the gradient is asked for by the descent steps,
the value of the smooth functional by the line search, the proximal maps by the split updates, and
all values by the diagnostics, if all flags say that there are values.

With the functionals and the strategies of the library this is enough.  No step and no solve of any
reachable solver is refused as unsupported, and the objective is missing from the rows of the history
exactly if some penalty contains a denoising prior (`Solver.library_supported`).
-/

namespace OperatorSplitting

open Eval

variable {K R W : Type} [Scalar K R W] [RealArithmetic R]

/-! ### The x-update -/

omit [RealArithmetic R] in
theorem Coupling.supported_mismatch {c : Coupling K R} (h : c.operator.IsSupported)
    (x : Signal K) : Supported (c.mismatch x : Eval K W _) :=
  (h.apply x).bind fun _ _ => (EndsIn.liftExcept (Signal.supported_zipMap _ _ _ _)).bind fun _ _ =>
    .liftExcept (Signal.supported_zipMap _ _ _ _)

namespace XUpdate

/-- The smooth functional is one of the library, and the operators are supported. -/
structure IsSupported (p : XUpdate K R W) : Prop where
  f : p.f.IsLibrary
  smooth : p.f.isSmooth = true
  operators : ∀ c ∈ p.couplings, c.operator.IsSupported

variable {p : XUpdate K R W} {cs : List (Coupling K R)}

theorem supported_addPenalties (h : ∀ c ∈ cs, c.operator.IsSupported) (x : Signal K) (total : R) :
    Supported (addPenalties x cs total : Eval K W _) := by
  induction cs generalizing total with
  | nil => exact .pure trivial
  | cons c cs ih =>
    obtain ⟨hc, hcs⟩ := List.forall_mem_cons.mp h
    exact (Coupling.supported_mismatch hc x).bind fun r _ => ih hcs _

/-- A smooth functional of the library has the values that the objective needs. -/
theorem IsSupported.objective (h : p.IsSupported) (x : Signal K) : Supported (p.objective x) := by
  have hvalue := Functional.hasEval_of_isSmooth h.f h.smooth
  exact ((Functional.supported_value_iff h.f x).mpr hvalue).bind fun value _ =>
    supported_addPenalties h.operators x value

omit [RealArithmetic R] in
theorem supported_addGradients (h : ∀ c ∈ cs, c.operator.IsSupported) (x g : Signal K) :
    Supported (addGradients x cs g : Eval K W _) := by
  induction cs generalizing g with
  | nil => exact .pure trivial
  | cons c cs ih =>
    obtain ⟨hc, hcs⟩ := List.forall_mem_cons.mp h
    exact (Coupling.supported_mismatch hc x).bind fun r _ => (hc.adjoint r).bind fun back _ =>
      (EndsIn.liftExcept (Signal.supported_zipMap _ _ _ _)).bind fun g' _ => ih hcs g'

theorem IsSupported.gradient (h : p.IsSupported) (x : Signal K) : Supported (p.gradient x) :=
  ((Functional.supported_grad_iff h.f x).mpr h.smooth).bind fun g _ =>
    supported_addGradients h.operators x g

end XUpdate

namespace Descent

variable {p : XUpdate K R W}

theorem supported_search (h : p.IsSupported) (x g : Signal K) (phi gradientSqr : R) (tries : ℕ)
    (t : R) : Supported (search p x g phi gradientSqr tries t) := by
  induction tries generalizing t with
  | zero => exact .pure trivial
  | succ tries ih =>
    refine (EndsIn.liftExcept (Signal.supported_zipMap _ _ _ _)).bind fun candidate _ => ?_
    exact (h.objective candidate).bind fun value _ => EndsIn.ite (.pure trivial) (ih _)

theorem supported_step (h : p.IsSupported) (x : Signal K) (stepSize : R) :
    Supported (step p x stepSize) := by
  refine (h.gradient x).bind fun g _ => EndsIn.ite (.pure trivial) ?_
  refine (h.objective x).bind fun phi _ =>
    (supported_search h x g phi _ _ stepSize).bind fun found _ => ?_
  exact EndsIn.ite ((EndsIn.report _).bind fun _ _ => .pure trivial) (.pure trivial)

theorem supported_run (h : p.IsSupported) (steps : ℕ) (x : Signal K) (stepSize : R)
    (t : Trace K W) : Except.Supported (run p steps x stepSize t).1.1 := by
  induction steps generalizing x stepSize t with
  | zero => exact trivial
  | succ steps ih =>
    have hstep := supported_step h x stepSize t
    rw [run_succ]
    rcases hrun : (step p x stepSize).run t with ⟨e | (_ | ⟨next, size⟩), t'⟩ <;> rw [hrun] at hstep
    · exact hstep
    · exact trivial
    · exact ih next (size + size) t'

end Descent

variable [RealArithmetic W] [Widening R W]

/-! ### Linear solves -/

section LinearSolves

variable {a : LinearOperator K}

omit [RealArithmetic W] [Widening R W] in
theorem CgState.supported_step (ha : a.IsSupported) (s : CgState K R) :
    Supported (s.step a : Eval K W _) := by
  refine (ha.apply _).bind fun image _ => (EndsIn.liftExcept (Signal.supported_vdot _ _)).bind
    fun d _ => EndsIn.ite (.throw id) ?_
  refine (EndsIn.liftExcept (Signal.supported_zipMap _ _ _ _)).bind fun x _ => ?_
  refine (EndsIn.liftExcept (Signal.supported_zipMap _ _ _ _)).bind fun r _ => ?_
  exact (EndsIn.liftExcept (Signal.supported_zipMap _ _ _ _)).bind fun d' _ => .pure trivial

theorem CgState.supported_iterate (ha : a.IsSupported) (threshold : W) (n : ℕ) (s : CgState K R) :
    Supported (s.iterate a threshold n : Eval K W _) := by
  induction n generalizing s with
  | zero => exact .pure trivial
  | succ n ih =>
    unfold iterate
    exact EndsIn.ite ((supported_step ha s).bind fun s' _ => ih s') (.pure trivial)

theorem supported_conjugateGradient (ha : a.IsSupported) (b x : Signal K) (options : CgOptions W) :
    Supported (conjugateGradient a b x options : Eval K W _) := by
  have hstart : Supported (CgState.start a b x : Eval K W (CgState K R)) :=
    (ha.apply x).bind fun u _ => (EndsIn.liftExcept (Signal.supported_zipMap _ _ _ _)).bind
      fun r _ => .pure trivial
  unfold conjugateGradient
  refine EndsIn.ite (.throw id) (EndsIn.ite (.throw id) (hstart.bind fun s _ => ?_))
  exact (CgState.supported_iterate ha _ _ s).bind fun s' _ => .pure trivial

end LinearSolves

namespace NormalEquations

variable {cs : List (Coupling K R)} {operators : List (LinearOperator K × R)}

omit [RealArithmetic R] [RealArithmetic W] [Widening R W] in
theorem supported_addCouplings (h : ∀ c ∈ cs, c.operator.IsSupported) (rhs : Signal K) :
    Supported (addCouplings cs rhs : Eval K W _) := by
  induction cs generalizing rhs with
  | nil => exact .pure trivial
  | cons c cs ih =>
    obtain ⟨hc, hcs⟩ := List.forall_mem_cons.mp h
    refine (EndsIn.liftExcept (Signal.supported_zipMap _ _ _ _)).bind fun target _ => ?_
    exact (hc.adjoint target).bind fun back _ =>
      (EndsIn.liftExcept (Signal.supported_zipMap _ _ _ _)).bind fun rhs' _ => ih hcs rhs'

theorem supported_solve {n : NormalEquations K} (hn : n.lhs.IsSupported) (options : CgOptions W)
    (hcs : ∀ c ∈ cs, c.operator.IsSupported) (x : Signal K) :
    Supported (n.solve options cs x) := by
  refine (supported_addCouplings hcs _).bind fun rhs _ =>
    (supported_conjugateGradient hn rhs x options).bind fun ⟨solution, info⟩ _ => ?_
  exact EndsIn.ite ((EndsIn.report _).bind fun _ _ => .pure trivial) (.pure trivial)

omit [RealArithmetic R] [RealArithmetic W] [Widening R W] in
theorem endsIn_addGrams {lhs : LinearOperator K} (hlhs : lhs.IsSupported)
    (h : ∀ p ∈ operators, p.1.IsSupported) :
    Except.EndsIn (fun e => ¬e.IsUnsupported) LinearOperator.IsSupported
      (addGrams operators lhs) := by
  induction operators generalizing lhs with
  | nil => exact hlhs
  | cons p operators ih =>
    obtain ⟨hp, hrest⟩ := List.forall_mem_cons.mp h
    have hsum : Except.EndsIn (fun e => ¬e.IsUnsupported) LinearOperator.IsSupported
        (lhs.add (.multiple (Scalar.ofReal p.2) p.1.gramOperator)) := by
      unfold LinearOperator.add
      split_ifs
      · exact id
      · exact id
      · exact ⟨hlhs, hp, hp⟩
    exact hsum.bind fun sum hsum => ih hsum hrest

omit [RealArithmetic W] [Widening R W] in
theorem endsIn_ofLoss_supported {l : SquaredLoss K R} (hl : l.operator.IsSupported)
    (h : ∀ p ∈ operators, p.1.IsSupported) :
    EndsIn (fun e => ¬e.IsUnsupported) (ofLoss l operators : Eval K W _) fun n =>
      n.lhs.IsSupported := by
  have hgram : (LinearOperator.multiple (Scalar.ofReal (l.scale + l.scale))
      l.operator.gramOperator).IsSupported := ⟨hl, hl⟩
  refine (EndsIn.liftExcept (endsIn_addGrams hgram h)).bind fun lhs hlhs => ?_
  exact (hl.adjoint _).bind fun pulled _ => (EndsIn.report _).bind fun _ _ => .pure hlhs

end NormalEquations

/-! ### Strategies -/

namespace Strategy

/-- The strategy is one of the library, and its equations are supported if they have been set up. -/
def IsSupported : Strategy K R W → Prop
  | .descent _ _ => True
  | .leastSquares _ equations => ∀ n ∈ equations, n.lhs.IsSupported
  | .external _ _ => False

variable {s : Strategy K R W}

omit [RealArithmetic W] [Widening R W] in
theorem endsIn_setup_supported (hs : s.IsBuiltIn) {f : Functional K R W} (hf : f.IsLibrary)
    {operators : List (LinearOperator K × R)} (h : ∀ p ∈ operators, p.1.IsSupported) :
    EndsIn (fun e => ¬e.IsUnsupported) (s.setup f operators) IsSupported := by
  cases s with
  | descent steps stepSize =>
    exact EndsIn.ite (.throw id) ((EndsIn.report _).bind fun _ _ => .pure trivial)
  | leastSquares options equations =>
    unfold setup
    dsimp only
    split
    · exact .throw id
    · next l hl =>
      have hl := Functional.isSupported_of_asSquaredLoss? hf hl
      refine (NormalEquations.endsIn_ofLoss_supported hl h).bind fun n hn => .pure ?_
      intro n' hn'
      cases Option.mem_some_iff.mp hn'
      exact hn
  | external e solves => exact hs.elim

theorem IsSupported.solve (hs : s.IsSupported) {p : XUpdate K R W} (hp : p.IsSupported)
    (x : Signal K) (t : Trace K W) :
    Except.Supported (s.solve p x t).1.1 ∧ (s.solve p x t).1.2.IsSupported := by
  cases s with
  | descent steps stepSize => exact ⟨(Descent.supported_run hp steps x stepSize t).map _, trivial⟩
  | leastSquares options equations =>
    cases equations with
    | none => exact ⟨id, hs⟩
    | some n =>
      exact ⟨NormalEquations.supported_solve (hs n rfl) options hp.operators x t, hs⟩
  | external e solves => exact hs.elim

end Strategy

/-! ### The phases of a step -/

/-- All parts of the problem are of the library, over supported closures. -/
structure Problem.IsLibrary (p : Problem K R W) : Prop where
  f : p.f.IsLibrary
  penalties : ∀ g ∈ p.penalties, g.IsLibrary
  operators : ∀ c ∈ p.operators, c.IsSupported

omit [RealArithmetic W] [Widening R W] [RealArithmetic R] in
/-- The terms at a starting point have the penalties and the operators of the problem. -/
theorem Problem.endsIn_terms_supported (start : Signal K) {gs : List (Functional K R W)}
    {cs : List (LinearOperator K)} {weights : List R} (hcs : gs.length = cs.length)
    (hweights : gs.length = weights.length) (h : ∀ c ∈ cs, c.IsSupported) :
    EndsIn (fun e => ¬e.IsUnsupported) (terms start gs cs weights : Eval K W _) fun ts =>
      ts.map (·.penalty) = gs ∧ ts.map (·.operator) = cs := by
  induction gs generalizing cs weights with
  | nil =>
    cases List.length_eq_zero_iff.mp hcs.symm
    exact .pure ⟨rfl, rfl⟩
  | cons g gs ih =>
    cases cs with
    | nil => cases hcs
    | cons c cs =>
      cases weights with
      | nil => cases hweights
      | cons weight weights =>
        obtain ⟨hc, hrest⟩ := List.forall_mem_cons.mp h
        refine (hc.apply start).bind fun z _ =>
          (ih (Nat.succ.inj hcs) (Nat.succ.inj hweights) hrest).bind fun ts hts => .pure ?_
        exact ⟨by rw [List.map_cons, hts.1], by rw [List.map_cons, hts.2]⟩

/-- The penalty is one of the library with a proximal map, and the operator is supported. -/
structure Term.IsSupported (t : Term K R W) : Prop where
  penalty : t.penalty.IsLibrary
  prox : t.penalty.hasProx = true
  operator : t.operator.IsSupported

namespace Solver

omit [RealArithmetic R] [RealArithmetic W] [Widening R W] in
theorem endsIn_images_supported (x : Signal K) {ts : List (Term K R W)}
    (h : ∀ t ∈ ts, t.IsSupported) :
    EndsIn (fun e => ¬e.IsUnsupported) (images x ts : Eval K W _) fun ps =>
      ps.map (·.1) = ts := by
  induction ts with
  | nil => exact .pure rfl
  | cons t ts ih =>
    obtain ⟨ht, hts⟩ := List.forall_mem_cons.mp h
    refine (ht.operator.apply x).bind fun image _ => (ih hts).bind fun ps hps => .pure ?_
    rw [List.map_cons, hps]

theorem endsIn_splitUpdates_supported {ps : List (Term K R W × Signal K)}
    (h : ∀ p ∈ ps, p.1.IsSupported) :
    EndsIn (fun e => ¬e.IsUnsupported) (splitUpdates ps : Eval K W _) fun qs =>
      qs.map (·.1) = ps.map (·.1) := by
  induction ps with
  | nil => exact .pure rfl
  | cons p ps ih =>
    obtain ⟨hp, hps⟩ := List.forall_mem_cons.mp h
    refine (EndsIn.liftExcept (Signal.supported_zipMap _ _ _ _)).bind fun v _ => ?_
    have hprox := (Functional.supported_prox_iff hp.penalty v (1 / p.1.weight)).mpr hp.prox
    refine hprox.bind fun z _ => (ih hps).bind fun qs hqs => .pure ?_
    rw [List.map_cons, List.map_cons, hqs]

omit [RealArithmetic R] [RealArithmetic W] [Widening R W] in
theorem endsIn_dualUpdates_supported (qs : List (Term K R W × Signal K × Signal K)) :
    Except.EndsIn (fun e => ¬e.IsUnsupported) (fun us => us.map (·.before) = qs.map (·.1))
      (dualUpdates qs) := by
  induction qs with
  | nil => exact rfl
  | cons q qs ih =>
    refine (Signal.supported_zipMap _ _ _ _).bind fun gap _ =>
      (Signal.supported_zipMap _ _ _ _).bind fun u _ => ih.bind fun us hus => ?_
    show q.1 :: us.map (·.before) = q.1 :: qs.map (·.1)
    rw [hus]

section Diagnostics

variable {f : Functional K R W} {us : List (TermUpdate K R W)}

theorem supported_addValues (h : ∀ t ∈ us, t.before.penalty.IsLibrary)
    (heval : ∀ t ∈ us, t.before.penalty.hasEval = true) (total : W) :
    Supported (addValues us total : Eval K W _) := by
  induction us generalizing total with
  | nil => exact .pure trivial
  | cons t us ih =>
    obtain ⟨ht, hus⟩ := List.forall_mem_cons.mp h
    obtain ⟨hvalue, hvalues⟩ := List.forall_mem_cons.mp heval
    exact ((Functional.supported_value_iff ht t.image).mpr hvalue).bind fun value _ =>
      ih hus hvalues _

/-- The objective of a functional with values is missing exactly if some penalty has no values. -/
theorem endsIn_objective_supported (hf : f.IsLibrary) (hvalue : f.hasEval = true)
    (h : ∀ t ∈ us, t.before.penalty.IsLibrary) (x : Signal K) :
    EndsIn (fun e => ¬e.IsUnsupported) (objective f x us : Eval K W _) fun o =>
      (o = none ↔ ∃ t ∈ us, t.before.penalty.hasEval = false) := by
  unfold objective
  by_cases hall : ∀ t ∈ us, t.before.penalty.hasEval = true
  · rw [if_pos (by simpa [hvalue] using hall)]
    refine ((Functional.supported_value_iff hf x).mpr hvalue).bind fun value _ =>
      (supported_addValues h hall _).bind fun total _ => .pure ?_
    refine iff_of_false (Option.some_ne_none _) ?_
    rintro ⟨t, ht, hnone⟩
    exact Bool.false_ne_true (hnone.symm.trans (hall t ht))
  · rw [if_neg (by simpa [hvalue] using hall)]
    exact .pure (iff_of_true rfl (by simpa using hall))

theorem supported_addResiduals (h : ∀ t ∈ us, t.before.operator.IsSupported) (primal dual : W) :
    Supported (addResiduals us primal dual : Eval K W _) := by
  induction us generalizing primal dual with
  | nil => exact .pure trivial
  | cons t us ih =>
    obtain ⟨ht, hus⟩ := List.forall_mem_cons.mp h
    refine (EndsIn.liftExcept (Signal.supported_zipMap _ _ _ _)).bind fun gap _ =>
      (EndsIn.liftExcept (Signal.supported_zipMap _ _ _ _)).bind fun change _ => ?_
    exact (ht.adjoint change).bind fun back _ => ih hus _ _

end Diagnostics

end Solver

/-- All phases after the x-update. -/
theorem Iterate.endsIn_finish_supported {f : Functional K R W} {terms : List (Term K R W)}
    (hf : f.IsLibrary) (hvalue : f.hasEval = true) (hterms : ∀ t ∈ terms, t.IsSupported)
    (number : ℕ) (report : SubproblemReport K W) :
    EndsIn (fun e => ¬e.IsUnsupported) (finish f terms number report) fun r =>
      r.updates.map (·.before) = terms ∧
        (r.diagnostics.objective = none ↔ ∃ t ∈ terms, t.penalty.hasEval = false) := by
  refine EndsIn.ite ?_ (.throw id)
  have hsplit : EndsIn (fun e => ¬e.IsUnsupported)
      (do Solver.splitUpdates (← Solver.images report.x terms)) fun qs => qs.map (·.1) = terms := by
    refine (Solver.endsIn_images_supported report.x hterms).bind fun ps hps => ?_
    have hsupported : ∀ p ∈ ps, p.1.IsSupported := fun p hp =>
      hterms p.1 (hps ▸ List.mem_map_of_mem hp)
    exact (Solver.endsIn_splitUpdates_supported hsupported).mono fun qs hqs => hqs.trans hps
  refine hsplit.bind fun splits hsplits =>
    (EndsIn.liftExcept (Solver.endsIn_dualUpdates_supported splits)).bind fun us hus => ?_
  have hbefore : us.map (·.before) = terms := hus.trans hsplits
  have hmem : ∀ t ∈ us, t.before.IsSupported := fun t ht =>
    hterms t.before (hbefore ▸ List.mem_map_of_mem ht)
  have hdiagnostics : EndsIn (fun e => ¬e.IsUnsupported) (Solver.diagnostics f report.x us)
      fun d => (d.objective = none ↔ ∃ t ∈ us, t.before.penalty.hasEval = false) := by
    refine (Solver.endsIn_objective_supported hf hvalue (fun t ht => (hmem t ht).penalty)
      report.x).bind fun o ho => ?_
    exact (Solver.supported_addResiduals (fun t ht => (hmem t ht).operator) 0 0).bind
      fun sums _ => .pure ho
  refine hdiagnostics.bind fun d hd => .pure ⟨hbefore, hd.trans ?_⟩
  rw [← hbefore]
  simp

/-! ### Reachable solvers -/

namespace Solver

variable {p : Problem K R W} {config : Config W} {strategy : Strategy K R W} {s : Solver K R W}

/-- The solver stands in a run of the problem: it has the functionals and the operators of it and a
supported strategy, and the rows lack the objective exactly if some penalty has no values. -/
structure IsSupported (p : Problem K R W) (s : Solver K R W) : Prop where
  accepted : p.fault? = none
  f_eq : s.f = p.f
  penalties : s.terms.map (·.penalty) = p.penalties
  operators : s.terms.map (·.operator) = p.operators
  strategy : s.strategy.IsSupported
  rows : ∀ row ∈ s.history.newest,
    (row.objective = none ↔ ∃ g ∈ p.penalties, g.hasEval = false)

omit [RealArithmetic W] [Widening R W] in
theorem IsSupported.isSmooth (hs : s.IsSupported p) : p.f.isSmooth = true :=
  (Problem.fault?_eq_none_iff.mp hs.accepted).2.2.2.1

omit [RealArithmetic W] [Widening R W] in
/-- The flags of the penalties were looked at when the solver was made. -/
theorem IsSupported.terms (hs : s.IsSupported p) (hp : p.IsLibrary) :
    ∀ t ∈ s.terms, t.IsSupported := by
  intro t ht
  have hpenalty : t.penalty ∈ p.penalties := hs.penalties ▸ List.mem_map_of_mem ht
  have hoperator : t.operator ∈ p.operators := hs.operators ▸ List.mem_map_of_mem ht
  have hprox := (Problem.fault?_eq_none_iff.mp hs.accepted).2.2.2.2
  exact ⟨hp.penalties _ hpenalty, hprox _ hpenalty, hp.operators _ hoperator⟩

omit [RealArithmetic W] [Widening R W] in
theorem IsSupported.xUpdate (hs : s.IsSupported p) (hp : p.IsLibrary) : s.xUpdate.IsSupported where
  f := (congrArg Functional.IsLibrary hs.f_eq).mpr hp.f
  smooth := (congrArg Functional.isSmooth hs.f_eq).trans hs.isSmooth
  operators := by
    intro c hc
    obtain ⟨t, ht, rfl⟩ := List.mem_map.mp hc
    exact (hs.terms hp t ht).operator

omit [Widening R W] in
theorem endsIn_create_supported (hp : p.IsLibrary) (hstrategy : strategy.IsBuiltIn) :
    EndsIn (fun e => ¬e.IsUnsupported) (create p config strategy) (IsSupported p) := by
  have hrefuse (fault : Option ConfigurationFault) :
      Except.EndsIn (fun e => ¬e.IsUnsupported) (fun _ => fault = none) (refuse fault) := by
    cases fault with
    | none => exact rfl
    | some fault => exact id
  refine (EndsIn.liftExcept (hrefuse _)).bind fun _ _ => ?_
  refine (EndsIn.liftExcept (hrefuse _)).bind fun _ hfault => ?_
  have hweighted : ∀ q ∈ p.operators.zip p.weights, q.1.IsSupported :=
    fun q hq => hp.operators q.1 (List.of_mem_zip hq).1
  obtain ⟨hcs, hweights⟩ := length_of_fault? hfault
  refine (Strategy.endsIn_setup_supported hstrategy hp.f hweighted).bind fun strategy hsetup => ?_
  refine (Problem.endsIn_terms_supported p.start hcs hweights hp.operators).bind fun ts hts => ?_
  exact .pure ⟨hfault, rfl, hts.1, hts.2, hsetup, List.forall_mem_nil _⟩

/-- All phases of a step are supported. -/
theorem IsSupported.endsIn_finished (hs : s.IsSupported p) (hp : p.IsLibrary) (t : Trace K W) :
    Except.EndsIn (fun e => ¬e.IsUnsupported) (fun r => r.updates.map (·.before) = s.terms ∧
      (r.diagnostics.objective = none ↔ ∃ g ∈ p.penalties, g.hasEval = false))
      (s.finished t).1 := by
  have hsolved := (hs.strategy.solve (hs.xUpdate hp) s.x t).1
  have hf : s.f.IsLibrary := (hs.xUpdate hp).f
  have hvalue := Functional.hasEval_of_isSmooth hf (hs.xUpdate hp).smooth
  have hpenalties : (∃ t ∈ s.terms, t.penalty.hasEval = false) ↔
      ∃ g ∈ p.penalties, g.hasEval = false := by
    rw [← hs.penalties]
    simp
  unfold finished
  rcases hrun : s.solved t with ⟨⟨e | report, next⟩, t₁⟩
  · have herror : Except.Supported (s.solved t).1.1 := hsolved
    rw [hrun] at herror
    exact herror
  · have hfinish := Iterate.endsIn_finish_supported hf hvalue (hs.terms hp) (s.iteration + 1) report
    exact (hfinish t₁).mono fun r hr => ⟨hr.1, hr.2.trans hpenalties⟩

omit [Scalar K R W] [RealArithmetic R] [RealArithmetic W] [Widening R W] in
/-- The terms after a step are the terms before it with other variables. -/
theorem TermUpdate.map_after {us : List (TermUpdate K R W)} {terms : List (Term K R W)}
    (h : us.map (·.before) = terms) {β : Type} (f : Term K R W → β)
    (hf : ∀ t : TermUpdate K R W, f t.after = f t.before) :
    (us.map after).map f = terms.map f := by
  rw [← h, List.map_map, List.map_map]
  exact List.map_congr_left fun t _ => hf t

/-- A step is supported and leaves a supported solver. -/
theorem IsSupported.step (hs : s.IsSupported p) (hp : p.IsLibrary) {s' : Solver K R W}
    {t t' : Trace K W} {result : Except Error Unit} (h : s.step t = ((result, s'), t')) :
    Except.Supported result ∧ s'.IsSupported p := by
  have hfinished := hs.endsIn_finished hp t
  have hstrategy : (s.solved t).1.2.IsSupported := (hs.strategy.solve (hs.xUpdate hp) s.x t).2
  rcases step_finished_cases h with
    ⟨rfl, rfl⟩ | ⟨timing, ⟨e, hrun, rfl, rfl⟩ | ⟨r, hrun, rfl, rfl⟩⟩
  · exact ⟨id, hs⟩
  · rw [hrun] at hfinished
    exact ⟨hfinished, { hs with strategy := hstrategy }⟩
  · rw [hrun] at hfinished
    obtain ⟨hbefore, hobjective⟩ := hfinished
    refine ⟨trivial, { hs with
      penalties := (TermUpdate.map_after hbefore (·.penalty) fun _ => rfl).trans hs.penalties
      operators := (TermUpdate.map_after hbefore (·.operator) fun _ => rfl).trans hs.operators
      strategy := hstrategy
      rows := fun row hrow => ?_ }⟩
    rcases mem_history_commit hrow with hold | rfl
    · exact hs.rows row hold
    · exact hobjective

theorem Reachable.isSupported (hp : p.IsLibrary) (hstrategy : strategy.IsBuiltIn)
    (h : s.Reachable p config strategy) : s.IsSupported p := by
  refine h.invariant (fun {s t t'} hcreate => ?_) (fun hs hstep => (hs.step hp hstep).2)
    fun hs => { hs with }
  have hcreates : EndsIn (fun e => ¬e.IsUnsupported) (Solver.create p config strategy)
      (IsSupported p) := endsIn_create_supported hp hstrategy
  have hmade := hcreates t
  rw [hcreate] at hmade
  exact hmade

/-- A solve fails because one of its steps does. -/
theorem Reachable.exists_step_of_solve (h : s.Reachable p config strategy) {s' : Solver K R W}
    {t t' : Trace K W} {e : Error} (hsolve : s.solve t = ((.error e, s'), t')) :
    ∃ (s₁ : Solver K R W) (t₁ : Trace K W), s₁.Reachable p config strategy ∧
      s₁.step t₁ = ((.error e, s'), t') := by
  unfold Solver.solve at hsolve
  split at hsolve
  · rw [solveWithin_of_isTerminal rfl] at hsolve
    cases hsolve
  · exact h.exists_step_error hsolve

/-- The flags of a functional of the library are honest: what it says that it has, it is supported to
ask for.  With a strategy of the library no step and no solve of a run is refused as unsupported,
wherever the run stands, and a row lacks the objective exactly if some penalty contains a denoising
prior. -/
theorem library_supported :
    (∀ f : Functional K R W, f.IsLibrary →
      (f.hasProx = true → ∀ v step, Supported (f.prox v step)) ∧
      (f.hasEval = true → ∀ x, Supported (f.value x)) ∧
      (f.isSmooth = true → ∀ x, Supported (f.grad x))) ∧
    ∀ (p : Problem K R W) (config : Config W) (strategy : Strategy K R W) (s : Solver K R W),
      p.IsLibrary → strategy.IsBuiltIn → s.Reachable p config strategy →
        (∀ t e s' t', s.step t = ((.error e, s'), t') → ¬e.IsUnsupported) ∧
        (∀ t e s' t', s.solve t = ((.error e, s'), t') → ¬e.IsUnsupported) ∧
        ∀ row ∈ s.history.records,
          (row.objective = none ↔ ∃ g ∈ p.penalties, g.ContainsPrior) := by
  refine ⟨fun f hf => ⟨fun hprox v step => ?_, fun heval x => ?_, fun hsmooth x => ?_⟩,
    fun p config strategy s hp hstrategy h => ?_⟩
  · exact (Functional.supported_prox_iff hf v step).mpr hprox
  · exact (Functional.supported_value_iff hf x).mpr heval
  · exact (Functional.supported_grad_iff hf x).mpr hsmooth
  · have hs := h.isSupported hp hstrategy
    refine ⟨fun t e s' t' hstep => ?_, fun t e s' t' hsolve => ?_, fun row hrow => ?_⟩
    · exact (hs.step hp hstep).1
    · obtain ⟨s₁, t₁, hreachable, hstep⟩ := h.exists_step_of_solve hsolve
      exact ((hreachable.isSupported hp hstrategy).step hp hstep).1
    · refine (hs.rows row (List.mem_reverse.mp hrow)).trans (exists_congr fun g => ?_)
      exact and_congr_right fun hg => Functional.hasEval_eq_false_iff (hp.penalties g hg)

end Solver

noncomputable section

namespace Solver

/-- A multiple of a denoising prior without a backend as the penalty. -/
def priorProblem : Problem ℝ ℝ ℝ where
  f := .multiple RealArithmetic.two .squaredL2
  penalties := [.multiple RealArithmetic.two (.prior (.bm3d none false))]
  operators := [.leaf (.identity (.vector 1))]
  weights := [1]
  start := .zeros (.vector 1)

theorem isLibrary_priorProblem : priorProblem.IsLibrary where
  f := trivial
  penalties := List.forall_mem_singleton.mpr fun _ h => nomatch h
  operators := List.forall_mem_singleton.mpr trivial

theorem fault?_priorProblem : priorProblem.fault? = none := by
  simp [Problem.fault?, priorProblem, Problem.operatorFault?, Problem.weightFault?,
    Problem.isPositive_iff, Functional.isSmooth, Functional.hasProx, LinearOperator.input,
    Leaf.input, Signal.zeros]

/-- The run of this problem is never refused as unsupported, and its rows lack the objective. -/
theorem library_supported_priorProblem : ∃ s t,
    (create priorProblem .default (.ofSteps 20)).run .empty = (.ok s, t) ∧
      (∀ t e s' t', s.step t = ((.error e, s'), t') → ¬e.IsUnsupported) ∧
      ∀ t result s' t', s.step t = ((result, s'), t') →
        ∀ row ∈ s'.history.records, row.objective = none := by
  have hbuiltIn : (Strategy.ofSteps 20 : Strategy ℝ ℝ ℝ).IsBuiltIn := trivial
  obtain ⟨s, t, hcreate⟩ : ∃ s t,
      (create priorProblem .default (.ofSteps 20)).run .empty = (.ok s, t) :=
    ⟨_, _, run_create_eq_ok_iff.mpr ⟨rfl, fault?_priorProblem, _, _, rfl, _, rfl, rfl⟩⟩
  have hmade : s.Reachable priorProblem .default (.ofSteps 20) := .create hcreate
  obtain ⟨-, hrun⟩ := library_supported (K := ℝ) (R := ℝ) (W := ℝ)
  have hsteps := (hrun _ _ _ s isLibrary_priorProblem hbuiltIn hmade).1
  refine ⟨s, t, hcreate, hsteps, fun t result s' t' hstep row hrow => ?_⟩
  obtain ⟨-, -, hrows⟩ := hrun _ _ _ s' isLibrary_priorProblem hbuiltIn (hmade.step hstep)
  exact (hrows row hrow).mpr ⟨_, List.mem_singleton_self _, trivial⟩

end Solver

end

end OperatorSplitting
