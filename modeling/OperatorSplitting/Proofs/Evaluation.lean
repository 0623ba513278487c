import OperatorSplitting.Functional.Basic

/-!
# Evaluation does not depend on what happened before

A computation reads the trace only where a closure operator keeps the matrix of its derived adjoint.
Let every number stand for one closure.  A trace is *faithful* if each kept matrix is the one that
probing its closure gives.  A computation is *steady* if from every faithful trace it has the same
result, its `outcome`, and ends in a faithful trace.  Steadiness is kept by the monad operations, so
that the outcome of a composite computation is made of the outcomes of its parts
(`Steady.outcome_bind`).

An operator whose closures are the ones that their numbers stand for is steady in both directions
(`LinearOperator.steady_eval`): what was evaluated earlier, by this operator or by others that share
closures with it, never changes a result.
-/

namespace OperatorSplitting

variable {K R W α β : Type}

/-! ### Outcomes and faithful traces -/

namespace Eval

/-- The result of a computation when nothing has happened before. -/
def outcome (m : Eval K W α) : Except Error α := (m.run .empty).1

theorem run_bind {S : Type} (m : ExceptT Error (StateM S) α) (f : α → ExceptT Error (StateM S) β)
    (t : S) :
    (m >>= f).run t =
      match m.run t with
      | (.ok a, t) => (f a).run t
      | (.error e, t) => (.error e, t) := by
  show ((ExceptT.bind m f : ExceptT Error (StateM S) β).run t) = _
  simp only [ExceptT.bind, ExceptT.run, ExceptT.mk, bind, StateT.bind, ExceptT.bindCont]
  cases hm : m t with
  | mk r t' => cases r <;> rfl

theorem run_bind_eq_ok_iff {S : Type} {m : ExceptT Error (StateM S) α}
    {f : α → ExceptT Error (StateM S) β} {t t' : S} {b : β} :
    (m >>= f).run t = (.ok b, t') ↔
      ∃ a t₁, m.run t = (.ok a, t₁) ∧ (f a).run t₁ = (.ok b, t') := by
  rw [run_bind]
  rcases m.run t with ⟨result, t₁⟩
  cases result with
  | error e =>
    constructor
    · intro h
      cases h
    · rintro ⟨a, t₁, h, -⟩
      cases h
  | ok a =>
    constructor
    · intro h
      exact ⟨a, t₁, rfl, h⟩
    · rintro ⟨a', t₁', h, hf⟩
      cases h
      exact hf

@[simp] theorem outcome_pure (a : α) : (pure a : Eval K W α).outcome = .ok a := rfl

@[simp] theorem outcome_throw (e : Error) : (throw e : Eval K W α).outcome = .error e := rfl

@[simp] theorem outcome_liftExcept (r : Except Error α) : (liftM r : Eval K W α).outcome = r := rfl

theorem outcome_liftExcept_bind (r : Except Error α) (f : α → Eval K W β) :
    (liftM r >>= f).outcome = r >>= fun a => (f a).outcome := by
  cases r <;> rfl

end Eval

/-- The closure that each number stands for. -/
abbrev Naming (K : Type) := Nat → Closure K

namespace Trace

variable [Scalar K R W]

/-- Every kept matrix is what probing its closure gives. -/
def Faithful (names : Naming K) (t : Trace K W) : Prop :=
  ∀ id m, (t.cell id).derived = some m → ((names id).probe : Eval K W _).outcome = .ok m

variable {names : Naming K} {t : Trace K W}

@[simp] theorem cell_empty (id : Nat) : (empty : Trace K W).cell id = .fresh := by
  simp [empty, cell]

theorem faithful_empty (names : Naming K) : (empty : Trace K W).Faithful names := by
  intro id m h
  rw [cell_empty] at h
  cases h

theorem Faithful.report (h : t.Faithful names) (e : Event W) : (t.report e).Faithful names := h

/-- A change of a cell that does not touch the kept matrix. -/
theorem Faithful.modifyCell (h : t.Faithful names) (id : Nat) {f : Cell K → Cell K}
    (hf : ∀ c, (f c).derived = c.derived) : (t.modifyCell id f).Faithful names := by
  intro k m hm
  rw [cell_modifyCell] at hm
  split at hm
  · next hk =>
    rw [hf] at hm
    exact h k m (hk ▸ hm)
  · exact h k m hm

/-- Keeping the matrix that probing gives. -/
theorem Faithful.keep (h : t.Faithful names) (id : Nat) {m : DenseMatrix K} {f : Cell K → Cell K}
    (hf : ∀ c, (f c).derived = some m)
    (hprobe : ((names id).probe : Eval K W _).outcome = .ok m) :
    (t.modifyCell id f).Faithful names := by
  intro k m' hm
  rw [cell_modifyCell] at hm
  split at hm
  · next hk =>
    rw [hf] at hm
    cases hm
    exact hk ▸ hprobe
  · exact h k m' hm

end Trace

namespace Eval

variable [Scalar K R W]

/-- From every faithful trace the computation has its outcome as its result, and ends in a faithful
trace. -/
def Steady (names : Naming K) (m : Eval K W α) : Prop :=
  ∀ t, t.Faithful names → (m.run t).1 = m.outcome ∧ (m.run t).2.Faithful names

namespace Steady

variable {names : Naming K}

theorem pure (a : α) : Steady names (Pure.pure a : Eval K W α) := fun _ ht => ⟨rfl, ht⟩

theorem throw (e : Error) : Steady names (MonadExcept.throw e : Eval K W α) :=
  fun _ ht => ⟨rfl, ht⟩

theorem liftExcept (r : Except Error α) : Steady names (liftM r : Eval K W α) :=
  fun _ ht => ⟨rfl, ht⟩

theorem report (e : Event W) : Steady names (OperatorSplitting.report e : Eval K W Unit) :=
  fun _ ht => ⟨rfl, ht⟩

/-- A change of a cell that does not touch the kept matrix. -/
theorem touch (c : Closure K) {f : Cell K → Cell K} (hf : ∀ c, (f c).derived = c.derived) :
    Steady names (c.touch f : Eval K W Unit) :=
  fun _ ht => ⟨rfl, ht.modifyCell c.id hf⟩

theorem ite {c : Prop} [Decidable c] {m m' : Eval K W α} (hm : Steady names m)
    (hm' : Steady names m') : Steady names (if c then m else m') := by
  split
  · exact hm
  · exact hm'

variable {m : Eval K W α} {f : α → Eval K W β}

theorem bind (hm : Steady names m) (hf : ∀ a, m.outcome = .ok a → Steady names (f a)) :
    Steady names (m >>= f) := by
  -- Both runs pass through the outcome of `m`, after which `f` is steady.
  intro t ht
  obtain ⟨hresult, hkeep⟩ := hm t ht
  obtain ⟨-, hkeep₀⟩ := hm _ (Trace.faithful_empty names)
  rw [outcome, run_bind, run_bind]
  cases hrun : m.run t with
  | mk r t' =>
    rw [hrun] at hresult hkeep
    cases hrun₀ : m.run .empty with
    | mk r₀ t₀ =>
      rw [hrun₀] at hkeep₀
      have hr : r = r₀ := by simpa [outcome, hrun₀] using hresult
      subst hr
      cases r with
      | error e => exact ⟨rfl, hkeep⟩
      | ok a =>
        have ha := hf a (by simp [outcome, hrun₀])
        exact ⟨((ha t' hkeep).1).trans ((ha t₀ hkeep₀).1).symm, (ha t' hkeep).2⟩

/-- The outcome of a composite computation is made of the outcomes of its parts. -/
theorem outcome_bind (hm : Steady names m)
    (hf : ∀ a, m.outcome = .ok a → Steady names (f a)) :
    (m >>= f).outcome = m.outcome >>= fun a => (f a).outcome := by
  obtain ⟨-, hkeep₀⟩ := hm _ (Trace.faithful_empty names)
  rw [outcome, run_bind]
  cases hrun₀ : m.run .empty with
  | mk r₀ t₀ =>
    rw [hrun₀] at hkeep₀
    cases r₀ with
    | error e => simp [outcome, hrun₀, Bind.bind, Except.bind]
    | ok a =>
      have ha := hf a (by simp [outcome, hrun₀])
      simpa [outcome, hrun₀, Bind.bind, Except.bind] using (ha t₀ hkeep₀).1

theorem outcome_bind_eq_ok_iff (hm : Steady names m)
    (hf : ∀ a, m.outcome = .ok a → Steady names (f a)) {b : β} :
    (m >>= f).outcome = .ok b ↔ ∃ a, m.outcome = .ok a ∧ (f a).outcome = .ok b := by
  rw [hm.outcome_bind hf]
  cases m.outcome with
  | error e => simp [Bind.bind, Except.bind]
  | ok a => simp [Bind.bind, Except.bind]

theorem map (hm : Steady names m) (g : α → β) :
    Steady names (do return g (← m) : Eval K W β) :=
  hm.bind fun _ _ => pure _

theorem outcome_map (hm : Steady names m) (g : α → β) :
    (do return g (← m) : Eval K W β).outcome = m.outcome.map g := by
  rw [hm.outcome_bind fun _ _ => pure _]
  cases m.outcome <;> rfl

end Steady

end Eval

/-! ### Invariants of computations -/

/-- The computation keeps an invariant of the state, and its results have a property. -/
def Ensures {S : Type} (inv : S → Prop) (m : ExceptT Error (StateM S) α) (post : α → Prop) : Prop :=
  ∀ t, inv t → inv (m.run t).2 ∧ ∀ a, (m.run t).1 = .ok a → post a

namespace Ensures

variable {S : Type} {inv : S → Prop} {m : ExceptT Error (StateM S) α}
  {f : α → ExceptT Error (StateM S) β} {p : α → Prop} {q : β → Prop}

theorem pure {a : α} (h : p a) : Ensures inv (Pure.pure a) p := by
  intro t ht
  refine ⟨ht, fun b hb => ?_⟩
  cases hb
  exact h

theorem throw (e : Error) : Ensures inv (MonadExcept.throw e) p := by
  intro t ht
  refine ⟨ht, fun b hb => ?_⟩
  cases hb

theorem liftExcept (r : Except Error α) : Ensures inv (liftM r) fun a => r = .ok a :=
  fun _ ht => ⟨ht, fun _ ha => ha⟩

theorem bind (hm : Ensures inv m p) (hf : ∀ a, p a → Ensures inv (f a) q) :
    Ensures inv (m >>= f) q := by
  intro t ht
  obtain ⟨hkeep, hpost⟩ := hm t ht
  rw [Eval.run_bind]
  rcases hrun : m.run t with ⟨r, t'⟩
  rw [hrun] at hkeep hpost
  cases r with
  | error e =>
    refine ⟨hkeep, fun b hb => ?_⟩
    cases hb
  | ok a => exact hf a (hpost a rfl) t' hkeep

/-- What holds after a run that has a result. -/
theorem of_run (hm : Ensures inv m p) {t t' : S} {a : α} (h : m.run t = (.ok a, t')) (ht : inv t) :
    inv t' ∧ p a := by
  obtain ⟨hkeep, hpost⟩ := hm t ht
  rw [h] at hkeep hpost
  exact ⟨hkeep, hpost a rfl⟩

theorem ite {c : Prop} [Decidable c] {m' : ExceptT Error (StateM S) α} (hm : Ensures inv m p)
    (hm' : Ensures inv m' p) : Ensures inv (if c then m else m') p := by
  split
  · exact hm
  · exact hm'

/-- The property of the results may be weakened. -/
theorem mono {p' : α → Prop} (hm : Ensures inv m p) (h : ∀ a, p a → p' a) : Ensures inv m p' :=
  fun t ht => ⟨(hm t ht).1, fun a ha => h a ((hm t ht).2 a ha)⟩

/-- Nothing is asked of the state or of the results. -/
theorem trivial (m : ExceptT Error (StateM S) α) : Ensures (fun _ => True) m fun _ => True :=
  fun _ _ => ⟨True.intro, fun _ _ => True.intro⟩

end Ensures

/-- A steady computation keeps traces faithful and gives its outcome. -/
theorem Eval.Steady.ensures [Scalar K R W] {names : Naming K} {m : Eval K W α}
    (h : Steady names m) : Ensures (Trace.Faithful names) m fun a => m.outcome = .ok a :=
  fun t ht => ⟨(h t ht).2, fun _ ha => ((h t ht).1).symm.trans ha⟩

/-! ### Closures -/

namespace Closure

open Eval

variable [Scalar K R W] {names : Naming K}

/-- The result of applying the function of the closure, with its shape checked. -/
def image (c : Closure K) (x : Signal K) : Except Error (Signal K) := do
  let y ← c.forwardFn x
  if y.shape = c.output then .ok y
  else .error (.shapeMismatch "closure operator output" c.output y.shape)

theorem run_forward (c : Closure K) (x : Signal K) (t : Trace K W) :
    (c.forward x : Eval K W _).run t = (c.image x, t.modifyCell c.id fun cell =>
      { cell with forwardCalls := cell.forwardCalls + 1 }) := by
  unfold forward image
  rw [run_bind]
  show ((do
    let y ← c.forwardFn x
    if y.shape = c.output then return y
    else throw (.shapeMismatch "closure operator output" c.output y.shape) : Eval K W _).run _) = _
  rw [run_bind]
  cases hf : c.forwardFn x with
  | error e => rfl
  | ok y =>
    show ((if y.shape = c.output then pure y
      else throw (.shapeMismatch "closure operator output" c.output y.shape) : Eval K W _).run _) = _
    by_cases hshape : y.shape = c.output
    · simp only [hshape, if_true, bind, Except.bind]
      rfl
    · simp only [hshape, if_false, bind, Except.bind]
      rfl

theorem steady_forward (c : Closure K) (x : Signal K) : Steady names (c.forward x : Eval K W _) := by
  intro t ht
  rw [outcome, run_forward, run_forward]
  exact ⟨rfl, ht.modifyCell c.id fun _ => rfl⟩

@[simp] theorem outcome_forward (c : Closure K) (x : Signal K) :
    (c.forward x : Eval K W _).outcome = c.image x := by
  rw [outcome, run_forward]

theorem steady_columnsFrom (c : Closure K) (count j : Nat) :
    Steady names (c.columnsFrom count j : Eval K W _) := by
  induction count generalizing j with
  | zero => exact .pure _
  | succ count ih =>
    refine (Steady.liftExcept _).bind fun e _ => ?_
    exact (c.steady_forward e).bind fun y _ => (ih (j + 1)).bind fun _ _ => .pure _

theorem steady_probe (c : Closure K) : Steady names (c.probe : Eval K W _) := by
  unfold probe
  dsimp only
  split
  · exact (c.steady_columnsFrom _ _).bind fun _ _ => .pure _
  · exact .throw _

theorem run_derivedAdjoint (c : Closure K) (t : Trace K W) :
    (c.derivedAdjoint : Eval K W _).run t =
      match (t.cell c.id).derived with
      | some m => (.ok m, t)
      | none =>
        match (c.probe : Eval K W _).run t with
        | (.error e, t) => (.error e, t)
        | (.ok m, t) => (.ok m, (t.modifyCell c.id fun cell =>
            { cell with derived := some m, resolutions := cell.resolutions + 1 }).report
              (.adjointDerived c.input c.output)) := by
  unfold derivedAdjoint
  rw [run_bind]
  show ((match (t.cell c.id).derived with
    | some m => pure m
    | none => do
      let m ← c.probe
      c.touch fun cell => { cell with derived := some m, resolutions := cell.resolutions + 1 }
      OperatorSplitting.report (.adjointDerived c.input c.output)
      return m : Eval K W _).run t) = _
  cases (t.cell c.id).derived with
  | some m => rfl
  | none =>
    dsimp only
    rw [run_bind]
    rcases (c.probe : Eval K W _).run t with ⟨r, t'⟩
    cases r <;> rfl

/-- The adjoint is derived from the closure alone, whether it is kept or not. -/
theorem steady_derivedAdjoint {c : Closure K} (h : names c.id = c) :
    Steady names (c.derivedAdjoint : Eval K W _) ∧
      (c.derivedAdjoint : Eval K W _).outcome = (c.probe : Eval K W _).outcome := by
  have houtcome : (c.derivedAdjoint : Eval K W _).outcome = (c.probe : Eval K W _).outcome := by
    rw [outcome, run_derivedAdjoint, Trace.cell_empty]
    show (match (c.probe : Eval K W _).run .empty with
      | (.error e, t) => _
      | (.ok m, t) => _ : Except Error _ × Trace K W).1 = _
    rw [outcome]
    rcases (c.probe : Eval K W _).run .empty with ⟨r, t'⟩
    cases r <;> rfl
  refine ⟨fun t ht => ?_, houtcome⟩
  rw [houtcome, run_derivedAdjoint]
  cases hd : (t.cell c.id).derived with
  | some m =>
    have hprobe := ht c.id m hd
    rw [h] at hprobe
    exact ⟨hprobe.symm, ht⟩
  | none =>
    have hprobed : Steady names (c.probe : Eval K W _) := c.steady_probe
    obtain ⟨hresult, hkeep⟩ := hprobed t ht
    dsimp only
    rcases hrun : (c.probe : Eval K W _).run t with ⟨r, t'⟩
    rw [hrun] at hresult hkeep
    cases r with
    | error e => exact ⟨hresult, hkeep⟩
    | ok m =>
      have hprobe : ((names c.id).probe : Eval K W _).outcome = .ok m := by
        rw [h]
        exact hresult.symm
      refine ⟨hresult, (hkeep.keep c.id (f := fun cell =>
        { cell with derived := some m, resolutions := cell.resolutions + 1 })
        (fun _ => rfl) hprobe).report _⟩

theorem steady_adjoint {c : Closure K} (h : names c.id = c) (y : Signal K) :
    Steady names (c.adjoint y : Eval K W _) := by
  unfold adjoint
  cases c.adjointFn? with
  | some f =>
    dsimp only
    refine (Steady.touch c (f := fun cell => { cell with adjointCalls := cell.adjointCalls + 1 })
      fun _ => rfl).bind fun _ _ => (Steady.liftExcept _).bind fun x _ => ?_
    split
    · exact .pure _
    · exact .throw _
  | none =>
    refine (steady_derivedAdjoint h).1.bind fun m _ => ?_
    exact (Steady.liftExcept _).bind fun v _ => .liftExcept _

end Closure

/-! ### Operators -/

/-- A closure operator is the closure that its number stands for. -/
def Leaf.Named (names : Naming K) : Leaf K → Prop
  | .closure c => names c.id = c
  | _ => True

namespace Leaf

open Eval

variable [Scalar K R W] {names : Naming K}

theorem steady_forward (l : Leaf K) (x : Signal K) : Steady names (l.forward x : Eval K W _) := by
  cases l with
  | identity _ => exact .pure _
  | matrix _ => exact .liftExcept _
  | diagonal _ => exact .liftExcept _
  | difference _ => exact .liftExcept _
  | convolution _ => exact .liftExcept _
  | closure c => exact c.steady_forward x

theorem steady_adjoint {l : Leaf K} (h : l.Named names) (y : Signal K) :
    Steady names (l.adjoint y : Eval K W _) := by
  cases l with
  | identity _ => exact .pure _
  | matrix _ => exact .liftExcept _
  | diagonal _ => exact .liftExcept _
  | difference _ => exact .liftExcept _
  | convolution _ => exact .liftExcept _
  | closure c => exact Closure.steady_adjoint h y

end Leaf

namespace LinearOperator

open Eval

/-- All primitive operators of an expression have a property. -/
def AllLeaves (p : Leaf K → Prop) : LinearOperator K → Prop
  | .leaf l => p l
  | .sum a b | .difference a b | .composition a b => a.AllLeaves p ∧ b.AllLeaves p
  | .multiple _ a | .transpose a | .conjTranspose a | .conjugate a | .negation a => a.AllLeaves p

/-- All closures of an expression are the ones that their numbers stand for. -/
def Named (names : Naming K) (a : LinearOperator K) : Prop := a.AllLeaves (Leaf.Named names)

variable [Scalar K R W] {names : Naming K}

/-- What happened before does not change the value of an operator. -/
theorem steady_eval {a : LinearOperator K} (h : a.Named names) (d : Direction) (x : Signal K) :
    Steady names (a.eval d x : Eval K W _) := by
  induction a generalizing d x with
  | leaf l =>
    cases d with
    | forward => exact l.steady_forward x
    | adjoint => exact Leaf.steady_adjoint h x
  | sum a b iha ihb =>
    exact (iha h.1 d x).bind fun u _ => (ihb h.2 d x).bind fun v _ => .liftExcept _
  | difference a b iha ihb =>
    exact (iha h.1 d x).bind fun u _ => (ihb h.2 d x).bind fun v _ => .liftExcept _
  | multiple s a ih =>
    cases d with
    | forward => exact (ih h .forward x).map _
    | adjoint => exact (ih h .adjoint x).map _
  | composition outer inner iho ihi =>
    cases d with
    | forward => exact (ihi h.2 .forward x).bind fun u _ => iho h.1 .forward u
    | adjoint => exact (iho h.1 .adjoint x).bind fun u _ => ihi h.2 .adjoint u
  | transpose a ih => exact (ih h d.flip x.conj).map _
  | conjTranspose a ih => exact ih h d.flip x
  | conjugate a ih => exact (ih h d x.conj).map _
  | negation a ih => exact (ih h d x).map _

theorem steady_apply {a : LinearOperator K} (h : a.Named names) (x : Signal K) :
    Steady names (a.apply x : Eval K W _) := by
  unfold apply evalChecked
  split
  · exact steady_eval h .forward x
  · exact .throw _

theorem steady_adjoint {a : LinearOperator K} (h : a.Named names) (y : Signal K) :
    Steady names (a.adjoint y : Eval K W _) := by
  unfold adjoint
  split
  · exact steady_eval h .adjoint y
  · exact .throw _

end LinearOperator

end OperatorSplitting
