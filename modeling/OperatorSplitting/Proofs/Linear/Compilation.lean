import Mathlib
import OperatorSplitting.Proofs.Linear.Histories

/-!
# Deriving all adjoints at once

Compiling an expression visits its closures from left to right and derives every adjoint that is
still missing.  A visit does nothing to a closure that is settled; otherwise it probes the closure,
and either keeps the matrix in the cell of this closure or fails without a matrix
(`Closure.Visit`).  A sequence of visits therefore derives the adjoints of exactly the unsettled
closures up to the first one that fails (`Closure.DerivesAll`), also where the same closure is
visited again.  After a compilation that succeeds no call probes a closure of the expression: what
it adds to the calls of the function are the applications on its paths (`Eval.Applies`).
-/

namespace OperatorSplitting

open Eval LinearOperator

variable {K R W α β : Type} [Scalar K R W]

/-! ### Cells of other closures -/

/-- The computation leaves the cells of all other closures as they are. -/
def Eval.Owns (c : Closure K) (m : Eval K W α) : Prop :=
  ∀ t id, id ≠ c.id → (m.run t).2.cell id = t.cell id

namespace Eval.Owns

variable {c : Closure K} {m : Eval K W α} {f : α → Eval K W β}

theorem pure (a : α) : Owns c (Pure.pure a : Eval K W α) := fun _ _ _ => rfl

theorem throw (e : Error) : Owns c (MonadExcept.throw e : Eval K W α) := fun _ _ _ => rfl

theorem liftExcept (r : Except Error α) : Owns c (liftM r : Eval K W α) := fun _ _ _ => rfl

theorem bind (hm : Owns c m) (hf : ∀ a, Owns c (f a)) : Owns c (m >>= f) := by
  intro t id hid
  have hfirst := hm t id hid
  rw [run_bind]
  rcases hrun : m.run t with ⟨r, t₁⟩
  rw [hrun] at hfirst
  cases r with
  | error e => exact hfirst
  | ok a => exact (hf a t₁ id hid).trans hfirst

end Eval.Owns

namespace Closure

variable {c : Closure K} {t t' : Trace K W} {e : Error}

theorem owns_forward (c : Closure K) (x : Signal K) : Owns c (c.forward x : Eval K W _) := by
  intro t id hid
  rw [run_forward]
  dsimp only
  rw [Trace.cell_modifyCell, if_neg hid]

theorem owns_columnsFrom (c : Closure K) (count j : ℕ) :
    Owns c (c.columnsFrom count j : Eval K W _) := by
  induction count generalizing j with
  | zero => exact .pure _
  | succ count ih =>
    exact (Owns.liftExcept _).bind fun e => (c.owns_forward e).bind fun y =>
      (ih (j + 1)).bind fun rest => .pure _

theorem owns_probe (c : Closure K) : Owns c (c.probe : Eval K W _) := by
  unfold probe
  dsimp only
  split
  · exact (c.owns_columnsFrom _ _).bind fun _ => .pure _
  · exact .throw _

/-! ### Which adjoints can be derived -/

/-- Memory holds the matrix of the adjoint and a basis vector, and all basis vectors have images of
the declared shape. -/
structure Derivable (c : Closure K) : Prop where
  matrix : Storable [c.input.size, c.output.size]
  basis : Storable [c.input.size]
  images : ∀ j < c.input.size, ∃ e u,
    Signal.ofEntries c.input (basisEntries c.input.size j) = .ok e ∧
      c.forwardFn e = .ok u ∧ u.shape = c.output

theorem exists_columns_iff {count j : ℕ} : (∃ cols, c.columns count j = .ok cols) ↔
    ∀ k < count, ∃ e u, Signal.ofEntries c.input (basisEntries c.input.size (j + k)) = .ok e ∧
      c.forwardFn e = .ok u ∧ u.shape = c.output := by
  induction count generalizing j with
  | zero => exact ⟨fun _ k hk => absurd hk k.not_lt_zero, fun _ => ⟨[], rfl⟩⟩
  | succ count ih =>
    simp only [columns, Except.bind_eq_ok_iff, Except.ok.injEq, image_eq_ok_iff]
    constructor
    · rintro ⟨_, e, he, u, hu, rest, hrest, -⟩ k hk
      cases k with
      | zero => exact ⟨e, u, he, hu⟩
      | succ k =>
        obtain ⟨e, u, he, hu⟩ := ih.mp ⟨rest, hrest⟩ k (Nat.lt_of_succ_lt_succ hk)
        rw [Nat.add_assoc, Nat.add_comm 1] at he
        exact ⟨e, u, he, hu⟩
    · intro h
      obtain ⟨e, u, he, hu⟩ := h 0 count.succ_pos
      obtain ⟨rest, hrest⟩ : ∃ rest, c.columns count (j + 1) = .ok rest := by
        refine ih.mpr fun k hk => ?_
        rw [Nat.add_assoc, Nat.add_comm 1]
        exact h (k + 1) (Nat.succ_lt_succ hk)
      exact ⟨_, e, he, u, hu, rest, hrest, rfl⟩

/-- Probing succeeds for the closures whose adjoints can be derived. -/
theorem exists_probe_iff : (∃ m, (c.probe : Eval K W _).outcome = .ok m) ↔ c.Derivable := by
  have hcolumns : (∃ cols, c.columns c.input.size 0 = .ok cols) ↔ _ := exists_columns_iff
  simp only [Nat.zero_add] at hcolumns
  constructor
  · rintro ⟨m, hm⟩
    obtain ⟨hmatrix, hbasis, cols, hcols, -⟩ := outcome_probe_eq_ok_iff.mp hm
    exact ⟨hmatrix, hbasis, hcolumns.mp ⟨cols, hcols⟩⟩
  · intro h
    obtain ⟨cols, hcols⟩ := hcolumns.mpr h.images
    exact ⟨_, outcome_probe_eq_ok_iff.mpr ⟨h.matrix, h.basis, cols, hcols, rfl⟩⟩

/-! ### A visit -/

theorem adjointState_eq_unresolved_iff :
    c.adjointState t = .unresolved ↔ c.adjointFn? = none ∧ (t.cell c.id).derived = none := by
  unfold adjointState
  cases c.adjointFn? <;> cases (t.cell c.id).derived <;> simp

/-- What a visit does to the cells.  It leaves a settled closure alone.  An unresolved closure is
probed: its function is applied to all basis vectors and the matrix is kept, or probing fails and
only the calls are counted. -/
inductive Visit (c : Closure K) (t t' : Trace K W) : Except Error Unit → Prop
  | settled : c.adjointState t ≠ .unresolved → t' = t → Visit c t t' (.ok ())
  | derived {m : DenseMatrix K} : c.adjointState t = .unresolved →
      (c.probe : Eval K W _).outcome = .ok m →
      t'.cell c.id = { t.cell c.id with
        derived := some m
        resolutions := (t.cell c.id).resolutions + 1
        forwardCalls := (t.cell c.id).forwardCalls + c.input.size } →
      (∀ id, id ≠ c.id → t'.cell id = t.cell id) → Visit c t t' (.ok ())
  | failed {e : Error} {n : ℕ} : c.adjointState t = .unresolved →
      (c.probe : Eval K W _).outcome = .error e →
      t'.cell c.id = { t.cell c.id with forwardCalls := (t.cell c.id).forwardCalls + n } →
      (∀ id, id ≠ c.id → t'.cell id = t.cell id) → Visit c t t' (.error e)

theorem run_resolve_of_settled (h : c.adjointState t ≠ .unresolved) :
    (c.resolve : Eval K W Unit).run t = (.ok (), t) := by
  rw [ne_eq, adjointState_eq_unresolved_iff] at h
  unfold resolve
  cases hgiven : c.adjointFn? with
  | some f => rfl
  | none =>
    obtain ⟨m, hm⟩ := Option.ne_none_iff_exists'.mp fun hnone => h ⟨hgiven, hnone⟩
    show (do let _ ← c.derivedAdjoint : Eval K W Unit).run t = _
    rw [run_bind, run_derivedAdjoint, hm]
    rfl

theorem run_resolve_of_unresolved (h : c.adjointState t = .unresolved) :
    (c.resolve : Eval K W Unit).run t =
      match (c.probe : Eval K W _).run t with
      | (.error e, t₁) => (.error e, t₁)
      | (.ok m, t₁) => (.ok (), (t₁.modifyCell c.id fun cell =>
          { cell with derived := some m, resolutions := cell.resolutions + 1 }).report
            (.adjointDerived c.input c.output)) := by
  obtain ⟨hgiven, hkept⟩ := adjointState_eq_unresolved_iff.mp h
  unfold resolve
  rw [hgiven]
  show (do let _ ← c.derivedAdjoint : Eval K W Unit).run t = _
  rw [run_bind, run_derivedAdjoint, hkept]
  dsimp only
  rcases (c.probe : Eval K W _).run t with ⟨r, t₁⟩
  cases r <;> rfl

/-- What one visit does. -/
theorem visit_resolve {r : Except Error Unit} (h : (c.resolve : Eval K W Unit).run t = (r, t')) :
    Visit c t t' r := by
  by_cases hstate : c.adjointState t = .unresolved
  · obtain ⟨hresult, n, hcalls, hcount⟩ := c.counted_probe t
    have hothers := c.owns_probe t
    rw [run_resolve_of_unresolved hstate] at h
    rcases hrun : (c.probe : Eval K W _).run t with ⟨r₁, t₁⟩
    rw [hrun] at h hresult hcalls hothers
    cases r₁ with
    | error e =>
      cases h
      exact .failed hstate hresult.symm hcalls hothers
    | ok m =>
      cases h
      refine .derived hstate hresult.symm ?_ fun id hid => ?_
      · rw [Trace.cell_report, Trace.cell_modifyCell, if_pos rfl, hcalls, hcount m hresult.symm]
      · rw [Trace.cell_report, Trace.cell_modifyCell, if_neg hid]
        exact hothers id hid
  · rw [run_resolve_of_settled hstate] at h
    cases h
    exact .settled hstate rfl

/-! ### Visits from left to right -/

/-- Visit closures one after the other. -/
def resolveAll : List (Closure K) → Eval K W Unit
  | [] => return ()
  | c :: cs => do
    c.resolve
    resolveAll cs

theorem resolveAll_append (cs ds : List (Closure K)) :
    (resolveAll (cs ++ ds) : Eval K W Unit) = (do
      resolveAll cs
      resolveAll ds) := by
  induction cs with
  | nil => rfl
  | cons c cs ih =>
    rw [List.cons_append, resolveAll, ih, resolveAll, bind_assoc]

/-- Settled closures may be visited again: nothing happens. -/
theorem run_resolveAll_of_settled {cs : List (Closure K)}
    (h : ∀ c ∈ cs, c.adjointState t ≠ .unresolved) :
    (resolveAll cs : Eval K W Unit).run t = (.ok (), t) := by
  induction cs with
  | nil => rfl
  | cons c cs ih =>
    obtain ⟨hc, hcs⟩ := List.forall_mem_cons.mp h
    rw [resolveAll, run_bind, run_resolve_of_settled hc]
    exact ih hcs

/-- Visits fail at the first closure whose visit fails. -/
theorem exists_visit_of_run_resolveAll {cs : List (Closure K)}
    (h : (resolveAll cs : Eval K W Unit).run t = (.error e, t')) :
    ∃ before c after t₁, cs = before ++ c :: after ∧
      (resolveAll before : Eval K W Unit).run t = (.ok (), t₁) ∧ Visit c t₁ t' (.error e) := by
  induction cs generalizing t with
  | nil => cases h
  | cons c cs ih =>
    rw [resolveAll, run_bind] at h
    rcases hrun : (c.resolve : Eval K W Unit).run t with ⟨r, t₁⟩
    rw [hrun] at h
    cases r with
    | error e' =>
      cases h
      exact ⟨[], c, cs, t, rfl, rfl, visit_resolve hrun⟩
    | ok u =>
      obtain ⟨before, b, after, t₂, rfl, hbefore, hvisit⟩ := ih h
      refine ⟨c :: before, b, after, t₂, rfl, ?_, hvisit⟩
      rw [resolveAll, run_bind, hrun]
      exact hbefore

variable {names : Naming K}

/-- Between two traces the adjoints of exactly the unresolved closures of a list were derived, each
by applying its function to every basis vector once, and no other cell was touched. -/
structure DerivesAll (names : Naming K) (cs : List (Closure K)) (t t' : Trace K W) : Prop where
  derived : ∀ c ∈ cs, c.adjointState t = .unresolved →
    ∃ m, (c.probe : Eval K W _).outcome = .ok m ∧ t'.cell c.id = { t.cell c.id with
      derived := some m
      resolutions := (t.cell c.id).resolutions + 1
      forwardCalls := (t.cell c.id).forwardCalls + c.input.size }
  kept : ∀ d, names d.id = d → (d ∈ cs → d.adjointState t ≠ .unresolved) →
    t'.cell d.id = t.cell d.id

/-- The same number, the same closure. -/
theorem eq_of_id_eq {b : Closure K} (hb : names b.id = b) (hc : names c.id = c) (h : b.id = c.id) :
    b = c := by
  rw [← hb, ← hc, h]

theorem adjointState_congr (h : t'.cell c.id = t.cell c.id) :
    c.adjointState t' = c.adjointState t := adjointState_eq (congrArg Cell.derived h)

/-- One visit before the others.  A closure that was just resolved is settled where it is visited
again. -/
theorem Visit.derivesAll {cs : List (Closure K)} {t₁ : Trace K W}
    (hvisit : Visit c t t₁ (.ok ())) (hrest : DerivesAll names cs t₁ t') (hc : names c.id = c)
    (hcs : ∀ b ∈ cs, names b.id = b) : DerivesAll names (c :: cs) t t' := by
  cases hvisit with
  | settled hstate hsame =>
    subst hsame
    refine ⟨fun b hb hbstate => ?_, fun d hd hkept => ?_⟩
    · obtain rfl | hb := List.mem_cons.mp hb
      · exact absurd hbstate hstate
      · exact hrest.derived b hb hbstate
    · exact hrest.kept d hd fun hmem => hkept (List.mem_cons_of_mem _ hmem)
  | derived hstate hprobe hcell hothers =>
    have hsettled : c.adjointState t₁ ≠ .unresolved := by
      rw [ne_eq, adjointState_eq_unresolved_iff, hcell]
      exact fun h => nomatch h.2
    refine ⟨fun b hb hbstate => ?_, fun d hd hkept => ?_⟩
    · by_cases hid : b.id = c.id
      · have hbc : b = c := by
          obtain rfl | hb := List.mem_cons.mp hb
          · rfl
          · exact eq_of_id_eq (hcs b hb) hc hid
        subst hbc
        exact ⟨_, hprobe, (hrest.kept b hc fun _ => hsettled).trans hcell⟩
      · have hb : b ∈ cs := (List.mem_cons.mp hb).resolve_left fun h => hid (congrArg Closure.id h)
        have hsame := hothers b.id hid
        have hderived := hrest.derived b hb ((adjointState_congr hsame).trans hbstate)
        rwa [hsame] at hderived
    · have hid : d.id ≠ c.id := by
        intro hid
        obtain rfl := eq_of_id_eq hd hc hid
        exact hkept List.mem_cons_self hstate
      have hsame := hothers d.id hid
      refine (hrest.kept d hd fun hmem => ?_).trans hsame
      rw [adjointState_congr hsame]
      exact hkept (List.mem_cons_of_mem _ hmem)

/-- What visits do that all succeed. -/
theorem derivesAll_of_run_resolveAll {cs : List (Closure K)} (hcs : ∀ c ∈ cs, names c.id = c)
    (h : (resolveAll cs : Eval K W Unit).run t = (.ok (), t')) : DerivesAll names cs t t' := by
  induction cs generalizing t with
  | nil =>
    cases h
    exact ⟨fun c hc => absurd hc List.not_mem_nil, fun d _ _ => rfl⟩
  | cons c cs ih =>
    obtain ⟨hc, hcs⟩ := List.forall_mem_cons.mp hcs
    rw [resolveAll, run_bind_eq_ok_iff] at h
    obtain ⟨u, t₁, hfirst, hrest⟩ := h
    exact (visit_resolve hfirst).derivesAll (ih hcs hrest) hc hcs

theorem DerivesAll.settled {cs : List (Closure K)} (h : DerivesAll names cs t t') (hc : c ∈ cs)
    (hname : names c.id = c) : c.adjointState t' ≠ .unresolved := by
  by_cases hstate : c.adjointState t = .unresolved
  · obtain ⟨m, -, hcell⟩ := h.derived c hc hstate
    rw [ne_eq, adjointState_eq_unresolved_iff, hcell]
    exact fun h => nomatch h.2
  · rwa [adjointState_congr (h.kept c hname fun _ => hstate)]

/-- What is left behind where a visit of the closure `c` fails after visits that succeeded: the lazy
closures before it are resolved, and all others keep their states. -/
structure StoppedAt (names : Naming K) (before : List (Closure K)) (c : Closure K) (e : Error)
    (t t' : Trace K W) : Prop where
  unresolved : c.adjointState t = .unresolved
  fails : (c.probe : Eval K W _).outcome = .error e
  notBefore : c ∉ before
  resolved : ∀ b ∈ before, b.adjointFn? = none → b.adjointState t' = .resolved
  kept : ∀ d, names d.id = d → d ∉ before → d.adjointState t' = d.adjointState t

theorem adjointState_eq_resolved (hgiven : c.adjointFn? = none)
    (h : c.adjointState t ≠ .unresolved) : c.adjointState t = .resolved := by
  unfold adjointState at h ⊢
  rw [hgiven] at h ⊢
  cases hd : (t.cell c.id).derived with
  | none => simp [hd] at h
  | some m => simp

theorem DerivesAll.stoppedAt {before : List (Closure K)} {t₁ : Trace K W}
    (hbefore : DerivesAll names before t t₁) (hvisit : Visit c t₁ t' (.error e))
    (hnames : ∀ b ∈ before, names b.id = b) (hc : names c.id = c) :
    StoppedAt names before c e t t' := by
  cases hvisit with
  | failed hstate hprobe hcell hothers =>
    have hnotBefore : c ∉ before := fun hmem => hbefore.settled hmem hc hstate
    -- The failed visit leaves all states as they were, that of `c` included.
    have hstates (d : Closure K) (hd : names d.id = d) : d.adjointState t' = d.adjointState t₁ := by
      by_cases hid : d.id = c.id
      · obtain rfl := eq_of_id_eq hd hc hid
        exact adjointState_eq (by rw [hcell])
      · exact adjointState_congr (hothers d.id hid)
    have hkept (d : Closure K) (hd : names d.id = d) (hmem : d ∉ before) :
        d.adjointState t₁ = d.adjointState t :=
      adjointState_congr (hbefore.kept d hd fun h => absurd h hmem)
    exact {
      unresolved := (hkept c hc hnotBefore).symm.trans hstate
      fails := hprobe
      notBefore := hnotBefore
      resolved := fun b hb hgiven => (hstates b (hnames b hb)).trans
        (adjointState_eq_resolved hgiven (hbefore.settled hb (hnames b hb)))
      kept := fun d hd hmem => (hstates d hd).trans (hkept d hd hmem) }

end Closure

/-! ### The closures of an expression -/

namespace LinearOperator

/-- The closures of an expression from left to right, one for each leaf. -/
def closures : LinearOperator K → List (Closure K)
  | .leaf (.closure c) => [c]
  | .leaf _ => []
  | .sum a b | .difference a b | .composition a b => a.closures ++ b.closures
  | .multiple _ a | .transpose a | .conjTranspose a | .conjugate a | .negation a => a.closures

variable {names : Naming K} {a : LinearOperator K} {t : Trace K W}

theorem compile_eq_resolveAll (a : LinearOperator K) :
    (a.compile : Eval K W Unit) = Closure.resolveAll a.closures := by
  have hparts {a b : LinearOperator K}
      (ha : (a.compile : Eval K W Unit) = Closure.resolveAll a.closures)
      (hb : (b.compile : Eval K W Unit) = Closure.resolveAll b.closures) :
      (do
        a.compile
        b.compile : Eval K W Unit) = Closure.resolveAll (a.closures ++ b.closures) := by
    rw [ha, hb, Closure.resolveAll_append]
  induction a with
  | leaf l =>
    cases l with
    | closure c => exact (bind_pure_unit).symm
    | _ => rfl
  | sum a b iha ihb | difference a b iha ihb | composition a b iha ihb => exact hparts iha ihb
  | multiple s a ih | transpose a ih | conjTranspose a ih | conjugate a ih | negation a ih =>
    exact ih

theorem Named.of_mem_closures (h : a.Named names) : ∀ c ∈ a.closures, names c.id = c := by
  induction a with
  | leaf l =>
    cases l with
    | closure c => exact List.forall_mem_singleton.mpr h
    | _ => exact List.forall_mem_nil _
  | sum a b iha ihb | difference a b iha ihb | composition a b iha ihb =>
    exact List.forall_mem_append.mpr ⟨iha h.1, ihb h.2⟩
  | multiple s a ih | transpose a ih | conjTranspose a ih | conjugate a ih | negation a ih =>
    exact ih h

/-- An expression is unresolved if one of its closures is. -/
theorem adjointState_eq_unresolved_iff :
    a.adjointState t = .unresolved ↔ ∃ c ∈ a.closures, c.adjointState t = .unresolved := by
  have hmerge (p q : AdjointState) :
      p.merge q = .unresolved ↔ p = .unresolved ∨ q = .unresolved := by
    cases p <;> cases q <;> decide
  have hparts (a b : LinearOperator K) (ha : a.adjointState t = .unresolved ↔
        ∃ c ∈ a.closures, c.adjointState t = .unresolved)
      (hb : b.adjointState t = .unresolved ↔ ∃ c ∈ b.closures, c.adjointState t = .unresolved) :
      (a.adjointState t).merge (b.adjointState t) = .unresolved ↔
        ∃ c ∈ a.closures ++ b.closures, c.adjointState t = .unresolved := by
    rw [hmerge, ha, hb]
    simp only [List.mem_append, or_and_right, exists_or]
  induction a with
  | leaf l =>
    cases l with
    | closure c => simp [adjointState, closures, Leaf.adjointState]
    | _ => simp [adjointState, closures, Leaf.adjointState]
  | sum a b iha ihb | difference a b iha ihb | composition a b iha ihb => exact hparts a b iha ihb
  | multiple s a ih | transpose a ih | conjTranspose a ih | conjugate a ih | negation a ih =>
    exact ih

end LinearOperator

/-! ### Calls after the adjoints are there -/

/-- Between two traces the function of a closure was applied some times, and its adjoint was not
derived. -/
structure Closure.AppliedBetween (c : Closure K) (n : ℕ) (t t' : Trace K W) : Prop where
  derived : (t'.cell c.id).derived = (t.cell c.id).derived
  resolutions : (t'.cell c.id).resolutions = (t.cell c.id).resolutions
  forwardCalls : (t'.cell c.id).forwardCalls = (t.cell c.id).forwardCalls + n

/-- Where the closure is settled, the computation applies its function at most the given number of
times, and exactly so often if it has a result. -/
def Eval.Applies (c : Closure K) (uses : ℕ) (m : Eval K W α) : Prop :=
  ∀ t, c.adjointState t ≠ .unresolved → ∃ n ≤ uses, c.AppliedBetween n t (m.run t).2 ∧
    ∀ a, (m.run t).1 = .ok a → n = uses

namespace Eval.Applies

variable {c : Closure K} {uses uses' : ℕ} {m : Eval K W α} {f : α → Eval K W β}

theorem pure (a : α) : Applies c 0 (Pure.pure a : Eval K W α) :=
  fun _ _ => ⟨0, le_rfl, ⟨rfl, rfl, rfl⟩, fun _ _ => rfl⟩

theorem throw (e : Error) : Applies c uses (MonadExcept.throw e : Eval K W α) :=
  fun _ _ => ⟨0, uses.zero_le, ⟨rfl, rfl, rfl⟩, fun _ h => nomatch h⟩

theorem liftExcept (r : Except Error α) : Applies c 0 (liftM r : Eval K W α) :=
  fun _ _ => ⟨0, le_rfl, ⟨rfl, rfl, rfl⟩, fun _ _ => rfl⟩

/-- The applications of two computations are added. -/
theorem bind (hm : Applies c uses m) (hf : ∀ a, Applies c uses' (f a)) :
    Applies c (uses + uses') (m >>= f) := by
  intro t hsettled
  obtain ⟨n, hn, hfirst, hresult⟩ := hm t hsettled
  rw [run_bind]
  rcases hrun : m.run t with ⟨r, t₁⟩
  rw [hrun] at hfirst hresult
  cases r with
  | error e => exact ⟨n, hn.trans (Nat.le_add_right _ _), hfirst, fun _ h => nomatch h⟩
  | ok a =>
    have hsettled₁ : c.adjointState t₁ ≠ .unresolved := by
      rwa [Closure.adjointState_eq hfirst.derived]
    obtain ⟨n', hn', hsecond, hresult'⟩ := hf a t₁ hsettled₁
    refine ⟨n + n', Nat.add_le_add hn hn', ?_, fun b hb => ?_⟩
    · exact {
        derived := hsecond.derived.trans hfirst.derived
        resolutions := hsecond.resolutions.trans hfirst.resolutions
        forwardCalls := by rw [hsecond.forwardCalls, hfirst.forwardCalls, Nat.add_assoc] }
    · rw [hresult a rfl, hresult' b hb]

theorem map (hm : Applies c uses m) (g : α → β) :
    Applies c uses (do return g (← m) : Eval K W β) :=
  hm.bind fun a => pure (g a)

/-- A computation that has nothing to do with the closure. -/
theorem of_works (hm : Works c 0 False m) : Applies c 0 m := by
  intro t _
  obtain ⟨hd, hr, hle, hbound⟩ | ⟨hasked, -⟩ := hm t
  · refine ⟨0, le_rfl, ⟨hd, hr, ?_⟩, fun _ _ => rfl⟩
    exact le_antisymm (hbound id) hle
  · exact hasked.elim

end Eval.Applies

namespace Closure

variable {c : Closure K}

theorem applies_forward (c : Closure K) (x : Signal K) :
    Applies c 1 (c.forward x : Eval K W _) := by
  intro t _
  rw [run_forward]
  dsimp only
  refine ⟨1, le_rfl, ⟨?_, ?_, ?_⟩, fun _ _ => rfl⟩ <;> rw [Trace.cell_modifyCell, if_pos rfl]

/-- The adjoint of a settled closure is the given one, or uses the matrix that is kept. -/
theorem applies_adjoint (c : Closure K) (y : Signal K) :
    Applies c 0 (c.adjoint y : Eval K W _) := by
  cases hgiven : c.adjointFn? with
  | some f => exact .of_works ((works_adjoint c y).mono le_rfl fun h => by simp [hgiven] at h)
  | none =>
    have hkept : Applies c 0 (c.derivedAdjoint : Eval K W _) := by
      intro t hsettled
      rw [ne_eq, adjointState_eq_unresolved_iff, not_and] at hsettled
      obtain ⟨m, hm⟩ := Option.ne_none_iff_exists'.mp (hsettled hgiven)
      rw [run_derivedAdjoint, hm]
      exact ⟨0, le_rfl, ⟨rfl, rfl, rfl⟩, fun _ _ => rfl⟩
    unfold adjoint
    rw [hgiven]
    exact hkept.bind fun m => (Applies.liftExcept _).bind fun v => .liftExcept _

variable {names : Naming K}

theorem applies_resolveAll {cs : List (Closure K)} (hc : names c.id = c)
    (hcs : ∀ b ∈ cs, names b.id = b) : Applies c 0 (resolveAll cs : Eval K W Unit) := by
  have hresolve {b : Closure K} (hb : names b.id = b) :
      Applies c 0 (b.resolve : Eval K W Unit) := by
    by_cases hid : b.id = c.id
    · obtain rfl := eq_of_id_eq hb hc hid
      intro t hsettled
      rw [run_resolve_of_settled hsettled]
      exact ⟨0, le_rfl, ⟨rfl, rfl, rfl⟩, fun _ _ => rfl⟩
    · unfold resolve
      split
      · exact .map (.of_works (works_derivedAdjoint_of_ne hid)) _
      · exact .pure _
  induction cs with
  | nil => exact .pure _
  | cons b cs ih =>
    obtain ⟨hb, hcs⟩ := List.forall_mem_cons.mp hcs
    exact (hresolve hb).bind fun _ => ih hcs

end Closure

namespace LinearOperator

variable {names : Naming K} {c : Closure K}

theorem applies_leaf {l : Leaf K} (hc : names c.id = c) (hl : l.Named names) (d : Direction)
    (x : Signal K) :
    Applies c ((leaf l).applications c.id d) ((leaf l).eval d x : Eval K W _) := by
  cases l with
  | closure c' =>
    by_cases h : c'.id = c.id
    · have hcrossings : (leaf (.closure c')).crossings c.id = [0] := by rw [crossings, if_pos h]
      obtain rfl := Closure.eq_of_id_eq hl hc h
      rw [applications, hcrossings]
      cases d with
      | forward => exact Closure.applies_forward _ x
      | adjoint => exact Closure.applies_adjoint _ x
    · have hcrossings : (leaf (.closure c')).crossings c.id = [] := by rw [crossings, if_neg h]
      rw [applications, hcrossings]
      cases d with
      | forward => exact .of_works (Closure.works_forward_of_ne h x)
      | adjoint => exact .of_works (Closure.works_adjoint_of_ne h x)
  | identity _ => cases d <;> exact .pure _
  | matrix _ => cases d <;> exact .liftExcept _
  | diagonal _ => cases d <;> exact .liftExcept _
  | difference _ => cases d <;> exact .liftExcept _
  | convolution _ => cases d <;> exact .liftExcept _

/-- A computation of both parts of an expression. -/
theorem applies_parts {a b e : LinearOperator K} {d : Direction} {m : Eval K W α}
    {f : α → Eval K W β}
    (hcrossings : (e.crossings c.id).Perm (a.crossings c.id ++ b.crossings c.id))
    (hm : Applies c (a.applications c.id d) m) (hf : ∀ u, Applies c (b.applications c.id d) (f u)) :
    Applies c (e.applications c.id d) (m >>= f) := by
  rw [applications, hcrossings.countP_eq, List.countP_append]
  exact hm.bind hf

/-- Below a transpose or an adjoint the directions are exchanged. -/
theorem applications_crossing {a e : LinearOperator K} {id : ℕ}
    (hcrossings : e.crossings id = (a.crossings id).map (· + 1)) (d : Direction) :
    e.applications id d = a.applications id d.flip := by
  rw [applications, applications, hcrossings, List.countP_map]
  rfl

/-- Where a closure is settled, evaluation applies its function once for each path that ends in it.
-/
theorem applies_eval {a : LinearOperator K} (hc : names c.id = c) (ha : a.Named names)
    (d : Direction) (x : Signal K) :
    Applies c (a.applications c.id d) (a.eval d x : Eval K W _) := by
  induction a generalizing d x with
  | leaf l => exact applies_leaf hc ha d x
  | sum a b iha ihb =>
    exact applies_parts .rfl (iha ha.1 d x) fun u => (ihb ha.2 d x).bind fun v => .liftExcept _
  | difference a b iha ihb =>
    exact applies_parts .rfl (iha ha.1 d x) fun u => (ihb ha.2 d x).bind fun v => .liftExcept _
  | multiple s a ih =>
    cases d with
    | forward => exact (ih ha .forward x).map _
    | adjoint => exact (ih ha .adjoint x).map _
  | composition outer inner iho ihi =>
    cases d with
    | forward =>
      exact applies_parts List.perm_append_comm (ihi ha.2 .forward x) fun u => iho ha.1 .forward u
    | adjoint => exact applies_parts .rfl (iho ha.1 .adjoint x) fun u => ihi ha.2 .adjoint u
  | transpose a ih =>
    rw [applications_crossing (a := a) rfl d]
    exact (ih ha d.flip x.conj).map _
  | conjTranspose a ih =>
    rw [applications_crossing (a := a) rfl d]
    exact ih ha d.flip x
  | conjugate a ih => exact (ih ha d x.conj).map _
  | negation a ih => exact (ih ha d x).map _

theorem applies_apply {a : LinearOperator K} (hc : names c.id = c) (ha : a.Named names)
    (x : Signal K) : Applies c (a.applications c.id .forward) (a.apply x : Eval K W _) := by
  unfold apply evalChecked
  split
  · exact applies_eval hc ha .forward x
  · exact .throw _

theorem applies_adjoint {a : LinearOperator K} (hc : names c.id = c) (ha : a.Named names)
    (y : Signal K) : Applies c (a.applications c.id .adjoint) (a.adjoint y : Eval K W _) := by
  unfold adjoint
  split
  · exact applies_eval hc ha .adjoint y
  · exact .throw _

end LinearOperator

/-- Where a closure is settled, a call applies its function on the paths that do not need the
adjoint and nowhere else. -/
theorem Call.applies {names : Naming K} {c : Closure K} {call : Call K} (hc : names c.id = c)
    (h : call.Named names) : Applies c (call.applications c.id) (call.run : Eval K W _) := by
  cases call with
  | apply a x =>
    rw [applications, ← applications_forward]
    exact (applies_apply hc h x).map some
  | adjoint a y =>
    rw [applications, ← applications_adjoint]
    exact (applies_adjoint hc h y).map some
  | gram a x =>
    rw [applications, ← applications_forward_add_adjoint]
    have hgram : Applies c _ (a.gram x : Eval K W _) :=
      (applies_apply hc h x).bind fun u => applies_adjoint hc h u
    exact hgram.map some
  | compile a =>
    have hcompile : Applies c 0 (a.compile : Eval K W Unit) := by
      rw [compile_eq_resolveAll]
      exact Closure.applies_resolveAll hc (Named.of_mem_closures h)
    exact hcompile.map fun _ => none
  | leafAdjoint l y =>
    have hleaf := (applies_leaf (W := W) hc h .adjoint y).map some
    rw [applications_leaf_adjoint] at hleaf
    exact hleaf

/-- A settled closure stays settled, whatever is called. -/
theorem Closure.settled_after {names : Naming K} {c : Closure K} {t : Trace K W}
    {calls : List (Call K)} (hc : names c.id = c) (hcalls : ∀ call ∈ calls, call.Named names)
    (h : c.adjointState t ≠ .unresolved) : c.adjointState (t.after calls) ≠ .unresolved := by
  refine Trace.after_induction (p := fun t => c.adjointState t ≠ .unresolved) h ?_
  intro call hcall t hsettled
  obtain ⟨n, -, happlied, -⟩ := Call.applies hc (hcalls call hcall) t hsettled
  rwa [adjointState_eq happlied.derived]

/-! ### Compilation -/

namespace LinearOperator

/-- What a compilation that succeeds leaves behind, also after any later calls.  A call then applies
the function of a closure once for each path on which it does not need the adjoint; it is cut short
only if it fails. -/
structure Compiled (names : Naming K) (a : LinearOperator K) (t t' : Trace K W) : Prop where
  derives : Closure.DerivesAll names a.closures t t'
  state : ∀ calls : List (Call K), (∀ call ∈ calls, call.Named names) →
    a.adjointState (t'.after calls) ≠ .unresolved
  again : ∀ calls : List (Call K), (∀ call ∈ calls, call.Named names) →
    (a.compile : Eval K W Unit).run (t'.after calls) = (.ok (), t'.after calls)
  later : ∀ calls : List (Call K), (∀ call ∈ calls, call.Named names) →
    ∀ call : Call K, call.Named names → ∀ result t'',
      call.run.run (t'.after calls) = (result, t'') → ∀ c ∈ a.closures,
        ∃ n ≤ call.applications c.id, c.AppliedBetween n (t'.after calls) t'' ∧
          ∀ x, result = .ok x → n = call.applications c.id

variable {names : Naming K} {a : LinearOperator K} {t t' : Trace K W}

theorem compiled_of_derivesAll (ha : a.Named names)
    (h : Closure.DerivesAll names a.closures t t') : Compiled names a t t' := by
  have hsettled (calls : List (Call K)) (hcalls : ∀ call ∈ calls, call.Named names) :
      ∀ c ∈ a.closures, c.adjointState (t'.after calls) ≠ .unresolved := fun c hc =>
    Closure.settled_after (ha.of_mem_closures c hc) hcalls (h.settled hc (ha.of_mem_closures c hc))
  refine ⟨h, fun calls hcalls hstate => ?_, fun calls hcalls => ?_,
    fun calls hcalls call hcall result t'' hrun c hc => ?_⟩
  · obtain ⟨c, hc, hcstate⟩ := adjointState_eq_unresolved_iff.mp hstate
    exact hsettled calls hcalls c hc hcstate
  · rw [compile_eq_resolveAll]
    exact Closure.run_resolveAll_of_settled (hsettled calls hcalls)
  · have happlies := Call.applies (W := W) (ha.of_mem_closures c hc) hcall _
      (hsettled calls hcalls c hc)
    rwa [hrun] at happlies

/-- **Compiling an expression resolves it.**  A compilation succeeds exactly if all lazy closures
of the expression that are not resolved yet can be derived.  Then the expression stays resolved:
the derivations applied the function of each of these closures to every basis vector once and
called nothing else, compiling again does nothing, and no later call probes a closure of the
expression.  Otherwise the compilation stops at the first closure that cannot be derived: the lazy
closures before it are resolved, and this one and all that occur only after it keep their states.
In both cases no later call has another result than without the compilation. -/
theorem compile_resolves (ha : a.Named names) (ht : t.Faithful names) {r : Except Error Unit}
    (hrun : a.compile.run t = (r, t')) :
    (r = .ok () ↔ ∀ c ∈ a.closures, c.adjointFn? = none →
      c.adjointState t = .resolved ∨ c.Derivable) ∧
    (r = .ok () → Compiled names a t t') ∧
    (∀ e, r = .error e → ∃ before c after, a.closures = before ++ c :: after ∧ ¬c.Derivable ∧
      Closure.StoppedAt names before c e t t') ∧
    ∀ calls : List (Call K), (∀ call ∈ calls, call.Named names) → ∀ call : Call K,
      call.Named names → (call.run.run (t'.after calls)).1 = (call.run.run (t.after calls)).1 := by
  have hnames := ha.of_mem_closures
  have hkeep : t'.Faithful names := by
    have hsteady := (steady_compile (W := W) ha t ht).2
    rwa [hrun] at hsteady
  rw [compile_eq_resolveAll] at hrun
  have hok (h : r = .ok ()) : Closure.DerivesAll names a.closures t t' :=
    Closure.derivesAll_of_run_resolveAll hnames (h ▸ hrun)
  have herror (e : Error) (h : r = .error e) : ∃ before c after,
      a.closures = before ++ c :: after ∧ ¬c.Derivable ∧
        Closure.StoppedAt names before c e t t' := by
    obtain ⟨before, c, after, t₁, hsplit, hbefore, hvisit⟩ :=
      Closure.exists_visit_of_run_resolveAll (h ▸ hrun)
    rw [hsplit, List.forall_mem_append, List.forall_mem_cons] at hnames
    obtain ⟨hnamesBefore, hc, -⟩ := hnames
    have hstopped := (Closure.derivesAll_of_run_resolveAll hnamesBefore hbefore).stoppedAt hvisit
      hnamesBefore hc
    refine ⟨before, c, after, hsplit, fun hderivable => ?_, hstopped⟩
    obtain ⟨m, hm⟩ := (Closure.exists_probe_iff (W := W)).mpr hderivable
    cases hstopped.fails.symm.trans hm
  refine ⟨⟨fun h c hc hgiven => ?_, fun h => ?_⟩, fun h => compiled_of_derivesAll ha (hok h),
    herror, fun calls hcalls call hcall => ?_⟩
  · by_cases hstate : c.adjointState t = .unresolved
    · obtain ⟨m, hm, -⟩ := (hok h).derived c hc hstate
      exact .inr (Closure.exists_probe_iff.mp ⟨m, hm⟩)
    · exact .inl (Closure.adjointState_eq_resolved hgiven hstate)
  · cases r with
    | ok u => rfl
    | error e =>
      obtain ⟨before, c, after, hsplit, hnot, hstopped⟩ := herror e rfl
      have hc : c ∈ a.closures := hsplit ▸ List.mem_append_right _ List.mem_cons_self
      obtain ⟨hgiven, -⟩ := Closure.adjointState_eq_unresolved_iff.mp hstopped.unresolved
      rcases h c hc hgiven with hresolved | hderivable
      · cases hresolved.symm.trans hstopped.unresolved
      · exact absurd hderivable hnot
  · have hsteady : Steady names (call.run : Eval K W _) := Call.steady hcall
    rw [(hsteady _ (Trace.faithful_after hkeep hcalls)).1,
      (hsteady _ (Trace.faithful_after ht hcalls)).1]

/-- A closure that fails everywhere. -/
def brokenClosure : Closure ℝ :=
  ⟨1, .vector 2, .vector 2, fun _ => .error (.externalCall (.reported "out of service")), none⟩

theorem derivable_identityClosure : identityClosure.Derivable where
  matrix := by decide
  basis := by decide
  images j _ := by
    have hroomy : (Shape.vector 2).Roomy := by
      unfold Shape.Roomy
      decide
    obtain ⟨e, he⟩ : ∃ e : Signal ℝ,
        Signal.ofEntries (.vector 2) (Closure.basisEntries 2 j) = .ok e :=
      Signal.ofEntries_of_roomy hroomy Array.size_ofFn
    exact ⟨e, e, he, rfl, (Signal.ofEntries_spec he).1⟩

theorem not_derivable_brokenClosure : ¬brokenClosure.Derivable := by
  intro h
  obtain ⟨e, u, -, hu, -⟩ := h.images 0 (by decide)
  cases hu

theorem compile_resolves_pair :
    (∃ t', (gramOperator (leaf (.closure identityClosure))).compile.run (.empty : Trace ℝ ℝ) =
      (.ok (), t') ∧ (t'.cell 0).forwardCalls = 2) ∧
    ∃ e t', (sum (leaf (.closure identityClosure)) (leaf (.closure brokenClosure))).compile.run
        (.empty : Trace ℝ ℝ) = (.error e, t') ∧
      identityClosure.adjointState t' = .resolved ∧
      brokenClosure.adjointState t' = .unresolved := by
  let names : Naming ℝ := fun id => if id = 0 then identityClosure else brokenClosure
  have hempty : (Trace.empty : Trace ℝ ℝ).Faithful names := Trace.faithful_empty names
  have hunresolved (c : Closure ℝ) (hgiven : c.adjointFn? = none) :
      c.adjointState (.empty : Trace ℝ ℝ) = .unresolved :=
    Closure.adjointState_eq_unresolved_iff.mpr ⟨hgiven, by rw [Trace.cell_empty]; rfl⟩
  refine ⟨?_, ?_⟩
  · have hnamed : (gramOperator (leaf (.closure identityClosure))).Named names := ⟨rfl, rfl⟩
    rcases hrun : (gramOperator (leaf (.closure identityClosure))).compile.run
      (.empty : Trace ℝ ℝ) with ⟨r, t'⟩
    obtain ⟨hiff, hcompiled, -, -⟩ := compile_resolves hnamed hempty hrun
    have hr : r = .ok () := by
      refine hiff.mpr fun c hc _ => .inr ?_
      obtain rfl : c = identityClosure := by simpa [gramOperator, closures] using hc
      exact derivable_identityClosure
    obtain ⟨m, -, hcell⟩ := (hcompiled hr).derives.derived identityClosure List.mem_cons_self
      (hunresolved _ rfl)
    refine ⟨t', by rw [hr], ?_⟩
    have hcalls := congrArg Cell.forwardCalls hcell
    rwa [Trace.cell_empty] at hcalls
  · have hnamed : (sum (leaf (.closure identityClosure)) (leaf (.closure brokenClosure))).Named
      names := ⟨rfl, rfl⟩
    rcases hrun : (sum (leaf (.closure identityClosure))
      (leaf (.closure brokenClosure))).compile.run (.empty : Trace ℝ ℝ) with ⟨r, t'⟩
    obtain ⟨hiff, -, hstopped, -⟩ := compile_resolves hnamed hempty hrun
    cases r with
    | ok u =>
      have hbroken := hiff.mp rfl brokenClosure (List.mem_cons_of_mem _ List.mem_cons_self) rfl
      rw [hunresolved _ rfl] at hbroken
      exact absurd (hbroken.resolve_left (by decide)) not_derivable_brokenClosure
    | error e =>
      obtain ⟨before, c, after, hsplit, hnot, hstop⟩ := hstopped e rfl
      have hsplit : [identityClosure, brokenClosure] = before ++ c :: after := hsplit
      -- The identity can be derived, so that the compilation stops at the second closure.
      obtain ⟨rfl, rfl⟩ : before = [identityClosure] ∧ c = brokenClosure := by
        rcases before with _ | ⟨b, _ | ⟨b', before⟩⟩
        · obtain ⟨rfl, -⟩ := List.cons.inj hsplit
          exact absurd derivable_identityClosure hnot
        · obtain ⟨hb, hrest⟩ := List.cons.inj hsplit
          exact ⟨by rw [hb], (List.cons.inj hrest).1.symm⟩
        · simp at hsplit
      exact ⟨e, t', rfl, hstop.resolved _ (List.mem_singleton_self _) rfl,
        (hstop.kept brokenClosure rfl hstop.notBefore).trans hstop.unresolved⟩

/-- A closure that never has anything to do, as its signals have no elements; the matrix of its
adjoint would have none either, but it could not be addressed. -/
def vastClosure : Closure ℝ := ⟨0, .flat [0], .flat [2 ^ 62, 2], fun x => .ok x, none⟩

theorem compile_vastClosure_error :
    (∀ j < vastClosure.input.size, ∃ e u, e.shape = vastClosure.input ∧
      e.entries = Closure.basisEntries vastClosure.input.size j ∧ vastClosure.forwardFn e = .ok u ∧
        u.shape = vastClosure.output) ∧
    ((leaf (.closure vastClosure)).compile.run (.empty : Trace ℝ ℝ)).1 = .error .misuse := by
  refine ⟨fun j hj => absurd hj j.not_lt_zero, ?_⟩
  have hstate : vastClosure.adjointState (.empty : Trace ℝ ℝ) = .unresolved :=
    Closure.adjointState_eq_unresolved_iff.mpr ⟨rfl, by rw [Trace.cell_empty]; rfl⟩
  have hprobe : (vastClosure.probe : Eval ℝ ℝ _).run .empty = (.error .misuse, .empty) := by
    have hroom : ¬(Storable [vastClosure.input.size, vastClosure.output.size] ∧
      Storable [vastClosure.input.size]) := by decide
    unfold Closure.probe
    dsimp only
    rw [if_neg hroom]
    rfl
  show ((vastClosure.resolve : Eval ℝ ℝ Unit).run .empty).1 = _
  rw [Closure.run_resolve_of_unresolved hstate, hprobe]

end LinearOperator

end OperatorSplitting
