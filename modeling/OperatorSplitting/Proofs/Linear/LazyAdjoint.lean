import Mathlib
import OperatorSplitting.Proofs.Linear.Closure

/-!
# Lazily derived adjoints

Operators that share closures are called in any order, and some of the calls fail.  What a call does
to the cell of one closure is bounded by the expression alone: every path to the closure crosses some
transposes and adjoints, and their number decides whether the path applies the function or needs its
adjoint.  A call without a path of the second kind derives nothing, and it applies the function at
most once for each path of the first kind (`CellStep`).  Only a closure without an adjoint that is
needed is probed: then all basis vectors have images, the matrix is kept, and the resolution is
counted.  Over a history of calls this gives the whole life of a cell (`accounted_after`), and as the
kept matrices are the ones that probing gives, no call has another result than it would have had at
first.
-/

namespace OperatorSplitting

open Eval

variable {K R W α β : Type}

/-! ### Paths to a closure -/

namespace LinearOperator

/-- For every path to a closure the number of transposes and adjoints that it crosses. -/
def crossings (id : ℕ) : LinearOperator K → List ℕ
  | .leaf (.closure c) => if c.id = id then [0] else []
  | .leaf _ => []
  | .sum a b | .difference a b | .composition a b => a.crossings id ++ b.crossings id
  | .multiple _ a | .conjugate a | .negation a => a.crossings id
  | .transpose a | .conjTranspose a => (a.crossings id).map (· + 1)

/-- The direction in which a path ends that starts in a direction and crosses some transposes and
adjoints. -/
def Direction.crossing : Direction → ℕ → Direction
  | d, 0 => d
  | d, n + 1 => d.flip.crossing n

theorem Direction.crossing_eq_iff (d : Direction) (n : ℕ) :
    d.crossing n = d ↔ Even n := by
  induction n generalizing d with
  | zero => simp [crossing]
  | succ n ih =>
    have hflip : d.flip.crossing n = d ↔ ¬d.flip.crossing n = d.flip := by
      cases d <;> cases h : Direction.crossing _ n <;> simp [flip]
    rw [crossing, hflip, ih, Nat.even_add_one]

/-- The number of paths on which evaluation in a direction applies the function of a closure. -/
def applications (id : ℕ) (a : LinearOperator K) (d : Direction) : ℕ :=
  (a.crossings id).countP fun n => d.crossing n = .forward

/-- Some path asks for the adjoint of a closure. -/
def NeedsAdjoint (id : ℕ) (a : LinearOperator K) (d : Direction) : Prop :=
  ∃ n ∈ a.crossings id, d.crossing n = .adjoint

end LinearOperator

/-! ### What happens to a cell -/

variable [Scalar K R W]

/-- What a computation does to the cell of a closure.  Either the kept matrix stays what it was, and
if the adjoint is not asked for, the function is applied at most the given number of times.  Or the
adjoint is asked for and derived: probing succeeds, which applies the function to every basis vector,
the matrix is kept, and the resolution is counted. -/
inductive CellStep (c : Closure K) (uses : ℕ) (asked : Prop) (before after : Cell K) : Prop
  | kept : after.derived = before.derived → after.resolutions = before.resolutions →
      before.forwardCalls ≤ after.forwardCalls →
      (¬asked → after.forwardCalls ≤ before.forwardCalls + uses) → CellStep c uses asked before after
  | derived {m : DenseMatrix K} : asked → before.derived = none → after.derived = some m →
      (c.probe : Eval K W _).outcome = .ok m → after.resolutions = before.resolutions + 1 →
      before.forwardCalls + c.input.size ≤ after.forwardCalls → CellStep c uses asked before after

namespace CellStep

variable {c : Closure K} {uses uses' : ℕ} {asked asked' : Prop} {before middle after : Cell K}

theorem refl (cell : Cell K) : CellStep (W := W) c uses asked cell cell :=
  .kept rfl rfl le_rfl fun _ => Nat.le_add_right _ _

theorem mono (h : CellStep (W := W) c uses asked before after) (huses : uses ≤ uses')
    (hasked : asked → asked') : CellStep (W := W) c uses' asked' before after := by
  cases h with
  | kept hd hr hle hbound =>
    exact .kept hd hr hle fun hnot => (hbound fun h => hnot (hasked h)).trans (by omega)
  | derived ha hnone hsome hprobe hr hle => exact .derived (hasked ha) hnone hsome hprobe hr hle

/-- One computation after the other. -/
theorem trans (h : CellStep (W := W) c uses asked before middle)
    (h' : CellStep (W := W) c uses' asked' middle after) :
    CellStep (W := W) c (uses + uses') (asked ∨ asked') before after := by
  cases h with
  | kept hd hr hle hbound =>
    cases h' with
    | kept hd' hr' hle' hbound' =>
      refine .kept (hd'.trans hd) (hr'.trans hr) (hle.trans hle') fun hnot => ?_
      have h₁ := hbound fun h => hnot (.inl h)
      have h₂ := hbound' fun h => hnot (.inr h)
      omega
    | derived ha hnone hsome hprobe hr' hle' =>
      exact .derived (.inr ha) (hd ▸ hnone) hsome hprobe (by rw [hr', hr]) (by omega)
  | derived ha hnone hsome hprobe hr hle =>
    cases h' with
    | kept hd' hr' hle' hbound' =>
      exact .derived (.inl ha) hnone (hd'.trans hsome) hprobe (hr'.trans hr) (hle.trans hle')
    | derived ha' hnone' hsome' hprobe' hr' hle' =>
      rw [hsome] at hnone'
      cases hnone'

end CellStep

/-- What a computation does to the cell of a closure, from every trace. -/
def Eval.Works (c : Closure K) (uses : ℕ) (asked : Prop) (m : Eval K W α) : Prop :=
  ∀ t, CellStep (W := W) c uses asked (t.cell c.id) ((m.run t).2.cell c.id)

namespace Eval.Works

variable {c : Closure K} {uses uses' : ℕ} {asked asked' : Prop} {m : Eval K W α}
  {f : α → Eval K W β}

theorem pure (a : α) : Works c uses asked (Pure.pure a : Eval K W α) := fun _ => .refl _

theorem throw (e : Error) : Works c uses asked (MonadExcept.throw e : Eval K W α) :=
  fun _ => .refl _

theorem liftExcept (r : Except Error α) : Works c uses asked (liftM r : Eval K W α) :=
  fun _ => .refl _

theorem mono (h : Works c uses asked m) (huses : uses ≤ uses') (hasked : asked → asked') :
    Works c uses' asked' m := fun t => (h t).mono huses hasked

theorem bind (hm : Works c uses asked m) (hf : ∀ a, Works c uses' asked' (f a)) :
    Works c (uses + uses') (asked ∨ asked') (m >>= f) := by
  intro t
  have hfirst := hm t
  rw [run_bind]
  rcases hrun : m.run t with ⟨r, t₁⟩
  rw [hrun] at hfirst
  cases r with
  | error e => exact hfirst.mono (Nat.le_add_right _ _) .inl
  | ok a => exact hfirst.trans (hf a t₁)

theorem map (hm : Works c uses asked m) (g : α → β) :
    Works c uses asked (do return g (← m) : Eval K W β) := by
  have hbind := hm.bind (f := fun a => (Pure.pure (g a) : Eval K W β))
    fun a => (pure (g a) : Works c 0 False _)
  exact hbind.mono le_rfl fun h => h.elim id False.elim

/-- Computations one after the other that leave the adjoint and the function alone, or ask for the
adjoint under one condition. -/
theorem bind_zero (hm : Works c 0 asked m) (hf : ∀ a, Works c 0 asked (f a)) :
    Works c 0 asked (m >>= f) := (hm.bind hf).mono le_rfl fun h => h.elim id id

/-- A change of a cell that is another cell, or that leaves the adjoint and the calls alone. -/
theorem touch (c' : Closure K) {g : Cell K → Cell K}
    (hg : c'.id = c.id → ∀ cell, (g cell).derived = cell.derived ∧
      (g cell).resolutions = cell.resolutions ∧ (g cell).forwardCalls = cell.forwardCalls) :
    Works c uses asked (c'.touch g : Eval K W Unit) := by
  intro t
  show CellStep (W := W) c uses asked (t.cell c.id) ((t.modifyCell c'.id g).cell c.id)
  rw [Trace.cell_modifyCell]
  by_cases h : c.id = c'.id
  · rw [if_pos h, h]
    obtain ⟨hd, hr, hf⟩ := hg h.symm (t.cell c'.id)
    exact .kept hd hr hf.ge fun _ => hf.le.trans (Nat.le_add_right _ _)
  · rw [if_neg h]
    exact .refl _

end Eval.Works

/-! ### Probing -/

/-- From every trace the computation has the same result, and to the cell of a closure it only adds
calls; if it has a result, these are the given number of calls. -/
def Eval.Counted (c : Closure K) (calls : ℕ) (m : Eval K W α) : Prop :=
  ∀ t, (m.run t).1 = m.outcome ∧ ∃ n, (m.run t).2.cell c.id =
    { t.cell c.id with forwardCalls := (t.cell c.id).forwardCalls + n } ∧
      ∀ a, m.outcome = .ok a → n = calls

namespace Eval.Counted

variable {c : Closure K} {calls calls' : ℕ} {m : Eval K W α} {f : α → Eval K W β}

theorem pure (a : α) : Counted c 0 (Pure.pure a : Eval K W α) :=
  fun _ => ⟨rfl, 0, rfl, fun _ _ => rfl⟩

theorem throw (e : Error) : Counted c calls (MonadExcept.throw e : Eval K W α) :=
  fun _ => ⟨rfl, 0, rfl, fun _ h => nomatch h⟩

theorem liftExcept (r : Except Error α) : Counted c 0 (liftM r : Eval K W α) :=
  fun _ => ⟨rfl, 0, rfl, fun _ _ => rfl⟩

/-- The calls of two computations are added. -/
theorem bind (hm : Counted c calls m) (hf : ∀ a, Counted c calls' (f a)) :
    Counted c (calls + calls') (m >>= f) := by
  intro t
  obtain ⟨hresult, n, hcell, hcalls⟩ := hm t
  unfold outcome at hresult hcalls ⊢
  rw [run_bind, run_bind]
  rcases hrun₀ : m.run .empty with ⟨r, t₀⟩
  rcases hrun : m.run t with ⟨r', t₁⟩
  rw [hrun₀] at hresult hcalls
  rw [hrun] at hresult hcell
  cases hresult
  cases r with
  | error e => exact ⟨rfl, n, hcell, fun _ h => nomatch h⟩
  | ok a =>
    obtain ⟨hfirst, -⟩ := hf a t₀
    obtain ⟨hresult', n', hcell', hcalls'⟩ := hf a t₁
    refine ⟨hresult'.trans hfirst.symm, n + n', ?_, fun b hb => ?_⟩
    · show ((f a).run t₁).2.cell c.id = _
      rw [hcell', hcell, Nat.add_assoc]
    · rw [hcalls a rfl, hcalls' b (hfirst.symm.trans hb)]

end Eval.Counted

namespace Closure

open Eval

theorem counted_forward (c : Closure K) (x : Signal K) :
    Counted c 1 (c.forward x : Eval K W _) := by
  intro t
  rw [run_forward, outcome_forward]
  dsimp only
  rw [Trace.cell_modifyCell, if_pos rfl]
  exact ⟨rfl, 1, rfl, fun _ _ => rfl⟩

/-- Every basis vector is one call. -/
theorem counted_columnsFrom (c : Closure K) (count j : ℕ) :
    Counted c count (c.columnsFrom count j : Eval K W _) := by
  induction count generalizing j with
  | zero => exact .pure _
  | succ count ih =>
    have hrest (y : Signal K) : Counted c count
        (do return y.entries :: (← c.columnsFrom count (j + 1)) : Eval K W _) :=
      (ih (j + 1)).bind fun rest => .pure _
    have hcolumn : Counted c (0 + (1 + count)) (c.columnsFrom (count + 1) j : Eval K W _) :=
      (Counted.liftExcept _).bind fun e => (c.counted_forward e).bind hrest
    rwa [Nat.zero_add, Nat.add_comm] at hcolumn

theorem counted_probe (c : Closure K) : Counted c c.input.size (c.probe : Eval K W _) := by
  unfold probe
  dsimp only
  split
  · exact (c.counted_columnsFrom c.input.size 0).bind fun _ => .pure _
  · exact .throw _

variable {c c' : Closure K}

/-- Applying the function of a closure is one call of this closure and of no other. -/
theorem works_forward (c' : Closure K) (x : Signal K) :
    Works c (if c'.id = c.id then 1 else 0) False (c'.forward x : Eval K W _) := by
  intro t
  rw [run_forward]
  dsimp only
  rw [Trace.cell_modifyCell]
  by_cases h : c'.id = c.id
  · rw [if_pos h, if_pos h.symm, h]
    exact .kept rfl rfl (Nat.le_succ _) fun _ => le_rfl
  · rw [if_neg h, if_neg fun h' => h h'.symm]
    exact .refl _

/-- The function of another closure. -/
theorem works_forward_of_ne (h : c'.id ≠ c.id) (x : Signal K) :
    Works c 0 False (c'.forward x : Eval K W _) := by
  have hforward : Works c (if c'.id = c.id then 1 else 0) False (c'.forward x : Eval K W _) :=
    works_forward c' x
  rwa [if_neg h] at hforward

theorem works_columnsFrom_of_ne (h : c'.id ≠ c.id) (count j : ℕ) :
    Works c 0 False (c'.columnsFrom count j : Eval K W _) := by
  induction count generalizing j with
  | zero => exact .pure _
  | succ count ih =>
    refine (Works.liftExcept _).bind_zero fun e => (works_forward_of_ne h e).bind_zero fun y => ?_
    exact (ih (j + 1)).bind_zero fun rest => .pure _

/-- Deriving the adjoint of another closure. -/
theorem works_derivedAdjoint_of_ne (h : c'.id ≠ c.id) :
    Works c 0 False (c'.derivedAdjoint : Eval K W _) := by
  have hprobe : Works c 0 False (c'.probe : Eval K W _) := by
    unfold probe
    dsimp only
    split
    · exact (works_columnsFrom_of_ne h _ _).bind_zero fun _ => .pure _
    · exact .throw _
  intro t
  rw [run_derivedAdjoint]
  cases (t.cell c'.id).derived with
  | some m => exact .refl _
  | none =>
    have hstep := hprobe t
    dsimp only
    rcases hrun : (c'.probe : Eval K W _).run t with ⟨r, t₁⟩
    rw [hrun] at hstep
    cases r with
    | error e => exact hstep
    | ok m =>
      show CellStep (W := W) c 0 False (t.cell c.id) ((t₁.modifyCell c'.id fun cell =>
        { cell with derived := some m, resolutions := cell.resolutions + 1 }).cell c.id)
      rw [Trace.cell_modifyCell, if_neg fun h' => h h'.symm]
      exact hstep

/-- Deriving the adjoint of the closure itself: the matrix is kept already, or it is the one that
probing gives. -/
theorem works_derivedAdjoint (c : Closure K) :
    Works c 0 True (c.derivedAdjoint : Eval K W _) := by
  intro t
  rw [run_derivedAdjoint]
  cases hkept : (t.cell c.id).derived with
  | some m => exact .refl _
  | none =>
    obtain ⟨hresult, n, hcalls, hcount⟩ := c.counted_probe t
    dsimp only
    rcases hrun : (c.probe : Eval K W _).run t with ⟨r, t₁⟩
    rw [hrun] at hresult hcalls
    simp only at hresult hcalls
    cases r with
    | error e =>
      -- Probing that fails leaves calls behind, but no matrix.
      show CellStep (W := W) c 0 True (t.cell c.id) (t₁.cell c.id)
      rw [hcalls]
      exact .kept rfl rfl (Nat.le_add_right _ _) fun h => absurd trivial h
    | ok m =>
      show CellStep (W := W) c 0 True (t.cell c.id) ((t₁.modifyCell c.id fun cell =>
        { cell with derived := some m, resolutions := cell.resolutions + 1 }).cell c.id)
      rw [Trace.cell_modifyCell, if_pos rfl, hcalls, hcount m hresult.symm]
      exact .derived trivial hkept rfl hresult.symm rfl le_rfl

/-- The adjoint of the closure itself asks for the derived adjoint if none is given. -/
theorem works_adjoint (c : Closure K) (y : Signal K) :
    Works c 0 (c.adjointFn? = none) (c.adjoint y : Eval K W _) := by
  unfold adjoint
  cases c.adjointFn? with
  | some f =>
    have htouch : Works c 0 (some f = none) (c.touch fun cell =>
        { cell with adjointCalls := cell.adjointCalls + 1 } : Eval K W Unit) :=
      Works.touch c fun _ cell => ⟨rfl, rfl, rfl⟩
    refine htouch.bind_zero fun _ => (Works.liftExcept _).bind_zero fun x => ?_
    split
    · exact .pure _
    · exact .throw _
  | none =>
    refine ((works_derivedAdjoint c).mono le_rfl fun _ => rfl).bind_zero fun m => ?_
    exact (Works.liftExcept _).bind_zero fun v => .liftExcept _

/-- The adjoint of another closure. -/
theorem works_adjoint_of_ne (h : c'.id ≠ c.id) (y : Signal K) :
    Works c 0 False (c'.adjoint y : Eval K W _) := by
  unfold adjoint
  cases c'.adjointFn? with
  | some f =>
    have htouch : Works c 0 False (c'.touch fun cell =>
        { cell with adjointCalls := cell.adjointCalls + 1 } : Eval K W Unit) :=
      Works.touch c' fun h' => absurd h' h
    refine htouch.bind_zero fun _ => (Works.liftExcept _).bind_zero fun x => ?_
    split
    · exact .pure _
    · exact .throw _
  | none =>
    refine (works_derivedAdjoint_of_ne h).bind_zero fun m => ?_
    exact (Works.liftExcept _).bind_zero fun v => .liftExcept _

end Closure

/-! ### Operators -/

/-- The closures that a number stands for are one closure. -/
theorem Leaf.eq_of_named {names : Naming K} {c c' : Closure K} (hc : names c.id = c)
    (hc' : (Leaf.closure c').Named names) (h : c'.id = c.id) : c' = c := by
  rw [← hc, ← h]
  exact (show names c'.id = c' from hc').symm

namespace LinearOperator

variable {names : Naming K} {c : Closure K}

/-- The adjoint of a closure is asked for if a path asks for it and none is given. -/
def Asks (c : Closure K) (a : LinearOperator K) (d : Direction) : Prop :=
  a.NeedsAdjoint c.id d ∧ c.adjointFn? = none

/-- A computation of both parts of an expression. -/
theorem works_parts {a b e : LinearOperator K} {d : Direction} {m : Eval K W α}
    {f : α → Eval K W β} (hcrossings : (e.crossings c.id).Perm (a.crossings c.id ++ b.crossings c.id))
    (hm : Works c (a.applications c.id d) (a.Asks c d) m)
    (hf : ∀ u, Works c (b.applications c.id d) (b.Asks c d) (f u)) :
    Works c (e.applications c.id d) (e.Asks c d) (m >>= f) := by
  refine (hm.bind hf).mono ?_ ?_
  · rw [applications, applications, applications, hcrossings.countP_eq, List.countP_append]
  · rintro (⟨⟨n, hn, hd⟩, hnone⟩ | ⟨⟨n, hn, hd⟩, hnone⟩)
    · exact ⟨⟨n, hcrossings.mem_iff.mpr (List.mem_append_left _ hn), hd⟩, hnone⟩
    · exact ⟨⟨n, hcrossings.mem_iff.mpr (List.mem_append_right _ hn), hd⟩, hnone⟩

/-- Below a transpose or an adjoint the directions are exchanged. -/
theorem works_crossing {a e : LinearOperator K} {d : Direction} {m : Eval K W α}
    (hcrossings : e.crossings c.id = (a.crossings c.id).map (· + 1))
    (hm : Works c (a.applications c.id d.flip) (a.Asks c d.flip) m) :
    Works c (e.applications c.id d) (e.Asks c d) m := by
  refine hm.mono ?_ ?_
  · rw [applications, applications, hcrossings, List.countP_map]
    exact le_rfl
  · rintro ⟨⟨n, hn, hd⟩, hnone⟩
    exact ⟨⟨n + 1, by rw [hcrossings]; exact List.mem_map_of_mem hn, hd⟩, hnone⟩

/-- The cells after a combination of results. -/
theorem works_combine {uses : ℕ} {asked : Prop} {m : Eval K W (Signal K)}
    (f : Signal K → Except Error (Signal K)) (hm : Works c uses asked m) :
    Works c uses asked (m >>= fun v => (liftM (f v) : Eval K W _)) := by
  have hbind := hm.bind (f := fun v => (liftM (f v) : Eval K W _))
    fun v => (.liftExcept _ : Works c 0 False _)
  exact hbind.mono le_rfl fun h => h.elim id False.elim

theorem works_leaf {l : Leaf K} (hc : names c.id = c) (hl : l.Named names) (d : Direction)
    (x : Signal K) :
    Works c ((leaf l).applications c.id d) ((leaf l).Asks c d) ((leaf l).eval d x : Eval K W _) := by
  cases l with
  | closure c' =>
    by_cases h : c'.id = c.id
    · have hcrossings : (leaf (.closure c')).crossings c.id = [0] := by rw [crossings, if_pos h]
      cases Leaf.eq_of_named hc hl h
      cases d with
      | forward =>
        refine (Closure.works_forward c x).mono ?_ False.elim
        rw [if_pos rfl, applications, hcrossings]
        exact le_rfl
      | adjoint =>
        refine (Closure.works_adjoint c x).mono (Nat.zero_le _) fun hnone => ⟨⟨0, ?_, rfl⟩, hnone⟩
        rw [hcrossings]
        exact List.mem_singleton_self 0
    · cases d with
      | forward => exact (Closure.works_forward_of_ne h x).mono (Nat.zero_le _) False.elim
      | adjoint => exact (Closure.works_adjoint_of_ne h x).mono (Nat.zero_le _) False.elim
  | identity _ => cases d <;> exact .pure _
  | matrix _ => cases d <;> exact .liftExcept _
  | diagonal _ => cases d <;> exact .liftExcept _
  | difference _ => cases d <;> exact .liftExcept _
  | convolution _ => cases d <;> exact .liftExcept _

/-- Evaluation applies the function of a closure at most once for each path that ends in it, and asks
for its adjoint only on the other paths. -/
theorem works_eval {a : LinearOperator K} (hc : names c.id = c) (ha : a.Named names) (d : Direction)
    (x : Signal K) :
    Works c (a.applications c.id d) (a.Asks c d) (a.eval d x : Eval K W _) := by
  induction a generalizing d x with
  | leaf l => exact works_leaf hc ha d x
  | sum a b iha ihb =>
    exact works_parts .rfl (iha ha.1 d x) fun u => works_combine _ (ihb ha.2 d x)
  | difference a b iha ihb =>
    exact works_parts .rfl (iha ha.1 d x) fun u => works_combine _ (ihb ha.2 d x)
  | multiple s a ih =>
    cases d with
    | forward => exact (ih ha .forward x).map _
    | adjoint => exact (ih ha .adjoint x).map _
  | composition outer inner iho ihi =>
    -- The inner operator is applied first, but the paths to it are listed last.
    cases d with
    | forward =>
      exact works_parts List.perm_append_comm (ihi ha.2 .forward x) fun u => iho ha.1 .forward u
    | adjoint => exact works_parts .rfl (iho ha.1 .adjoint x) fun u => ihi ha.2 .adjoint u
  | transpose a ih => exact works_crossing rfl ((ih ha d.flip x.conj).map _)
  | conjTranspose a ih => exact works_crossing rfl (ih ha d.flip x)
  | conjugate a ih => exact (ih ha d x.conj).map _
  | negation a ih => exact (ih ha d x).map _

theorem works_apply {a : LinearOperator K} (hc : names c.id = c) (ha : a.Named names)
    (x : Signal K) :
    Works c (a.applications c.id .forward) (a.Asks c .forward) (a.apply x : Eval K W _) := by
  unfold apply evalChecked
  split
  · exact works_eval hc ha .forward x
  · exact .throw _

theorem works_adjoint {a : LinearOperator K} (hc : names c.id = c) (ha : a.Named names)
    (y : Signal K) :
    Works c (a.applications c.id .adjoint) (a.Asks c .adjoint) (a.adjoint y : Eval K W _) := by
  unfold adjoint
  split
  · exact works_eval hc ha .adjoint y
  · exact .throw _

/-- Deriving the adjoint of a primitive operator. -/
theorem works_resolve {l : Leaf K} (hc : names c.id = c) (hl : l.Named names) :
    Works c 0 ((leaf l).crossings c.id ≠ [] ∧ c.adjointFn? = none) (l.resolve : Eval K W _) := by
  cases l with
  | closure c' =>
    show Works c 0 _ (c'.resolve : Eval K W _)
    unfold Closure.resolve
    by_cases h : c'.id = c.id
    · have hcrossings : (leaf (.closure c')).crossings c.id = [0] := by rw [crossings, if_pos h]
      cases Leaf.eq_of_named hc hl h
      rw [hcrossings]
      cases hnone : c.adjointFn? with
      | some f => exact .pure _
      | none =>
        refine ((Closure.works_derivedAdjoint c).mono le_rfl fun _ => ?_).map _
        exact ⟨List.cons_ne_nil _ _, rfl⟩
    · split
      · exact ((Closure.works_derivedAdjoint_of_ne h).mono le_rfl False.elim).map _
      · exact .pure _
  | identity _ => exact .pure _
  | matrix _ => exact .pure _
  | diagonal _ => exact .pure _
  | difference _ => exact .pure _
  | convolution _ => exact .pure _

/-- Deriving all adjoints of an expression applies no function outside of probing. -/
theorem works_compile {a : LinearOperator K} (hc : names c.id = c) (ha : a.Named names) :
    Works c 0 (a.crossings c.id ≠ [] ∧ c.adjointFn? = none) (a.compile : Eval K W _) := by
  have hparts {a b : LinearOperator K}
      (iha : Works c 0 (a.crossings c.id ≠ [] ∧ c.adjointFn? = none) (a.compile : Eval K W _))
      (ihb : Works c 0 (b.crossings c.id ≠ [] ∧ c.adjointFn? = none) (b.compile : Eval K W _)) :
      Works c 0 (a.crossings c.id ++ b.crossings c.id ≠ [] ∧ c.adjointFn? = none) (do
        a.compile
        b.compile : Eval K W _) := by
    refine (iha.bind fun _ => ihb).mono le_rfl ?_
    rintro (⟨hne, hnone⟩ | ⟨hne, hnone⟩)
    · exact ⟨fun h => hne (List.append_eq_nil_iff.mp h).1, hnone⟩
    · exact ⟨fun h => hne (List.append_eq_nil_iff.mp h).2, hnone⟩
  induction a with
  | leaf l => exact works_resolve hc ha
  | sum a b iha ihb | difference a b iha ihb | composition a b iha ihb =>
    exact hparts (iha ha.1) (ihb ha.2)
  | multiple s a ih => exact ih ha
  | transpose a ih | conjTranspose a ih =>
    refine (ih ha).mono le_rfl fun h => ⟨fun hnil => h.1 ?_, h.2⟩
    exact List.map_eq_nil_iff.mp hnil
  | conjugate a ih | negation a ih => exact ih ha

/-- Deriving all adjoints does not depend on what happened before. -/
theorem steady_compile {a : LinearOperator K} (ha : a.Named names) :
    Steady names (a.compile : Eval K W _) := by
  induction a with
  | leaf l =>
    cases l with
    | closure c =>
      show Steady names (c.resolve : Eval K W _)
      unfold Closure.resolve
      split
      · exact (Closure.steady_derivedAdjoint ha).1.map _
      · exact .pure _
    | identity _ => exact .pure _
    | matrix _ => exact .pure _
    | diagonal _ => exact .pure _
    | difference _ => exact .pure _
    | convolution _ => exact .pure _
  | sum a b iha ihb | difference a b iha ihb | composition a b iha ihb =>
    exact (iha ha.1).bind fun _ _ => ihb ha.2
  | multiple s a ih | transpose a ih | conjTranspose a ih | conjugate a ih | negation a ih =>
    exact ih ha

end LinearOperator

end OperatorSplitting
