import Mathlib
import OperatorSplitting.Proofs.Linear.Adjointness
import OperatorSplitting.Proofs.Linear.LazyAdjoint

/-!
# Histories of calls

A history is a list of calls on operators that share closures: applying an operator or its adjoint,
both after each other, deriving all adjoints, and the adjoint of a single primitive operator.  Some of
the calls may fail; a failed call leaves its trace behind like any other.

The adjoint of a closure is derived at most once in a history, by a call that has all basis vectors
mapped, and only if a path of the call asks for it.  History never changes a value.
-/

namespace OperatorSplitting

open Eval LinearOperator

variable {K R W : Type}

/-! ### Calls -/

/-- A call on operators. -/
inductive Call (K : Type) where
  | apply (a : LinearOperator K) (x : Signal K)
  | adjoint (a : LinearOperator K) (y : Signal K)
  | gram (a : LinearOperator K) (x : Signal K)
  | compile (a : LinearOperator K)
  | leafAdjoint (l : Leaf K) (y : Signal K)

namespace Call

/-- Make the call; deriving adjoints gives no signal. -/
def run [Scalar K R W] : Call K → Eval K W (Option (Signal K))
  | .apply a x => do return some (← a.apply x)
  | .adjoint a y => do return some (← a.adjoint y)
  | .gram a x => do return some (← a.gram x)
  | .compile a => do return (fun _ => none) (← a.compile)
  | .leafAdjoint l y => do return some (← l.adjoint y)

/-- All closures of the call are the ones that their numbers stand for. -/
def Named (names : Naming K) : Call K → Prop
  | .apply a _ | .adjoint a _ | .gram a _ | .compile a => a.Named names
  | .leafAdjoint l _ => l.Named names

/-- The call may have to derive the adjoint of a closure.  An application does so only along a path
that crosses an odd number of transposes and adjoints, an adjoint only along one that crosses an even
number. -/
def MayProbe (id : ℕ) : Call K → Prop
  | .apply a _ => ∃ n ∈ a.crossings id, Odd n
  | .adjoint a _ => ∃ n ∈ a.crossings id, Even n
  | .gram a _ | .compile a => a.crossings id ≠ []
  | .leafAdjoint l _ => (leaf l).crossings id ≠ []

/-- How often the call applies the function of a closure, apart from probing: once for each path on
which it does not need the adjoint. -/
def applications (id : ℕ) : Call K → ℕ
  | .apply a _ => (a.crossings id).countP fun n => Even n
  | .adjoint a _ => (a.crossings id).countP fun n => Odd n
  | .gram a _ => (a.crossings id).length
  | .compile _ | .leafAdjoint _ _ => 0

end Call

/-! ### Parities -/

namespace LinearOperator

theorem crossing_forward_iff (n : ℕ) :
    (Direction.forward.crossing n = .forward ↔ Even n) ∧
      (Direction.forward.crossing n = .adjoint ↔ Odd n) := by
  have heven := Direction.crossing_eq_iff .forward n
  refine ⟨heven, ?_⟩
  rw [← Nat.not_even_iff_odd, ← heven]
  cases Direction.forward.crossing n <;> simp

theorem crossing_adjoint_iff (n : ℕ) :
    (Direction.adjoint.crossing n = .forward ↔ Odd n) ∧
      (Direction.adjoint.crossing n = .adjoint ↔ Even n) := by
  have heven := Direction.crossing_eq_iff .adjoint n
  refine ⟨?_, heven⟩
  rw [← Nat.not_even_iff_odd, ← heven]
  cases Direction.adjoint.crossing n <;> simp

theorem applications_forward (id : ℕ) (a : LinearOperator K) :
    a.applications id .forward = (a.crossings id).countP fun n => Even n := by
  simp only [applications, (crossing_forward_iff _).1]

theorem applications_adjoint (id : ℕ) (a : LinearOperator K) :
    a.applications id .adjoint = (a.crossings id).countP fun n => Odd n := by
  simp only [applications, (crossing_adjoint_iff _).1]

/-- Every path ends in one of the directions. -/
theorem applications_forward_add_adjoint (id : ℕ) (a : LinearOperator K) :
    a.applications id .forward + a.applications id .adjoint = (a.crossings id).length := by
  rw [applications_forward, applications_adjoint,
    List.length_eq_countP_add_countP (fun n => decide (Even n))]
  congr 1
  exact List.countP_congr fun n _ => by simp

/-- The adjoint of a primitive operator does not apply the function of a closure. -/
theorem applications_leaf_adjoint (id : ℕ) (l : Leaf K) :
    (leaf l).applications id .adjoint = 0 := by
  rw [applications, List.countP_eq_zero]
  intro n hn
  have hzero : n = 0 := by
    cases l with
    | closure c =>
      rw [crossings] at hn
      split at hn
      · exact List.mem_singleton.mp hn
      · exact absurd hn List.not_mem_nil
    | _ => exact absurd hn List.not_mem_nil
  rw [hzero]
  decide

end LinearOperator

/-! ### What a call does -/

section Calls

variable [Scalar K R W] {names : Naming K} {c : Closure K} {call : Call K}

/-- What a call does to the cell of a closure. -/
theorem Call.works (hc : names c.id = c) (h : call.Named names) :
    Works c (call.applications c.id) (call.MayProbe c.id ∧ c.adjointFn? = none)
      (call.run : Eval K W _) := by
  cases call with
  | apply a x =>
    refine ((works_apply hc h x).map some).mono (applications_forward c.id a).le ?_
    rintro ⟨⟨n, hn, hd⟩, hnone⟩
    exact ⟨⟨n, hn, (crossing_forward_iff n).2.mp hd⟩, hnone⟩
  | adjoint a y =>
    refine ((works_adjoint hc h y).map some).mono (applications_adjoint c.id a).le ?_
    rintro ⟨⟨n, hn, hd⟩, hnone⟩
    exact ⟨⟨n, hn, (crossing_adjoint_iff n).2.mp hd⟩, hnone⟩
  | gram a x =>
    have hgram : Works c _ _ (a.gram x : Eval K W _) :=
      (works_apply hc h x).bind fun u => works_adjoint hc h u
    refine (hgram.map some).mono (applications_forward_add_adjoint c.id a).le ?_
    rintro (⟨⟨n, hn, -⟩, hnone⟩ | ⟨⟨n, hn, -⟩, hnone⟩)
    · exact ⟨List.ne_nil_of_mem hn, hnone⟩
    · exact ⟨List.ne_nil_of_mem hn, hnone⟩
  | compile a => exact (works_compile hc h).map fun _ => none
  | leafAdjoint l y =>
    refine ((works_leaf hc h .adjoint y).map some).mono (applications_leaf_adjoint c.id l).le ?_
    rintro ⟨⟨n, hn, -⟩, hnone⟩
    exact ⟨List.ne_nil_of_mem hn, hnone⟩

/-- No call depends on what happened before. -/
theorem Call.steady (h : call.Named names) : Steady names (call.run : Eval K W _) := by
  cases call with
  | apply a x => exact (steady_apply h x).map some
  | adjoint a y => exact (steady_adjoint h y).map some
  | gram a x => exact ((steady_apply h x).bind fun u _ => steady_adjoint h u).map some
  | compile a => exact (steady_compile h).map fun _ => none
  | leafAdjoint l y => exact (Leaf.steady_adjoint h y).map some

end Calls

/-! ### What a history leaves behind -/

section Histories

variable [Scalar K R W] {names : Naming K} {c : Closure K} {t t' : Trace K W}

/-- The trace that calls leave behind, one after the other. -/
def Trace.after (t : Trace K W) (calls : List (Call K)) : Trace K W :=
  calls.foldl (fun t call => (call.run.run t).2) t

/-- A property of traces that every call keeps holds after all of them. -/
theorem Trace.after_induction {p : Trace K W → Prop} {calls : List (Call K)} (ht : p t)
    (hstep : ∀ call ∈ calls, ∀ t : Trace K W, p t → p (call.run.run t).2) : p (t.after calls) := by
  induction calls generalizing t with
  | nil => exact ht
  | cons call rest ih =>
    have hfirst := hstep call List.mem_cons_self t ht
    exact ih hfirst fun call hcall => hstep call (List.mem_cons_of_mem _ hcall)

theorem Trace.faithful_after {calls : List (Call K)} (ht : t.Faithful names)
    (hcalls : ∀ call ∈ calls, call.Named names) : (t.after calls).Faithful names :=
  after_induction ht fun call hcall t ht => (Call.steady (hcalls call hcall) t ht).2

namespace Closure

/-- The cell of a closure tells how often its adjoint was derived: not yet, or once, and then the
matrix that probing gives is kept.  Only the adjoint of a closure without one is derived. -/
inductive Accounted (c : Closure K) (cell : Cell K) : Prop
  | underived : cell.derived = none → cell.resolutions = 0 → Accounted c cell
  | derived {m : DenseMatrix K} : c.adjointFn? = none → cell.derived = some m →
      (c.probe : Eval K W _).outcome = .ok m → cell.resolutions = 1 → Accounted c cell

/-- One call keeps the account. -/
theorem Accounted.step {uses : ℕ} {asked : Prop} {before after : Cell K}
    (h : Accounted (W := W) c before) (hasked : asked → c.adjointFn? = none)
    (hstep : CellStep (W := W) c uses asked before after) : Accounted (W := W) c after := by
  cases hstep with
  | kept hd hr _ _ =>
    cases h with
    | underived hnone hzero => exact .underived (hd.trans hnone) (hr.trans hzero)
    | derived hgiven hsome hprobe hone =>
      exact .derived hgiven (hd.trans hsome) hprobe (hr.trans hone)
  | derived ha hnone hsome hprobe hr _ =>
    cases h with
    | underived _ hzero => exact .derived (hasked ha) hsome hprobe (by rw [hr, hzero])
    | derived _ hsome' _ _ =>
      rw [hnone] at hsome'
      cases hsome'

/-- The account of a closure after a history. -/
theorem accounted_after {calls : List (Call K)} (hc : names c.id = c)
    (hcalls : ∀ call ∈ calls, call.Named names) :
    Accounted (W := W) c (((Trace.empty : Trace K W).after calls).cell c.id) := by
  refine Trace.after_induction (p := fun t => Accounted (W := W) c (t.cell c.id)) ?_ ?_
  · rw [Trace.cell_empty]
    exact .underived rfl rfl
  · intro call hcall t ht
    exact ht.step And.right (Call.works hc (hcalls call hcall) t)

/-- Between two traces the adjoint of the closure was derived: its function was applied to every
basis vector, with images of the declared shape, and the resolution was counted. -/
structure DerivedBetween (c : Closure K) (t t' : Trace K W) : Prop where
  unresolved : c.adjointState t = .unresolved
  resolved : c.adjointState t' = .resolved
  counted : (t'.cell c.id).resolutions = (t.cell c.id).resolutions + 1
  called : (t.cell c.id).forwardCalls + c.input.size ≤ (t'.cell c.id).forwardCalls
  images : ∀ j < c.input.size, ∃ e u, e.shape = c.input ∧
    e.entries = basisEntries c.input.size j ∧ c.forwardFn e = .ok u ∧ u.shape = c.output

theorem adjointState_eq (h : (t'.cell c.id).derived = (t.cell c.id).derived) :
    c.adjointState t' = c.adjointState t := by
  rw [adjointState, adjointState, h]

/-- The state follows what happens to the cell. -/
theorem adjointState_step {uses : ℕ} {asked : Prop} (hasked : asked → c.adjointFn? = none)
    (h : CellStep (W := W) c uses asked (t.cell c.id) (t'.cell c.id)) :
    c.adjointState t' = c.adjointState t ∨ asked ∧ c.DerivedBetween t t' := by
  cases h with
  | kept hd _ _ _ => exact .inl (adjointState_eq hd)
  | derived ha hnone hsome hprobe hr hle =>
    obtain ⟨-, -, cols, hcols, -⟩ := outcome_probe_eq_ok_iff.mp hprobe
    refine .inr ⟨ha, ?_, ?_, hr, hle, fun j hj => ?_⟩
    · simp [adjointState, hasked ha, hnone]
    · simp [adjointState, hasked ha, hsome]
    · obtain ⟨e, u, hshape, hentries, himage, -⟩ := (columns_spec hcols).2 j hj
      rw [Nat.zero_add] at hentries
      exact ⟨e, u, hshape, hentries, image_eq_ok_iff.mp himage⟩

/-- The life of a lazily derived adjoint.  After any history of calls on operators that share
closures, an adjoint was derived at most once, namely if its state says so; an adjoint that is given
is never derived, and a closure whose probing fails stays unresolved.  The next call leaves the state
alone or derives the adjoint from the images of all basis vectors; where it has no path that asks
for the adjoint it applies the function once for each other path at most.  Its result is the one
that it would have had at first. -/
theorem lazy_adjoint_history {calls : List (Call K)} (hc : names c.id = c)
    (hcalls : ∀ call ∈ calls, call.Named names)
    (ht : t = (Trace.empty : Trace K W).after calls) :
    (c.adjointFn? = none → (t.cell c.id).resolutions ≤ 1 ∧
      ((t.cell c.id).resolutions = 1 ↔ c.adjointState t = .resolved)) ∧
    (c.adjointFn? ≠ none → c.adjointState t = .explicit ∧ (t.cell c.id).derived = none ∧
      (t.cell c.id).resolutions = 0) ∧
    (∀ e, c.adjointFn? = none → (c.probe : Eval K W _).outcome = .error e →
      c.adjointState t = .unresolved ∧ (t.cell c.id).resolutions = 0) ∧
    ∀ call : Call K, call.Named names → ∀ result t', call.run.run t = (result, t') →
      (c.adjointState t' = c.adjointState t ∨ call.MayProbe c.id ∧ c.DerivedBetween t t') ∧
      (¬call.MayProbe c.id ∨ c.adjointFn? ≠ none →
        c.adjointState t' = c.adjointState t ∧
        (t'.cell c.id).resolutions = (t.cell c.id).resolutions ∧
        (t'.cell c.id).forwardCalls ≤ (t.cell c.id).forwardCalls + call.applications c.id) ∧
      result = (call.run : Eval K W _).outcome := by
  have haccount : Accounted (W := W) c (t.cell c.id) := ht ▸ accounted_after hc hcalls
  refine ⟨fun hnone => ?_, fun hgiven => ?_, fun e hnone he => ?_, fun call hcall result t' hrun => ?_⟩
  · cases haccount with
    | underived hd hr => simp [adjointState, hnone, hd, hr]
    | derived _ hd _ hr => simp [adjointState, hnone, hd, hr]
  · cases haccount with
    | underived hd hr => exact ⟨if_pos (Option.isSome_iff_ne_none.mpr hgiven), hd, hr⟩
    | derived hnone _ _ _ => exact absurd hnone hgiven
  · cases haccount with
    | underived hd hr => exact ⟨by simp [adjointState, hnone, hd], hr⟩
    | derived _ _ hprobe _ =>
      rw [he] at hprobe
      cases hprobe
  · have hstep := Call.works (W := W) hc hcall t
    obtain ⟨hresult, -⟩ := Call.steady (W := W) hcall t
      (ht ▸ Trace.faithful_after (Trace.faithful_empty names) hcalls)
    rw [hrun] at hstep hresult
    refine ⟨?_, fun hnot => ?_, hresult⟩
    · exact (adjointState_step And.right hstep).imp_right fun h => ⟨h.1.1, h.2⟩
    · have hnever : ¬(call.MayProbe c.id ∧ c.adjointFn? = none) := by
        rintro ⟨hmay, hnone⟩
        exact hnot.elim (fun h => h hmay) fun h => h hnone
      cases hstep with
      | kept hd hr _ hbound => exact ⟨adjointState_eq hd, hr, hbound hnever⟩
      | derived ha _ _ _ _ _ => exact absurd ha hnever

end Closure

end Histories

/-! ### A history of two operators -/

/-- Two operators share the closure of the identity; the adjoint is needed by both. -/
def sharedHistory : List (Call ℝ) :=
  [.gram (leaf (.closure identityClosure)) (.ofArray #[1, 0]),
    .compile (.transpose (leaf (.closure identityClosure)))]

theorem lazy_adjoint_sharedHistory :
    (((Trace.empty : Trace ℝ ℝ).after sharedHistory).cell 0).resolutions ≤ 1 ∧
    ((Call.apply (leaf (.closure identityClosure)) (.ofArray #[3, 4])).run.run
      ((Trace.empty : Trace ℝ ℝ).after sharedHistory)).1 = .ok (some (.ofArray #[3, 4])) := by
  have hleaf : (leaf (.closure identityClosure)).Named fun _ => identityClosure := rfl
  have hcalls : ∀ call ∈ sharedHistory, call.Named fun _ => identityClosure := by
    rintro call (_ | ⟨_, _ | ⟨_, hnil⟩⟩)
    · exact hleaf
    · exact hleaf
    · cases hnil
  obtain ⟨honce, -, -, hnext⟩ :=
    Closure.lazy_adjoint_history (c := identityClosure) rfl hcalls (rfl : _ = Trace.after .empty _)
  refine ⟨(honce rfl).1, ?_⟩
  obtain ⟨-, -, hresult⟩ := hnext (.apply (leaf (.closure identityClosure)) (.ofArray #[3, 4])) hleaf
    _ _ rfl
  exact hresult

end OperatorSplitting
