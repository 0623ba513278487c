import Std.Data.HashMap
import OperatorSplitting.Linear.Matrix

/-!
# What evaluation leaves behind

Evaluating operators and solvers has two lasting effects.  A closure operator without an adjoint has
it derived once and kept, and its calls are counted: that is its `Cell`, found under the number of
the closure.  And some events are reported.  A `Trace` holds both, and `Eval` threads it through
computations; a failed computation keeps what it left behind.
-/

namespace OperatorSplitting

open NumberText

/-- What is known of one closure operator. -/
structure Cell (K : Type) where
  derived : Option (DenseMatrix K)
  resolutions : Nat
  forwardCalls : Nat
  adjointCalls : Nat

/-- Nothing has been derived or called. -/
def Cell.fresh {K : Type} : Cell K := ⟨none, 0, 0, 0⟩

/-- Something that a computation reports. -/
inductive Event (W : Type) where
  | adjointDerived (input output : Shape)
  | delegated (denoiser : String) (dims : List Nat) (sigma : W)
  | linearSystem (operator : String)
  | gradientSteps (count : Nat) (functional : String)
  | searchStalled
  | unconverged (tolerance : W) (iterations : Nat) (residual : W)
  | referenceSolved (objective : W) (iterations : Nat) (gap : W)

namespace Event

variable {W : Type}

/-- Whether the event is a warning; the others are for debugging. -/
def isWarning : Event W → Bool
  | .searchStalled | .unconverged .. => true
  | _ => false

/-- The wording of an event. -/
def message [NumberText W] : Event W → String
  | .adjointDerived input output =>
    s!"Derived adjoint of closure operator {input.text} -> {output.text}"
  | .delegated denoiser dims sigma =>
    s!"Delegating {denoiser} on {dimsList dims} with sigma " ++ plain sigma
  | .linearSystem operator => s!"Linear x-update operator: {operator}"
  | .gradientSteps count functional =>
    s!"Generic x-update: {count} gradient steps per iteration on {functional}"
  | .searchStalled => "Line search found no decrease; keeping the current iterate"
  | .unconverged tolerance iterations residual =>
    s!"CG did not reach tolerance {scientific none tolerance} in {iterations} iterations " ++
      s!"(residual {scientific (some 3) residual})"
  | .referenceSolved objective iterations gap =>
    s!"Reference TV solve: p* = {fixed 10 objective} after {iterations} iterations " ++
      s!"(gap {scientific (some 3) gap})"

/-- The line of an event in a log: its level and its wording. -/
def line [NumberText W] (e : Event W) : String :=
  (if e.isWarning then "WARN " else "DEBUG ") ++ e.message

end Event

/-- The cells of all closures and the events so far. -/
structure Trace (K W : Type) where
  cells : Std.HashMap Nat (Cell K)
  events : Array (Event W)

namespace Trace

variable {K W : Type}

/-- Nothing has happened. -/
def empty : Trace K W := ⟨∅, #[]⟩

/-- The cell of a closure. -/
def cell (t : Trace K W) (id : Nat) : Cell K := t.cells.getD id .fresh

/-- Change the cell of a closure. -/
def modifyCell (t : Trace K W) (id : Nat) (f : Cell K → Cell K) : Trace K W :=
  { t with cells := t.cells.insert id (f (t.cell id)) }

/-- The events after the first `n`. -/
def since (t : Trace K W) (n : Nat) : List (Event W) := t.events.toList.drop n

/-- Report an event. -/
def report (t : Trace K W) (e : Event W) : Trace K W := { t with events := t.events.push e }

theorem cell_modifyCell (t : Trace K W) (id : Nat) (f : Cell K → Cell K) (k : Nat) :
    (t.modifyCell id f).cell k = if k = id then f (t.cell id) else t.cell k := by
  unfold modifyCell cell
  rw [Std.HashMap.getD_insert]
  by_cases h : k = id
  · simp [h]
  · have h' : (id == k) = false := by simpa using fun e => h e.symm
    simp [h, h']

@[simp] theorem events_modifyCell (t : Trace K W) (id : Nat) (f : Cell K → Cell K) :
    (t.modifyCell id f).events = t.events := rfl

theorem since_report (t : Trace K W) (e : Event W) {n : Nat} (h : n ≤ t.events.size) :
    (t.report e).since n = t.since n ++ [e] := by
  simp [since, report, List.drop_append_of_le_length, h]

@[simp] theorem cell_report (t : Trace K W) (e : Event W) (id : Nat) :
    (t.report e).cell id = t.cell id := rfl

end Trace

/-- A computation that may fail and leaves a trace either way. -/
abbrev Eval (K W : Type) := ExceptT Error (StateM (Trace K W))

/-- Report an event. -/
def report {K W : Type} (e : Event W) : Eval K W Unit := modify fun t => t.report e

end OperatorSplitting
