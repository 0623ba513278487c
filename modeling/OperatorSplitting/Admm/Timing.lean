import Std.Data.HashMap
import OperatorSplitting.Scalar.Arithmetic
import OperatorSplitting.Tensor.Capacity

/-!
# Timing of phases

Every phase of a run leaves a record under the number of the iteration it belongs to.  Durations and
time stamps are handed in by whoever has a clock.
-/

namespace OperatorSplitting

open RealArithmetic

/-- A span of time; whole seconds are a count. -/
structure Duration where
  seconds : Nat
  nanoseconds : Nat
  seconds_lt : seconds < countRange
  nanoseconds_lt : nanoseconds < 1000000000

/-- The span of some seconds and nanoseconds, of which a thousand million are a second. -/
def Duration.ofParts? (seconds nanoseconds : Nat) : Option Duration :=
  let whole := seconds + nanoseconds / 1000000000
  if h : whole < countRange then
    some ⟨whole, nanoseconds % 1000000000, h, Nat.mod_lt _ (by decide)⟩
  else none

/-- The span in milliseconds. -/
def Duration.milliseconds {W : Type} [RealArithmetic W] (d : Duration) : W :=
  (ofNat d.seconds + ofNat d.nanoseconds / ofNat 1000000000) * ofNat 1000

/-- One timed phase. -/
structure TimingRecord (W : Type) where
  phase : String
  iteration : Nat
  milliseconds : W
  timestamp : Nat

/-- The phases recorded so far, the newest first, and the number of the current iteration. -/
structure Timing (W : Type) where
  newest : List (TimingRecord W)
  iteration : Nat

/-- The durations of one phase, summed up.  While durations are still being added, their sum stands in
the place of the average. -/
structure PhaseSummary (W : Type) where
  averageMs : W
  maxMs : W
  count : Nat

namespace PhaseSummary

variable {W : Type} [RealArithmetic W]

/-- No durations. -/
def empty : PhaseSummary W := ⟨0, 0, 0⟩

/-- Add a duration to the sum. -/
def add (s : PhaseSummary W) (ms : W) : PhaseSummary W :=
  ⟨s.averageMs + ms, RealArithmetic.max s.maxMs ms, s.count + 1⟩

/-- Turn the sum into the average. -/
def averaged (s : PhaseSummary W) : PhaseSummary W :=
  { s with averageMs := s.averageMs / ofNat s.count }

end PhaseSummary

namespace Timing

variable {W : Type}

/-- Nothing has been recorded, before the first iteration. -/
def empty : Timing W := ⟨[], 0⟩

/-- The records in the order in which they were made. -/
def records (t : Timing W) : List (TimingRecord W) := t.newest.reverse

/-- Later records belong to the next iteration. -/
def startIteration (t : Timing W) : Timing W := { t with iteration := t.iteration + 1 }

/-- Record a phase of the current iteration. -/
def record (t : Timing W) (phase : String) (milliseconds : W) (timestamp : Nat) : Timing W :=
  { t with newest := ⟨phase, t.iteration, milliseconds, timestamp⟩ :: t.newest }

/-- Record a phase that was run without a clock. -/
def mark [Zero W] (t : Timing W) (phase : String) : Timing W := t.record phase 0 0

@[simp] theorem records_empty : (empty : Timing W).records = [] := rfl

@[simp] theorem records_startIteration (t : Timing W) : t.startIteration.records = t.records := rfl

@[simp] theorem iteration_startIteration (t : Timing W) :
    t.startIteration.iteration = t.iteration + 1 := rfl

@[simp] theorem records_record (t : Timing W) (phase : String) (ms : W) (stamp : Nat) :
    (t.record phase ms stamp).records = t.records ++ [⟨phase, t.iteration, ms, stamp⟩] := by
  simp [records, record]

@[simp] theorem iteration_record (t : Timing W) (phase : String) (ms : W) (stamp : Nat) :
    (t.record phase ms stamp).iteration = t.iteration := rfl

section Statistics

variable [RealArithmetic W]

/-- Add a record to the sums of its phase. -/
def addRecord (sums : Std.HashMap String (PhaseSummary W)) (r : TimingRecord W) :
    Std.HashMap String (PhaseSummary W) :=
  sums.alter r.phase fun s => some ((s.getD .empty).add r.milliseconds)

theorem getElem?_addRecord (sums : Std.HashMap String (PhaseSummary W)) (r : TimingRecord W)
    (phase : String) :
    (addRecord sums r)[phase]? =
      if r.phase = phase then some ((sums[phase]?.getD .empty).add r.milliseconds)
      else sums[phase]? := by
  rw [addRecord, Std.HashMap.getElem?_alter]
  by_cases h : r.phase = phase
  · rw [if_pos (beq_iff_eq.mpr h), if_pos h, h]
  · rw [if_neg (by simpa using h), if_neg h]

/-- The sums of each recorded phase. -/
def sums (t : Timing W) : Std.HashMap String (PhaseSummary W) := t.records.foldl addRecord ∅

/-- The summary of each recorded phase. -/
def summaries (t : Timing W) : Std.HashMap String (PhaseSummary W) :=
  t.sums.map fun _ s => s.averaged

/-- The summaries, sorted by the names of the phases. -/
def statistics (t : Timing W) : List (String × PhaseSummary W) :=
  t.summaries.toList.mergeSort fun a b => a.1 ≤ b.1

end Statistics

/-- The records as comma-separated values, a line for each record after the header. -/
def csv [NumberText W] (t : Timing W) : String :=
  let row (r : TimingRecord W) : String :=
    String.intercalate ","
      [r.phase, toString r.iteration, NumberText.fixed 3 r.milliseconds, toString r.timestamp]
  String.join (("step_name,iteration,duration_ms,timestamp" :: t.records.map row).map (· ++ "\n"))

end Timing

end OperatorSplitting
