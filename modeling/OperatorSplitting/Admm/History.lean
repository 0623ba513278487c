import OperatorSplitting.Scalar.Arithmetic
import OperatorSplitting.Decimal.Layout

/-!
# Iteration statistics

A run records one row of statistics for some of its iterations.  The rows can be laid out as a
table, as comma-separated values, or turned into columns.
-/

namespace OperatorSplitting

open Decimal NumberText

/-- One row of statistics.  The inner fields describe the linear solve of the x-update, if there was
one; the objective is missing when some penalty cannot be evaluated. -/
structure IterationStats (W : Type) where
  iteration : Nat
  time : W
  objective : Option W
  primalResidual : W
  dualResidual : W
  innerIterations : Option Nat
  innerResidual : Option W
  innerConverged : Option Bool

namespace IterationStats

variable {W : Type}

/-- The sum of both residuals, which the stop tolerance bounds. -/
def combinedResidual [Add W] (s : IterationStats W) : W := s.primalResidual + s.dualResidual

/-- The heading of the table. -/
def tableHeader (withInner : Bool) : String :=
  let heading := String.intercalate "  "
    [padLeft 5 "Iter", padLeft 9 "Time", padLeft 12 "Objective", padLeft 10 "Prml Rsdl",
      padLeft 10 "Dual Rsdl"]
  if withInner then
    heading ++ "  " ++ padLeft 5 "CG It" ++ "  " ++ padLeft 10 "CG Res"
  else heading

/-- The row of the table. -/
def tableRow [NumberText W] (s : IterationStats W) : String :=
  let objective := match s.objective with
    | some v => scientific (some 4) v
    | none => "-"
  let row := String.intercalate "  "
    [padLeft 5 (toString s.iteration), padLeft 9 (scientific (some 2) s.time),
      padLeft 12 objective, padLeft 10 (scientific (some 3) s.primalResidual),
      padLeft 10 (scientific (some 3) s.dualResidual)]
  match s.innerIterations, s.innerResidual with
  | some n, some r =>
    row ++ "  " ++ padLeft 5 (toString n) ++ "  " ++ padLeft 10 (scientific (some 3) r)
  | _, _ => row

/-- The row as comma-separated values; a missing value leaves its cell empty. -/
def csvRow [NumberText W] (s : IterationStats W) : String :=
  String.intercalate ","
    [toString s.iteration, fixed 6 s.time, (s.objective.map plain).getD "",
      plain s.primalResidual, plain s.dualResidual, (s.innerIterations.map toString).getD "",
      (s.innerResidual.map plain).getD "", (s.innerConverged.map toString).getD ""]

end IterationStats

/-- The rows turned into columns. -/
structure HistoryColumns (W : Type) where
  iteration : List Nat
  time : List W
  objective : List (Option W)
  primalResidual : List W
  dualResidual : List W
  innerIterations : List (Option Nat)
  innerResidual : List (Option W)
  innerConverged : List (Option Bool)

/-- The rows recorded so far, the newest first. -/
structure History (W : Type) where
  newest : List (IterationStats W)

namespace History

variable {W : Type}

/-- Nothing has been recorded. -/
def empty : History W := ⟨[]⟩

/-- A history of some rows. -/
def ofRecords (rows : List (IterationStats W)) : History W := ⟨rows.reverse⟩

/-- The rows in the order in which they were recorded. -/
def records (h : History W) : List (IterationStats W) := h.newest.reverse

/-- Append a row. -/
def push (h : History W) (s : IterationStats W) : History W := ⟨s :: h.newest⟩

/-- The number of rows. -/
def length (h : History W) : Nat := h.newest.length

/-- Whether nothing has been recorded. -/
def isEmpty (h : History W) : Bool := h.newest.isEmpty

/-- The row recorded last. -/
def last? (h : History W) : Option (IterationStats W) := h.newest.head?

@[simp] theorem records_ofRecords (rows : List (IterationStats W)) :
    (ofRecords rows).records = rows := List.reverse_reverse rows

@[simp] theorem records_empty : (empty : History W).records = [] := rfl

@[simp] theorem records_push (h : History W) (s : IterationStats W) :
    (h.push s).records = h.records ++ [s] := by
  simp [records, push]

theorem length_records (h : History W) : h.records.length = h.length := by
  simp [records, length]

theorem last?_eq_getLast?_records (h : History W) : h.last? = h.records.getLast? := by
  simp [last?, records]

/-- The columns. -/
def columns (h : History W) : HistoryColumns W where
  iteration := h.records.map (·.iteration)
  time := h.records.map (·.time)
  objective := h.records.map (·.objective)
  primalResidual := h.records.map (·.primalResidual)
  dualResidual := h.records.map (·.dualResidual)
  innerIterations := h.records.map (·.innerIterations)
  innerResidual := h.records.map (·.innerResidual)
  innerConverged := h.records.map (·.innerConverged)

/-- The names of the columns. -/
def csvHeader : String :=
  "iteration,time,objective,primal_residual,dual_residual," ++
    "inner_iterations,inner_residual,inner_converged"

/-- The history as comma-separated values, a line for each row after the header. -/
def csv [NumberText W] (h : History W) : String :=
  String.join ((csvHeader :: h.records.map IterationStats.csvRow).map (· ++ "\n"))

end History

end OperatorSplitting
