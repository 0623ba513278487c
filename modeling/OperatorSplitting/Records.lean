import OperatorSplitting.Json.Reader
import OperatorSplitting.Json.Writer
import OperatorSplitting.Json.Record
import OperatorSplitting.Scalar.Floating
import OperatorSplitting.Admm.Config
import OperatorSplitting.Admm.History
import OperatorSplitting.ConjugateGradient
import OperatorSplitting.TotalVariation

/-!
# Records in files

Settings, reports and histories as JSON records.  A number that is not finite is written as `null`.
Settings have defaults for all fields; reports need their fields.
-/

namespace OperatorSplitting

open Json

/-- A type that stands in files as a JSON value. -/
class Recorded (α : Type) where
  toJson : α → Json
  ofJson? : Json → Option α

namespace Recorded

/-- A floating-point number; one that is not finite is `null`. -/
def ofFloat (x : Float) : Json :=
  match (Decimal.ofDouble x).literal with
  | some text => .number text
  | none => .null

/-- A value from its text, with nothing after it. -/
def read? {α : Type} [Recorded α] (text : String) : Except Error α :=
  match (Json.parse? text).bind ofJson? with
  | some a => .ok a
  | none => .error .serialization

end Recorded

open Recorded

/-- An object with one field. -/
def Json.single (name : String) (v : Json) : Json := .ofFields [(name, v)]

instance : Recorded RecordOptions where
  toJson o := .ofFields [("period", .ofNat o.period), ("display", .bool o.display)]
  ofJson? v := do
    match ← fields? false ["period", "display"] v with
    | [period, display] =>
      some ⟨← withDefault RecordOptions.default.period asNat? period,
        ← withDefault RecordOptions.default.display asBool? display⟩
    | _ => none

instance : Recorded (Config Float) where
  toJson c := .ofFields
    [("max_iter", .ofNat c.maxIter), ("itstat", toJson c.record),
      ("stop_tolerance", .ofOption ofFloat c.stopTolerance)]
  ofJson? v := do
    match ← fields? false ["max_iter", "itstat", "stop_tolerance"] v with
    | [maxIter, record, tolerance] =>
      let default : Config Float := .default
      some ⟨← withDefault default.maxIter asNat? maxIter,
        ← withDefault default.record ofJson? record,
        ← withDefault default.stopTolerance (asOptional? asFloat?) tolerance⟩
    | _ => none

instance : Recorded (CgOptions Float) where
  toJson o := .ofFields
    [("tol", ofFloat o.tol), ("atol", ofFloat o.atol), ("max_iter", .ofNat o.maxIter)]
  ofJson? v := do
    match ← fields? false ["tol", "atol", "max_iter"] v with
    | [tol, atol, maxIter] =>
      let default : CgOptions Float := .default
      some ⟨← withDefault default.tol asFloat? tol, ← withDefault default.atol asFloat? atol,
        ← withDefault default.maxIter asNat? maxIter⟩
    | _ => none

instance : Recorded (CgReport Float) where
  toJson r := .ofFields
    [("iterations", .ofNat r.iterations), ("residual", ofFloat r.residual),
      ("converged", .bool r.converged)]
  ofJson? v := do
    match ← fields? true ["iterations", "residual", "converged"] v with
    | [iterations, residual, converged] =>
      some ⟨← needed asNat? iterations, ← needed asFloat? residual, ← needed asBool? converged⟩
    | _ => none

instance : Recorded (IterationStats Float) where
  toJson s := .ofFields
    [("iteration", .ofNat s.iteration), ("time", ofFloat s.time),
      ("objective", .ofOption ofFloat s.objective), ("primal_residual", ofFloat s.primalResidual),
      ("dual_residual", ofFloat s.dualResidual),
      ("inner_iterations", .ofOption .ofNat s.innerIterations),
      ("inner_residual", .ofOption ofFloat s.innerResidual),
      ("inner_converged", .ofOption .bool s.innerConverged)]
  ofJson? v := do
    match ← fields? true ["iteration", "time", "objective", "primal_residual", "dual_residual",
        "inner_iterations", "inner_residual", "inner_converged"] v with
    | [iteration, time, objective, primal, dual, innerIterations, innerResidual, innerConverged] =>
      some ⟨← needed asNat? iteration, ← needed asFloat? time, ← optional asFloat? objective,
        ← needed asFloat? primal, ← needed asFloat? dual, ← optional asNat? innerIterations,
        ← optional asFloat? innerResidual, ← optional asBool? innerConverged⟩
    | _ => none

/-- The rows of a history as one array. -/
def History.toJson (h : History Float) : Json := .ofList Recorded.toJson h.records

/-- The text of a history file. -/
def History.fileText (h : History Float) : String := h.toJson.pretty

/-- The rows of a history file. -/
def History.ofFileText? (text : String) : Option (List (IterationStats Float)) :=
  (Json.parse? text).bind (asList? Recorded.ofJson?)

instance : Recorded (History Float) where
  toJson h := .single "records" h.toJson
  ofJson? v := do
    match ← fields? true ["records"] v with
    | [records] => some (.ofRecords (← needed (asList? Recorded.ofJson?) records))
    | _ => none

instance : Recorded (TotalVariation.Reference Float) where
  toJson r := .ofFields
    [("x", .ofList ofFloat r.x.toList), ("objective", ofFloat r.objective),
      ("gap", ofFloat r.gap), ("iterations", .ofNat r.iterations)]
  ofJson? v := do
    match ← fields? true ["x", "objective", "gap", "iterations"] v with
    | [x, objective, gap, iterations] =>
      let x ← needed (asList? asFloat?) x
      some ⟨x.toArray, ← needed asFloat? objective, ← needed asFloat? gap,
        ← needed asNat? iterations⟩
    | _ => none

/-- The extents of a box. -/
def extents (dims : List Nat) : Json := .ofList .ofNat dims

instance : Recorded Shape where
  toJson
    | .flat dims => .single "Flat" (extents dims)
    | .blocked blocks => .single "Blocked" (.ofList extents blocks)
  ofJson? v :=
    match v with
    | .object [(some "Flat", dims)] => (asList? asNat? dims).map .flat
    | .object [(some "Blocked", blocks)] => (asList? (asList? asNat?) blocks).map .blocked
    | _ => none

/-- The name of an element type in records. -/
def DType.recordName : DType → String
  | .single => "F32"
  | .double => "F64"
  | .complexSingle => "Complex64"
  | .complexDouble => "Complex128"

/-- The name of a boundary rule in records. -/
def Boundary.recordName : Boundary → String
  | .truncate => "Truncate"
  | .appendZero => "AppendZero"
  | .circular => "Circular"

/-- The value with a given name among some values. -/
def findNamed? {α : Type} (name : α → String) (values : List α) (v : Json) : Option α := do
  let wanted ← asName? v
  values.find? fun a => name a = wanted

instance : Recorded DType where
  toJson d := .ofString d.recordName
  ofJson? := findNamed? DType.recordName [.single, .double, .complexSingle, .complexDouble]

instance : Recorded Boundary where
  toJson b := .ofString b.recordName
  ofJson? := findNamed? Boundary.recordName [.truncate, .appendZero, .circular]

instance : Recorded RunState where
  toJson s := .ofString s.name
  ofJson? := findNamed? RunState.name [.initialized, .running, .converged, .maxIterReached]

end OperatorSplitting
