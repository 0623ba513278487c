import OperatorSplitting.Error
import OperatorSplitting.Scalar.Arithmetic

/-!
# Settings of a run

How many iterations a run may take, which of them it records, and the tolerance at which it stops.
-/

namespace OperatorSplitting

open RealArithmetic

/-- Which iterations are recorded, and whether they are shown. -/
structure RecordOptions where
  period : Nat
  display : Bool
deriving DecidableEq, Repr

/-- Every iteration is recorded and none is shown. -/
def RecordOptions.default : RecordOptions := ⟨1, false⟩

/-- The settings of a run. -/
structure Config (W : Type) where
  maxIter : Nat
  record : RecordOptions
  stopTolerance : Option W

namespace Config

variable {W : Type}

/-- A hundred iterations, all recorded, without a tolerance. -/
def default : Config W := ⟨100, .default, none⟩

/-- The first fault of the settings. -/
def fault? [RealArithmetic W] (c : Config W) : Option ConfigurationFault :=
  if c.record.period = 0 then some .zeroPeriod
  else match c.stopTolerance with
    | none => none
    | some tol => if isNonNegative tol then none else some (.stopTolerance (NumberText.plain tol))

end Config

end OperatorSplitting
