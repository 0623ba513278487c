/-!
# Element types

The four element types of signals and operators, and the type in which two of them are combined:
complex as soon as one is complex, double as soon as one is double.
-/

namespace OperatorSplitting

/-- An element type. -/
inductive DType where
  | single
  | double
  | complexSingle
  | complexDouble
deriving DecidableEq, Repr

namespace DType

/-- Whether the elements have an imaginary part. -/
def isComplex : DType → Bool
  | .complexSingle | .complexDouble => true
  | .single | .double => false

/-- The type of real and imaginary parts. -/
def realPart : DType → DType
  | .single | .complexSingle => .single
  | .double | .complexDouble => .double

/-- Whether the parts are double precision. -/
def isWide (a : DType) : Bool := a.realPart = .double

/-- The type that holds elements of both types. -/
def promote (a b : DType) : DType :=
  match a.isComplex || b.isComplex, a.isWide || b.isWide with
  | true, true => .complexDouble
  | true, false => .complexSingle
  | false, true => .double
  | false, false => .single

/-- The name that messages use. -/
def name : DType → String
  | .single => "float32"
  | .double => "float64"
  | .complexSingle => "complex64"
  | .complexDouble => "complex128"

theorem promote_self (a : DType) : promote a a = a := by cases a <;> decide

theorem promote_comm (a b : DType) : promote a b = promote b a := by
  cases a <;> cases b <;> decide

theorem promote_assoc (a b c : DType) : promote (promote a b) c = promote a (promote b c) := by
  cases a <;> cases b <;> cases c <;> decide

end DType

end OperatorSplitting
