import OperatorSplitting.Decimal.Digits
import OperatorSplitting.Decimal.Rounding

/-!
# Reading numbers from text

A number is an optional sign before digits with an optional point, on at least one side of which
there is a digit, and an optional exponent; or it is one of the names of an infinity and of the
datum that is not a number, in letters of either case.  The result is the nearest double-precision
number.
-/

namespace OperatorSplitting.Decimal

/-- The digits around a point as a whole number, the number of them after the point, and the rest of
the text. -/
def mantissa? (cs : List Char) : Option (Nat × Nat × List Char) :=
  let whole := digits cs
  let fraction := match whole.2 with
    | '.' :: rest => digits rest
    | rest => ([], rest)
  if whole.1.isEmpty && fraction.1.isEmpty then none
  else some (natOfDigits (whole.1 ++ fraction.1), fraction.1.length, fraction.2)

/-- The decimal number that the text stands for; the whole text has to be one. -/
def Numeral.ofChars? (cs : List Char) : Option Numeral := do
  let (coefficient, places, rest) ← mantissa? cs
  let exponent : Int := match ← exponentPart? rest with
    | none => 0
    | some (true, ds) => -(natOfDigits ds : Int)
    | some (false, ds) => natOfDigits ds
  some ⟨coefficient, exponent - places⟩

/-- A number of this order or above is beyond all finite data. -/
def orderBound : Int := 400

/-- The nearest double-precision number. -/
def Numeral.toDouble (d : Numeral) : Float :=
  let order := d.exponent + digitCount d.coefficient
  if d.coefficient = 0 ∨ order < -orderBound then 0.0
  else if orderBound < order then 1.0 / 0.0
  else Float.ofScientific d.coefficient (decide (d.exponent < 0)) d.exponent.natAbs

/-- A number without its sign. -/
def unsignedDouble? (cs : List Char) : Option Float :=
  match Numeral.ofChars? cs with
  | some d => some d.toDouble
  | none =>
    let name := String.ofList (cs.map Char.toLower)
    if name = "inf" ∨ name = "infinity" then some (1.0 / 0.0)
    else if name = "nan" then some (0.0 / 0.0)
    else none

/-- Read a number. -/
def readDouble? (text : String) : Option Float :=
  match text.toList with
  | '-' :: cs => (unsignedDouble? cs).map (- ·)
  | '+' :: cs => unsignedDouble? cs
  | cs => unsignedDouble? cs

/-- Read a count: digits after an optional plus sign, below `bound`. -/
def readCount? (bound : Nat) (text : String) : Option Nat :=
  let cs := match text.toList with
    | '+' :: cs => cs
    | cs => cs
  match digits cs with
  | (d :: ds, []) =>
    let n := natOfDigits (d :: ds)
    if n < bound then some n else none
  | _ => none

example : Numeral.ofChars? ['5', '.', 'e', '2'] = some ⟨5, 2⟩ := by decide

example : Numeral.ofChars? ['.'] = none := by decide

example : Numeral.ofChars? ['.', '2', '5'] = some ⟨25, -2⟩ := by decide

end OperatorSplitting.Decimal
