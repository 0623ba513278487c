import OperatorSplitting.Json.Value
import OperatorSplitting.Decimal.Digits

/-!
# Number literals

A literal is a sign, whole digits, digits after the point and an exponent.  A literal with neither a
point nor an exponent is whole.  As a floating-point number a literal is read by its leading digits:
the significand grows while it fits in 64 bits, whole digits beyond that only raise the exponent and
later digits after the point are dropped; then the significand is scaled once by a power of ten.
-/

namespace OperatorSplitting.Json

open Decimal

/-- The parts of a number literal; digits are numbers below ten. -/
structure Literal where
  negative : Bool
  whole : List Nat
  fraction : Option (List Nat)
  exponent : Option (Bool × List Nat)

namespace Literal

/-- The part after the whole digits: a point with at least one digit, and an exponent. -/
def tail? : List Char → Option (Option (List Nat) × Option (Bool × List Nat))
  | '.' :: cs =>
    match digits cs with
    | ([], _) => none
    | (d :: ds, rest) => (exponentPart? rest).map fun e => (some (d :: ds), e)
  | cs => (exponentPart? cs).map fun e => (none, e)

/-- A literal without its sign.  The whole digits are a single zero or start with another digit. -/
def unsigned? (negative : Bool) (cs : List Char) : Option Literal :=
  match digits cs with
  | ([], _) => none
  | (0 :: _ :: _, _) => none
  | (ds, rest) => (tail? rest).map fun t => ⟨negative, ds, t.1, t.2⟩

/-- Read a literal; the whole text has to be one. -/
def ofChars? : List Char → Option Literal
  | '-' :: cs => unsigned? true cs
  | cs => unsigned? false cs

/-- Counts are below this bound. -/
def wordBound : Nat := Nat.pow 2 64

/-- Whether the literal has neither a point nor an exponent. -/
def isWhole (l : Literal) : Bool := l.fraction.isNone && l.exponent.isNone

/-- The count that the literal stands for: whole, without a sign, and within 64 bits. -/
def toNat? (l : Literal) : Option Nat :=
  let n := natOfDigits l.whole
  if l.isWhole && !l.negative && decide (n < wordBound) then some n else none

/-- Append whole digits to a significand; once a digit does not fit, it and all later ones are only
counted. -/
def growWhole : Nat → List Nat → Nat × Nat
  | n, [] => (n, 0)
  | n, d :: ds =>
    if 10 * n + d < wordBound then growWhole (10 * n + d) ds else (n, ds.length + 1)

/-- Append digits after the point to a significand while they fit, and count the appended ones. -/
def growFraction : Nat → List Nat → Nat × Nat
  | n, [] => (n, 0)
  | n, d :: ds =>
    if 10 * n + d < wordBound then
      let r := growFraction (10 * n + d) ds
      (r.1, r.2 + 1)
    else (n, 0)

/-- The largest power of ten used in one step of scaling. -/
def maxPower : Nat := 308

/-- Divide by the power of ten, in several steps if it is beyond `10 ^ 308`. -/
def scaleDown : Nat → Float → Nat → Float
  | 0, f, _ => f
  | steps + 1, f, e =>
    if e ≤ maxPower then f / Float.ofScientific 1 false e
    else if f == 0.0 then f
    else scaleDown steps (f / Float.ofScientific 1 false maxPower) (e - maxPower)

/-- A significand times a power of ten; `none` beyond the largest finite number. -/
def scale? (significand : Nat) (e : Int) : Option Float :=
  let f := Float.ofNat significand
  if e < 0 then some (scaleDown 4 f e.natAbs)
  else if e.natAbs ≤ maxPower then
    let r := f * Float.ofScientific 1 false e.natAbs
    if r.isInf then none else some r
  else if significand = 0 then some f
  else none

/-- Exponents are kept within 32 bits. -/
def exponentBound : Nat := Nat.pow 2 31

/-- The magnitude of the literal.  An exponent beyond 32 bits makes it zero or too large. -/
def magnitude? (l : Literal) : Option Float :=
  let w := growWhole 0 l.whole
  let f := growFraction w.1 (l.fraction.getD [])
  let start : Int := w.2 - f.2
  match l.exponent with
  | none => scale? f.1 start
  | some (negative, ds) =>
    let e := natOfDigits ds
    if e < exponentBound then scale? f.1 (if negative then start - e else start + e)
    else if f.1 = 0 || negative then some 0.0
    else none

/-- The floating-point number that the literal stands for. -/
def toFloat? (l : Literal) : Option Float :=
  (magnitude? l).map fun m => if l.negative then -m else m

end Literal

end OperatorSplitting.Json
