import OperatorSplitting.Decimal.Binary
import OperatorSplitting.Decimal.Rounding

/-!
# The fewest digits that read back

The reals that round to a binary datum form an interval around it, with its ends included exactly
when the significand is even.  `shortest` tries one digit, two digits and so on: the two neighbours
of the value on that decimal grid are tested in exact integer arithmetic, the first grid with a
neighbour inside the interval wins, and of two neighbours the nearer one; a `Tie` decides between
two equally near ones.
-/

namespace OperatorSplitting.Decimal

/-- A magnitude and the ends of its rounding interval as multiples of one common unit, beside the
length of a grid step of `10 ^ p` in that unit. -/
structure Scale where
  low : Nat
  value : Nat
  high : Nat
  step : Nat

/-- The interval of `m` measured against the grid of `10 ^ p`.  The significand is counted in
quarters, so that both half distances are whole. -/
def Magnitude.scale (m : Magnitude) (p : Int) : Scale :=
  let e := m.exponent - 2
  let unit := Nat.pow 2 e.toNat * Nat.pow 10 (-p).toNat
  { low := (4 * m.significand - if m.narrowBelow then 1 else 2) * unit
    value := 4 * m.significand * unit
    high := (4 * m.significand + 2) * unit
    step := Nat.pow 10 p.toNat * Nat.pow 2 (-e).toNat }

/-- The grid point to print, if one of the two neighbours of the value lies in the interval. -/
def Scale.pick (s : Scale) (closed : Bool) (tie : Tie) : Option Nat :=
  let below := s.value / s.step
  let above := below + 1
  let belowIn := if closed then s.low ≤ below * s.step else s.low < below * s.step
  let aboveIn := if closed then above * s.step ≤ s.high else above * s.step < s.high
  if belowIn then
    if aboveIn then some (roundDiv tie s.value s.step) else some below
  else if aboveIn then some above else none

/-- The first grid, from `n` digits on, with a point in the interval. -/
def shortestFrom (tie : Tie) (m : Magnitude) (k : Int) : Nat → Nat → Option Numeral
  | _, 0 => none
  | n, fuel + 1 =>
    let p := k - n
    match (m.scale p).pick (m.significand % 2 == 0) tie with
    | some c => some ⟨c, p⟩
    | none => shortestFrom tie m k (n + 1) fuel

/-- The shortest decimal that reads back as the positive magnitude `m`.  Seventeen digits always
suffice in double precision. -/
def shortest (tie : Tie) (m : Magnitude) : Numeral :=
  let k := leadingPosition m.ratio.1 m.ratio.2
  (shortestFrom tie m k 1 17).getD (significant 17 m.ratio.1 m.ratio.2)

end OperatorSplitting.Decimal
