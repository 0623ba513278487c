/-!
# Rounding to a decimal grid

A positive rational is rounded to the multiples of a power of ten: to a given number of significant
digits, or to a given number of places.  The quotient is rounded to the nearest integer, and a
`Tie` says where a half goes.  `roundDiv` is within half a unit of the quotient.
-/

namespace OperatorSplitting.Decimal

/-- Where a value half way between two grid points goes. -/
inductive Tie where
  | toEven
  | up
deriving DecidableEq, Repr

/-- The integer nearest to `num / den`. -/
def roundDiv (tie : Tie) (num den : Nat) : Nat :=
  let q := num / den
  let r := num % den
  if 2 * r < den then q
  else if den < 2 * r then q + 1
  else match tie with
    | .up => q + 1
    | .toEven => if q % 2 = 0 then q else q + 1

/-- Rounding never goes up by more than half a unit. -/
theorem two_mul_roundDiv_le (tie : Tie) (num den : Nat) :
    2 * (den * roundDiv tie num den) ≤ 2 * num + den := by
  have hm := Nat.div_add_mod num den
  have hq : den * (num / den + 1) = den * (num / den) + den := Nat.mul_succ _ _
  unfold roundDiv
  dsimp only
  split
  · omega
  · split
    · omega
    · cases tie with
      | toEven => dsimp only; split <;> omega
      | up => dsimp only; omega

/-- Rounding never goes down by more than half a unit. -/
theorem le_two_mul_roundDiv (tie : Tie) (num : Nat) {den : Nat} (hden : 0 < den) :
    2 * num ≤ 2 * (den * roundDiv tie num den) + den := by
  have hm := Nat.div_add_mod num den
  have hr := Nat.mod_lt num hden
  have hq : den * (num / den + 1) = den * (num / den) + den := Nat.mul_succ _ _
  unfold roundDiv
  dsimp only
  split
  · omega
  · split
    · omega
    · cases tie with
      | toEven => dsimp only; split <;> omega
      | up => dsimp only; omega

/-- A decimal number `coefficient * 10 ^ exponent`. -/
structure Numeral where
  coefficient : Nat
  exponent : Int
deriving DecidableEq, Repr

/-- The number of decimal digits. -/
def digitCount (n : Nat) : Nat := (Nat.toDigits 10 n).length

/-- The position of the first digit: the `k` with `10 ^ (k - 1) ≤ num / den < 10 ^ k`. -/
def leadingPosition (num den : Nat) : Int :=
  if den ≤ num then
    digitCount (num / den)
  else
    let t := digitCount (den / num)
    if den ≤ num * Nat.pow 10 (t - 1) then 2 - t else 1 - t

/-- `num / den` in units of `10 ^ p`, as a quotient of natural numbers. -/
def inUnits (num den : Nat) (p : Int) : Nat × Nat :=
  (num * Nat.pow 10 (-p).toNat, den * Nat.pow 10 p.toNat)

/-- A positive quotient rounded to `n` significant digits, a half to even. -/
def significant (n num den : Nat) : Numeral :=
  let p := leadingPosition num den - n
  let scaled := inUnits num den p
  let c := roundDiv .toEven scaled.1 scaled.2
  if c = Nat.pow 10 n then ⟨Nat.pow 10 (n - 1), p + 1⟩ else ⟨c, p⟩

/-- A quotient rounded to `n` places, a half to even. -/
def places (n num den : Nat) : Numeral :=
  ⟨roundDiv .toEven (num * Nat.pow 10 n) den, -(n : Int)⟩

end OperatorSplitting.Decimal
