import OperatorSplitting.Scalar.DType

/-!
# Arithmetic of elements

All algorithms are written once, over the operations of three number types: the elements `K` of
signals, their real type `R` (moduli, weights, step sizes), and the wide type `W` in which
tolerances, residuals and statistics are kept.  The classes state the operations only.  They ask for
no law, so that rounded arithmetic is an instance as well as exact arithmetic; comparisons are
Booleans for the same reason.
-/

namespace OperatorSplitting

/-- The four operations with zero and one. -/
class Arithmetic (K : Type) extends Zero K, One K, Add K, Sub K, Mul K, Div K, Neg K

/-- How numbers stand in messages and tables. -/
class NumberText (R : Type) where
  /-- The fewest digits that determine the number, without an exponent. -/
  plain : R → String
  /-- One digit, a point, the given number of places (or the fewest that determine the number) and
  an exponent. -/
  scientific : Option Nat → R → String
  /-- The given number of places. -/
  fixed : Nat → R → String

/-- Arithmetic of real numbers. -/
class RealArithmetic (R : Type) extends Arithmetic R, NumberText R where
  sqrt : R → R
  abs : R → R
  /-- The length of the vector with the two given parts. -/
  hypot : R → R → R
  /-- The larger number; a datum that is not a number gives way to the other one. -/
  max : R → R → R
  le : R → R → Bool
  lt : R → R → Bool
  beq : R → R → Bool
  isFinite : R → Bool
  infinity : R
  ofNat : Nat → R

namespace RealArithmetic

variable {R : Type} [RealArithmetic R]

/-- The number two. -/
def two : R := 1 + 1

/-- One half. -/
def half : R := 1 / (1 + 1)

/-- Whether a number is a usable weight: above zero and finite. -/
def isPositive (r : R) : Bool := lt 0 r && isFinite r

/-- Whether a number is a usable tolerance: at least zero and finite. -/
def isNonNegative (r : R) : Bool := le 0 r && isFinite r

/-- The nearest number between the two bounds. -/
def clamp (r low high : R) : R :=
  if lt r low then low else if lt high r then high else r

end RealArithmetic

/-- The embedding of the real type into the wide type. -/
class Widening (R : Type) (W : outParam Type) where
  widen : R → W

/-- Arithmetic of elements, with real type `R` and wide type `W`. -/
class Scalar (K : Type) (R W : outParam Type) extends Arithmetic K where
  dtype : DType
  conj : K → K
  re : K → R
  modulus : K → R
  modulusSqr : K → R
  ofReal : R → K
  ofWide : W → K
  beq : K → K → Bool
  text : K → String
  /-- A standard normal element made from a stream of standard normal numbers, read from the given
  position; the second part is the position after it. -/
  draw : (Nat → W) → Nat → K × Nat

end OperatorSplitting
