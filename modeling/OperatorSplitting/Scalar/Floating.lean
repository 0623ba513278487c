import OperatorSplitting.Scalar.Arithmetic
import OperatorSplitting.Decimal.Layout

/-!
# Single and double precision

The two real element types.  Double precision is the wide type of both.
-/

namespace OperatorSplitting

open Decimal

/-- The length of a vector in double precision.  The parts are scaled by a power of two where their
squares leave the range, and an infinite part makes the length infinite. -/
def doubleHypot (x y : Float) : Float :=
  let a := x.abs
  let b := y.abs
  if a.isInf || b.isInf then 1.0 / 0.0
  else
    let m := if a < b then b else a
    let shift : Int := if m > Float.scaleB 1.0 500 then -600
      else if m < Float.scaleB 1.0 (-450) then 600 else 0
    let a := a.scaleB shift
    let b := b.scaleB shift
    (Float.sqrt (a * a + b * b)).scaleB (-shift)

/-- The length of a vector in single precision, computed in double precision. -/
def singleHypot (x y : Float32) : Float32 :=
  if x.isInf || y.isInf then 1.0 / 0.0
  else
    let a := x.toFloat
    let b := y.toFloat
    (Float.sqrt (a * a + b * b)).toFloat32

instance : RealArithmetic Float where
  zero := 0.0
  one := 1.0
  sqrt := Float.sqrt
  abs := Float.abs
  hypot := doubleHypot
  max a b := if b < a || b.isNaN then a else b
  le a b := decide (a ≤ b)
  lt a b := decide (a < b)
  beq a b := a == b
  isFinite := Float.isFinite
  infinity := 1.0 / 0.0
  ofNat := Float.ofNat
  plain x := (ofDouble x).plain
  scientific n x := (ofDouble x).scientific n
  fixed n x := (ofDouble x).fixed n

instance : RealArithmetic Float32 where
  zero := 0.0
  one := 1.0
  sqrt := Float32.sqrt
  abs := Float32.abs
  hypot := singleHypot
  max a b := if b < a || b.isNaN then a else b
  le a b := decide (a ≤ b)
  lt a b := decide (a < b)
  beq a b := a == b
  isFinite := Float32.isFinite
  infinity := 1.0 / 0.0
  ofNat := Float32.ofNat
  plain x := (ofSingle x).plain
  scientific n x := (ofSingle x).scientific n
  fixed n x := (ofSingle x).fixed n

instance : Widening Float Float where
  widen x := x

instance : Widening Float32 Float where
  widen := Float32.toFloat

instance : Scalar Float Float Float where
  dtype := .double
  conj x := x
  re x := x
  modulus := Float.abs
  modulusSqr x := x * x
  ofReal x := x
  ofWide x := x
  beq a b := a == b
  text := NumberText.plain
  draw source k := (source k, k + 1)

instance : Scalar Float32 Float32 Float where
  dtype := .single
  conj x := x
  re x := x
  modulus := Float32.abs
  modulusSqr x := x * x
  ofReal x := x
  ofWide := Float.toFloat32
  beq a b := a == b
  text := NumberText.plain
  draw source k := ((source k).toFloat32, k + 1)

end OperatorSplitting
