import OperatorSplitting.Scalar.Floating

/-!
# Complex elements

Complex numbers over a real type by their real and imaginary parts.  Products and quotients are the
textbook formulas, evaluated in the written order.
-/

namespace OperatorSplitting

open RealArithmetic

/-- A complex number with parts in `R`. -/
structure ComplexOf (R : Type) where
  re : R
  im : R
deriving DecidableEq, Repr

namespace ComplexOf

variable {R : Type} [RealArithmetic R]

instance : Arithmetic (ComplexOf R) where
  zero := ⟨0, 0⟩
  one := ⟨1, 0⟩
  add a b := ⟨a.re + b.re, a.im + b.im⟩
  sub a b := ⟨a.re - b.re, a.im - b.im⟩
  neg a := ⟨-a.re, -a.im⟩
  mul a b := ⟨a.re * b.re - a.im * b.im, a.re * b.im + a.im * b.re⟩
  div a b :=
    let n := b.re * b.re + b.im * b.im
    ⟨(a.re * b.re + a.im * b.im) / n, (a.im * b.re - a.re * b.im) / n⟩

/-- Both parts, the imaginary one with its sign in front: `2-3i`.  A part that is not below zero
keeps its own text after a plus sign. -/
def text (z : ComplexOf R) : String :=
  NumberText.plain z.re ++
    (if lt z.im 0 then "-" ++ NumberText.plain (0 - z.im) else "+" ++ NumberText.plain z.im) ++ "i"

/-- The squared modulus. -/
def modulusSqr (z : ComplexOf R) : R := z.re * z.re + z.im * z.im

/-- The elements over a real type whose wide type is `W`, given how wide numbers are rounded. -/
@[reducible] def scalar {W : Type} (dtype : DType) (narrow : W → R) : Scalar (ComplexOf R) R W where
  dtype := dtype
  conj z := ⟨z.re, -z.im⟩
  re z := z.re
  modulus z := hypot z.re z.im
  modulusSqr := modulusSqr
  ofReal r := ⟨r, 0⟩
  ofWide w := ⟨narrow w, 0⟩
  beq a b := RealArithmetic.beq a.re b.re && RealArithmetic.beq a.im b.im
  text := text
  draw source k := (⟨narrow (source k), narrow (source (k + 1))⟩, k + 2)

end ComplexOf

instance : Scalar (ComplexOf Float) Float Float := ComplexOf.scalar .complexDouble id

instance : Scalar (ComplexOf Float32) Float32 Float := ComplexOf.scalar .complexSingle Float.toFloat32

end OperatorSplitting
