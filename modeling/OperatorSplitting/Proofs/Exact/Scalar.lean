import Mathlib
import OperatorSplitting.Scalar.Complex

/-!
# Exact arithmetic

The algorithms ask for operations only.  This module supplies the operations without rounding: real
numbers for moduli, weights and tolerances, and real or complex numbers for elements.

Elements are studied through their complex values.  An exact element type has a faithful value in
`ℂ`, and every operation is the operation of `ℂ` on values; that is all the theory uses, so that a
statement about exact elements is a statement about real and about complex elements at once.

There is no infinite real number.  Where an algorithm reports infinity, exact arithmetic has a zero
that nothing relies on: what is infinite is stated apart.
-/

namespace OperatorSplitting

noncomputable section

/-- Exact numbers have no finite text. -/
instance : NumberText ℝ where
  plain _ := ""
  scientific _ _ := ""
  fixed _ _ := ""

open Classical in
instance : RealArithmetic ℝ where
  sqrt := Real.sqrt
  abs x := |x|
  hypot x y := √(x * x + y * y)
  max := max
  le a b := decide (a ≤ b)
  lt a b := decide (a < b)
  beq a b := decide (a = b)
  isFinite _ := true
  infinity := 0
  ofNat n := n

namespace RealArithmetic

theorem two_eq : (two : ℝ) = 2 := one_add_one_eq_two

theorem two_pos : (0 : ℝ) < two := add_pos zero_lt_one zero_lt_one

theorem half_eq : (half : ℝ) = 1 / 2 := congrArg (1 / ·) one_add_one_eq_two

end RealArithmetic

instance : Widening ℝ ℝ where
  widen x := x

/-- Elements without rounding, with their complex values. -/
class ExactScalar (K : Type) extends Scalar K ℝ ℝ where
  /-- The value of an element as a complex number. -/
  val : K → ℂ
  val_injective : Function.Injective val
  val_zero : val 0 = 0
  val_one : val 1 = 1
  val_add : ∀ a b : K, val (a + b) = val a + val b
  val_sub : ∀ a b : K, val (a - b) = val a - val b
  val_neg : ∀ a : K, val (-a) = -val a
  val_mul : ∀ a b : K, val (a * b) = val a * val b
  val_div : ∀ a b : K, val (a / b) = val a / val b
  val_conj : ∀ a : K, val (Scalar.conj a) = (starRingEnd ℂ) (val a)
  val_ofReal : ∀ r : ℝ, val (Scalar.ofReal r) = r
  re_eq : ∀ a : K, Scalar.re a = (val a).re
  modulus_eq : ∀ a : K, Scalar.modulus a = ‖val a‖
  modulusSqr_eq : ∀ a : K, Scalar.modulusSqr a = ‖val a‖ ^ 2
  /-- Elements without an imaginary part say so in their type. -/
  val_eq_re : (Scalar.dtype K).isComplex = false → ∀ a : K, val a = ((val a).re : ℂ)

attribute [simp] ExactScalar.val_zero ExactScalar.val_one ExactScalar.val_add ExactScalar.val_sub
  ExactScalar.val_neg ExactScalar.val_mul ExactScalar.val_div ExactScalar.val_conj
  ExactScalar.val_ofReal

theorem ExactScalar.ofReal_ne_zero {K : Type} [ExactScalar K] {r : ℝ} (hr : r ≠ 0) :
    (Scalar.ofReal r : K) ≠ 0 := by
  intro h
  have hval := congrArg (val : K → ℂ) h
  rw [val_ofReal, val_zero] at hval
  exact hr (Complex.ofReal_eq_zero.mp hval)

instance : Scalar ℝ ℝ ℝ where
  dtype := .double
  conj x := x
  re x := x
  modulus x := |x|
  modulusSqr x := x * x
  ofReal x := x
  ofWide x := x
  beq a b := RealArithmetic.beq a b
  text := NumberText.plain
  draw source k := (source k, k + 1)

instance : ExactScalar ℝ where
  val x := x
  val_injective := Complex.ofReal_injective
  val_zero := Complex.ofReal_zero
  val_one := Complex.ofReal_one
  val_add := Complex.ofReal_add
  val_sub := Complex.ofReal_sub
  val_neg := Complex.ofReal_neg
  val_mul := Complex.ofReal_mul
  val_div := Complex.ofReal_div
  val_conj x := (Complex.conj_ofReal x).symm
  val_ofReal _ := rfl
  re_eq _ := rfl
  modulus_eq x := (Complex.norm_real x).symm
  modulusSqr_eq x := by
    rw [Complex.norm_real, Real.norm_eq_abs, sq_abs, sq]
    rfl
  val_eq_re _ _ := rfl

instance : Scalar (ComplexOf ℝ) ℝ ℝ := ComplexOf.scalar .complexDouble id

namespace ComplexOf

/-- The complex number with the same parts. -/
def toComplex (z : ComplexOf ℝ) : ℂ := ⟨z.re, z.im⟩

theorem toComplex_injective : Function.Injective toComplex := by
  intro a b h
  obtain ⟨hre, him⟩ := Complex.ext_iff.mp h
  cases a
  cases b
  simp_all [toComplex]

theorem toComplex_div (a b : ComplexOf ℝ) :
    toComplex (a / b) = toComplex a / toComplex b := by
  apply Complex.ext
  · rw [Complex.div_re]
    show (a.re * b.re + a.im * b.im) / (b.re * b.re + b.im * b.im) = _
    simp only [toComplex, Complex.normSq_mk]
    ring
  · rw [Complex.div_im]
    show (a.im * b.re - a.re * b.im) / (b.re * b.re + b.im * b.im) = _
    simp only [toComplex, Complex.normSq_mk]
    ring

theorem hypot_eq_norm (z : ComplexOf ℝ) :
    RealArithmetic.hypot z.re z.im = ‖toComplex z‖ := by
  rw [Complex.norm_def, toComplex, Complex.normSq_mk]
  rfl

theorem modulusSqr_eq_norm (z : ComplexOf ℝ) : modulusSqr z = ‖toComplex z‖ ^ 2 := by
  rw [← Complex.normSq_eq_norm_sq, toComplex, Complex.normSq_mk]
  rfl

end ComplexOf

instance : ExactScalar (ComplexOf ℝ) where
  val := ComplexOf.toComplex
  val_injective := ComplexOf.toComplex_injective
  val_zero := rfl
  val_one := rfl
  val_add _ _ := rfl
  val_sub _ _ := rfl
  val_neg _ := rfl
  val_mul _ _ := rfl
  val_div := ComplexOf.toComplex_div
  val_conj _ := rfl
  val_ofReal _ := rfl
  re_eq _ := rfl
  modulus_eq := ComplexOf.hypot_eq_norm
  modulusSqr_eq := ComplexOf.modulusSqr_eq_norm
  val_eq_re h := by cases h

end

end OperatorSplitting
