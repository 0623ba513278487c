/-!
# Binary floating-point data

A word of a binary interchange format is a sign, a biased exponent and a fraction.  `decode` reads
it as not a number, an infinity, or a sign and the exact magnitude `significand * 2 ^ exponent`.
All texts of numbers start from this exact value.
-/

namespace OperatorSplitting.Decimal

/-- The field widths of a binary interchange format. -/
structure BinaryFormat where
  exponentBits : Nat
  fractionBits : Nat

namespace BinaryFormat

/-- Double precision: 64 bits. -/
def double : BinaryFormat := ⟨11, 52⟩

/-- Single precision: 32 bits. -/
def single : BinaryFormat := ⟨8, 23⟩

/-- The offset of the stored exponent. -/
def bias (f : BinaryFormat) : Nat := Nat.pow 2 (f.exponentBits - 1) - 1

end BinaryFormat

/-- The exact magnitude `significand * 2 ^ exponent` of a finite datum. -/
structure Magnitude where
  significand : Nat
  exponent : Int
  /-- True at the first datum of a binade: the next smaller datum is half as far away as the next
  larger one. -/
  narrowBelow : Bool
deriving DecidableEq, Repr

/-- What a word stands for. -/
inductive Datum where
  | notANumber
  | infinite (negative : Bool)
  | finite (negative : Bool) (magnitude : Magnitude)
deriving DecidableEq, Repr

/-- Read a word of format `f`. -/
def decode (f : BinaryFormat) (word : Nat) : Datum :=
  let fraction := word % Nat.pow 2 f.fractionBits
  let biased := word / Nat.pow 2 f.fractionBits % Nat.pow 2 f.exponentBits
  let negative := word / Nat.pow 2 (f.fractionBits + f.exponentBits) % 2 == 1
  let shift : Int := (f.bias : Int) + f.fractionBits
  if biased = Nat.pow 2 f.exponentBits - 1 then
    if fraction = 0 then .infinite negative else .notANumber
  else if biased = 0 then
    .finite negative ⟨fraction, 1 - shift, false⟩
  else
    .finite negative
      ⟨Nat.pow 2 f.fractionBits + fraction, biased - shift, decide (fraction = 0 ∧ 1 < biased)⟩

/-- The datum of a double-precision number. -/
def ofDouble (x : Float) : Datum := decode .double x.toBits.toNat

/-- The datum of a single-precision number. -/
def ofSingle (x : Float32) : Datum := decode .single x.toBits.toNat

namespace Magnitude

/-- The magnitude as a quotient of natural numbers. -/
def ratio (m : Magnitude) : Nat × Nat :=
  (m.significand * Nat.pow 2 m.exponent.toNat, Nat.pow 2 (-m.exponent).toNat)

theorem ratio_den_pos (m : Magnitude) : 0 < m.ratio.2 := Nat.two_pow_pos _

end Magnitude

example : decode .single 0x3f800000 = .finite false ⟨2 ^ 23, -23, true⟩ := by decide

example : decode .single 0x80000001 = .finite true ⟨1, -149, false⟩ := by decide

example : decode .single 0xff800000 = .infinite true := by decide

end OperatorSplitting.Decimal
