import OperatorSplitting.Decimal.Shortest

/-!
# Texts of numbers

The digits of a number are laid out positionally (`0.00001`, `100`) or with an exponent (`1.5e-7`).
Four layouts are in use: the plain text of messages and tables, the scientific text, the text with a
fixed number of places, and the number literal of records.
-/

namespace OperatorSplitting.Decimal

/-- A run of zeros. -/
def zeros (n : Nat) : String := String.ofList (List.replicate n '0')

/-- The digits of a natural number. -/
def digitText (n : Nat) : String := String.ofList (Nat.toDigits 10 n)

namespace Numeral

/-- The same number without trailing zeros in the coefficient. -/
def trimFrom : Nat → Numeral → Numeral
  | 0, d => d
  | fuel + 1, d =>
    if d.coefficient % 10 = 0 then trimFrom fuel ⟨d.coefficient / 10, d.exponent + 1⟩ else d

/-- Drop the trailing zeros of a nonzero coefficient. -/
def trim (d : Numeral) : Numeral :=
  if d.coefficient = 0 then d else trimFrom (digitCount d.coefficient) d

/-- Positional text: the digits with a point, zeros filled in on either side. -/
def positional (d : Numeral) : String :=
  let digits := Nat.toDigits 10 d.coefficient
  if 0 ≤ d.exponent then
    String.ofList digits ++ zeros d.exponent.toNat
  else
    let n := d.exponent.natAbs
    if n < digits.length then
      String.ofList (digits.take (digits.length - n)) ++ "." ++
        String.ofList (digits.drop (digits.length - n))
    else
      "0." ++ zeros (n - digits.length) ++ String.ofList digits

/-- The power of ten of the first digit. -/
def order (d : Numeral) : Int := d.exponent + (digitCount d.coefficient : Int) - 1

/-- The first digit, then a point and the other digits if there are any. -/
def mantissa (d : Numeral) : String :=
  match Nat.toDigits 10 d.coefficient with
  | [] => ""
  | [c] => String.ofList [c]
  | c :: cs => String.ofList (c :: '.' :: cs)

end Numeral

/-- An integer without a plus sign. -/
def intText (n : Int) : String :=
  if n < 0 then "-" ++ digitText n.natAbs else digitText n.natAbs

/-- The sign of a text. -/
def signText (negative : Bool) : String := if negative then "-" else ""

/-- Finite numbers are laid out by `layout`; the others have names. -/
def Datum.textWith (layout : Magnitude → String) : Datum → String
  | .notANumber => "NaN"
  | .infinite negative => signText negative ++ "inf"
  | .finite negative m => signText negative ++ layout m

/-- Plain text: the fewest digits that read back, never an exponent, a tie upwards. -/
def Datum.plain : Datum → String :=
  Datum.textWith fun m =>
    if m.significand = 0 then "0" else (shortest .up m).trim.positional

/-- Scientific text `d.ddde<exp>`, with the fewest digits that read back or with a fixed number of
places of the mantissa. -/
def Datum.scientific (fraction : Option Nat) : Datum → String :=
  Datum.textWith fun m =>
    match fraction with
    | none =>
      if m.significand = 0 then "0e0" else
        let d := (shortest .up m).trim
        d.mantissa ++ "e" ++ intText d.order
    | some n =>
      if m.significand = 0 then
        (if n = 0 then "0" else "0." ++ zeros n) ++ "e0"
      else
        let d := significant (n + 1) m.ratio.1 m.ratio.2
        d.mantissa ++ "e" ++ intText d.order

/-- Scientific text rounded to `n` significant digits, without trailing zeros. -/
def Datum.rounded (n : Nat) : Datum → String :=
  Datum.textWith fun m =>
    if m.significand = 0 then "0e0" else
      let d := (significant n m.ratio.1 m.ratio.2).trim
      d.mantissa ++ "e" ++ intText d.order

/-- Positional text with `n` places. -/
def Datum.fixed (n : Nat) : Datum → String :=
  Datum.textWith fun m => (places n m.ratio.1 m.ratio.2).positional

/-- The number literal of a record: the fewest digits that read back, a tie to even; positional
with at least one place from `10 ^ -5` up to `10 ^ 16`, otherwise with a signed exponent.  There is
no literal for an infinity or for a datum that is not a number. -/
def Datum.literal : Datum → Option String
  | .notANumber => none
  | .infinite _ => none
  | .finite negative m => some <| signText negative ++
      if m.significand = 0 then "0.0" else
        let d := (shortest .toEven m).trim
        if -5 ≤ d.order ∧ d.order < 16 then
          if 0 ≤ d.exponent then d.positional ++ ".0" else d.positional
        else
          d.mantissa ++ "e" ++ (if 0 ≤ d.order then "+" else "") ++ intText d.order

/-- Right-align a text in a field of `width` characters; a longer text is kept whole. -/
def padLeft (width : Nat) (text : String) : String :=
  String.ofList (List.replicate (width - text.length) ' ') ++ text

end OperatorSplitting.Decimal
