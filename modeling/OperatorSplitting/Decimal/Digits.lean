/-!
# Runs of decimal digits

What all readers of numbers share: the digits in front of a text, and the exponent that may end it.
-/

namespace OperatorSplitting.Decimal

/-- The value of a decimal digit. -/
def digit? (c : Char) : Option Nat :=
  if '0' ≤ c ∧ c ≤ '9' then some (c.toNat - '0'.toNat) else none

/-- The digits in front and the rest of the text. -/
def digits : List Char → List Nat × List Char
  | [] => ([], [])
  | c :: cs =>
    match digit? c with
    | some d => let r := digits cs; (d :: r.1, r.2)
    | none => ([], c :: cs)

/-- The natural number with the given digits. -/
def natOfDigits (ds : List Nat) : Nat := ds.foldl (fun n d => 10 * n + d) 0

/-- The exponent after its letter: an optional sign and at least one digit. -/
def exponent? (negative : Bool) (cs : List Char) : Option (Bool × List Nat) :=
  match digits cs with
  | (d :: ds, []) => some (negative, d :: ds)
  | _ => none

/-- The exponent part, if the text is one. -/
def exponentPart? : List Char → Option (Option (Bool × List Nat))
  | [] => some none
  | c :: cs =>
    if c = 'e' ∨ c = 'E' then
      match cs with
      | '-' :: cs => (exponent? true cs).map some
      | '+' :: cs => (exponent? false cs).map some
      | cs => (exponent? false cs).map some
    else none

example : digits ['1', '2', '.'] = ([1, 2], ['.']) := by decide

example : exponentPart? ['e', '-', '0', '7'] = some (some (true, [0, 7])) := by decide

end OperatorSplitting.Decimal
