import OperatorSplitting.Json.Literal

/-!
# Tokens of a JSON text

The text is cut into tokens by one pass over its characters.  The state of the pass is the tokens
found so far and the piece that is being read: nothing, a word (a name or a number literal), or a
string with its escapes.
-/

namespace OperatorSplitting.Json

/-- A token: a mark of structure, or a value without parts. -/
inductive Token where
  | openArray
  | closeArray
  | openObject
  | closeObject
  | colon
  | comma
  | scalar (value : Json)

namespace Token

/-- Where the pass is inside a string escape. -/
inductive Escape where
  | none
  | started
  /-- Four hexadecimal digits stand for a code unit; some of them have been read. -/
  | unit (digits : Nat) (value : Nat)

/-- The piece that is being read.  Characters and code units are collected in reverse. -/
inductive Piece where
  | none
  | word (reversed : List Char)
  | text (reversed : List Nat) (escape : Escape)

/-- The state of the pass, with the tokens in reverse. -/
structure Scan where
  tokens : List Token
  piece : Piece

/-- Join the code units of a string into characters; two surrogates in order are one character, and
half of a pair is none. -/
def joinUnits : List Nat → Option (List Char)
  | [] => some []
  | [u] => if 0xD800 ≤ u ∧ u < 0xE000 then none else some [Char.ofNat u]
  | u :: v :: rest =>
    if 0xD800 ≤ u ∧ u < 0xDC00 then
      if 0xDC00 ≤ v ∧ v < 0xE000 then
        (joinUnits rest).map (Char.ofNat (0x10000 + (u - 0xD800) * 0x400 + (v - 0xDC00)) :: ·)
      else none
    else if 0xDC00 ≤ u ∧ u < 0xE000 then none
    else (joinUnits (v :: rest)).map (Char.ofNat u :: ·)

/-- The value of a word. -/
def ofWord? (cs : List Char) : Option Json :=
  if cs = "null".toList then some .null
  else if cs = "true".toList then some (.bool true)
  else if cs = "false".toList then some (.bool false)
  else (Literal.ofChars? cs).map fun _ => .number (String.ofList cs)

/-- The value of a hexadecimal digit. -/
def hexDigit? (c : Char) : Option Nat :=
  if '0' ≤ c ∧ c ≤ '9' then some (c.toNat - '0'.toNat)
  else if 'a' ≤ c ∧ c ≤ 'f' then some (c.toNat - 'a'.toNat + 10)
  else if 'A' ≤ c ∧ c ≤ 'F' then some (c.toNat - 'A'.toNat + 10)
  else none

/-- The character that a one-letter escape stands for. -/
def escaped? (c : Char) : Option Nat :=
  match c with
  | '"' => some 0x22
  | '\\' => some 0x5C
  | '/' => some 0x2F
  | 'b' => some 0x08
  | 'f' => some 0x0C
  | 'n' => some 0x0A
  | 'r' => some 0x0D
  | 't' => some 0x09
  | _ => none

/-- The mark of structure that a character is. -/
def mark? (c : Char) : Option Token :=
  match c with
  | '[' => some .openArray
  | ']' => some .closeArray
  | '\x7b' => some .openObject
  | '\x7d' => some .closeObject
  | ':' => some .colon
  | ',' => some .comma
  | _ => none

/-- The four blank characters. -/
def isBlank (c : Char) : Bool := c = ' ' || c = '\t' || c = '\n' || c = '\r'

/-- One character inside a string. -/
def Scan.inText (tokens : List Token) (units : List Nat) (escape : Escape) (c : Char) :
    Option Scan :=
  match escape with
  | .none =>
    if c = '"' then
      let value := Json.string ((joinUnits units.reverse).map String.ofList)
      some ⟨.scalar value :: tokens, .none⟩
    else if c = '\\' then some ⟨tokens, .text units .started⟩
    else if c.toNat < 0x20 then none
    else some ⟨tokens, .text (c.toNat :: units) .none⟩
  | .started =>
    if c = 'u' then some ⟨tokens, .text units (.unit 0 0)⟩
    else (escaped? c).map fun u => ⟨tokens, .text (u :: units) .none⟩
  | .unit n value =>
    (hexDigit? c).map fun d =>
      if n = 3 then ⟨tokens, .text ((16 * value + d) :: units) .none⟩
      else ⟨tokens, .text units (.unit (n + 1) (16 * value + d))⟩

/-- One character between tokens. -/
def Scan.between (tokens : List Token) (c : Char) : Scan :=
  match mark? c with
  | some t => ⟨t :: tokens, .none⟩
  | none =>
    if isBlank c then ⟨tokens, .none⟩
    else if c = '"' then ⟨tokens, .text [] .none⟩
    else ⟨tokens, .word [c]⟩

/-- One character of the pass. -/
def Scan.step (s : Scan) (c : Char) : Option Scan :=
  match s.piece with
  | .none => some (.between s.tokens c)
  | .word cs =>
    if (mark? c).isSome || isBlank c || c = '"' then
      (ofWord? cs.reverse).map fun v => .between (.scalar v :: s.tokens) c
    else some ⟨s.tokens, .word (c :: cs)⟩
  | .text units escape => Scan.inText s.tokens units escape c

/-- The tokens at the end of the text. -/
def Scan.finish (s : Scan) : Option (List Token) :=
  match s.piece with
  | .none => some s.tokens.reverse
  | .word cs => (ofWord? cs.reverse).map fun v => (Token.scalar v :: s.tokens).reverse
  | .text _ _ => none

/-- The tokens of a text. -/
def ofChars? (cs : List Char) : Option (List Token) :=
  (cs.foldlM Scan.step ⟨[], .none⟩).bind Scan.finish

end Token

end OperatorSplitting.Json
