import OperatorSplitting.Json.Value

/-!
# Writing a JSON text

Two layouts: compact, without any blank, and indented by two spaces with one item a line.
-/

namespace OperatorSplitting.Json

/-- A hexadecimal digit in lower case. -/
def hexChar (n : Nat) : Char := if n < 10 then Char.ofNat (48 + n) else Char.ofNat (87 + n)

/-- A character inside quotes. -/
def quoteChar (c : Char) : List Char :=
  match c with
  | '"' => ['\\', '"']
  | '\\' => ['\\', '\\']
  | '\x08' => ['\\', 'b']
  | '\x0c' => ['\\', 'f']
  | '\n' => ['\\', 'n']
  | '\r' => ['\\', 'r']
  | '\t' => ['\\', 't']
  | c =>
    if c.toNat < 0x20 then ['\\', 'u', '0', '0', hexChar (c.toNat / 16), hexChar (c.toNat % 16)]
    else [c]

/-- A quoted text. -/
def quote (s : String) : String :=
  "\"" ++ String.ofList (s.toList.flatMap quoteChar) ++ "\""

mutual

/-- The text without blanks. -/
def compact : Json → String
  | .null => "null"
  | .bool true => "true"
  | .bool false => "false"
  | .number literal => literal
  | .string text => quote (text.getD "")
  | .array items => "[" ++ String.intercalate "," (compactItems items) ++ "]"
  | .object fields => "\x7b" ++ String.intercalate "," (compactFields fields) ++ "\x7d"

/-- The texts of the items. -/
def compactItems : List Json → List String
  | [] => []
  | v :: vs => compact v :: compactItems vs

/-- The texts of the fields. -/
def compactFields : List (Option String × Json) → List String
  | [] => []
  | (name, v) :: fs => (quote (name.getD "") ++ ":" ++ compact v) :: compactFields fs

end

/-- A line break and the indentation at the given depth. -/
def lineBreak (depth : Nat) : String :=
  "\n" ++ String.ofList (List.replicate (2 * depth) ' ')

/-- Put the parts of an array or object on lines of their own; nothing is broken when empty. -/
def block (left right : String) (depth : Nat) (parts : List String) : String :=
  match parts with
  | [] => left ++ right
  | parts =>
    left ++ lineBreak (depth + 1) ++ String.intercalate ("," ++ lineBreak (depth + 1)) parts ++
      lineBreak depth ++ right

mutual

/-- The indented text of a value at the given depth. -/
def prettyAt : Json → Nat → String
  | .null, _ => "null"
  | .bool true, _ => "true"
  | .bool false, _ => "false"
  | .number literal, _ => literal
  | .string text, _ => quote (text.getD "")
  | .array items, depth => block "[" "]" depth (prettyItems items (depth + 1))
  | .object fields, depth => block "\x7b" "\x7d" depth (prettyFields fields (depth + 1))

/-- The texts of the items at the given depth. -/
def prettyItems : List Json → Nat → List String
  | [], _ => []
  | v :: vs, depth => prettyAt v depth :: prettyItems vs depth

/-- The texts of the fields at the given depth. -/
def prettyFields : List (Option String × Json) → Nat → List String
  | [], _ => []
  | (name, v) :: fs, depth =>
    (quote (name.getD "") ++ ": " ++ prettyAt v depth) :: prettyFields fs depth

end

/-- The indented text. -/
def pretty (v : Json) : String := prettyAt v 0

end OperatorSplitting.Json
