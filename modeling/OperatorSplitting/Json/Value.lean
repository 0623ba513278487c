/-!
# Values of a record file

Records and configurations are JSON texts.  A number is kept as its literal, so that a whole number
and a fraction stay apart until a record asks for one of them.  A string is kept as its text, or as
`none` when its escapes form no text (half of a surrogate pair); fields keep their order, and a
repeated name stays visible.
-/

namespace OperatorSplitting

/-- A JSON value. -/
inductive Json where
  | null
  | bool (b : Bool)
  | number (literal : String)
  | string (text : Option String)
  | array (items : List Json)
  | object (fields : List (Option String × Json))

namespace Json

/-- A string value. -/
def ofString (s : String) : Json := .string (some s)

/-- A count. -/
def ofNat (n : Nat) : Json := .number (String.ofList (Nat.toDigits 10 n))

/-- An object with the given names, in this order. -/
def ofFields (fields : List (String × Json)) : Json :=
  .object (fields.map fun p => (some p.1, p.2))

/-- The value or `null`. -/
def ofOption {α : Type} (f : α → Json) : Option α → Json
  | none => .null
  | some a => f a

/-- An array of values. -/
def ofList {α : Type} (f : α → Json) (items : List α) : Json := .array (items.map f)

/-- The value of a field of an object; of several fields with one name the last one counts. -/
def field? (name : String) : Json → Option Json
  | .object fields => (fields.reverse.find? fun p => p.1 = some name).map (·.2)
  | _ => none

end Json

end OperatorSplitting
