import OperatorSplitting.Json.Literal

/-!
# Records in JSON

A record is an object with named fields, or an array of its fields in order.  Unknown names are
skipped, a repeated known name is refused, and so is an array that is too long.  A record type
either fills every missing field with a default, or needs its fields; only an optional field may
then be missing from the object, and none from the array.
-/

namespace OperatorSplitting.Json

/-- A count. -/
def asNat? : Json → Option Nat
  | .number literal => (Literal.ofChars? literal.toList).bind Literal.toNat?
  | _ => none

/-- A floating-point number. -/
def asFloat? : Json → Option Float
  | .number literal => (Literal.ofChars? literal.toList).bind Literal.toFloat?
  | _ => none

mutual

/-- Whether all texts of a value are whole, all its numbers are in range, and its arrays and objects
are nested at most so deep. -/
def isWhole : Nat → Json → Bool
  | _, .null | _, .bool _ => true
  | _, .number literal => (asFloat? (.number literal)).isSome
  | _, .string text => text.isSome
  | 0, .array _ | 0, .object _ => false
  | depth + 1, .array items => areWhole depth items
  | depth + 1, .object fields => fieldsAreWhole depth fields

/-- Whether all items are whole. -/
def areWhole (depth : Nat) : List Json → Bool
  | [] => true
  | v :: vs => isWhole depth v && areWhole depth vs

/-- Whether all fields are whole. -/
def fieldsAreWhole (depth : Nat) : List (Option String × Json) → Bool
  | [] => true
  | (name, v) :: fs => name.isSome && isWhole depth v && fieldsAreWhole depth fs

end

/-- The depth to which a document may be nested. -/
def documentDepth : Nat := 127

/-- Whether a value can be kept as a document of its own, with everything that is in it. -/
def isDocument (v : Json) : Bool := isWhole documentDepth v

/-- A truth value. -/
def asBool? : Json → Option Bool
  | .bool b => some b
  | _ => none

/-- A list whose items are all read by `f`. -/
def asList? {α : Type} (f : Json → Option α) : Json → Option (List α)
  | .array items => items.mapM f
  | _ => none

/-- A value that may be `null`. -/
def asOptional? {α : Type} (f : Json → Option α) : Json → Option (Option α)
  | .null => some none
  | v => (f v).map some

/-- The values of a field name among the fields. -/
def valuesOf (name : String) (fields : List (Option String × Json)) : List Json :=
  fields.filterMap fun p => if p.1 = some name then some p.2 else none

/-- The value of a field: at most one. -/
def fieldValue? (fields : List (Option String × Json)) (name : String) : Option (Option Json) :=
  match valuesOf name fields with
  | [] => some none
  | [v] => some (some v)
  | _ => none

/-- The fields of a record by position, each of them present or missing.  `complete` asks for all
items of the array form. -/
def fields? (complete : Bool) (names : List String) : Json → Option (List (Option Json))
  | .object fields =>
    if fields.all fun p => p.1.isSome then names.mapM (fieldValue? fields) else none
  | .array items =>
    if items.length = names.length || (!complete && items.length < names.length) then
      some (items.map some ++ List.replicate (names.length - items.length) none)
    else none
  | _ => none

/-- A field that has a default. -/
def withDefault {α : Type} (default : α) (f : Json → Option α) : Option Json → Option α
  | none => some default
  | some v => f v

/-- A field that must be there. -/
def needed {α : Type} (f : Json → Option α) : Option Json → Option α
  | none => none
  | some v => f v

/-- A field that may be missing or `null`. -/
def optional {α : Type} (f : Json → Option α) : Option Json → Option (Option α)
  | none => some none
  | some v => asOptional? f v

/-- One of several names: a string, or an object with that one name and the value `null`. -/
def asName? : Json → Option String
  | .string text => text
  | .object [(some name, .null)] => some name
  | _ => none

end OperatorSplitting.Json
