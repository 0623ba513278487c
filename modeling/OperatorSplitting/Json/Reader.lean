import OperatorSplitting.Json.Token

/-!
# Reading a JSON text

A stack of open arrays and objects and the kind of token that may come next are enough to read the
tokens in one pass.  The text has to be one value with nothing after it.
-/

namespace OperatorSplitting.Json

/-- An array or object whose end has not been read; items and fields in reverse. -/
inductive Frame where
  | array (items : List Json)
  | object (fields : List (Option String × Json)) (name : Option String)

/-- What may come next. -/
inductive Expected where
  | value
  | valueOrEnd
  | name
  | nameOrEnd
  | colon (name : Option String)
  | separator
  | done (value : Json)

/-- The state of the reader. -/
structure Reader where
  /-- The open containers, the innermost one first. -/
  frames : List Frame
  /-- The fields, in reverse, of the object whose next name is expected. -/
  fields : List (Option String × Json)
  expected : Expected

namespace Reader

/-- A value is complete: it is the whole text, or it goes into the innermost container. -/
def put (frames : List Frame) (value : Json) : Reader :=
  match frames with
  | [] => ⟨[], [], .done value⟩
  | .array items :: rest => ⟨.array (value :: items) :: rest, [], .separator⟩
  | .object fields name :: rest => ⟨.object ((name, value) :: fields) none :: rest, [], .separator⟩

/-- A token at the start of a value. -/
def start (frames : List Frame) : Token → Option Reader
  | .openArray => some ⟨.array [] :: frames, [], .valueOrEnd⟩
  | .openObject => some ⟨frames, [], .nameOrEnd⟩
  | .scalar v => some (put frames v)
  | _ => none

/-- A field name. -/
def named (frames : List Frame) (fields : List (Option String × Json)) : Token → Option Reader
  | .scalar (.string text) => some ⟨frames, fields, .colon text⟩
  | _ => none

/-- One token. -/
def step (r : Reader) (t : Token) : Option Reader :=
  match r.expected with
  | .value => start r.frames t
  | .valueOrEnd =>
    match t, r.frames with
    | .closeArray, .array items :: rest => some (put rest (.array items.reverse))
    | t, frames => start frames t
  | .name => named r.frames r.fields t
  | .nameOrEnd =>
    match t with
    | .closeObject => some (put r.frames (.object r.fields.reverse))
    | t => named r.frames r.fields t
  | .colon name =>
    match t with
    | .colon => some ⟨.object r.fields name :: r.frames, [], .value⟩
    | _ => none
  | .separator =>
    match t, r.frames with
    | .comma, .array items :: rest => some ⟨.array items :: rest, [], .value⟩
    | .closeArray, .array items :: rest => some (put rest (.array items.reverse))
    | .comma, .object fields _ :: rest => some ⟨rest, fields, .name⟩
    | .closeObject, .object fields _ :: rest => some (put rest (.object fields.reverse))
    | _, _ => none
  | .done _ => none

/-- The reader before the first token. -/
def initial : Reader := ⟨[], [], .value⟩

/-- The value once all tokens have been read. -/
def result? (r : Reader) : Option Json :=
  match r.expected with
  | .done v => some v
  | _ => none

end Reader

/-- The value that the tokens form. -/
def ofTokens? (ts : List Token) : Option Json :=
  (ts.foldlM Reader.step .initial).bind Reader.result?

/-- Read a text. -/
def parse? (text : String) : Option Json := (Token.ofChars? text.toList).bind ofTokens?

end OperatorSplitting.Json
