import OperatorSplitting.Decimal.Reading

/-!
# Arguments of the command line

Every parameter has a long name and most have a letter.  Its value follows as an argument of its own
that does not look like an option, or is attached: `--size=64`, `-N64`, `-N=64`.  No parameter may
be given twice.  Arguments are read from left to right, and the first fault or the first request for
help or the version ends the reading.
-/

namespace OperatorSplitting.Deconvolution

open Decimal

/-- The settings of the program. -/
structure Settings where
  size : Nat := 64
  kernelSize : Nat := 5
  noise : Float := 20.0 / 255.0
  lambda : Float := 2.7e-2
  rho : Float := 1.4e-1
  maxIter : Nat := 50
  seed : Nat := 0
  period : Nat := 10
  config : Option String := none
  historyJson : Option String := none
  timingCsv : Option String := none

/-- What can be set on the command line. -/
inductive Parameter where
  | size
  | kernelSize
  | noise
  | lambda
  | rho
  | maxIter
  | seed
  | period
  | config
  | historyJson
  | timingCsv
deriving DecidableEq, Repr

namespace Parameter

/-- All parameters. -/
def all : List Parameter :=
  [.size, .kernelSize, .noise, .lambda, .rho, .maxIter, .seed, .period, .config, .historyJson,
    .timingCsv]

/-- The long name, which follows two dashes. -/
def longName : Parameter → String
  | .size => "size"
  | .kernelSize => "kernel-size"
  | .noise => "noise"
  | .lambda => "lambda"
  | .rho => "rho"
  | .maxIter => "maxiter"
  | .seed => "seed"
  | .period => "period"
  | .config => "config"
  | .historyJson => "history-json"
  | .timingCsv => "timing-csv"

/-- The letter, which follows one dash. -/
def letter? : Parameter → Option Char
  | .size => some 'N'
  | .kernelSize => some 'k'
  | .lambda => some 'l'
  | .rho => some 'r'
  | .maxIter => some 'm'
  | .seed => some 's'
  | .period => some 'p'
  | .config => some 'c'
  | .noise | .historyJson | .timingCsv => none

/-- What the parameter sets. -/
def description : Parameter → String
  | .size => "Image size (the image is size × size)"
  | .kernelSize => "Blur kernel size"
  | .noise => "Noise standard deviation"
  | .lambda => "TV regularization parameter"
  | .rho => "ADMM penalty parameter"
  | .maxIter => "Number of ADMM iterations"
  | .seed => "Seed for the noise"
  | .period => "Iteration statistics display period"
  | .config => "JSON solver configuration; overrides --maxiter and --period"
  | .historyJson => "Write the iteration history as JSON"
  | .timingCsv => "Write per-phase timings as CSV"

/-- The parameter of a long name. -/
def ofLongName? (name : String) : Option Parameter := all.find? fun p => p.longName = name

/-- The parameter of a letter. -/
def ofLetter? (c : Char) : Option Parameter := all.find? fun p => p.letter? = some c

theorem mem_all (p : Parameter) : p ∈ all := by cases p <;> decide

theorem ofLongName?_longName (p : Parameter) : ofLongName? p.longName = some p := by
  cases p <;> decide

/-- Counts are kept within 64 bits. -/
def countBound : Nat := Nat.pow 2 64

/-- The name of a file, which is not empty. -/
def readPath? (text : String) : Option String := if text.isEmpty then none else some text

/-- The settings with the parameter set to what a text says. -/
def assign? (p : Parameter) (text : String) (s : Settings) : Option Settings :=
  match p with
  | .size => (readCount? countBound text).map fun n => { s with size := n }
  | .kernelSize => (readCount? countBound text).map fun n => { s with kernelSize := n }
  | .noise => (readDouble? text).map fun v => { s with noise := v }
  | .lambda => (readDouble? text).map fun v => { s with lambda := v }
  | .rho => (readDouble? text).map fun v => { s with rho := v }
  | .maxIter => (readCount? countBound text).map fun n => { s with maxIter := n }
  | .seed => (readCount? countBound text).map fun n => { s with seed := n }
  | .period => (readCount? countBound text).map fun n => { s with period := n }
  | .config => (readPath? text).map fun path => { s with config := some path }
  | .historyJson => (readPath? text).map fun path => { s with historyJson := some path }
  | .timingCsv => (readPath? text).map fun path => { s with timingCsv := some path }

end Parameter

/-- Why arguments are refused. -/
inductive ArgumentFault where
  | unexpected (argument : String)
  | missingValue (p : Parameter)
  | invalidValue (p : Parameter) (text : String)
  | repeated (p : Parameter)
deriving DecidableEq, Repr

/-- The wording of a fault. -/
def ArgumentFault.message : ArgumentFault → String
  | .unexpected argument => s!"unexpected argument '{argument}' found"
  | .missingValue p => s!"a value is required for '--{p.longName}' but none was supplied"
  | .invalidValue p text => s!"invalid value '{text}' for '--{p.longName}'"
  | .repeated p => s!"the argument '--{p.longName}' cannot be used multiple times"

/-- What ends the reading before all arguments have been read. -/
inductive Interruption where
  | help
  | version
  | refused (fault : ArgumentFault)
deriving DecidableEq, Repr

/-- What an argument is by its look. -/
inductive ArgumentKind where
  | separator
  | name (p : Parameter)
  | assignment (p : Parameter) (value : String)
  | interruption (reason : Interruption)
  | plain

namespace ArgumentKind

/-- The text up to the first `=` and, if there is one, the text after it. -/
def splitAssignment : List Char → List Char × Option (List Char)
  | [] => ([], none)
  | '=' :: cs => ([], some cs)
  | c :: cs => let r := splitAssignment cs; (c :: r.1, r.2)

/-- An argument after its two dashes. -/
def ofLong (argument : String) (cs : List Char) : ArgumentKind :=
  let parts := splitAssignment cs
  let label := String.ofList parts.1
  match Parameter.ofLongName? label, parts.2 with
  | some p, some v => .assignment p (String.ofList v)
  | some p, none => .name p
  | none, none =>
    if label = "help" then .interruption .help
    else if label = "version" then .interruption .version
    else .interruption (.refused (.unexpected argument))
  | none, some _ => .interruption (.refused (.unexpected argument))

/-- An argument after its dash, with its letter. -/
def ofLetter (argument : String) (c : Char) (cs : List Char) : ArgumentKind :=
  match Parameter.ofLetter? c, cs with
  | some p, [] => .name p
  | some p, '=' :: cs => .assignment p (String.ofList cs)
  | some p, cs => .assignment p (String.ofList cs)
  | none, _ =>
    if c = 'h' then .interruption .help
    else if c = 'V' then .interruption .version
    else .interruption (.refused (.unexpected argument))

/-- The kind of an argument.  A single dash is plain. -/
def ofText (argument : String) : ArgumentKind :=
  match argument.toList with
  | ['-', '-'] => .separator
  | '-' :: '-' :: cs => ofLong argument cs
  | '-' :: c :: cs => ofLetter argument c cs
  | _ => .plain

end ArgumentKind

/-- The state of reading between two arguments. -/
structure ArgumentReader where
  settings : Settings
  /-- The parameters that have been set. -/
  seen : List Parameter
  /-- The parameter whose value is expected. -/
  pending : Option Parameter
  /-- True after the separator, which no option may follow. -/
  closed : Bool

namespace ArgumentReader

/-- Nothing has been read. -/
def initial : ArgumentReader := ⟨{}, [], none, false⟩

/-- Set a parameter. -/
def assign (r : ArgumentReader) (p : Parameter) (value : String) :
    Except Interruption ArgumentReader :=
  match p.assign? value r.settings with
  | none => .error (.refused (.invalidValue p value))
  | some settings =>
    if p ∈ r.seen then .error (.refused (.repeated p))
    else .ok { r with settings := settings, seen := p :: r.seen, pending := none }

/-- No value is expected, or else it is missing. -/
def settled (r : ArgumentReader) : Except Interruption ArgumentReader :=
  match r.pending with
  | some p => .error (.refused (.missingValue p))
  | none => .ok r

/-- Read an argument. -/
def step (r : ArgumentReader) (argument : String) : Except Interruption ArgumentReader :=
  if r.closed then .error (.refused (.unexpected argument))
  else
    match ArgumentKind.ofText argument with
    | .plain =>
      match r.pending with
      | some p => r.assign p argument
      | none => .error (.refused (.unexpected argument))
    | .separator => do return { ← r.settled with closed := true }
    | .name p => do return { ← r.settled with pending := some p }
    | .assignment p value => do (← r.settled).assign p value
    | .interruption reason => do
      let _ ← r.settled
      .error reason

end ArgumentReader

/-- The settings that the arguments make. -/
def Settings.ofArguments (args : List String) : Except Interruption Settings := do
  let r ← args.foldlM ArgumentReader.step .initial
  return (← r.settled).settings

end OperatorSplitting.Deconvolution
