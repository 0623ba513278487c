import OperatorSplitting.Deconvolution.Experiment
import OperatorSplitting.Deconvolution.Noise

/-!
# The command line

Reads the arguments and the configuration file, runs the experiment, prints what it tells, and
writes the requested files.  The exit code is that of the run, and two for refused arguments.
-/

namespace OperatorSplitting.Deconvolution

/-- A line of the help text. -/
def Parameter.helpLine (p : Parameter) : String :=
  let letter := match p.letter? with
    | some c => "  -" ++ String.singleton c ++ ", "
    | none => "      "
  letter ++ "--" ++ p.longName ++ " <VALUE>  " ++ p.description

/-- The help text. -/
def helpText : String :=
  String.intercalate "\n"
    ("Program to deconvolve a blurred, noisy phantom with TV regularization" ::
      Parameter.all.map Parameter.helpLine)

/-- The version of the program. -/
def versionText : String := "deconv_tv 0.1.0"

/-- The contents of a file, if it can be read. -/
def readText (path : String) : IO (Except Error String) := do
  try
    return .ok (← IO.FS.readFile path)
  catch _ =>
    return .error .io

/-- Write the requested files of a finished run. -/
def writeResults (s : Settings) (solver : Solver Float Float Float) : IO Unit := do
  if let some path := s.historyJson then
    IO.FS.writeFile path solver.history.fileText
    IO.println s!"Wrote iteration history to {path}"
  if let some path := s.timingCsv then
    IO.FS.writeFile path solver.timing.csv
    IO.println s!"Wrote step timings to {path}"

/-- Run the experiment with the given settings. -/
def runSettings (s : Settings) : IO UInt32 := do
  let config ← match s.config with
    | some path => readText path
    | none => pure (.error .io)
  let outcome := run s (standardNormal s.seed) fun _ => config
  for e in outcome.events do
    if e.isWarning then IO.eprintln e.message
  for n in outcome.notices do
    IO.println n.message
  match outcome.result with
  | .error e => IO.eprintln s!"Error: {e.message}"
  | .ok solver => writeResults s solver
  return outcome.exitCode.toUInt32

end OperatorSplitting.Deconvolution

open OperatorSplitting.Deconvolution

/-- The program. -/
def main (args : List String) : IO UInt32 := do
  match Settings.ofArguments args with
  | .ok s => runSettings s
  | .error .help =>
    IO.println helpText
    return 0
  | .error .version =>
    IO.println versionText
    return 0
  | .error (.refused fault) =>
    IO.eprintln s!"error: {fault.message}"
    return 2
