import OperatorSplitting.Admm.Solver
import OperatorSplitting.Deconvolution.Arguments
import OperatorSplitting.Deconvolution.Phantom
import OperatorSplitting.Deconvolution.Quality
import OperatorSplitting.Linear.Operator
import OperatorSplitting.Records
import OperatorSplitting.Scalar.Complex

/-!
# The deconvolution experiment

A Siemens star is blurred with a uniform kernel and disturbed by noise.  Then it is recovered: the
sum of the squared loss and the isotropic total variation of the image is minimized.
-/

namespace OperatorSplitting.Deconvolution

/-- The blur and what is observed through it. -/
structure Experiment where
  truth : Tensor Float
  blur : LinearOperator Float
  observation : Signal Float

/-- The blur by the mean over a window of `kernelSize` pixels a side. -/
def uniformBlur (size kernelSize : Nat) : Except Error (LinearOperator Float) := do
  let weight := 1.0 / Float.ofNat (kernelSize * kernelSize)
  let kernel ← orMisuse (Tensor.build? [kernelSize, kernelSize] fun _ => weight)
  return .leaf (.convolution (← Convolution.ofKernel kernel [size, size]))

/-- Blur the star and add the numbers of a stream times the noise deviation. -/
def observe (s : Settings) (noise : Nat → Float) : Eval Float Float Experiment := do
  let truth ← orMisuse (siemensStar? s.size 32 8)
  let blur ← uniformBlur s.size s.kernelSize
  let blurred ← blur.apply (.flat truth)
  if !s.noise.isFinite then
    throw (.configuration .noiseDistribution)
  let disturbance : Signal Float × Nat ← Signal.draw noise blurred.shape 0
  let observation ← blurred.addScaled s.noise disturbance.1
  return ⟨truth, blur, observation⟩

/-- The settings of the solver: those of a file, if one is named, and otherwise from the command
line. -/
def solverConfig (s : Settings) (file : String → Except Error String) :
    Except Error (Config Float) :=
  match s.config with
  | some path => do Recorded.read? (← file path)
  | none => .ok ⟨s.maxIter, ⟨s.period, true⟩, none⟩

/-- The relative tolerance of the linear solves. -/
def linearTolerance : Float := 1e-3

/-- Pose the problem of an experiment. -/
def pose (s : Settings) (file : String → Except Error String) (e : Experiment) :
    Eval Float Float (Solver Float Float Float) := do
  let config ← solverConfig s file
  let start ← e.blur.adjoint e.observation
  let loss ← SquaredLoss.ofObservation e.observation e.blur
  let penalty ← Functional.scaled s.lambda (.l21 0)
  let differences ← FiniteDifference.ofAxes [s.size, s.size] none .appendZero
  let problem : Problem Float Float Float :=
    { f := .loss loss
      penalties := [penalty]
      operators := [.leaf (.difference differences)]
      weights := [s.rho]
      start := start }
  Solver.create problem config (.ofOptions { CgOptions.default with tol := linearTolerance })

/-- What the program tells its user. -/
inductive Notice where
  | blurred (size kernelSize : Nat) (observation : Shape)
  | table (rows : List (IterationStats Float))
  | solved (iterations : Nat) (state : RunState)
  | quality (decibels : Float)

/-- How long a run took and how it ended. -/
def runText (iterations : Nat) (state : RunState) : String :=
  s!"{iterations} iterations ({state.name})"

/-- The wording of a notice. -/
def Notice.message : Notice → String
  | .blurred size kernelSize observation =>
    s!"Blurred {size}x{size} image with a {kernelSize}x{kernelSize} kernel; " ++
      s!"observation shape {observation.text}"
  | .table rows =>
    let withInner := (rows.head?.bind (·.innerIterations)).isSome
    String.intercalate "\n" (IterationStats.tableHeader withInner :: rows.map (·.tableRow))
  | .solved iterations state => s!"Solved after {runText iterations state}"
  | .quality decibels => s!"Deconvolved image PSNR: {NumberText.fixed 2 decibels} dB"

/-- The table of a run, if it is to be shown and is not empty. -/
def tableNotices (s : Solver Float Float Float) : List Notice :=
  if s.config.record.display && !s.history.isEmpty then [.table s.history.records] else []

/-- What the program tells, how it ends, and the events on the way. -/
structure Outcome where
  notices : List Notice
  result : Except Error (Solver Float Float Float)
  events : Array (Event Float)

/-- The exit code: one for an error, and a hundred and one for images that do not fit into memory. -/
def Outcome.exitCode (o : Outcome) : Nat :=
  match o.result with
  | .ok _ => 0
  | .error .misuse => 101
  | .error _ => 1

/-- Run a posed problem and compare its solution with the true image. -/
def recover (truth : Tensor Float) (solver : Solver Float Float Float) (trace : Trace Float Float) :
    Outcome :=
  let ((result, solver), trace) := solver.solve trace
  match result with
  | .error e => ⟨tableNotices solver, .error e, trace.events⟩
  | .ok x =>
    ⟨tableNotices solver ++
      [.solved solver.iteration solver.state, .quality (psnr truth.entries x.entries)],
      .ok solver, trace.events⟩

/-- The whole program, with a stream of standard normal numbers and the contents of files. -/
def run (s : Settings) (noise : Nat → Float) (file : String → Except Error String) : Outcome :=
  match (observe s noise).run .empty with
  | (.error e, trace) => ⟨[], .error e, trace.events⟩
  | (.ok e, trace) =>
    let first := Notice.blurred s.size s.kernelSize e.observation.shape
    match (pose s file e).run trace with
    | (.error error, trace) => ⟨[first], .error error, trace.events⟩
    | (.ok solver, trace) =>
      let outcome := recover e.truth solver trace
      { outcome with notices := first :: outcome.notices }

/-- How the program answers its arguments. -/
inductive Answer where
  | help
  | version
  | refusal (fault : ArgumentFault)
  | run (settings : Settings) (outcome : Outcome)

namespace Answer

/-- The answer to some arguments.  The stream of standard normal numbers is determined by a seed and
a position. -/
def ofArguments (args : List String) (noise : Nat → Nat → Float)
    (file : String → Except Error String) : Answer :=
  match Settings.ofArguments args with
  | .ok s => .run s (Deconvolution.run s (noise s.seed) file)
  | .error .help => .help
  | .error .version => .version
  | .error (.refused fault) => .refusal fault

/-- The exit code: two for refused arguments, and otherwise that of the run. -/
def exitCode : Answer → Nat
  | .help | .version => 0
  | .refusal _ => 2
  | .run _ outcome => outcome.exitCode

/-- What the program tells its user. -/
def notices : Answer → List Notice
  | .run _ outcome => outcome.notices
  | _ => []

/-- The finished run, if there is one. -/
def solver? : Answer → Option (Solver Float Float Float)
  | .run _ outcome => outcome.result.toOption
  | _ => none

end Answer

end OperatorSplitting.Deconvolution
