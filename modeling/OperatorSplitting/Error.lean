import OperatorSplitting.Shape
import OperatorSplitting.Scalar.DType
import OperatorSplitting.Admm.RunState

/-!
# Errors

An error has a kind and, within the kind, a cause.  The wording of all messages is in this module.
`misuse` has no cause of its own: it marks an operation whose operands do not fit, or whose result
does not fit into memory, where the operation has no error for it.
-/

namespace OperatorSplitting

/-- What is wrong with a construction or a setting.  Numbers are held by their texts. -/
inductive ConfigurationFault where
  | kernelRank (kernel input : Nat)
  | emptyConvolution
  | noDifferenceAxis
  | differenceAxisOutOfRange (axis rank : Nat)
  | differenceAxisRepeated (axis : Nat)
  | differenceAxisTooShort (axis extent : Nat)
  | functionalScale (scale : String)
  | lossScale (scale : String)
  | groupAxisOutOfRange (axis : Nat) (shape : Shape)
  | groupsOfNoBlocks
  | noiseLevel (denoiser level : String)
  | noInnerIteration
  | notLeastSquares (functional : String)
  | notSetUp
  | zeroPeriod
  | stopTolerance (tolerance : String)
  | unequalLengths (penalties operators weights : Nat)
  | operatorInput (position : Nat) (input start : Shape)
  | weight (position : Nat) (value : String)
  | notSmooth (functional : String)
  | noProx (functional : String)
  | alreadyTerminated (state : RunState) (iterations : Nat)
  | tooFewSamples (count : Nat)
  | variationWeight (value : String)
  | noiseDistribution
deriving DecidableEq, Repr

/-- An operand of the wrong type. -/
inductive TypeFault where
  | notFlat (place : String) (shape : Shape)
  | notVector (place : String)
  | complexIndicator (dtype : DType)
  | complexDenoising (denoiser : String) (dtype : DType)
deriving DecidableEq, Repr

/-- A computation that cannot go on. -/
inductive NumericalFault where
  | curvature (value : String) (iteration : Nat)
  | nonFiniteIterate (iteration : Nat)
  | stacking (fault : LayoutFault)
  | joining (fault : LayoutFault)
  | reported (text : String)
deriving DecidableEq, Repr

/-- A failure outside the library. -/
inductive ExternalFault where
  | unavailable (denoiser : String)
  | resultShape (denoiser : String) (result image : List Nat)
  | reported (text : String)
deriving DecidableEq, Repr

/-- An operation that an object does not have. -/
inductive UnsupportedFault where
  | gradient (functional : String)
  | evaluation (functional : String)
  | elementwiseProx (operator : String)
  | reported (text : String)
deriving DecidableEq, Repr

/-- An error. -/
inductive Error where
  | configuration (fault : ConfigurationFault)
  | shapeMismatch (place : String) (expected got : Shape)
  | type (fault : TypeFault)
  | numerical (fault : NumericalFault)
  | externalCall (fault : ExternalFault)
  | unsupported (fault : UnsupportedFault)
  | io
  | serialization
  | misuse
deriving DecidableEq, Repr

/-- The wording of a configuration fault. -/
def ConfigurationFault.message : ConfigurationFault → String
  | .kernelRank kernel input =>
    s!"convolution kernel has {kernel} dimensions, input has {input}"
  | .emptyConvolution => "convolution kernel and input must be non-empty"
  | .noDifferenceAxis => "finite difference needs at least one axis"
  | .differenceAxisOutOfRange axis rank =>
    s!"finite difference axis {axis} out of range for input of dimension {rank}"
  | .differenceAxisRepeated axis => s!"finite difference axis {axis} repeated"
  | .differenceAxisTooShort axis extent =>
    s!"finite difference along axis {axis} needs at least 2 elements, got {extent}"
  | .functionalScale scale => s!"functional scale must be positive and finite, got {scale}"
  | .lossScale scale => s!"loss scale must be positive, got {scale}"
  | .groupAxisOutOfRange axis shape =>
    s!"l2 axis {axis} out of range for array of shape {shape.text}"
  | .groupsOfNoBlocks => "l2,1 norm of an empty blocked array"
  | .noiseLevel denoiser level =>
    s!"{denoiser} noise level must be non-negative and finite, got {level}"
  | .noInnerIteration => "generic subproblem solver needs at least one inner iteration"
  | .notLeastSquares functional =>
    s!"LinearSubproblemSolver requires f to be a SquaredL2Loss, got {functional}"
  | .notSetUp => "LinearSubproblemSolver used before setup"
  | .zeroPeriod => "itstat period must be at least 1"
  | .stopTolerance tolerance =>
    s!"stop tolerance must be non-negative and finite, got {tolerance}"
  | .unequalLengths penalties operators weights =>
    "g_list, C_list and rho_list must have equal lengths, got " ++
      s!"{penalties}, {operators} and {weights}"
  | .operatorInput position input start =>
    s!"C_list[{position}] has input shape {input.text} but x0 has shape {start.text}"
  | .weight position value =>
    s!"rho_list[{position}] must be positive and finite, got {value}"
  | .notSmooth functional => s!"f must be smooth, got {functional}"
  | .noProx functional =>
    s!"every penalty needs a proximal operator, {functional} has none"
  | .alreadyTerminated state iterations =>
    s!"solver already terminated ({state.name}) after {iterations} iterations"
  | .tooFewSamples count => s!"reference TV solve needs at least two samples, got {count}"
  | .variationWeight value => s!"TV weight must be non-negative and finite, got {value}"
  | .noiseDistribution => "noise deviation must be finite"

/-- The wording of a type fault. -/
def TypeFault.message : TypeFault → String
  | .notFlat place shape =>
    s!"{place} requires a flat array, got blocked array with shape {shape.text}"
  | .notVector place => s!"{place} requires a one-dimensional array"
  | .complexIndicator dtype =>
    s!"non-negative indicator requires real-valued input, got {dtype.name}"
  | .complexDenoising denoiser dtype =>
    s!"{denoiser} requires real-valued inputs, got {dtype.name}"

/-- The wording of a numerical fault. -/
def NumericalFault.message : NumericalFault → String
  | .curvature value iteration =>
    s!"conjugate gradient curvature {value} is not positive at iteration {iteration}"
  | .nonFiniteIterate iteration =>
    s!"x-update produced a non-finite iterate at iteration {iteration}"
  | .stacking fault => "finite difference stacking failed: " ++ fault.message
  | .joining fault => "finite difference boundary concatenation failed: " ++ fault.message
  | .reported text => text

/-- The wording of an external fault. -/
def ExternalFault.message : ExternalFault → String
  | .unavailable denoiser => s!"no {denoiser} backend is available"
  | .resultShape denoiser result image =>
    s!"{denoiser} backend returned shape {dimsList result} for input shape {dimsList image}"
  | .reported text => text

/-- The wording of an unsupported operation. -/
def UnsupportedFault.message : UnsupportedFault → String
  | .gradient functional => s!"{functional} has no gradient"
  | .evaluation functional => s!"{functional} cannot be evaluated"
  | .elementwiseProx operator =>
    s!"SquaredL2Loss prox requires an elementwise forward operator, got {operator}"
  | .reported text => text

/-- The text of an error. -/
def Error.message : Error → String
  | .configuration fault => "Configuration error: " ++ fault.message
  | .shapeMismatch place expected got =>
    s!"Shape mismatch in {place}: expected {expected.text}, got {got.text}"
  | .type fault => "Type error: " ++ fault.message
  | .numerical fault => "Numerical error: " ++ fault.message
  | .externalCall fault => "External call error: " ++ fault.message
  | .unsupported fault => "Unsupported operation: " ++ fault.message
  | .io => "input or output failed"
  | .serialization => "text is not a record of the expected type"
  | .misuse => "operands do not fit the operation"

end OperatorSplitting
