import OperatorSplitting.Admm.Config
import OperatorSplitting.Admm.History
import OperatorSplitting.Admm.RunState
import OperatorSplitting.Admm.Solver
import OperatorSplitting.Admm.Strategy
import OperatorSplitting.Admm.Timing
import OperatorSplitting.Admm.XUpdate
import OperatorSplitting.ConjugateGradient
import OperatorSplitting.Decimal.Binary
import OperatorSplitting.Decimal.Digits
import OperatorSplitting.Decimal.Layout
import OperatorSplitting.Decimal.Reading
import OperatorSplitting.Decimal.Rounding
import OperatorSplitting.Decimal.Shortest
import OperatorSplitting.Deconvolution.Arguments
import OperatorSplitting.Deconvolution.Experiment
import OperatorSplitting.Deconvolution.Noise
import OperatorSplitting.Deconvolution.Phantom
import OperatorSplitting.Deconvolution.Quality
import OperatorSplitting.Error
import OperatorSplitting.Functional.Basic
import OperatorSplitting.Functional.Denoiser
import OperatorSplitting.Functional.Norms
import OperatorSplitting.Functional.SquaredLoss
import OperatorSplitting.Json.Literal
import OperatorSplitting.Json.Reader
import OperatorSplitting.Json.Record
import OperatorSplitting.Json.Token
import OperatorSplitting.Json.Value
import OperatorSplitting.Json.Writer
import OperatorSplitting.Linear.AdjointCheck
import OperatorSplitting.Linear.Closure
import OperatorSplitting.Linear.Convolution
import OperatorSplitting.Linear.Diagonal
import OperatorSplitting.Linear.Difference
import OperatorSplitting.Linear.Leaf
import OperatorSplitting.Linear.Matrix
import OperatorSplitting.Linear.Operator
import OperatorSplitting.Main
import OperatorSplitting.Records
import OperatorSplitting.Scalar.Arithmetic
import OperatorSplitting.Scalar.Complex
import OperatorSplitting.Scalar.DType
import OperatorSplitting.Scalar.Floating
import OperatorSplitting.Shape
import OperatorSplitting.Signal
import OperatorSplitting.SignalMap
import OperatorSplitting.Tensor.Basic
import OperatorSplitting.Tensor.Capacity
import OperatorSplitting.Tensor.Index
import OperatorSplitting.TotalVariation
import OperatorSplitting.Trace
import OperatorSplitting.Proofs.Exact.Box
import OperatorSplitting.Proofs.Exact.Scalar
import OperatorSplitting.Proofs.Exact.Vector
import OperatorSplitting.Proofs.Evaluation
import OperatorSplitting.Proofs.Tensor.Broadcasting
import OperatorSplitting.Proofs.Tensor.Entries
import OperatorSplitting.Proofs.Exact.Pairing
import OperatorSplitting.Proofs.Tensor.Summing
import OperatorSplitting.Proofs.Tensor.CommonShape
import OperatorSplitting.Proofs.Tensor.Flattening
import OperatorSplitting.Proofs.Linear.AdjointMaps
import OperatorSplitting.Proofs.Linear.Matrix
import OperatorSplitting.Proofs.Linear.Diagonal
import OperatorSplitting.Proofs.Linear.Difference
import OperatorSplitting.Proofs.Linear.Convolution
import OperatorSplitting.Proofs.Linear.Closure
import OperatorSplitting.Proofs.Linear.Adjointness
import OperatorSplitting.Proofs.Exact.Shrinkage
import OperatorSplitting.Proofs.Functional.Evaluation
import OperatorSplitting.Proofs.Functional.Subgradient
import OperatorSplitting.Proofs.Functional.GroupNorm
import OperatorSplitting.Proofs.Functional.SquaredLoss
import OperatorSplitting.Proofs.Linear.InnerProduct
import OperatorSplitting.Proofs.Linear.ShapeSoundness
import OperatorSplitting.Proofs.Linear.Elementwise
import OperatorSplitting.Proofs.Linear.PolarForm
import OperatorSplitting.Proofs.Linear.NormalOperator
import OperatorSplitting.Proofs.Linear.AdjointCheck
import OperatorSplitting.Proofs.ConjugateGradient
import OperatorSplitting.Proofs.Linear.LazyAdjoint
import OperatorSplitting.Proofs.Linear.Histories
import OperatorSplitting.Proofs.Linear.Compilation
import OperatorSplitting.Proofs.Functional.Norms
import OperatorSplitting.Proofs.Functional.Optimality
import OperatorSplitting.Proofs.Functional.Totality
import OperatorSplitting.Proofs.Functional.Shapes
import OperatorSplitting.Proofs.Admm.Evaluation
import OperatorSplitting.Proofs.Admm.Step
import OperatorSplitting.Proofs.Admm.Reachable
import OperatorSplitting.Proofs.Admm.Inequalities
import OperatorSplitting.Proofs.Admm.Certificate
import OperatorSplitting.Proofs.Admm.Lyapunov
import OperatorSplitting.Proofs.Admm.Orbit
import OperatorSplitting.Proofs.Admm.Solve
import OperatorSplitting.Proofs.Admm.Lifecycle
import OperatorSplitting.Proofs.Admm.Phases
import OperatorSplitting.Proofs.Admm.LeastSquares
import OperatorSplitting.Proofs.Admm.Shapes
import OperatorSplitting.Proofs.Admm.Misfit
import OperatorSplitting.Proofs.Admm.Descent
import OperatorSplitting.Proofs.Admm.IterationCap
import OperatorSplitting.Proofs.Admm.Retry
import OperatorSplitting.Proofs.Admm.Finiteness
import OperatorSplitting.Proofs.Functional.Denoising
import OperatorSplitting.Proofs.Correspondence
import OperatorSplitting.Proofs.Admm.Lockstep
import OperatorSplitting.Proofs.Admm.ScaledEquations
import OperatorSplitting.Proofs.Admm.Sums
import OperatorSplitting.Proofs.Admm.Reordering
import OperatorSplitting.Proofs.Admm.ConstraintOrder
import OperatorSplitting.Proofs.Admm.Rescaling
import OperatorSplitting.Proofs.Admm.ScaleInvariance
import OperatorSplitting.Proofs.Linear.Views
import OperatorSplitting.Proofs.Functional.Capabilities
import OperatorSplitting.Proofs.Admm.Capabilities
import OperatorSplitting.Proofs.ConjugateGradient.Residual
import OperatorSplitting.Proofs.ConjugateGradient.Termination
import OperatorSplitting.Proofs.Functional.Proximal
import OperatorSplitting.Proofs.Functional.ElementwiseLoss
import OperatorSplitting.Proofs.Functional.Multiples
import OperatorSplitting.Proofs.Linear.HermitianForm
import OperatorSplitting.Proofs.Admm.Gradient
import OperatorSplitting.Proofs.Admm.NormalEquations
import OperatorSplitting.Proofs.Admm.Expansion
import OperatorSplitting.Proofs.Admm.LineSearch
import OperatorSplitting.Proofs.Exact.AcceleratedGradient
import OperatorSplitting.Proofs.TotalVariation.Vectors
import OperatorSplitting.Proofs.TotalVariation.Duality
import OperatorSplitting.Proofs.TotalVariation.Certificate
import OperatorSplitting.Proofs.TotalVariation.Formulation
import OperatorSplitting.Proofs.TotalVariation.Rate
import OperatorSplitting.Proofs.Linear.FullConvolution
import OperatorSplitting.Proofs.Tensor.Stacking
import OperatorSplitting.Proofs.Linear.DifferenceLayout
import OperatorSplitting.Proofs.Functional.GroupLayouts
import OperatorSplitting.Proofs.Tensor.PartialSums
import OperatorSplitting.Proofs.Linear.DiagonalEntries
import OperatorSplitting.Proofs.Linear.GramRoutes
import OperatorSplitting.Proofs.Json.Tokens
import OperatorSplitting.Proofs.Json.Reading
import OperatorSplitting.Proofs.Json.Records
import OperatorSplitting.Proofs.Admm.Counts
import OperatorSplitting.Proofs.Admm.HistoryFile
import OperatorSplitting.Proofs.Admm.PhaseLog
import OperatorSplitting.Proofs.Admm.PhaseSummaries
