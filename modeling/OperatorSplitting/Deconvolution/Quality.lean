import OperatorSplitting.Tensor.Basic
import OperatorSplitting.Scalar.Floating

/-!
# Quality of an estimate

The peak signal-to-noise ratio compares the range of a reference image with its mean squared
distance from an estimate.
-/

namespace OperatorSplitting.Deconvolution

/-- The mean of the squared differences; it is zero if there are no elements. -/
def meanSquaredError (reference estimate : Array Float) : Float :=
  if reference.isEmpty then 0.0
  else
    sumEntries (fun p : Float × Float => (p.1 - p.2) * (p.1 - p.2)) (reference.zip estimate) /
      Float.ofNat reference.size

/-- The largest element; a datum that is not a number is passed over. -/
def largest (values : Array Float) : Float := values.foldl RealArithmetic.max (-(1.0 / 0.0))

/-- The largest element minus the smallest one. -/
def range (values : Array Float) : Float := largest values + largest (values.map (- ·))

/-- The peak signal-to-noise ratio in decibels. -/
def psnr (reference estimate : Array Float) : Float :=
  let peak := range reference
  10.0 * (peak * peak / meanSquaredError reference estimate).log10

end OperatorSplitting.Deconvolution
