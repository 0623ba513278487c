import OperatorSplitting.Tensor.Basic
import OperatorSplitting.Scalar.Floating

/-!
# The test image

A Siemens star: a disc cut into sectors that are one and zero in turn, with a margin of zeros.  The
image is only the margin if that leaves no room for the disc.  Twice the width of the margin is a
count: where a width beyond the range of positions leaves room in this sense, there is no image.
-/

namespace OperatorSplitting.Deconvolution

/-- The ratio of the circumference of a circle to its diameter. -/
def pi : Float := 3.141592653589793

/-- The sector of a direction, counted from the negative horizontal axis. -/
def sector (spokes : Nat) (dy dx : Float) : Nat :=
  let angle := Float.atan2 dy dx + pi
  (angle / (2.0 * pi) * Float.ofNat spokes).floor.toUInt64.toNat

/-- The star that fills a square, at a pixel: zero outside the disc and in every other sector. -/
def starPixel (extent spokes i j : Nat) : Float :=
  let center := (Float.ofNat extent - 1.0) / 2.0
  let dy := Float.ofNat i - center
  let dx := Float.ofNat j - center
  if doubleHypot dx dy > Float.ofNat extent / 2.0 then 0.0
  else if sector spokes dy dx % 2 = 0 then 1.0 else 0.0

/-- The image of `size` by `size` pixels with a margin of `pad` pixels around the star. -/
def siemensStar? (size spokes pad : Nat) : Option (Tensor Float) :=
  let extent := size - 2 * pad % countRange
  if extent = 0 ∨ pad + extent ≤ size then
    Tensor.build? [size, size] fun idx =>
      let i := idx.getD 0 0
      let j := idx.getD 1 0
      if pad ≤ i ∧ i < pad + extent ∧ pad ≤ j ∧ j < pad + extent then
        starPixel extent spokes (i - pad) (j - pad)
      else 0.0
  else none

theorem dims_siemensStar? {size spokes pad : Nat} {image : Tensor Float}
    (h : siemensStar? size spokes pad = some image) : image.dims = [size, size] := by
  unfold siemensStar? Tensor.build? at h
  dsimp only at h
  split at h
  · split at h
    · cases h; rfl
    · cases h
  · cases h

end OperatorSplitting.Deconvolution
