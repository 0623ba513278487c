import OperatorSplitting.Trace

/-!
# Denoisers

Block-matching denoising itself is not part of the library.  A denoiser checks what its method needs
of an image, hands the image to a backend, and checks what comes back.  The backend sees the image
without the singleton axes beyond its third axis; the result gets the extents of the original.
-/

namespace OperatorSplitting

open RealArithmetic Widening

/-- A routine that denoises an image at a noise level. -/
abbrev DenoiserBackend (W : Type) := Tensor W → W → Except Error (Tensor W)

/-- A denoising method with its backend, if there is one. -/
inductive Denoiser (W : Type) where
  /-- Images: two leading axes, or three for colours. -/
  | bm3d (backend : Option (DenoiserBackend W)) (rgb : Bool)
  /-- Volumes: three leading axes. -/
  | bm4d (backend : Option (DenoiserBackend W))

namespace Denoiser

variable {K R W : Type}

/-- The least extent of the leading axes. -/
def blockSize : Nat := 8

/-- The name of the method. -/
def name : Denoiser W → String
  | .bm3d .. => "BM3D"
  | .bm4d _ => "BM4D"

/-- The number of leading axes that the method groups into blocks. -/
def blockAxes : Denoiser W → Nat
  | .bm3d .. => 2
  | .bm4d _ => 3

/-- Whether the last axis handed over holds three colours. -/
def isColour : Denoiser W → Bool
  | .bm3d _ rgb => rgb
  | .bm4d _ => false

/-- The backend. -/
def backend? : Denoiser W → Option (DenoiserBackend W)
  | .bm3d backend _ => backend
  | .bm4d backend => backend

/-- The denoiser as messages write it. -/
def text (d : Denoiser W) : String :=
  match d with
  | .bm3d backend rgb => s!"Bm3d \x7b available: {backend.isSome}, is_rgb: {rgb} \x7d"
  | .bm4d backend => s!"Bm4d \x7b available: {backend.isSome} \x7d"

/-- The extents of the image that is handed over: beyond three axes, those that are not one. -/
def imageDims (dims : List Nat) : List Nat :=
  if 3 < dims.length then dims.filter (· ≠ 1) else dims

/-- What is wrong with the extents of an image. -/
def dimsFault? (d : Denoiser W) (dims : List Nat) : Option Error :=
  let n := d.blockAxes
  if dims.length < n then
    some (.shapeMismatch s!"{d.name} requires at least {n} dimensions"
      (.flat (List.replicate n blockSize)) (.flat dims))
  else if (dims.take n).any (· < blockSize) then
    some (.shapeMismatch (s!"{d.name} requires each of the leading {n} axes to be " ++
      s!"at least the block size ({blockSize})") (.flat (List.replicate n blockSize)) (.flat dims))
  else if 3 < dims.length && (dims.drop 3).any (· ≠ 1) then
    some (.shapeMismatch s!"{d.name} tolerates axes beyond the third only if they are singleton"
      (.flat (dims.take 3)) (.flat dims))
  else if d.isColour && ((imageDims dims).length ≠ 3 || (imageDims dims).getD 2 0 ≠ 3) then
    some (.shapeMismatch s!"{d.name} with a color transform needs three channels on axis 2"
      (.flat [dims.getD 0 0, dims.getD 1 0, 3]) (.flat dims))
  else none

/-- Stop with an error, if there is one. -/
def refuse : Option Error → Except Error Unit
  | some e => .error e
  | none => .ok ()

section

variable [RealArithmetic R] [RealArithmetic W] [Widening R W] [Scalar K R W]

/-- All checks before a backend is called, in order; the result is the backend and the image. -/
def prepare (d : Denoiser W) (x : Signal K) (sigma : W) :
    Except Error (DenoiserBackend W × Tensor W × List Nat) := do
  if (Scalar.dtype K).isComplex then
    throw (.type (.complexDenoising d.name (Scalar.dtype K)))
  let t ← x.expectFlat d.name
  refuse (d.dimsFault? t.dims)
  if !isNonNegative sigma then
    throw (.configuration (.noiseLevel d.name (NumberText.plain sigma)))
  match d.backend? with
  | none => throw (.externalCall (.unavailable d.name))
  | some backend =>
    let values := t.entries.map fun v => widen (Scalar.re v)
    match Tensor.ofEntries? (imageDims t.dims) values with
    | some image => return (backend, image, t.dims)
    | none => throw .misuse

/-- Denoise a signal at a noise level. -/
def denoise (d : Denoiser W) (x : Signal K) (sigma : W) : Eval K W (Signal K) := do
  let (backend, image, dims) ← d.prepare x sigma
  report (.delegated d.name image.dims sigma)
  let result ← backend image sigma
  if result.dims ≠ image.dims then
    throw (.externalCall (.resultShape d.name result.dims image.dims))
  else
    Signal.ofDims dims (result.entries.map Scalar.ofWide)

end

end Denoiser

end OperatorSplitting
