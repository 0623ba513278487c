import OperatorSplitting.Deconvolution.Phantom

/-!
# Noise

A stream of standard normal numbers that is determined by a seed.  Every number of the stream is
computed from its position alone: the position is mixed into two uniform numbers, and these give one
normal number by their polar coordinates.
-/

namespace OperatorSplitting.Deconvolution

/-- Mix the bits of a word. -/
def mixWord (word : UInt64) : UInt64 :=
  let word := (word ^^^ (word >>> 30)) * 0xbf58476d1ce4e5b9
  let word := (word ^^^ (word >>> 27)) * 0x94d049bb133111eb
  word ^^^ (word >>> 31)

/-- The `k`-th word of the stream of a seed. -/
def randomWord (seed k : Nat) : UInt64 :=
  mixWord (mixWord (UInt64.ofNat seed) + UInt64.ofNat (k + 1) * 0x9e3779b97f4a7c15)

/-- A number above zero and at most one from the leading bits of a word. -/
def uniform (word : UInt64) : Float := (Float.ofNat (word >>> 11).toNat + 1.0) / 9007199254740992.0

/-- The `k`-th standard normal number of the stream of a seed. -/
def standardNormal (seed k : Nat) : Float :=
  let radius := (-2.0 * (uniform (randomWord seed (2 * k))).log).sqrt
  radius * (2.0 * pi * uniform (randomWord seed (2 * k + 1))).cos

end OperatorSplitting.Deconvolution
