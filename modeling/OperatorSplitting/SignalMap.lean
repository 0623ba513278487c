import OperatorSplitting.Signal

/-!
# Maps of signals

A map takes signals of a declared shape to signals of a declared shape and need not be linear.  The
shape of its argument is checked before it is evaluated, and the shape of its result afterwards.
-/

namespace OperatorSplitting

/-- A function between signals of fixed shapes. -/
structure SignalMap (K : Type) where
  input : Shape
  output : Shape
  fn : Signal K → Except Error (Signal K)

namespace SignalMap

variable {K : Type}

/-- The map whose output shape is that of its value at zero. -/
def ofZero [Zero K] (input : Shape) (fn : Signal K → Except Error (Signal K)) :
    Except Error (SignalMap K) := do
  let y ← fn (← Signal.filled input 0)
  .ok ⟨input, y.shape, fn⟩

/-- Apply the map. -/
def apply (m : SignalMap K) (x : Signal K) : Except Error (Signal K) :=
  if x.shape = m.input then do
    let y ← m.fn x
    if y.shape = m.output then .ok y
    else .error (.shapeMismatch "map output" m.output y.shape)
  else .error (.shapeMismatch "operator input" m.input x.shape)

/-- The map as messages write it. -/
def text (m : SignalMap K) : String := s!"Map({m.input.text} -> {m.output.text})"

theorem shape_of_apply {m : SignalMap K} {x y : Signal K} (h : m.apply x = .ok y) :
    x.shape = m.input ∧ y.shape = m.output := by
  unfold apply at h
  split at h
  · next hx =>
    cases hf : m.fn x with
    | error e => simp [hf, bind, Except.bind] at h
    | ok z =>
      simp only [hf, bind, Except.bind] at h
      split at h
      · next hz => cases h; exact ⟨hx, hz⟩
      · cases h
  · cases h

end SignalMap

end OperatorSplitting
