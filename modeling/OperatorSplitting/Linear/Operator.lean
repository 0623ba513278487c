import OperatorSplitting.Linear.Leaf

/-!
# Linear operators

A linear operator is an expression over primitive operators: sums, differences, multiples,
compositions, transposes, adjoints, conjugates and negatives.  Both directions of evaluation follow
the expression, so that an expression has an adjoint as soon as its leaves have one.  The
constructors in this module check the shapes; evaluation checks the shape of its argument once and
then runs through the expression without further checks.
-/

namespace OperatorSplitting

/-- An expression for a linear operator. -/
inductive LinearOperator (K : Type) where
  | leaf (l : Leaf K)
  | sum (a b : LinearOperator K)
  | difference (a b : LinearOperator K)
  | multiple (s : K) (a : LinearOperator K)
  | composition (outer inner : LinearOperator K)
  | transpose (a : LinearOperator K)
  | conjTranspose (a : LinearOperator K)
  | conjugate (a : LinearOperator K)
  | negation (a : LinearOperator K)

namespace LinearOperator

variable {K R W : Type}

mutual

/-- The shape of the signals that the operator takes. -/
def input : LinearOperator K → Shape
  | .leaf l => l.input
  | .sum a _ | .difference a _ | .multiple _ a | .conjugate a | .negation a => a.input
  | .composition _ inner => inner.input
  | .transpose a | .conjTranspose a => a.output

/-- The shape of the results. -/
def output : LinearOperator K → Shape
  | .leaf l => l.output
  | .sum a _ | .difference a _ | .multiple _ a | .conjugate a | .negation a => a.output
  | .composition outer _ => outer.output
  | .transpose a | .conjTranspose a => a.input

end

/-- The shapes of all parts fit together. -/
def WellShaped : LinearOperator K → Prop
  | .leaf _ => True
  | .sum a b | .difference a b =>
    a.WellShaped ∧ b.WellShaped ∧ a.input = b.input ∧ a.output = b.output
  | .composition outer inner =>
    outer.WellShaped ∧ inner.WellShaped ∧ outer.input = inner.output
  | .multiple _ a | .transpose a | .conjTranspose a | .conjugate a | .negation a => a.WellShaped

/-- The expression as messages write it. -/
def text [Scalar K R W] : LinearOperator K → String
  | .leaf l => s!"{l.name}({l.input.text} -> {l.output.text})"
  | .sum a b => "(" ++ a.text ++ " + " ++ b.text ++ ")"
  | .difference a b => "(" ++ a.text ++ " - " ++ b.text ++ ")"
  | .multiple s a => "(" ++ Scalar.text s ++ " * " ++ a.text ++ ")"
  | .composition outer inner => "(" ++ outer.text ++ " @ " ++ inner.text ++ ")"
  | .transpose a => a.text ++ ".T"
  | .conjTranspose a => a.text ++ ".H"
  | .conjugate a => a.text ++ ".conj()"
  | .negation a => "-" ++ a.text

/-! ### Construction -/

/-- The sum of two operators of the same shapes. -/
def add (a b : LinearOperator K) : Except Error (LinearOperator K) :=
  if a.input ≠ b.input then .error (.shapeMismatch "operator sum input" a.input b.input)
  else if a.output ≠ b.output then .error (.shapeMismatch "operator sum output" a.output b.output)
  else .ok (.sum a b)

/-- The difference of two operators of the same shapes. -/
def sub (a b : LinearOperator K) : Except Error (LinearOperator K) :=
  if a.input ≠ b.input then .error (.shapeMismatch "operator difference input" a.input b.input)
  else if a.output ≠ b.output then
    .error (.shapeMismatch "operator difference output" a.output b.output)
  else .ok (.difference a b)

/-- First `inner`, then `outer`. -/
def compose (outer inner : LinearOperator K) : Except Error (LinearOperator K) :=
  if outer.input ≠ inner.output then
    .error (.shapeMismatch "operator composition" outer.input inner.output)
  else .ok (.composition outer inner)

/-- First `b`, then the adjoint of `a`. -/
def adjointCompose (a b : LinearOperator K) : Except Error (LinearOperator K) :=
  if b.output ≠ a.output then .error (.shapeMismatch "adjoint composition" a.output b.output)
  else compose (.conjTranspose a) b

/-- The adjoint after the operator itself. -/
def gramOperator (a : LinearOperator K) : LinearOperator K := .composition (.conjTranspose a) a

theorem WellShaped.gramOperator {a : LinearOperator K} (h : a.WellShaped) :
    a.gramOperator.WellShaped :=
  ⟨h, h, by simp [input]⟩

/-- Operators of the same shapes can be added. -/
theorem add_eq_ok_iff {a b c : LinearOperator K} :
    add a b = .ok c ↔ a.input = b.input ∧ a.output = b.output ∧ c = .sum a b := by
  unfold add
  by_cases hinput : a.input = b.input <;> by_cases houtput : a.output = b.output <;>
    simp [hinput, houtput, eq_comm]

theorem wellShaped_of_add {a b c : LinearOperator K} (ha : a.WellShaped) (hb : b.WellShaped)
    (h : add a b = .ok c) : c.WellShaped := by
  obtain ⟨hinput, houtput, rfl⟩ := add_eq_ok_iff.mp h
  exact ⟨ha, hb, hinput, houtput⟩

theorem wellShaped_of_sub {a b c : LinearOperator K} (ha : a.WellShaped) (hb : b.WellShaped)
    (h : sub a b = .ok c) : c.WellShaped := by
  unfold sub at h
  split at h
  · cases h
  · split at h
    · cases h
    · next hi ho =>
      cases h
      exact ⟨ha, hb, by simpa using hi, by simpa using ho⟩

theorem wellShaped_of_compose {outer inner c : LinearOperator K} (ho : outer.WellShaped)
    (hi : inner.WellShaped) (h : compose outer inner = .ok c) : c.WellShaped := by
  unfold compose at h
  split at h
  · cases h
  · next hs =>
    cases h
    exact ⟨ho, hi, by simpa using hs⟩

/-! ### Evaluation -/

/-- A direction of evaluation: the operator itself or its adjoint. -/
inductive Direction where
  | forward
  | adjoint
deriving DecidableEq, Repr

/-- The other direction. -/
def Direction.flip : Direction → Direction
  | .forward => .adjoint
  | .adjoint => .forward

/-- Run through the expression in a direction, without a check of the shape.  The first part of a
sum is evaluated before the second, and a composition runs from the inside outwards or, for the
adjoint, from the outside inwards.  A transpose is the conjugated adjoint of a conjugated signal. -/
def eval [Scalar K R W] : LinearOperator K → Direction → Signal K → Eval K W (Signal K)
  | .leaf l, .forward, x => l.forward x
  | .leaf l, .adjoint, x => l.adjoint x
  | .sum a b, d, x => do
    let u ← a.eval d x
    let v ← b.eval d x
    u.add v
  | .difference a b, d, x => do
    let u ← a.eval d x
    let v ← b.eval d x
    u.sub v
  | .multiple s a, .forward, x => do return (← a.eval .forward x).scaled s
  | .multiple s a, .adjoint, x => do return (← a.eval .adjoint x).scaled (Scalar.conj s)
  | .composition outer inner, .forward, x => do outer.eval .forward (← inner.eval .forward x)
  | .composition outer inner, .adjoint, x => do inner.eval .adjoint (← outer.eval .adjoint x)
  | .transpose a, d, x => do return (← a.eval d.flip x.conj).conj
  | .conjTranspose a, d, x => a.eval d.flip x
  | .conjugate a, d, x => do return (← a.eval d x.conj).conj
  | .negation a, d, x => do return (← a.eval d x).neg

/-- Evaluate an operator after a check of the shape, which reports its place. -/
def evalChecked [Scalar K R W] (place : String) (a : LinearOperator K) (x : Signal K) :
    Eval K W (Signal K) :=
  if x.shape = a.input then a.eval .forward x
  else throw (.shapeMismatch place a.input x.shape)

/-- Apply the operator. -/
def apply [Scalar K R W] (a : LinearOperator K) (x : Signal K) : Eval K W (Signal K) :=
  a.evalChecked "linear operator input" x

/-- Apply the adjoint. -/
def adjoint [Scalar K R W] (a : LinearOperator K) (y : Signal K) : Eval K W (Signal K) :=
  if y.shape = a.output then a.eval .adjoint y
  else throw (.shapeMismatch "adjoint" a.output y.shape)

/-- Apply the operator and then its adjoint. -/
def gram [Scalar K R W] (a : LinearOperator K) (x : Signal K) : Eval K W (Signal K) := do
  a.adjoint (← a.apply x)

/-! ### Derived adjoints and diagonals -/

/-- Derive all adjoints that the expression may need, from left to right. -/
def compile [Scalar K R W] : LinearOperator K → Eval K W Unit
  | .leaf l => l.resolve
  | .sum a b | .difference a b | .composition a b => do
    a.compile
    b.compile
  | .multiple _ a | .transpose a | .conjTranspose a | .conjugate a | .negation a => a.compile

/-- How far the adjoints of the expression are known. -/
def adjointState (t : Trace K W) : LinearOperator K → AdjointState
  | .leaf l => l.adjointState t
  | .sum a b | .difference a b | .composition a b =>
    (a.adjointState t).merge (b.adjointState t)
  | .multiple _ a | .transpose a | .conjTranspose a | .conjugate a | .negation a =>
    a.adjointState t

/-- Combine two signals where both are there and have the same shape. -/
def combine? (place : String) (f : K → K → K) (p : Option (Signal K))
    (q : Except Error (Option (Signal K))) : Except Error (Option (Signal K)) :=
  match p with
  | none => .ok none
  | some p => q.map fun q => q.bind fun q => (Signal.zipMap place f p q).toOption

/-- The factors of an operator that multiplies elementwise and keeps the shape, as far as the
expression shows it.  The second part of an expression is not looked at if the first part does not
multiply elementwise. -/
def diagonalEntries? [Scalar K R W] : LinearOperator K → Except Error (Option (Signal K))
  | .leaf l => l.diagonalEntries?
  | .sum a b => do combine? "array addition" (· + ·) (← a.diagonalEntries?) b.diagonalEntries?
  | .difference a b => do
    combine? "array subtraction" (· - ·) (← a.diagonalEntries?) b.diagonalEntries?
  | .composition a b => do
    combine? "diagonal composition" (· * ·) (← a.diagonalEntries?) b.diagonalEntries?
  | .multiple s a => do return (← a.diagonalEntries?).map (·.scaled s)
  | .transpose a => a.diagonalEntries?
  | .conjTranspose a | .conjugate a => do return (← a.diagonalEntries?).map (·.conj)
  | .negation a => do return (← a.diagonalEntries?).map (·.neg)

end LinearOperator

end OperatorSplitting
