import Mathlib
import OperatorSplitting.Proofs.Exact.Vector
import OperatorSplitting.Proofs.Evaluation

/-!
# Words of views

Transpose, adjoint and conjugate are views of an operator: each is an expression around it that
evaluates it once, possibly in the other direction, and possibly with conjugations before and after.
Applied one after the other they never lead further away than to one of four operators: the operator
itself, its transpose, its adjoint and its conjugate.

Two bits describe a view: whether it transposes and whether it conjugates.  It turns the direction
if it transposes, and it conjugates signals if exactly one of the bits is set.  Both effects cancel
in pairs, so that a word of views acts by the parities of its letters (`eval_viewWord`).

Conjugation of elements has to be an involution.  Nothing else is asked of the elements, so that
rounded elements are included, and nothing is asked of the closures, which may fail.
-/

namespace OperatorSplitting

variable {K R W : Type}

/-! ### Views -/

/-- A constructor that makes an operator from one other operator and evaluates only that. -/
inductive View where
  | transpose
  | conjTranspose
  | conjugate
deriving DecidableEq, Repr

namespace View

/-- The view exchanges the operator and its adjoint, up to conjugations. -/
def transposes : View → Bool
  | .transpose | .conjTranspose => true
  | .conjugate => false

/-- The view conjugates the entries of the operator. -/
def conjugates : View → Bool
  | .conjTranspose | .conjugate => true
  | .transpose => false

/-- An odd number of letters of the word have the property. -/
def parity (p : View → Bool) (word : List View) : Bool := decide (Odd (word.countP p))

@[simp] theorem parity_nil (p : View → Bool) : parity p [] = false := by
  simp [parity]

theorem parity_cons (p : View → Bool) (v : View) (word : List View) :
    parity p (v :: word) = (p v ^^ parity p word) := by
  cases hv : p v with
  | false => simp [parity, hv]
  | true => simp [parity, hv, Nat.odd_add_one, -Nat.not_odd_iff_even]

end View

namespace LinearOperator

/-- The view of an operator. -/
def view (a : LinearOperator K) : View → LinearOperator K
  | .transpose => .transpose a
  | .conjTranspose => .conjTranspose a
  | .conjugate => .conjugate a

/-- The views of a word, one after the other; the first letter stands next to the operator. -/
def viewWord (a : LinearOperator K) (word : List View) : LinearOperator K := word.foldl view a

/-- The operator itself or one of its views, chosen by whether it transposes and whether it
conjugates. -/
def viewBy (a : LinearOperator K) (transposed conjugated : Bool) : LinearOperator K :=
  match transposed, conjugated with
  | false, false => a
  | true, false => .transpose a
  | true, true => .conjTranspose a
  | false, true => .conjugate a

/-- The view of `a` that a word comes to. -/
def viewByParity (a : LinearOperator K) (word : List View) : LinearOperator K :=
  a.viewBy (View.parity View.transposes word) (View.parity View.conjugates word)

theorem viewWord_cons (a : LinearOperator K) (v : View) (word : List View) :
    a.viewWord (v :: word) = (a.view v).viewWord word := rfl

/-! ### Shapes and states -/

theorem shapes_viewBy (a : LinearOperator K) (b c : Bool) :
    ((a.viewBy b c).input, (a.viewBy b c).output) =
      bif b then (a.output, a.input) else (a.input, a.output) := by
  cases b <;> cases c <;> rfl

theorem shapes_viewWord (a : LinearOperator K) (word : List View) :
    ((a.viewWord word).input, (a.viewWord word).output) =
      bif View.parity View.transposes word then (a.output, a.input) else (a.input, a.output) := by
  induction word generalizing a with
  | nil => rfl
  | cons v word ih =>
    rw [viewWord_cons, ih, View.parity_cons]
    cases v <;> cases View.parity View.transposes word <;> rfl

theorem adjointState_viewBy (t : Trace K W) (a : LinearOperator K) (b c : Bool) :
    (a.viewBy b c).adjointState t = a.adjointState t := by
  cases b <;> cases c <;> rfl

theorem adjointState_viewWord (t : Trace K W) (a : LinearOperator K) (word : List View) :
    (a.viewWord word).adjointState t = a.adjointState t := by
  induction word generalizing a with
  | nil => rfl
  | cons v word ih =>
    rw [viewWord_cons, ih]
    cases v <;> rfl

end LinearOperator

/-! ### Directions and signals -/

/-- The other direction, if asked for. -/
def LinearOperator.Direction.turnIf (b : Bool) (d : Direction) : Direction :=
  bif b then d.flip else d

theorem LinearOperator.Direction.turnIf_turnIf (b c : Bool) (d : Direction) :
    turnIf b (turnIf c d) = turnIf (b ^^ c) d := by
  cases b <;> cases c <;> cases d <;> rfl

variable [Scalar K R W]

namespace Signal

/-- The conjugate signal, if asked for. -/
def conjIf (b : Bool) (x : Signal K) : Signal K := bif b then x.conj else x

@[simp] theorem conjIf_false : (conjIf false : Signal K → Signal K) = id := rfl

@[simp] theorem conjIf_true : (conjIf true : Signal K → Signal K) = conj := rfl

theorem conj_conj (hconj : Function.Involutive (Scalar.conj : K → K)) (x : Signal K) :
    x.conj.conj = x := by
  apply ext_entries
  · rw [conj, conj, shape_map, shape_map]
  · rw [conj, conj, entries_map, entries_map, Array.map_map, hconj.comp_self, Array.map_id]

theorem conjIf_conjIf (hconj : Function.Involutive (Scalar.conj : K → K)) (b c : Bool)
    (x : Signal K) : conjIf b (conjIf c x) = conjIf (b ^^ c) x := by
  cases b <;> cases c <;> simp [conj_conj hconj]

end Signal

namespace LinearOperator

open Signal Direction

/-! ### Evaluation and diagonals -/

/-- A view evaluates the operator in the direction that it turns to, and conjugates around it if it
either transposes or conjugates, but not both. -/
theorem eval_viewBy (a : LinearOperator K) (b c : Bool) (d : Direction) (x : Signal K) :
    ((a.viewBy b c).eval d x : Eval K W _) =
      conjIf (b ^^ c) <$> a.eval (d.turnIf b) (conjIf (b ^^ c) x) := by
  cases b <;> cases c <;> simp [viewBy, LinearOperator.eval, turnIf]

theorem view_eq_viewBy (a : LinearOperator K) (v : View) :
    a.view v = a.viewBy v.transposes v.conjugates := by
  cases v <;> rfl

theorem eval_viewWord (hconj : Function.Involutive (Scalar.conj : K → K)) (a : LinearOperator K)
    (word : List View) (d : Direction) (x : Signal K) :
    ((a.viewWord word).eval d x : Eval K W _) = (a.viewByParity word).eval d x := by
  rw [viewByParity, eval_viewBy]
  induction word generalizing a with
  | nil => simp [viewWord, turnIf]
  | cons v word ih =>
    have hbits : ∀ b c b' c' : Bool, (b ^^ c ^^ (b' ^^ c')) = (b ^^ b' ^^ (c ^^ c')) := by decide
    rw [viewWord_cons, ih, view_eq_viewBy, eval_viewBy, Functor.map_map, View.parity_cons,
      View.parity_cons]
    simp only [conjIf_conjIf hconj, turnIf_turnIf, hbits, Bool.xor_comm]

theorem diagonalEntries?_viewBy (a : LinearOperator K) (b c : Bool) :
    (a.viewBy b c).diagonalEntries? = Option.map (conjIf c) <$> a.diagonalEntries? := by
  cases b <;> cases c <;> simp [viewBy, diagonalEntries?]

theorem diagonalEntries?_viewWord (hconj : Function.Involutive (Scalar.conj : K → K))
    (a : LinearOperator K) (word : List View) :
    (a.viewWord word).diagonalEntries? = (a.viewByParity word).diagonalEntries? := by
  rw [viewByParity, diagonalEntries?_viewBy]
  induction word generalizing a with
  | nil => simp [viewWord]
  | cons v word ih =>
    rw [viewWord_cons, ih, view_eq_viewBy, diagonalEntries?_viewBy, Functor.map_map,
      View.parity_cons]
    simp only [Option.map_map, Function.comp_def, conjIf_conjIf hconj, Bool.xor_comm]

/-! ### Interchangeable operators -/

/-- Nothing that is asked of the two operators tells them apart.  A run of one of them has the result
or the error of the other, and it leaves the same trace, so that it makes the same calls of
closures. -/
structure Interchangeable (a b : LinearOperator K) : Prop where
  input : a.input = b.input
  output : a.output = b.output
  apply : ∀ (x : Signal K) (t : Trace K W), (a.apply x).run t = (b.apply x).run t
  adjoint : ∀ (y : Signal K) (t : Trace K W), (a.adjoint y).run t = (b.adjoint y).run t
  diagonalEntries? : a.diagonalEntries? = b.diagonalEntries?
  adjointState : ∀ t : Trace K W, a.adjointState t = b.adjointState t

/-- A word of views of any operator is interchangeable with the operator, its transpose, its adjoint
or its conjugate: which one, the parities of the transposing and of the conjugating letters tell.
In particular the transpose of the conjugate is interchangeable with the adjoint. -/
theorem interchangeable_viewWord (hconj : Function.Involutive (Scalar.conj : K → K))
    (a : LinearOperator K) :
    (∀ word : List View, Interchangeable (a.viewWord word)
      (a.viewBy (View.parity View.transposes word) (View.parity View.conjugates word))) ∧
    Interchangeable (.transpose (.conjugate a)) (.conjTranspose a) := by
  have hword : ∀ word : List View, Interchangeable (a.viewWord word) (a.viewByParity word) := by
    intro word
    have hshapes := a.shapes_viewBy (View.parity View.transposes word)
      (View.parity View.conjugates word)
    obtain ⟨hinput, houtput⟩ := Prod.mk.inj ((a.shapes_viewWord word).trans hshapes.symm)
    refine ⟨hinput, houtput, fun x t => ?_, fun y t => ?_, ?_, fun t => ?_⟩
    · rw [LinearOperator.apply, LinearOperator.apply, evalChecked, evalChecked,
        eval_viewWord hconj, hinput]
      rfl
    · rw [LinearOperator.adjoint, LinearOperator.adjoint, eval_viewWord hconj, houtput]
      rfl
    · exact diagonalEntries?_viewWord hconj a word
    · exact (adjointState_viewWord t a word).trans (adjointState_viewBy t a _ _).symm
  exact ⟨hword, hword [.conjugate, .transpose]⟩

/-- A closure that fails on every signal. -/
def failingClosure : Closure (ComplexOf ℝ) :=
  ⟨0, .vector 2, .vector 2, fun _ => .error .io, some fun _ => .error .misuse⟩

/-- Three letters transpose and three conjugate: the word comes to the adjoint, whose failure is the
one of the given adjoint. -/
theorem interchangeable_failingClosure :
    Function.Involutive (Scalar.conj : ComplexOf ℝ → ComplexOf ℝ) ∧
    ∀ (x : Signal (ComplexOf ℝ)) (t : Trace (ComplexOf ℝ) ℝ),
      (((leaf (.closure failingClosure)).viewWord
        [.conjTranspose, .transpose, .conjugate, .conjTranspose]).apply x).run t =
        ((conjTranspose (leaf (.closure failingClosure))).apply x).run t := by
  have hconj : Function.Involutive (Scalar.conj : ComplexOf ℝ → ComplexOf ℝ) := by
    intro z
    apply ExactScalar.val_injective
    rw [ExactScalar.val_conj, ExactScalar.val_conj, Complex.conj_conj]
  have hwords := (interchangeable_viewWord hconj (leaf (.closure failingClosure))).1
  exact ⟨hconj, (hwords [.conjTranspose, .transpose, .conjugate, .conjTranspose]).apply⟩

end LinearOperator

end OperatorSplitting
