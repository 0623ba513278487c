import Mathlib
import OperatorSplitting.Proofs.Linear.Adjointness

/-!
# Declared shapes and actual shapes

An expression checks the shape of its argument once and then runs without further checks.  This is
enough.  An argument of another shape is refused before anything is evaluated, so that the trace
stays as it was.  Every result has the declared shape, whatever the closures do and whatever the
trace holds: a closure whose result has another shape is a failure, and so the declared shapes of
the parts are the shapes that evaluation sees (`LinearOperator.ensures_eval`).  Without closures
only the room for arrays can be missing: if the primitive operators are roomy, every array of the
declared shape has a result (`LinearOperator.succeeds_eval`).

Nothing is asked of the elements here; all statements hold for rounded elements as well.
-/

namespace OperatorSplitting

open Eval

variable {K R W α β : Type}

/-! ### Computations that leave the trace alone -/

/-- From every trace the computation has one result, which has a property, and it leaves the trace
as it was. -/
def Eval.Succeeds (m : Eval K W α) (p : α → Prop) : Prop :=
  ∃ a, (∀ t, m.run t = (.ok a, t)) ∧ p a

namespace Eval.Succeeds

variable {m : Eval K W α} {f : α → Eval K W β} {p : α → Prop} {q : β → Prop}

theorem pure {a : α} (h : p a) : Succeeds (Pure.pure a : Eval K W α) p := ⟨a, fun _ => rfl, h⟩

theorem liftExcept {r : Except Error α} (h : ∃ a, r = .ok a ∧ p a) :
    Succeeds (liftM r : Eval K W α) p := by
  obtain ⟨a, rfl, ha⟩ := h
  exact ⟨a, fun _ => rfl, ha⟩

theorem bind (hm : Succeeds m p) (hf : ∀ a, p a → Succeeds (f a) q) : Succeeds (m >>= f) q := by
  obtain ⟨a, hrun, ha⟩ := hm
  obtain ⟨b, hrun', hb⟩ := hf a ha
  refine ⟨b, fun t => ?_, hb⟩
  rw [run_bind, hrun]
  exact hrun' t

theorem mono {p' : α → Prop} (hm : Succeeds m p) (h : ∀ a, p a → p' a) : Succeeds m p' := by
  obtain ⟨a, hrun, ha⟩ := hm
  exact ⟨a, hrun, h a ha⟩

/-- The result is the outcome. -/
theorem outcome (hm : Succeeds m p) : Succeeds m fun a => m.outcome = .ok a ∧ p a := by
  obtain ⟨a, hrun, ha⟩ := hm
  exact ⟨a, hrun, congrArg Prod.fst (hrun .empty), ha⟩

end Eval.Succeeds

/-! ### Elementwise operations on results -/

section Elementwise

variable {inv : Trace K W → Prop} {m m' : Eval K W (Signal K)} {s : Shape}

theorem Ensures.mapSignal (f : K → K) (hm : Ensures inv m fun u => u.shape = s) :
    Ensures inv (do return (← m).map f : Eval K W _) fun u => u.shape = s :=
  hm.bind fun u hu => .pure ((Signal.shape_map f u).trans hu)

theorem Ensures.zipMap (place : String) (f : K → K → K) (hm : Ensures inv m fun u => u.shape = s)
    (hm' : Ensures inv m' fun u => u.shape = s) :
    Ensures inv (do
      let u ← m
      let v ← m'
      Signal.zipMap place f u v : Eval K W _) fun w => w.shape = s := by
  refine hm.bind fun u hu => hm'.bind fun v _ => ?_
  exact (Ensures.liftExcept _).mono fun w hw => (Signal.shape_of_zipMap hw).trans hu

theorem Eval.Succeeds.mapSignal (f : K → K) (hm : Succeeds m fun u => u.shape = s) :
    Succeeds (do return (← m).map f : Eval K W _) fun u => u.shape = s :=
  hm.bind fun u hu => .pure ((Signal.shape_map f u).trans hu)

theorem Signal.succeeds_zipMap (place : String) (f : K → K → K) {x y : Signal K}
    (h : x.shape = y.shape) :
    Succeeds (liftM (Signal.zipMap place f x y) : Eval K W _) fun z =>
      Signal.zipMap place f x y = .ok z := by
  obtain ⟨z, hz, -⟩ : ∃ z, Signal.zipMap place f x y = .ok z ∧ z.shape = x.shape ∧
      z.entries = Array.zipWith f x.entries y.entries := Signal.zipMap_eq_ok h
  exact .liftExcept ⟨z, hz, hz⟩

theorem Eval.Succeeds.zipMap (place : String) (f : K → K → K)
    (hm : Succeeds m fun u => u.shape = s) (hm' : Succeeds m' fun u => u.shape = s) :
    Succeeds (do
      let u ← m
      let v ← m'
      Signal.zipMap place f u v : Eval K W _) fun w => w.shape = s := by
  refine hm.bind fun u hu => hm'.bind fun v hv => ?_
  exact (Signal.succeeds_zipMap place f (hu.trans hv.symm)).mono fun w hw =>
    (Signal.shape_of_zipMap hw).trans hu

end Elementwise

variable [Scalar K R W]

/-! ### Closures -/

namespace Closure

/-- Whatever the function does, a result has the declared shape. -/
theorem ensures_forward (c : Closure K) (x : Signal K) :
    Ensures (fun _ => True) (c.forward x : Eval K W _) fun u => u.shape = c.output := by
  intro t _
  rw [run_forward]
  exact ⟨trivial, fun u hu => (image_eq_ok_iff.mp hu).2⟩

/-- Whatever the function and a given adjoint do, and whatever matrix is kept, a result has the
declared shape. -/
theorem ensures_adjoint (c : Closure K) (y : Signal K) :
    Ensures (fun _ => True) (c.adjoint y : Eval K W _) fun v => v.shape = c.input := by
  unfold adjoint
  cases c.adjointFn? with
  | some f =>
    refine (Ensures.trivial _).bind fun _ _ => (Ensures.liftExcept (f y)).bind fun x _ => ?_
    by_cases hx : x.shape = c.input
    · rw [if_pos hx]
      exact .pure hx
    · rw [if_neg hx]
      exact .throw _
  | none =>
    refine (Ensures.trivial c.derivedAdjoint).bind fun m _ => (Ensures.trivial _).bind fun v _ => ?_
    exact (Ensures.liftExcept _).mono fun x hx => (Signal.ofEntries_spec hx).1

end Closure

/-! ### Primitive operators -/

namespace Leaf

/-- The primitive operator is not a closure. -/
def ClosureFree : Leaf K → Prop
  | .closure _ => False
  | _ => True

theorem ensures_forward (l : Leaf K) {x : Signal K} (hx : x.shape = l.input) :
    Ensures (fun _ => True) (l.forward x : Eval K W _) fun u => u.shape = l.output := by
  cases l with
  | identity shape => exact .pure hx
  | matrix m => exact (Ensures.liftExcept _).mono fun u hu => m.forward_shapedMap.shape_eq hx hu
  | diagonal op => exact (Ensures.liftExcept _).mono fun u hu => op.forward_shapedMap.shape_eq hx hu
  | difference op =>
    exact (Ensures.liftExcept _).mono fun u hu => op.forward_shapedMap.shape_eq hx hu
  | convolution op =>
    exact (Ensures.liftExcept _).mono fun u hu => op.forward_shapedMap.shape_eq hx hu
  | closure c => exact c.ensures_forward x

theorem ensures_adjoint (l : Leaf K) {y : Signal K} (hy : y.shape = l.output) :
    Ensures (fun _ => True) (l.adjoint y : Eval K W _) fun v => v.shape = l.input := by
  cases l with
  | identity shape => exact .pure hy
  | matrix m => exact (Ensures.liftExcept _).mono fun v hv => m.adjoint_shapedMap.shape_eq hy hv
  | diagonal op => exact (Ensures.liftExcept _).mono fun v hv => op.adjoint_shapedMap.shape_eq hy hv
  | difference op =>
    exact (Ensures.liftExcept _).mono fun v hv => op.adjoint_shapedMap.shape_eq hy hv
  | convolution op =>
    exact (Ensures.liftExcept _).mono fun v hv => op.adjoint_shapedMap.shape_eq hy hv
  | closure c => exact c.ensures_adjoint y

/-- A map that is total and shaped succeeds. -/
theorem succeeds_of_totalOn {f : PartialMap K} {s s' : Shape} {x : Signal K} (ht : TotalOn f s)
    (hs : ShapedMap f s s') (hx : x.shape = s) :
    Succeeds (liftM (f x) : Eval K W _) fun u => u.shape = s' := by
  obtain ⟨u, hu⟩ := ht x hx
  exact .liftExcept ⟨u, hu, hs.shape_eq hx hu⟩

theorem succeeds_forward {l : Leaf K} (hfree : l.ClosureFree) (hroom : l.Roomy) {x : Signal K}
    (hx : x.shape = l.input) :
    Succeeds (l.forward x : Eval K W _) fun u => u.shape = l.output := by
  cases l with
  | identity shape => exact .pure hx
  | matrix m =>
    exact succeeds_of_totalOn (DenseMatrix.forward_totalOn hroom.1) m.forward_shapedMap hx
  | diagonal op =>
    exact succeeds_of_totalOn (Diagonal.forward_totalOn (Shape.Roomy.storable hroom))
      op.forward_shapedMap hx
  | difference op =>
    exact succeeds_of_totalOn (FiniteDifference.forward_totalOn hroom.1 hroom.2)
      op.forward_shapedMap hx
  | convolution op =>
    exact succeeds_of_totalOn (Convolution.forward_totalOn hroom.1 hroom.2.1 hroom.2.2)
      op.forward_shapedMap hx
  | closure c => exact hfree.elim

theorem succeeds_adjoint {l : Leaf K} (hfree : l.ClosureFree) (hroom : l.Roomy) {y : Signal K}
    (hy : y.shape = l.output) :
    Succeeds (l.adjoint y : Eval K W _) fun v => v.shape = l.input := by
  cases l with
  | identity shape => exact .pure hy
  | matrix m =>
    exact succeeds_of_totalOn (DenseMatrix.adjoint_totalOn hroom.2) m.adjoint_shapedMap hy
  | diagonal op =>
    exact succeeds_of_totalOn (Diagonal.adjoint_totalOn hroom) op.adjoint_shapedMap hy
  | difference op =>
    exact succeeds_of_totalOn (FiniteDifference.adjoint_totalOn hroom.1) op.adjoint_shapedMap hy
  | convolution op =>
    exact succeeds_of_totalOn (Convolution.adjoint_totalOn hroom.1 hroom.2.2)
      op.adjoint_shapedMap hy
  | closure c => exact hfree.elim

end Leaf

/-! ### Expressions -/

namespace LinearOperator

/-- The shape of the arguments in a direction. -/
def source (a : LinearOperator K) : Direction → Shape
  | .forward => a.input
  | .adjoint => a.output

/-- The shape of the results in a direction. -/
def target (a : LinearOperator K) : Direction → Shape
  | .forward => a.output
  | .adjoint => a.input

/-- No part of the expression is a closure. -/
def ClosureFree (a : LinearOperator K) : Prop := a.AllLeaves Leaf.ClosureFree

omit [Scalar K R W] in
/-- The parts of a sum have the shapes of the sum. -/
theorem source_eq_of_parts {a b : LinearOperator K} (hinput : a.input = b.input)
    (houtput : a.output = b.output) (d : Direction) :
    a.source d = b.source d ∧ a.target d = b.target d := by
  cases d with
  | forward => exact ⟨hinput, houtput⟩
  | adjoint => exact ⟨houtput, hinput⟩

/-- Whatever the closures do and whatever was evaluated before, a result of evaluation has the
declared shape. -/
theorem ensures_eval {a : LinearOperator K} (hs : a.WellShaped) (d : Direction) {x : Signal K}
    (hx : x.shape = a.source d) :
    Ensures (fun _ => True) (a.eval d x : Eval K W _) fun u => u.shape = a.target d := by
  induction a generalizing d x with
  | leaf l =>
    cases d with
    | forward => exact l.ensures_forward hx
    | adjoint => exact l.ensures_adjoint hx
  | sum a b iha ihb | difference a b iha ihb =>
    obtain ⟨hsa, hsb, hinput, houtput⟩ := hs
    obtain ⟨hsource, htarget⟩ := source_eq_of_parts hinput houtput d
    have hb := ihb hsb d (hx.trans hsource)
    rw [← htarget] at hb
    exact (iha hsa d hx).zipMap _ _ hb
  | multiple s a ih | negation a ih =>
    cases d with
    | forward => exact (ih hs .forward hx).mapSignal _
    | adjoint => exact (ih hs .adjoint hx).mapSignal _
  | composition outer inner iho ihi =>
    obtain ⟨hso, hsi, hmiddle⟩ := hs
    cases d with
    | forward =>
      exact (ihi hsi .forward hx).bind fun u hu => iho hso .forward (hu.trans hmiddle.symm)
    | adjoint => exact (iho hso .adjoint hx).bind fun u hu => ihi hsi .adjoint (hu.trans hmiddle)
  | transpose a ih =>
    cases d with
    | forward => exact (ih hs .adjoint ((Signal.shape_map _ x).trans hx)).mapSignal _
    | adjoint => exact (ih hs .forward ((Signal.shape_map _ x).trans hx)).mapSignal _
  | conjTranspose a ih =>
    cases d with
    | forward => exact ih hs .adjoint hx
    | adjoint => exact ih hs .forward hx
  | conjugate a ih =>
    cases d with
    | forward => exact (ih hs .forward ((Signal.shape_map _ x).trans hx)).mapSignal _
    | adjoint => exact (ih hs .adjoint ((Signal.shape_map _ x).trans hx)).mapSignal _

/-- Without closures, evaluation has a result at every signal of the declared shape and leaves the
trace alone, if the primitive operators are roomy. -/
theorem succeeds_eval {a : LinearOperator K} (hs : a.WellShaped) (hfree : a.ClosureFree)
    (hroom : a.AllLeaves Leaf.Roomy) (d : Direction) {x : Signal K} (hx : x.shape = a.source d) :
    Succeeds (a.eval d x : Eval K W _) fun u => u.shape = a.target d := by
  induction a generalizing d x with
  | leaf l =>
    cases d with
    | forward => exact Leaf.succeeds_forward hfree hroom hx
    | adjoint => exact Leaf.succeeds_adjoint hfree hroom hx
  | sum a b iha ihb | difference a b iha ihb =>
    obtain ⟨hsa, hsb, hinput, houtput⟩ := hs
    obtain ⟨hsource, htarget⟩ := source_eq_of_parts hinput houtput d
    have hb := ihb hsb hfree.2 hroom.2 d (hx.trans hsource)
    rw [← htarget] at hb
    exact (iha hsa hfree.1 hroom.1 d hx).zipMap _ _ hb
  | multiple s a ih | negation a ih =>
    cases d with
    | forward => exact (ih hs hfree hroom .forward hx).mapSignal _
    | adjoint => exact (ih hs hfree hroom .adjoint hx).mapSignal _
  | composition outer inner iho ihi =>
    obtain ⟨hso, hsi, hmiddle⟩ := hs
    cases d with
    | forward =>
      exact (ihi hsi hfree.2 hroom.2 .forward hx).bind fun u hu =>
        iho hso hfree.1 hroom.1 .forward (hu.trans hmiddle.symm)
    | adjoint =>
      exact (iho hso hfree.1 hroom.1 .adjoint hx).bind fun u hu =>
        ihi hsi hfree.2 hroom.2 .adjoint (hu.trans hmiddle)
  | transpose a ih =>
    cases d with
    | forward => exact (ih hs hfree hroom .adjoint ((Signal.shape_map _ x).trans hx)).mapSignal _
    | adjoint => exact (ih hs hfree hroom .forward ((Signal.shape_map _ x).trans hx)).mapSignal _
  | conjTranspose a ih =>
    cases d with
    | forward => exact ih hs hfree hroom .adjoint hx
    | adjoint => exact ih hs hfree hroom .forward hx
  | conjugate a ih =>
    cases d with
    | forward => exact (ih hs hfree hroom .forward ((Signal.shape_map _ x).trans hx)).mapSignal _
    | adjoint => exact (ih hs hfree hroom .adjoint ((Signal.shape_map _ x).trans hx)).mapSignal _

/-! ### Apply and adjoint -/

theorem run_apply_of_ne {a : LinearOperator K} {x : Signal K} (hx : x.shape ≠ a.input)
    (t : Trace K W) : (a.apply x).run t =
      (.error (.shapeMismatch "linear operator input" a.input x.shape), t) := by
  unfold apply evalChecked
  rw [if_neg hx]
  rfl

theorem run_adjoint_of_ne {a : LinearOperator K} {y : Signal K} (hy : y.shape ≠ a.output)
    (t : Trace K W) : (a.adjoint y).run t =
      (.error (.shapeMismatch "adjoint" a.output y.shape), t) := by
  unfold adjoint
  rw [if_neg hy]
  rfl

/-- A result of `apply` has the declared shape. -/
theorem ensures_apply {a : LinearOperator K} (hs : a.WellShaped) (x : Signal K) :
    Ensures (fun _ => True) (a.apply x : Eval K W _) fun u => u.shape = a.output := by
  unfold apply evalChecked
  by_cases hx : x.shape = a.input
  · rw [if_pos hx]
    exact ensures_eval hs .forward hx
  · rw [if_neg hx]
    exact .throw _

/-- A result of `adjoint` has the declared shape. -/
theorem ensures_adjoint {a : LinearOperator K} (hs : a.WellShaped) (y : Signal K) :
    Ensures (fun _ => True) (a.adjoint y : Eval K W _) fun v => v.shape = a.input := by
  unfold adjoint
  by_cases hy : y.shape = a.output
  · rw [if_pos hy]
    exact ensures_eval hs .adjoint hy
  · rw [if_neg hy]
    exact .throw _

theorem succeeds_apply {a : LinearOperator K} (hs : a.WellShaped) (hfree : a.ClosureFree)
    (hroom : a.AllLeaves Leaf.Roomy) {x : Signal K} (hx : x.shape = a.input) :
    Succeeds (a.apply x : Eval K W _) fun u => u.shape = a.output := by
  unfold apply evalChecked
  rw [if_pos hx]
  exact succeeds_eval hs hfree hroom .forward hx

theorem succeeds_adjoint {a : LinearOperator K} (hs : a.WellShaped) (hfree : a.ClosureFree)
    (hroom : a.AllLeaves Leaf.Roomy) {y : Signal K} (hy : y.shape = a.output) :
    Succeeds (a.adjoint y : Eval K W _) fun v => v.shape = a.input := by
  unfold adjoint
  rw [if_pos hy]
  exact succeeds_eval hs hfree hroom .adjoint hy

/-- Declared and actual shapes agree.  Arguments of another shape are refused, and nothing is
evaluated; results have the declared shape, whatever the closures do and whatever the trace holds;
and without closures there is a result at every signal of the declared shape if the primitive
operators are roomy. -/
theorem apply_adjoint_shapes {a : LinearOperator K} (hs : a.WellShaped) (x : Signal K)
    (t : Trace K W) :
    (x.shape ≠ a.input → (a.apply x).run t =
      (.error (.shapeMismatch "linear operator input" a.input x.shape), t)) ∧
    (x.shape ≠ a.output → (a.adjoint x).run t =
      (.error (.shapeMismatch "adjoint" a.output x.shape), t)) ∧
    (∀ u, ((a.apply x).run t).1 = .ok u → u.shape = a.output) ∧
    (∀ v, ((a.adjoint x).run t).1 = .ok v → v.shape = a.input) ∧
    (a.ClosureFree → a.AllLeaves Leaf.Roomy →
      (x.shape = a.input → ∃ u, (a.apply x).run t = (.ok u, t)) ∧
      (x.shape = a.output → ∃ v, (a.adjoint x).run t = (.ok v, t))) := by
  refine ⟨fun hx => run_apply_of_ne hx t, fun hx => run_adjoint_of_ne hx t,
    ((ensures_apply hs x) t trivial).2, ((ensures_adjoint hs x) t trivial).2,
    fun hfree hroom => ⟨fun hx => ?_, fun hx => ?_⟩⟩
  · obtain ⟨u, hu, -⟩ := succeeds_apply (W := W) hs hfree hroom hx
    exact ⟨u, hu t⟩
  · obtain ⟨v, hv, -⟩ := succeeds_adjoint (W := W) hs hfree hroom hx
    exact ⟨v, hv t⟩

/-- A diagonal operator that stretches a column along its rows. -/
def stretchingDiagonal : Diagonal ℝ where
  factor := .flat ⟨[1, 2], #[3, 4], rfl⟩
  input := .flat [2, 1]
  output := .flat [2, 2]
  broadcast_eq := rfl

theorem apply_shapes_gram_stretchingDiagonal :
    (((gramOperator (.leaf (.diagonal stretchingDiagonal))).apply
      (Signal.ofArray #[1, 2])).run .empty =
        (.error (.shapeMismatch "linear operator input" (.flat [2, 1]) (.vector 2)), .empty)) ∧
      ∃ u, ((gramOperator (.leaf (.diagonal stretchingDiagonal))).apply
        (.flat ⟨[2, 1], #[1, 2], rfl⟩)).run .empty = (.ok u, .empty) ∧ u.shape = .flat [2, 1] := by
  have hshaped : (leaf (.diagonal stretchingDiagonal)).WellShaped := trivial
  have hleaf : (Leaf.diagonal stretchingDiagonal).Roomy := by
    show (Shape.flat [2, 2]).Roomy
    unfold Shape.Roomy
    decide
  have hroom : (gramOperator (.leaf (.diagonal stretchingDiagonal))).AllLeaves Leaf.Roomy :=
    ⟨hleaf, hleaf⟩
  obtain ⟨hrefused, -⟩ :=
    apply_adjoint_shapes hshaped.gramOperator (Signal.ofArray #[1, 2]) (.empty : Trace ℝ ℝ)
  obtain ⟨-, -, hshape, -, htotal⟩ := apply_adjoint_shapes hshaped.gramOperator
    (.flat ⟨[2, 1], #[1, 2], rfl⟩) (.empty : Trace ℝ ℝ)
  obtain ⟨u, hu⟩ := (htotal ⟨trivial, trivial⟩ hroom).1 rfl
  refine ⟨hrefused (by decide), u, hu, hshape u ?_⟩
  rw [hu]

/-- Without room a broadcast fails inside an expression: the result of a diagonal operator may be
too long to be addressed, even without entries. -/
theorem exists_apply_eq_broadcast_error :
    ∃ (a : LinearOperator ℝ) (x : Signal ℝ), a.WellShaped ∧ a.ClosureFree ∧ x.shape = a.input ∧
      (a.apply x).run .empty = (.error (.shapeMismatch "diagonal broadcast"
        (.flat [2 ^ 32, 2 ^ 32, 0]) (.flat [2 ^ 32, 1, 0])), .empty) := by
  have hshaped : (leaf (.diagonal longDiagonal)).WellShaped := trivial
  refine ⟨gramOperator (.leaf (.diagonal longDiagonal)), .flat (longEmpty [2 ^ 32, 1, 0] rfl),
    hshaped.gramOperator, ⟨trivial, trivial⟩, rfl, ?_⟩
  have hbroadcast : longDiagonal.forward (.flat (longEmpty [2 ^ 32, 1, 0] rfl)) =
      .error (.shapeMismatch "diagonal broadcast" (.flat [2 ^ 32, 2 ^ 32, 0])
        (.flat [2 ^ 32, 1, 0])) := by
    show (Diagonal.stretchedProduct (· * ·) (longEmpty [2 ^ 32, 1, 0] rfl)
      (longEmpty [1, 2 ^ 32, 0] rfl) [2 ^ 32, 2 ^ 32, 0]).map Signal.flat = _
    unfold Diagonal.stretchedProduct Tensor.canStretch
    have hlong : ¬Addressable [2 ^ 32, 2 ^ 32, 0] := by decide
    simp only [hlong, decide_false, Bool.and_false, Bool.false_eq_true, if_false]
    rfl
  show ((do
    let u ← (liftM (longDiagonal.forward (.flat (longEmpty [2 ^ 32, 1, 0] rfl))) : Eval ℝ ℝ _)
    (leaf (.diagonal longDiagonal)).eval .adjoint u : Eval ℝ ℝ _).run .empty) = _
  rw [hbroadcast]
  rfl

end LinearOperator

end OperatorSplitting
