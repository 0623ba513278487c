import Mathlib
import OperatorSplitting.Proofs.Functional.Shapes

/-!
# What functionals say that they can do

A functional tells whether it has values, a proximal map and a gradient.  It is *supported* to ask
for what it has: the answer may be a failure, because shapes do not fit, because memory does not hold
a result or because a closure fails, but it is never the refusal of an operation that is not there.

The functionals of the library keep this under any multiples, provided that the closures of their
operators and the backends of their denoisers do not report unsupported operations by themselves.
What a functional does not say that it has, it refuses everywhere; so that the flags tell exactly
what is supported (`Functional.supported_value_iff` and its siblings).
-/

namespace OperatorSplitting

open Eval

variable {K R W α β : Type}

/-! ### Supported computations -/

/-- An operation is refused because it is not there. -/
def Error.IsUnsupported : Error → Prop
  | .unsupported _ => True
  | _ => False

/-- There is a result, or a failure that is not the refusal of an operation. -/
abbrev Except.Supported (r : Except Error α) : Prop :=
  Except.EndsIn (fun e => ¬e.IsUnsupported) (fun _ => True) r

/-- From every trace the computation is supported. -/
abbrev Eval.Supported (m : Eval K W α) : Prop :=
  EndsIn (fun e => ¬e.IsUnsupported) m fun _ => True

theorem Eval.Supported.map {m : Eval K W α} (hm : Supported m) (g : α → β) :
    Supported (do return g (← m) : Eval K W β) :=
  hm.bind fun _ _ => .pure trivial

/-- What is done with the results does not matter. -/
theorem Eval.supported_map_iff {m : Eval K W α} (g : α → β) :
    Supported (do return g (← m) : Eval K W β) ↔ Supported m := by
  refine ⟨fun h t => ?_, fun h => h.map g⟩
  have hend := h t
  rw [run_bind] at hend
  rcases hrun : m.run t with ⟨e | a, t'⟩
  · rw [hrun] at hend
    exact hend
  · exact trivial

/-- A computation that refuses an operation from every trace is not supported. -/
theorem Eval.not_supported {m : Eval K W α} {fault : UnsupportedFault}
    (h : ∀ t, (m.run t).1 = .error (.unsupported fault)) : ¬Supported m := by
  intro hm
  have hend := hm .empty
  rw [h] at hend
  exact hend trivial

namespace Except.Supported

variable {r : Except Error α}

theorem map (hr : Supported r) (g : α → β) : Supported (r.map g) :=
  EndsIn.map hr fun _ _ => trivial

end Except.Supported

theorem supported_orMisuse (o : Option α) : Except.Supported (orMisuse o) := by
  cases o with
  | none => exact id
  | some a => exact trivial

/-! ### Arrays and signals -/

namespace Signal

theorem supported_zipMap {γ : Type} (place : String) (f : α → β → γ) (x : Signal α)
    (y : Signal β) : Except.Supported (zipMap place f x y) := by
  unfold zipMap
  extract_lets combined
  cases combined with
  | some z => exact trivial
  | none => exact id

theorem supported_expectFlat (place : String) (x : Signal α) :
    Except.Supported (x.expectFlat place) := by
  cases x with
  | flat t => exact trivial
  | blocked ts => exact id

theorem supported_vdot [Scalar K R W] (x y : Signal K) : Except.Supported (x.vdot y) := by
  unfold vdot
  split
  · exact trivial
  · exact id

theorem supported_ofDims (dims : List ℕ) (values : Array α) :
    Except.Supported (ofDims dims values) := by
  unfold ofDims
  split
  · exact trivial
  · exact id

theorem supported_cutBlocks (whole : Shape) (values : Array α) (blocks : List (List ℕ)) (start : ℕ) :
    Except.Supported (cutBlocks whole values blocks start) := by
  induction blocks generalizing start with
  | nil => exact trivial
  | cons dims rest ih =>
    rw [cutBlocks]
    split
    · exact id
    · exact (ih _).map _

theorem supported_ofEntries (s : Shape) (values : Array α) :
    Except.Supported (ofEntries s values) := by
  unfold ofEntries
  split
  · cases s with
    | flat dims => exact supported_ofDims dims values
    | blocked blocks => exact (supported_cutBlocks _ values blocks 0).map _
  · exact id

end Signal

/-! ### Primitive operators -/

namespace DenseMatrix

variable [Scalar K R W]

omit [Scalar K R W] in
theorem supported_vectorOf (place : String) (x : Signal K) :
    Except.Supported (vectorOf place x) := by
  refine (x.supported_expectFlat place).bind fun t _ => ?_
  by_cases ht : t.rank = 1
  · rw [if_pos ht]
    exact trivial
  · rw [if_neg ht]
    exact id

theorem supported_forward (m : DenseMatrix K) (x : Signal K) : Except.Supported (m.forward x) :=
  (supported_vectorOf _ x).bind fun _ _ => (supported_orMisuse _).bind fun _ _ => trivial

theorem supported_adjoint (m : DenseMatrix K) (y : Signal K) : Except.Supported (m.adjoint y) :=
  (supported_vectorOf _ y).bind fun _ _ => (supported_orMisuse _).bind fun _ _ => trivial

end DenseMatrix

namespace Diagonal

variable [Scalar K R W]

theorem supported_stretchedProduct (f : K → K → K) (x d : Tensor K) (dims : List ℕ) :
    Except.Supported (stretchedProduct f x d dims) := by
  unfold stretchedProduct
  split
  · exact supported_orMisuse _
  · exact id

theorem supported_forwardBlocks (xs ds : List (Tensor K)) (blocks : List (List ℕ)) :
    Except.Supported (forwardBlocks xs ds blocks) := by
  fun_induction forwardBlocks xs ds blocks with
  | case1 x xs d ds dims rest ih =>
    exact (supported_stretchedProduct _ x d dims).bind fun _ _ => ih.bind fun _ _ => trivial
  | case2 => exact trivial

theorem supported_adjointTensor (y d : Tensor K) (target : List ℕ) :
    Except.Supported (adjointTensor y d target) :=
  (supported_stretchedProduct _ y d y.dims).bind fun _ _ => supported_orMisuse _

theorem supported_adjointBlocks (ys ds : List (Tensor K)) (targets : List (List ℕ)) :
    Except.Supported (adjointBlocks ys ds targets) := by
  fun_induction adjointBlocks ys ds targets with
  | case1 y ys d ds target rest ih =>
    exact (supported_adjointTensor y d target).bind fun _ _ => ih.bind fun _ _ => trivial
  | case2 => exact trivial

theorem supported_forward (op : Diagonal K) (x : Signal K) : Except.Supported (op.forward x) := by
  unfold forward
  split
  · exact (supported_stretchedProduct _ _ _ _).map _
  · exact (supported_forwardBlocks _ _ _).map _
  · exact id

theorem supported_adjoint (op : Diagonal K) (y : Signal K) : Except.Supported (op.adjoint y) := by
  unfold adjoint
  split
  · exact (supported_adjointTensor _ _ _).map _
  · exact (supported_adjointBlocks _ _ _).map _
  · exact id

end Diagonal

namespace FiniteDifference

variable [Scalar K R W]

theorem supported_joined (axis : ℕ) (a b : Tensor K) : Except.Supported (joined axis a b) := by
  unfold joined
  split
  · exact trivial
  · exact id

theorem supported_differenceAlong (op : FiniteDifference) (x : Tensor K) (axis : ℕ) :
    Except.Supported (op.differenceAlong x axis) := by
  refine (supported_orMisuse _).bind fun head _ =>
    (supported_orMisuse _).bind fun tail _ =>
      (supported_orMisuse _).bind fun inner _ => ?_
  cases op.boundary with
  | truncate => exact trivial
  | appendZero =>
    exact (supported_orMisuse _).bind fun last _ => supported_joined axis inner _
  | circular =>
    exact (supported_orMisuse _).bind fun first _ =>
      (supported_orMisuse _).bind fun last _ =>
        (supported_orMisuse _).bind fun wrapped _ => supported_joined axis inner wrapped

theorem supported_differences (op : FiniteDifference) (x : Tensor K) (axes : List ℕ) :
    Except.Supported (op.differences x axes) := by
  induction axes with
  | nil => exact trivial
  | cons axis axes ih =>
    exact (op.supported_differenceAlong x axis).bind fun _ _ => ih.bind fun _ _ => trivial

theorem supported_forward (op : FiniteDifference) (x : Signal K) :
    Except.Supported (op.forward x) := by
  refine (x.supported_expectFlat _).bind fun t _ => ?_
  split
  · exact (op.supported_differenceAlong t _).map _
  · refine (op.supported_differences t _).bind fun parts _ => ?_
    by_cases hstacked : op.isStacked
    · rw [if_pos hstacked]
      split
      · exact trivial
      · exact id
    · rw [if_neg hstacked]
      exact trivial

theorem supported_adjoint (op : FiniteDifference) (y : Signal K) :
    Except.Supported (op.adjoint y) :=
  (supported_orMisuse _).map _

end FiniteDifference

namespace Convolution

variable [Scalar K R W]

theorem supported_forward (op : Convolution K) (x : Signal K) : Except.Supported (op.forward x) := by
  refine (x.supported_expectFlat _).bind fun t _ => ?_
  split
  · exact (supported_orMisuse _).bind fun _ _ => trivial
  · exact id

theorem supported_adjoint (op : Convolution K) (y : Signal K) : Except.Supported (op.adjoint y) := by
  refine (y.supported_expectFlat _).bind fun t _ => ?_
  split
  · exact trivial
  · exact id

end Convolution

/-! ### Operators over supported closures -/

section Operators

variable [Scalar K R W]

/-- The functions of the closure do not report unsupported operations. -/
structure Closure.IsSupported (c : Closure K) : Prop where
  forward : ∀ x, Except.Supported (c.forwardFn x)
  adjoint : ∀ f, c.adjointFn? = some f → ∀ y, Except.Supported (f y)

namespace Closure

variable {c : Closure K}

theorem IsSupported.image (h : c.IsSupported) (x : Signal K) : Except.Supported (c.image x) := by
  refine (h.forward x).bind fun y _ => ?_
  by_cases hy : y.shape = c.output
  · rw [if_pos hy]
    exact trivial
  · rw [if_neg hy]
    exact not_false

theorem IsSupported.eval_forward (h : c.IsSupported) (x : Signal K) :
    Supported (c.forward x : Eval K W _) := by
  intro t
  rw [run_forward]
  exact h.image x

theorem IsSupported.columnsFrom (h : c.IsSupported) (count j : ℕ) :
    Supported (c.columnsFrom count j : Eval K W _) := by
  induction count generalizing j with
  | zero => exact .pure trivial
  | succ count ih =>
    refine (EndsIn.liftExcept (Signal.supported_ofEntries _ _)).bind fun e _ => ?_
    exact (h.eval_forward e).bind fun y _ => (ih (j + 1)).bind fun _ _ => .pure trivial

theorem IsSupported.probe (h : c.IsSupported) : Supported (c.probe : Eval K W _) := by
  unfold Closure.probe
  dsimp only
  split
  · exact (h.columnsFrom _ _).bind fun _ _ => .pure trivial
  · exact .throw not_false

theorem IsSupported.derivedAdjoint (h : c.IsSupported) :
    Supported (c.derivedAdjoint : Eval K W _) := by
  intro t
  have hprobe := h.probe (W := W) t
  rw [run_derivedAdjoint]
  cases (t.cell c.id).derived with
  | some m => exact trivial
  | none =>
    dsimp only
    rcases hrun : (c.probe : Eval K W _).run t with ⟨e | m, t'⟩ <;> rw [hrun] at hprobe
    · exact hprobe
    · exact trivial

theorem IsSupported.eval_adjoint (h : c.IsSupported) (y : Signal K) :
    Supported (c.adjoint y : Eval K W _) := by
  unfold Closure.adjoint
  cases hgiven : c.adjointFn? with
  | some f =>
    have htouch : Supported (c.touch fun cell =>
        { cell with adjointCalls := cell.adjointCalls + 1 } : Eval K W Unit) := fun _ => trivial
    refine htouch.bind fun _ _ => (EndsIn.liftExcept (h.adjoint f hgiven y)).bind fun x _ => ?_
    exact EndsIn.ite (.pure trivial) (.throw not_false)
  | none =>
    refine h.derivedAdjoint.bind fun m _ => ?_
    exact (EndsIn.liftExcept (supported_orMisuse _)).bind fun v _ =>
      .liftExcept (Signal.supported_ofEntries _ _)

end Closure

/-- A closure operator is a supported closure. -/
def Leaf.IsSupported : Leaf K → Prop
  | .closure c => c.IsSupported
  | _ => True

namespace Leaf

variable {l : Leaf K}

theorem IsSupported.forward (h : l.IsSupported) (x : Signal K) :
    Supported (l.forward x : Eval K W _) := by
  cases l with
  | identity shape => exact .pure trivial
  | matrix m => exact .liftExcept (m.supported_forward x)
  | diagonal op => exact .liftExcept (op.supported_forward x)
  | difference op => exact .liftExcept (op.supported_forward x)
  | convolution op => exact .liftExcept (op.supported_forward x)
  | closure c => exact Closure.IsSupported.eval_forward h x

theorem IsSupported.adjoint (h : l.IsSupported) (y : Signal K) :
    Supported (l.adjoint y : Eval K W _) := by
  cases l with
  | identity shape => exact .pure trivial
  | matrix m => exact .liftExcept (m.supported_adjoint y)
  | diagonal op => exact .liftExcept (op.supported_adjoint y)
  | difference op => exact .liftExcept (op.supported_adjoint y)
  | convolution op => exact .liftExcept (op.supported_adjoint y)
  | closure c => exact Closure.IsSupported.eval_adjoint h y

end Leaf

namespace LinearOperator

/-- All closures of the expression are supported. -/
abbrev IsSupported (a : LinearOperator K) : Prop := a.AllLeaves Leaf.IsSupported

variable {a : LinearOperator K}

theorem IsSupported.eval (h : a.IsSupported) (d : Direction) (x : Signal K) :
    Supported (a.eval d x : Eval K W _) := by
  induction a generalizing d x with
  | leaf l =>
    cases d with
    | forward => exact Leaf.IsSupported.forward h x
    | adjoint => exact Leaf.IsSupported.adjoint h x
  | sum a b iha ihb | difference a b iha ihb =>
    exact (iha h.1 d x).bind fun u _ => (ihb h.2 d x).bind fun v _ =>
      .liftExcept (Signal.supported_zipMap _ _ u v)
  | multiple s a ih =>
    cases d with
    | forward => exact (ih h .forward x).map _
    | adjoint => exact (ih h .adjoint x).map _
  | composition outer inner iho ihi =>
    cases d with
    | forward => exact (ihi h.2 .forward x).bind fun u _ => iho h.1 .forward u
    | adjoint => exact (iho h.1 .adjoint x).bind fun u _ => ihi h.2 .adjoint u
  | transpose a ih => exact (ih h d.flip x.conj).map _
  | conjTranspose a ih => exact ih h d.flip x
  | conjugate a ih => exact (ih h d x.conj).map _
  | negation a ih => exact (ih h d x).map _

theorem IsSupported.apply (h : a.IsSupported) (x : Signal K) :
    Supported (a.apply x : Eval K W _) :=
  EndsIn.ite (h.eval .forward x) (.throw id)

theorem IsSupported.adjoint (h : a.IsSupported) (y : Signal K) :
    Supported (a.adjoint y : Eval K W _) :=
  EndsIn.ite (h.eval .adjoint y) (.throw id)

end LinearOperator

end Operators

/-! ### Norms and losses -/

section Functionals

variable [RealArithmetic R] [Scalar K R W]

namespace L21

theorem supported_addSquares (first : List ℕ) (bs : List (Tensor K)) (sum : Tensor R) :
    Except.Supported (addSquares first bs sum) := by
  induction bs generalizing sum with
  | nil => exact trivial
  | cons b bs ih =>
    rw [addSquares]
    split
    · exact ih _
    · exact id

theorem supported_groupNorms (axis : ℕ) (x : Signal K) :
    Except.Supported (groupNorms axis x : Except Error (Tensor R)) := by
  unfold groupNorms
  split
  · split
    · exact id
    · exact (supported_orMisuse _).bind fun _ _ => trivial
  · exact id
  · exact (supported_addSquares _ _ _).map _

theorem supported_value (axis : ℕ) (x : Signal K) :
    Except.Supported (value axis x : Except Error R) :=
  (supported_groupNorms axis x).bind fun _ _ => trivial

omit [RealArithmetic R] in
theorem supported_scaleBlock (factors b : Tensor K) :
    Except.Supported (scaleBlock factors b) := by
  unfold scaleBlock
  dsimp only
  split
  · exact trivial
  · exact id

omit [RealArithmetic R] in
theorem supported_scaleBlocks (factors : Tensor K) (bs : List (Tensor K)) :
    Except.Supported (scaleBlocks factors bs) := by
  induction bs with
  | nil => exact trivial
  | cons b bs ih =>
    exact (supported_scaleBlock factors b).bind fun _ _ => ih.bind fun _ _ => trivial

theorem supported_prox (axis : ℕ) (v : Signal K) (step : R) :
    Except.Supported (prox axis v step) := by
  refine (supported_groupNorms axis v).bind fun norms _ => ?_
  dsimp only
  split
  · exact (supported_scaleBlock _ _).map _
  · exact (supported_scaleBlocks _ _).map _

end L21

namespace NonNegative

omit [RealArithmetic R] in
theorem supported_requireReal : Except.Supported (requireReal K) := by
  unfold requireReal
  split
  · exact id
  · exact trivial

theorem supported_value (x : Signal K) : Except.Supported (value x : Except Error R) :=
  supported_requireReal.bind fun _ _ => trivial

theorem supported_prox (v : Signal K) : Except.Supported (prox v) :=
  supported_requireReal.bind fun _ _ => trivial

end NonNegative

namespace SquaredLoss

variable {l : SquaredLoss K R}

omit [RealArithmetic R] in
theorem supported_residual (h : l.operator.IsSupported) (x : Signal K) :
    Supported (l.residual x : Eval K W _) :=
  (h.apply x).bind fun u _ => .liftExcept (Signal.supported_zipMap _ _ u _)

theorem supported_value (h : l.operator.IsSupported) (x : Signal K) :
    Supported (l.value x : Eval K W R) :=
  (supported_residual h x).map _

theorem supported_grad (h : l.operator.IsSupported) (x : Signal K) :
    Supported (l.grad x : Eval K W _) :=
  (supported_residual h x).bind fun r _ => (h.adjoint r).map _

theorem supported_proxDiagonal (d v : Signal K) (step : R) :
    Except.Supported (l.proxDiagonal d v step) :=
  (Signal.supported_zipMap _ _ _ _).bind fun _ _ =>
    (Signal.supported_zipMap _ _ _ _).bind fun _ _ => Signal.supported_zipMap _ _ _ _

/-- A loss has a proximal map exactly if its operator is known to multiply elementwise. -/
theorem supported_prox_iff (v : Signal K) (step : R) :
    Except.Supported (l.prox v step) ↔ l.diagonal?.isSome = true := by
  unfold prox
  cases l.diagonal? with
  | some d => exact iff_of_true (supported_proxDiagonal d v step) rfl
  | none => exact iff_of_false (fun h => h trivial) Bool.false_ne_true

end SquaredLoss

namespace Denoiser

/-- The backend does not report unsupported operations. -/
def IsSupported (d : Denoiser W) : Prop :=
  ∀ backend, d.backend? = some backend → ∀ image sigma, Except.Supported (backend image sigma)

variable [RealArithmetic W] [Widening R W] {d : Denoiser W}

omit [RealArithmetic W] in
/-- Extents that do not suit a denoiser are refused as such. -/
theorem supported_refuse_dimsFault? (d : Denoiser W) (dims : List ℕ) :
    Except.Supported (refuse (d.dimsFault? dims)) := by
  unfold dimsFault?
  dsimp only
  split_ifs
  · exact id
  · exact id
  · exact id
  · exact id
  · exact trivial

omit [RealArithmetic R] in
theorem endsIn_prepare (d : Denoiser W) (x : Signal K) (sigma : W) :
    Except.EndsIn (fun e => ¬e.IsUnsupported) (fun r => d.backend? = some r.1)
      (d.prepare x sigma) := by
  unfold prepare
  by_cases hcomplex : (Scalar.dtype K).isComplex = true
  · rw [if_pos hcomplex]
    exact id
  · rw [if_neg hcomplex]
    refine (x.supported_expectFlat _).bind fun t _ =>
      (d.supported_refuse_dimsFault? t.dims).bind fun _ _ => ?_
    by_cases hsigma : (!RealArithmetic.isNonNegative sigma) = true
    · rw [if_pos hsigma]
      exact id
    · rw [if_neg hsigma]
      cases d.backend? with
      | none => exact id
      | some backend =>
        dsimp only
        split
        · exact rfl
        · exact id

omit [RealArithmetic R] in
theorem IsSupported.denoise (h : d.IsSupported) (x : Signal K) (sigma : W) :
    Supported (d.denoise x sigma : Eval K W _) := by
  refine (EndsIn.liftExcept (d.endsIn_prepare x sigma)).bind fun ⟨backend, image, dims⟩ hr => ?_
  refine (EndsIn.report _).bind fun _ _ =>
    (EndsIn.liftExcept (h backend hr image sigma)).bind fun result _ => ?_
  exact EndsIn.ite (.throw id) (.liftExcept (Signal.supported_ofDims _ _))

end Denoiser

/-! ### The flags -/

namespace Functional

/-- The functional is made of functionals of the library, over supported closures and backends. -/
def IsLibrary : Functional K R W → Prop
  | .external _ => False
  | .prior d => d.IsSupported
  | .loss l => l.operator.IsSupported
  | .multiple _ f => f.IsLibrary
  | _ => True

/-- The functional is a denoising prior, or a multiple of one. -/
def ContainsPrior : Functional K R W → Prop
  | .prior _ => True
  | .multiple _ f => f.ContainsPrior
  | _ => False

variable {f : Functional K R W}

omit [RealArithmetic R] [Scalar K R W] in
/-- Of the functionals of the library the denoising priors alone have no values. -/
theorem hasEval_eq_false_iff (h : f.IsLibrary) : f.hasEval = false ↔ f.ContainsPrior := by
  induction f with
  | external e => exact h.elim
  | prior d => exact iff_of_true rfl trivial
  | multiple s f ih => exact ih h
  | _ => exact iff_of_false Bool.noConfusion id

omit [RealArithmetic R] [Scalar K R W] in
/-- A smooth functional of the library has values. -/
theorem hasEval_of_isSmooth (h : f.IsLibrary) (hsmooth : f.isSmooth = true) : f.hasEval = true := by
  induction f with
  | external e => exact h.elim
  | prior d => cases hsmooth
  | multiple s f ih => exact ih h hsmooth
  | _ => rfl

/-- A squared loss that a functional of the library is recognized as has its operator. -/
theorem isSupported_of_asSquaredLoss? (h : f.IsLibrary) {l : SquaredLoss K R}
    (hl : f.asSquaredLoss? = some l) : l.operator.IsSupported := by
  induction f generalizing l with
  | loss l' =>
    cases hl
    exact h
  | external e => exact h.elim
  | multiple s f ih =>
    obtain ⟨l', hl', rfl⟩ := Option.map_eq_some_iff.mp hl
    have hoperator : l'.operator.IsSupported := ih h hl'
    exact hoperator
  | _ => cases hl

/-- A functional of the library has values exactly if it is supported to ask for them. -/
theorem supported_value_iff (h : f.IsLibrary) (x : Signal K) :
    Supported (f.value x) ↔ f.hasEval = true := by
  induction f with
  | zero | l1 | squaredL2 => exact iff_of_true (.pure trivial) rfl
  | l21 axis => exact iff_of_true (.liftExcept (L21.supported_value axis x)) rfl
  | nonNegative => exact iff_of_true (.liftExcept (NonNegative.supported_value x)) rfl
  | prior d => exact iff_of_false (Eval.not_supported fun _ => rfl) Bool.false_ne_true
  | loss l => exact iff_of_true (SquaredLoss.supported_value h x) rfl
  | external e => exact h.elim
  | multiple s f ih => exact (supported_map_iff _).trans (ih h)

/-- It has a proximal map exactly if it is supported to ask for proximal points. -/
theorem supported_prox_iff [RealArithmetic W] [Widening R W] (h : f.IsLibrary) (v : Signal K)
    (step : R) : Supported (f.prox v step) ↔ f.hasProx = true := by
  induction f generalizing step with
  | zero | l1 | squaredL2 => exact iff_of_true (.pure trivial) rfl
  | l21 axis => exact iff_of_true (.liftExcept (L21.supported_prox axis v step)) rfl
  | nonNegative => exact iff_of_true (.liftExcept (NonNegative.supported_prox v)) rfl
  | prior d => exact iff_of_true (Denoiser.IsSupported.denoise h v _) rfl
  | loss l =>
    have hlift : Supported (l.prox v step : Eval K W _) ↔ Except.Supported (l.prox v step) :=
      ⟨fun h => h .empty, .liftExcept⟩
    exact hlift.trans (SquaredLoss.supported_prox_iff v step)
  | external e => exact h.elim
  | multiple s f ih => exact ih h (s * step)

/-- It has a gradient exactly if it is supported to ask for one. -/
theorem supported_grad_iff (h : f.IsLibrary) (x : Signal K) :
    Supported (f.grad x) ↔ f.isSmooth = true := by
  induction f with
  | zero | squaredL2 => exact iff_of_true (.pure trivial) rfl
  | l1 | l21 axis | nonNegative | prior d =>
    exact iff_of_false (Eval.not_supported fun _ => rfl) Bool.false_ne_true
  | loss l => exact iff_of_true (SquaredLoss.supported_grad h x) rfl
  | external e => exact h.elim
  | multiple s f ih => exact (supported_map_iff _).trans (ih h)

end Functional

end Functionals

end OperatorSplitting
