import Mathlib
import OperatorSplitting.Proofs.Functional.GroupNorm
import OperatorSplitting.Proofs.Linear.Elementwise
import OperatorSplitting.Proofs.Linear.NormalOperator

/-!
# Shapes that functionals take

Most functionals of the library take signals of any shape.  The mixed norm across blocks needs blocks
of the same extents, and a squared loss takes the signals that its operator takes
(`Functional.Takes`).  On signals of a shape that it takes, a functional is never refused because of
shapes: it has a value, a gradient of the same shape and a proximal point of the same shape, or it
fails for another reason, as the indicator does on complex elements.

What may go wrong in a computation is the first argument of `Eval.EndsIn`: it ends in a result with a
property, or in an error of the given kind.
-/

namespace OperatorSplitting

open Eval

variable {K R W α β : Type} {fails : Error → Prop}

/-! ### Computations that end in a result or in an error of some kind -/

/-- Two shapes do not fit. -/
def Error.IsShapeMismatch : Error → Prop
  | .shapeMismatch .. => True
  | _ => False

/-- A problem or a setting is refused. -/
def Error.IsConfiguration : Error → Prop
  | .configuration _ => True
  | _ => False

/-- A result with a property, or an error of some kind. -/
def Except.EndsIn (fails : Error → Prop) (post : α → Prop) : Except Error α → Prop
  | .ok a => post a
  | .error e => fails e

namespace Except.EndsIn

variable {r : Except Error α} {f : α → Except Error β} {p p' : α → Prop} {q : β → Prop}

theorem of_ok {a : α} (h : r = .ok a) (ha : p a) : EndsIn fails p r := h ▸ ha

theorem bind (hr : EndsIn fails p r) (hf : ∀ a, p a → EndsIn fails q (f a)) :
    EndsIn fails q (r >>= f) := by
  cases r with
  | ok a => exact hf a hr
  | error e => exact hr

theorem mono (hr : EndsIn fails p r) (h : ∀ a, p a → p' a) : EndsIn fails p' r := by
  cases r with
  | ok a => exact h a hr
  | error e => exact hr

theorem map {g : α → β} (hr : EndsIn fails p r) (h : ∀ a, p a → q (g a)) :
    EndsIn fails q (r.map g) := by
  cases r with
  | ok a => exact h a hr
  | error e => exact hr

end Except.EndsIn

/-- From every trace the computation ends in a result with a property or in an error of some kind. -/
def Eval.EndsIn (fails : Error → Prop) (m : Eval K W α) (post : α → Prop) : Prop :=
  ∀ t, Except.EndsIn fails post (m.run t).1

namespace Eval.EndsIn

variable {m : Eval K W α} {f : α → Eval K W β} {p p' : α → Prop} {q : β → Prop}

theorem pure {a : α} (h : p a) : EndsIn fails (Pure.pure a : Eval K W α) p := fun _ => h

theorem throw {e : Error} (h : fails e) : EndsIn fails (MonadExcept.throw e : Eval K W α) p :=
  fun _ => h

theorem liftExcept {r : Except Error α} (h : Except.EndsIn fails p r) :
    EndsIn fails (liftM r : Eval K W α) p := fun _ => h

theorem report (e : Event W) :
    EndsIn fails (OperatorSplitting.report e : Eval K W Unit) fun _ => True := fun _ => trivial

theorem bind (hm : EndsIn fails m p) (hf : ∀ a, p a → EndsIn fails (f a) q) :
    EndsIn fails (m >>= f) q := by
  intro t
  have hfirst := hm t
  rw [run_bind]
  rcases hrun : m.run t with ⟨r, t'⟩
  rw [hrun] at hfirst
  cases r with
  | error e => exact hfirst
  | ok a => exact hf a hfirst t'

theorem mono (hm : EndsIn fails m p) (h : ∀ a, p a → p' a) : EndsIn fails m p' :=
  fun t => (hm t).mono h

theorem ite {c : Prop} [Decidable c] {m' : Eval K W α} (hm : EndsIn fails m p)
    (hm' : EndsIn fails m' p) : EndsIn fails (if c then m else m') p := by
  split
  · exact hm
  · exact hm'

/-- A computation that succeeds does not fail. -/
theorem of_succeeds (h : Succeeds m p) : EndsIn fails m p := by
  obtain ⟨a, hrun, ha⟩ := h
  intro t
  rw [hrun t]
  exact ha

/-- A computation without errors has a result. -/
theorem exists_run (hm : EndsIn (fun _ => False) m p) (t : Trace K W) :
    ∃ a t', m.run t = (.ok a, t') ∧ p a := by
  have hend := hm t
  rcases hrun : m.run t with ⟨r, t'⟩
  rw [hrun] at hend
  cases r with
  | ok a => exact ⟨a, t', rfl, hend⟩
  | error e => exact hend.elim

end Eval.EndsIn

/-- Signals of the same shape can be combined. -/
theorem Except.EndsIn.zipMap (place : String) (f : K → K → K) {x y : Signal K}
    (h : x.shape = y.shape) :
    EndsIn fails (fun z => z.shape = x.shape) (Signal.zipMap place f x y) := by
  obtain ⟨z, hz, hshape, -⟩ := Signal.zipMap_eq_ok h
  exact .of_ok hz hshape

theorem Eval.EndsIn.zipMap (place : String) (f : K → K → K) {x y : Signal K}
    (h : x.shape = y.shape) :
    EndsIn fails (liftM (Signal.zipMap place f x y) : Eval K W _) fun z => z.shape = x.shape :=
  .liftExcept (.zipMap place f h)

variable [RealArithmetic R] [Scalar K R W]

/-! ### The mixed norm -/

/-- A box is one of the same rank with one extent replaced by one, stretched along that axis. -/
theorem stretches_set_one (dims : List ℕ) (axis : ℕ) : stretches (dims.set axis 1) dims = true := by
  rw [stretches_iff, List.length_set, Nat.sub_self, List.drop_zero]
  refine ⟨le_rfl, ?_⟩
  induction dims generalizing axis with
  | nil => exact .nil
  | cons d ds ih =>
    cases axis with
    | zero => exact .cons (.inr rfl) (forall₂_stretches_refl ds)
    | succ axis => exact .cons (.inl rfl) (ih axis)

namespace L21

/-- An array of the shape can be kept, or the blocks of the shape have the same extents. -/
def Takes : Shape → Prop
  | .flat dims => Storable dims
  | .blocked [] => True
  | .blocked (d :: ds) => ∀ e ∈ ds, e = d

omit [RealArithmetic R] in
theorem exists_scaleBlock (factors b : Tensor K) (h : Tensor.CanStretch factors.dims b.dims) :
    ∃ r, scaleBlock factors b = .ok r ∧ r.dims = b.dims := by
  have hstretch : factors.stretch? b.dims = some (factors.stretched b.dims) :=
    Tensor.stretch?_eq_some_iff.mpr ⟨h, rfl⟩
  have hzip : Tensor.zip? (· * ·) (factors.stretched b.dims) b =
      some (.ofFn b.dims fun idx => (factors.stretched b.dims).entry idx * b.entry idx) :=
    Tensor.zip?_eq_some_iff.mpr ⟨rfl, rfl⟩
  refine ⟨.ofFn b.dims fun idx => (factors.stretched b.dims).entry idx * b.entry idx, ?_, rfl⟩
  simp only [scaleBlock, hstretch, Option.bind_eq_bind, Option.bind_some, hzip]

omit [RealArithmetic R] in
theorem exists_scaleBlocks (factors : Tensor K) {bs : List (Tensor K)}
    (h : ∀ b ∈ bs, b.dims = factors.dims) :
    ∃ rs, scaleBlocks factors bs = .ok rs ∧ rs.map (·.dims) = bs.map (·.dims) := by
  induction bs with
  | nil => exact ⟨[], rfl, rfl⟩
  | cons b bs ih =>
    obtain ⟨hb, hbs⟩ := List.forall_mem_cons.mp h
    obtain ⟨r, hr, hdims⟩ := exists_scaleBlock factors b (.inl hb.symm)
    obtain ⟨rs, hrs, hrest⟩ := ih hbs
    refine ⟨r :: rs, ?_, by rw [List.map_cons, List.map_cons, hdims, hrest]⟩
    exact Except.bind_eq_ok_iff.mpr ⟨r, hr, Except.bind_eq_ok_iff.mpr ⟨rs, hrs, rfl⟩⟩

theorem exists_addSquares (first : List ℕ) {bs : List (Tensor K)} {sum : Tensor R}
    (h : ∀ b ∈ bs, b.dims = sum.dims) :
    ∃ r, addSquares first bs sum = .ok r ∧ r.dims = sum.dims := by
  induction bs generalizing sum with
  | nil => exact ⟨sum, rfl, rfl⟩
  | cons b bs ih =>
    obtain ⟨hb, hbs⟩ := List.forall_mem_cons.mp h
    have hzip : Tensor.zip? (fun s v => s + Scalar.modulusSqr v) sum b =
        some (.ofFn sum.dims fun idx => sum.entry idx + Scalar.modulusSqr (b.entry idx)) :=
      Tensor.zip?_eq_some_iff.mpr ⟨hb.symm, rfl⟩
    rw [addSquares, hzip]
    exact ih hbs

/-- The norms of the groups, if there are groups and memory holds the norms. -/
theorem endsIn_groupNorms (axis : ℕ) {x : Signal K} (h : Takes x.shape) :
    Except.EndsIn (fun e => ¬e.IsShapeMismatch)
      (fun norms : Tensor R => norms.dims = groupDims axis x.shape) (groupNorms axis x) := by
  cases x with
  | flat a =>
    rw [groupNorms]
    by_cases haxis : a.rank ≤ axis
    · rw [if_pos haxis]
      exact id
    · rw [if_neg haxis]
      cases hsum : (a.map Scalar.modulusSqr : Tensor R).sumAxis? axis with
      | none => exact id
      | some r =>
        obtain ⟨-, rfl⟩ := Tensor.sumAxis?_eq_some_iff.mp hsum
        exact rfl
  | blocked as =>
    cases as with
    | nil => exact id
    | cons a as =>
      have hall : ∀ b ∈ as, b.dims = (a.map Scalar.modulusSqr : Tensor R).dims :=
        fun b hb => h b.dims (List.mem_map_of_mem hb)
      obtain ⟨r, hr, hdims⟩ := exists_addSquares a.dims hall
      rw [groupNorms, hr]
      exact hdims

theorem endsIn_value (axis : ℕ) {x : Signal K} (h : Takes x.shape) :
    Except.EndsIn (fun e => ¬e.IsShapeMismatch) (fun _ : R => True) (value axis x) :=
  (endsIn_groupNorms axis h).bind fun _ _ => trivial

theorem endsIn_prox (axis : ℕ) {v : Signal K} (h : Takes v.shape) (step : R) :
    Except.EndsIn (fun e => ¬e.IsShapeMismatch) (fun z => z.shape = v.shape)
      (prox axis v step) := by
  refine (endsIn_groupNorms axis h).bind fun norms hnorms => ?_
  have hdims : (norms.map (factor step) : Tensor K).dims = groupDims axis v.shape := hnorms
  cases v with
  | flat a =>
    obtain ⟨r, hr, hshape⟩ := exists_scaleBlock (norms.map (factor step) : Tensor K) a
      (.inr ⟨hdims ▸ stretches_set_one a.dims axis, h⟩)
    exact (Except.EndsIn.of_ok hr hshape).map fun r hr => congrArg Shape.flat hr
  | blocked as =>
    have hall : ∀ b ∈ as, b.dims = (norms.map (factor step) : Tensor K).dims := by
      cases as with
      | nil => exact List.forall_mem_nil _
      | cons a as =>
        exact List.forall_mem_cons.mpr ⟨hdims.symm,
          fun b hb => (h b.dims (List.mem_map_of_mem hb)).trans hdims.symm⟩
    obtain ⟨rs, hrs, hshape⟩ := exists_scaleBlocks (norms.map (factor step) : Tensor K) hall
    exact (Except.EndsIn.of_ok hrs hshape).map fun r hr => congrArg Shape.blocked hr

end L21

/-! ### Squared losses -/

namespace SquaredLoss

/-- The operator of the loss has no closures and takes signals of a shape, the observation has its
output shape, and the factors of an elementwise multiplication have the same shape. -/
structure Takes (s : Shape) (l : SquaredLoss K R) : Prop where
  operator : l.operator.IsPlain
  input : l.operator.input = s
  observation : l.observation.shape = l.operator.output
  diagonal : ∀ d, l.diagonal? = some d → d.shape = s ∧ l.operator.output = s

/-- A loss takes signals of the input shape of its operator. -/
theorem takes_of_ofObservation {y : Signal K} {a : LinearOperator K} {l : SquaredLoss K R}
    (ha : a.IsPlain) (h : ofObservation y a = .ok l) : l.Takes a.input := by
  unfold ofObservation at h
  split at h
  · next hy =>
    obtain ⟨diagonal?, hdiagonal, rfl⟩ := Except.map_eq_ok_iff.mp h
    refine ⟨ha, rfl, hy, fun d hd => ?_⟩
    have hd : diagonal? = some d := hd
    rw [hd] at hdiagonal
    exact LinearOperator.shape_of_diagonalEntries? ha.wellShaped hdiagonal
  · cases h

variable {l : SquaredLoss K R} {x v : Signal K}

theorem Takes.rescaled {s : Shape} (h : l.Takes s) (r : R) : (l.rescaled r).Takes s :=
  ⟨h.operator, h.input, h.observation, h.diagonal⟩

omit [RealArithmetic R] in
theorem Takes.endsIn_residual (h : l.Takes x.shape) :
    EndsIn fails (l.residual x : Eval K W _) fun r => r.shape = l.operator.output := by
  have happly := LinearOperator.succeeds_apply (W := W) h.operator.wellShaped
    h.operator.closureFree h.operator.roomy h.input.symm
  refine (EndsIn.of_succeeds happly).bind fun u hu => ?_
  exact (EndsIn.zipMap _ _ (hu.trans h.observation.symm)).mono fun r hr => hr.trans hu

theorem Takes.endsIn_value (h : l.Takes x.shape) :
    EndsIn fails (l.value x : Eval K W R) fun _ => True :=
  h.endsIn_residual.bind fun _ _ => .pure trivial

theorem Takes.endsIn_grad (h : l.Takes x.shape) :
    EndsIn fails (l.grad x : Eval K W _) fun g => g.shape = x.shape := by
  refine h.endsIn_residual.bind fun r hr => ?_
  have hadjoint := LinearOperator.succeeds_adjoint (W := W) h.operator.wellShaped
    h.operator.closureFree h.operator.roomy hr
  refine (EndsIn.of_succeeds hadjoint).bind fun g hg => .pure ?_
  exact (Signal.shape_map _ g).trans (hg.trans h.input)

theorem Takes.endsIn_prox (h : l.Takes v.shape) (step : R) :
    Except.EndsIn (fun e => ¬e.IsShapeMismatch) (fun z => z.shape = v.shape)
      (l.prox v step) := by
  unfold prox
  cases hd : l.diagonal? with
  | none => exact id
  | some d =>
    obtain ⟨hdshape, hout⟩ := h.diagonal d hd
    have hobservation := hdshape.trans (h.observation.trans hout).symm
    refine (Except.EndsIn.zipMap _ _ hobservation).bind fun pull hpull => ?_
    refine (Except.EndsIn.zipMap _ _ (hpull.trans hdshape).symm).bind fun numerator hnumerator => ?_
    refine (Except.EndsIn.zipMap _ _ ?_).mono fun z hz => hz.trans hnumerator
    exact hnumerator.trans (hdshape.symm.trans (Signal.shape_map _ d).symm)

end SquaredLoss

/-! ### All functionals of the library -/

namespace Functional

/-- The functional is one of the library other than a denoiser, and takes signals of a shape. -/
def Takes (s : Shape) : Functional K R W → Prop
  | .zero | .l1 | .squaredL2 | .nonNegative => True
  | .l21 _ => L21.Takes s
  | .loss l => l.Takes s
  | .multiple _ f => f.Takes s
  | .prior _ | .external _ => False

variable {f : Functional K R W} {x v : Signal K}

omit [RealArithmetic R] in
/-- The indicator is refused on complex elements because of their type. -/
theorem endsIn_requireReal {g : Unit → Except Error α} {p : α → Prop}
    (h : Except.EndsIn (fun e => ¬e.IsShapeMismatch) p (g ())) :
    Except.EndsIn (fun e => ¬e.IsShapeMismatch) p (NonNegative.requireReal K >>= g) := by
  unfold NonNegative.requireReal
  split
  · exact id
  · exact h

theorem Takes.endsIn_value (h : f.Takes x.shape) :
    EndsIn (fun e => ¬e.IsShapeMismatch) (f.value x : Eval K W R) fun _ => True := by
  induction f with
  | zero | l1 | squaredL2 => exact .pure trivial
  | l21 axis => exact .liftExcept (L21.endsIn_value axis h)
  | nonNegative => exact .liftExcept (endsIn_requireReal trivial)
  | prior d => exact h.elim
  | loss l => exact SquaredLoss.Takes.endsIn_value h
  | external e => exact h.elim
  | multiple s f ih => exact (ih h).bind fun _ _ => .pure trivial

theorem Takes.endsIn_grad (h : f.Takes x.shape) :
    EndsIn (fun e => ¬e.IsShapeMismatch) (f.grad x : Eval K W _) fun g => g.shape = x.shape := by
  induction f with
  | zero => exact .pure (Signal.shape_replicate _ _)
  | squaredL2 => exact .pure (Signal.shape_map _ x)
  | l1 | l21 | nonNegative => exact .throw id
  | prior d => exact h.elim
  | loss l => exact SquaredLoss.Takes.endsIn_grad h
  | external e => exact h.elim
  | multiple s f ih => exact (ih h).bind fun g hg => .pure ((Signal.shape_map _ g).trans hg)

theorem Takes.endsIn_prox [RealArithmetic W] [Widening R W] (h : f.Takes v.shape) (step : R) :
    EndsIn (fun e => ¬e.IsShapeMismatch) (f.prox v step : Eval K W _) fun z =>
      z.shape = v.shape := by
  induction f generalizing step with
  | zero => exact .pure rfl
  | l1 | squaredL2 => exact .pure (Signal.shape_map _ v)
  | l21 axis => exact .liftExcept (L21.endsIn_prox axis h step)
  | nonNegative => exact .liftExcept (endsIn_requireReal (Signal.shape_map _ v))
  | prior d => exact h.elim
  | loss l => exact .liftExcept (SquaredLoss.Takes.endsIn_prox h step)
  | external e => exact h.elim
  | multiple s f ih => exact ih h (s * step)

/-- A functional that is recognized as a squared loss takes what the loss takes. -/
theorem Takes.asSquaredLoss? {s : Shape} (h : f.Takes s) {l : SquaredLoss K R}
    (hl : f.asSquaredLoss? = some l) : l.Takes s := by
  induction f generalizing l with
  | loss l' =>
    cases hl
    exact h
  | multiple r f ih =>
    obtain ⟨l', hl', rfl⟩ := Option.map_eq_some_iff.mp hl
    have htakes : l'.Takes s := ih h hl'
    exact htakes.rescaled r
  | external e => exact h.elim
  | _ => cases hl

end Functional

end OperatorSplitting
