import Mathlib
import OperatorSplitting.Proofs.Admm.Lifecycle
import OperatorSplitting.Proofs.Admm.Orbit
import OperatorSplitting.Proofs.Functional.Shapes

/-!
# The phases of a step

After the x-update a step applies the operators, updates the split and the dual variables and
evaluates the residuals.  If the operators have no closures and all shapes fit, then only the
functionals can fail there: if these end in results or in errors of some kind, then so does every
phase (`Iterate.endsIn_couple`).  What kind of errors that is does not matter.
-/

namespace OperatorSplitting

open Eval

variable {K R W : Type} [Scalar K R W] {fails : Error → Prop} {shape : Shape}

namespace LinearOperator.IsPlain

variable {a : LinearOperator K}

theorem endsIn_apply (h : a.IsPlain) {x : Signal K} (hx : x.shape = a.input) :
    EndsIn fails (a.apply x : Eval K W _) fun u => u.shape = a.output :=
  .of_succeeds (LinearOperator.succeeds_apply h.wellShaped h.closureFree h.roomy hx)

theorem endsIn_adjoint (h : a.IsPlain) {y : Signal K} (hy : y.shape = a.output) :
    EndsIn fails (a.adjoint y : Eval K W _) fun v => v.shape = a.input :=
  .of_succeeds (LinearOperator.succeeds_adjoint h.wellShaped h.closureFree h.roomy hy)

end LinearOperator.IsPlain

/-- The terms at a starting point can be made. -/
theorem Problem.endsIn_terms {start : Signal K} (gs : List (Functional K R W)) (weights : List R)
    {cs : List (LinearOperator K)} (hcs : ∀ c ∈ cs, c.IsPlain ∧ c.input = start.shape) :
    EndsIn fails (terms start gs cs weights : Eval K W _) fun _ => True := by
  induction gs generalizing cs weights with
  | nil => exact .pure trivial
  | cons g gs ih =>
    cases cs with
    | nil => exact .pure trivial
    | cons c cs =>
      cases weights with
      | nil => exact .pure trivial
      | cons weight weights =>
        obtain ⟨⟨hc, hinput⟩, hcs⟩ := List.forall_mem_cons.mp hcs
        exact (hc.endsIn_apply hinput.symm).bind fun z _ => (ih weights hcs).bind fun rest _ =>
          .pure trivial

variable [RealArithmetic R] [RealArithmetic W] [Widening R W]

/-- At signals of a shape, the values and the proximal points of a functional exist or fail in some
way. -/
structure Functional.EndsOn (fails : Error → Prop) (s : Shape) (g : Functional K R W) : Prop where
  value : ∀ {x : Signal K}, x.shape = s → EndsIn fails (g.value x) fun _ => True
  prox : ∀ {v : Signal K} (step : R), v.shape = s →
    EndsIn fails (g.prox v step) fun z => z.shape = v.shape

/-- An operator without closures that takes signals of a shape, with a penalty and variables on its
output shape. -/
structure Term.FitsOn (fails : Error → Prop) (shape : Shape) (t : Term K R W) : Prop where
  operator : t.operator.IsPlain
  input : t.operator.input = shape
  penalty : t.penalty.EndsOn fails t.operator.output
  z_shape : t.z.shape = t.operator.output
  u_shape : t.u.shape = t.operator.output

namespace Solver

/-- The variables that a step computes for such a term. -/
structure TermUpdate.FitsOn (fails : Error → Prop) (shape : Shape) (t : TermUpdate K R W) :
    Prop where
  before : t.before.FitsOn fails shape
  image_shape : t.image.shape = t.before.operator.output
  z_shape : t.z.shape = t.before.operator.output

theorem endsIn_images {x : Signal K} (hx : x.shape = shape) {ts : List (Term K R W)}
    (hts : ∀ t ∈ ts, t.FitsOn fails shape) :
    EndsIn fails (images x ts : Eval K W _) fun ps =>
      ∀ p ∈ ps, p.1.FitsOn fails shape ∧ p.2.shape = p.1.operator.output := by
  induction ts with
  | nil => exact .pure (List.forall_mem_nil _)
  | cons t ts ih =>
    obtain ⟨ht, hts⟩ := List.forall_mem_cons.mp hts
    refine (ht.operator.endsIn_apply (hx.trans ht.input.symm)).bind fun image himage => ?_
    exact (ih hts).bind fun ps hps => .pure (List.forall_mem_cons.mpr ⟨⟨ht, himage⟩, hps⟩)

theorem endsIn_splitUpdates {ps : List (Term K R W × Signal K)}
    (hps : ∀ p ∈ ps, p.1.FitsOn fails shape ∧ p.2.shape = p.1.operator.output) :
    EndsIn fails (splitUpdates ps : Eval K W _) fun qs => ∀ q ∈ qs, q.1.FitsOn fails shape ∧
      q.2.1.shape = q.1.operator.output ∧ q.2.2.shape = q.1.operator.output := by
  induction ps with
  | nil => exact .pure (List.forall_mem_nil _)
  | cons p ps ih =>
    obtain ⟨⟨hp, himage⟩, hps⟩ := List.forall_mem_cons.mp hps
    refine (EndsIn.zipMap _ _ (himage.trans hp.u_shape.symm)).bind fun v hv => ?_
    have hvshape := hv.trans himage
    refine (hp.penalty.prox _ hvshape).bind fun z hz => (ih hps).bind fun qs hqs => .pure ?_
    exact List.forall_mem_cons.mpr ⟨⟨hp, himage, hz.trans hvshape⟩, hqs⟩

theorem endsIn_dualUpdates {qs : List (Term K R W × Signal K × Signal K)}
    (hqs : ∀ q ∈ qs, q.1.FitsOn fails shape ∧ q.2.1.shape = q.1.operator.output ∧
      q.2.2.shape = q.1.operator.output) :
    Except.EndsIn fails (fun us => ∀ t ∈ us, TermUpdate.FitsOn fails shape t) (dualUpdates qs) := by
  induction qs with
  | nil => exact List.forall_mem_nil _
  | cons q qs ih =>
    obtain ⟨⟨hq, himage, hz⟩, hqs⟩ := List.forall_mem_cons.mp hqs
    refine (Except.EndsIn.zipMap _ _ (himage.trans hz.symm)).bind fun gap hgap => ?_
    have hsame : q.1.u.shape = gap.shape := hq.u_shape.trans (hgap.trans himage).symm
    refine (Except.EndsIn.zipMap _ _ hsame).bind fun u _ => (ih hqs).bind fun us hus => ?_
    exact List.forall_mem_cons.mpr ⟨⟨hq, himage, hz⟩, hus⟩

section Diagnostics

variable {us : List (TermUpdate K R W)} (hus : ∀ t ∈ us, TermUpdate.FitsOn fails shape t)

include hus

theorem endsIn_addValues (total : W) :
    EndsIn fails (addValues us total : Eval K W _) fun _ => True := by
  induction us generalizing total with
  | nil => exact .pure trivial
  | cons t us ih =>
    obtain ⟨ht, hus⟩ := List.forall_mem_cons.mp hus
    exact (ht.before.penalty.value ht.image_shape).bind fun value _ => ih hus _

theorem endsIn_objective {f : Functional K R W} {x : Signal K}
    (hf : EndsIn fails (f.value x) fun _ => True) :
    EndsIn fails (objective f x us : Eval K W _) fun _ => True :=
  EndsIn.ite (hf.bind fun _ _ => (endsIn_addValues hus _).bind fun _ _ => .pure trivial)
    (.pure trivial)

theorem endsIn_addResiduals (primal dual : W) :
    EndsIn fails (addResiduals us primal dual : Eval K W _) fun _ => True := by
  induction us generalizing primal dual with
  | nil => exact .pure trivial
  | cons t us ih =>
    obtain ⟨ht, hus⟩ := List.forall_mem_cons.mp hus
    refine (EndsIn.zipMap _ _ (ht.image_shape.trans ht.z_shape.symm)).bind fun gap _ => ?_
    refine (EndsIn.zipMap _ _ (ht.z_shape.trans ht.before.z_shape.symm)).bind
      fun change hchange => ?_
    exact (ht.before.operator.endsIn_adjoint (hchange.trans ht.z_shape)).bind fun back _ =>
      ih hus _ _

theorem endsIn_diagnostics {f : Functional K R W} {x : Signal K}
    (hf : EndsIn fails (f.value x) fun _ => True) :
    EndsIn fails (diagnostics f x us : Eval K W _) fun _ => True :=
  (endsIn_objective hus hf).bind fun _ _ => (endsIn_addResiduals hus 0 0).bind fun _ _ =>
    .pure trivial

end Diagnostics

end Solver

namespace Iterate

/-- All phases after the x-update. -/
theorem endsIn_couple {f : Functional K R W} {terms : List (Term K R W)}
    (hterms : ∀ t ∈ terms, t.FitsOn fails shape) {report : SubproblemReport K W}
    (hreport : report.x.shape = shape) (hf : EndsIn fails (f.value report.x) fun _ => True) :
    EndsIn fails (couple f terms report) fun _ => True := by
  have hsplit : EndsIn fails (do Solver.splitUpdates (← Solver.images report.x terms)) _ :=
    (Solver.endsIn_images hreport hterms).bind fun ps hps => Solver.endsIn_splitUpdates hps
  refine hsplit.bind fun splits hsplits =>
    (EndsIn.liftExcept (Solver.endsIn_dualUpdates hsplits)).bind fun updates hupdates => ?_
  exact (Solver.endsIn_diagnostics hupdates hf).bind fun d _ => .pure trivial

end Iterate

namespace Solver

variable {p : Problem K R W} {config : Config W} {strategy : Strategy K R W} {s : Solver K R W}

/-- The terms of a sound solver fit if the parts of its problem do. -/
theorem Sound.fitsOn (hs : s.Sound p config strategy) (hfault : p.fault? = none)
    (hoperators : ∀ c ∈ p.operators, c.IsPlain)
    (hpenalties : ∀ q ∈ p.penalties.zip p.operators, q.1.EndsOn fails q.2.output) :
    ∀ t ∈ s.terms, t.FitsOn fails p.start.shape := by
  intro t ht
  have hoperator : t.operator ∈ p.operators := hs.operators ▸ List.mem_map_of_mem ht
  have hpair : (t.penalty, t.operator) ∈ p.penalties.zip p.operators := by
    rw [← hs.penalties, ← hs.operators, List.zip_map']
    exact List.mem_map_of_mem (f := fun t : Term K R W => (t.penalty, t.operator)) ht
  exact ⟨hoperators _ hoperator, inputs_of_fault? hfault _ hoperator, hpenalties _ hpair,
    hs.z_shape t ht, hs.u_shape t ht⟩

end Solver

end OperatorSplitting
