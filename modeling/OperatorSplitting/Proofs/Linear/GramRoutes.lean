import Mathlib
import OperatorSplitting.Proofs.Linear.DiagonalEntries
import OperatorSplitting.Proofs.Linear.HermitianForm
import OperatorSplitting.Proofs.Linear.NormalOperator
import OperatorSplitting.Proofs.Linear.Views

/-!
# Ways to form a Gram operator

`Aᴴ A` can be evaluated by `gram`, which applies the operator and then its adjoint, or by an
expression, which the Gram operator, a composition with the adjoint and an adjoint composition
build.  `gram` checks the shape of the intermediate result once more, the expressions do not.  The
check never fails, since every result of evaluation has the declared shape, so that all the ways
have the same runs: the same results, the same errors and the same traces
(`LinearOperator.run_gramOperator`).  Nothing is asked of the elements or of the closures for this.

Without closures evaluation does not look at the trace at all (`LinearOperator.inert_eval`).  Over
exact elements the Gram operator then is the Hermitian form of the images: wherever `gram` returns,
`⟨v, Aᴴ A x⟩ = ⟨A v, A x⟩`.
-/

namespace OperatorSplitting

open Eval

variable {K R W α β : Type}

/-! ### Computations that do not look at the trace -/

namespace Eval

/-- The computation has the same result from every trace, which may be an error, and leaves the
trace as it was. -/
def Inert (m : Eval K W α) : Prop := ∀ t, m.run t = (m.outcome, t)

namespace Inert

variable {m : Eval K W α} {f : α → Eval K W β}

theorem pure (a : α) : Inert (Pure.pure a : Eval K W α) := fun _ => rfl

theorem throw (e : Error) : Inert (MonadExcept.throw e : Eval K W α) := fun _ => rfl

theorem liftExcept (r : Except Error α) : Inert (liftM r : Eval K W α) := fun _ => rfl

theorem ite {c : Prop} [Decidable c] {m' : Eval K W α} (hm : Inert m) (hm' : Inert m') :
    Inert (if c then m else m') := by
  split
  · exact hm
  · exact hm'

/-- The outcome of a composite computation is made of the outcomes of its parts. -/
theorem outcome_bind (hm : Inert m) (f : α → Eval K W β) :
    (m >>= f).outcome = m.outcome >>= fun a => (f a).outcome := by
  rw [outcome, run_bind, hm]
  cases m.outcome <;> rfl

theorem bind (hm : Inert m) (hf : ∀ a, Inert (f a)) : Inert (m >>= f) := by
  intro t
  rw [hm.outcome_bind, run_bind, hm]
  cases m.outcome with
  | error e => rfl
  | ok a => exact hf a t

theorem map (hm : Inert m) (g : α → β) : Inert (do return g (← m) : Eval K W β) :=
  hm.bind fun _ => pure _

theorem zipMap {m m' : Eval K W (Signal K)} (hm : Inert m) (hm' : Inert m') (place : String)
    (f : K → K → K) :
    Inert (do
      let u ← m
      let v ← m'
      Signal.zipMap place f u v : Eval K W _) :=
  hm.bind fun _ => hm'.bind fun _ => liftExcept _

end Inert

/-- Continuations that agree on what a computation ensures have the same runs after it. -/
theorem run_bind_congr {m : Eval K W α} {p : α → Prop} {f g : α → Eval K W β}
    (hm : Ensures (fun _ => True) m p) (hfg : ∀ a, p a → f a = g a) (t : Trace K W) :
    (m >>= f).run t = (m >>= g).run t := by
  obtain ⟨-, hp⟩ := hm t trivial
  rw [run_bind, run_bind]
  rcases hrun : m.run t with ⟨result, t'⟩
  rw [hrun] at hp
  cases result with
  | error e => rfl
  | ok a =>
    show (f a).run t' = (g a).run t'
    rw [hfg a (hp a rfl)]

end Eval

variable [Scalar K R W]

namespace Leaf

theorem inert_forward {l : Leaf K} (hfree : l.ClosureFree) (x : Signal K) :
    Inert (l.forward x : Eval K W _) := by
  cases l with
  | identity shape => exact .pure x
  | matrix m => exact .liftExcept _
  | diagonal op => exact .liftExcept _
  | difference op => exact .liftExcept _
  | convolution op => exact .liftExcept _
  | closure c => exact hfree.elim

theorem inert_adjoint {l : Leaf K} (hfree : l.ClosureFree) (y : Signal K) :
    Inert (l.adjoint y : Eval K W _) := by
  cases l with
  | identity shape => exact .pure y
  | matrix m => exact .liftExcept _
  | diagonal op => exact .liftExcept _
  | difference op => exact .liftExcept _
  | convolution op => exact .liftExcept _
  | closure c => exact hfree.elim

end Leaf

namespace LinearOperator

/-- Without closures evaluation does not look at the trace.  Nothing is asked of the shapes and of
the room for arrays, so that errors are included. -/
theorem inert_eval {a : LinearOperator K} (hfree : a.ClosureFree) (d : Direction) (x : Signal K) :
    Inert (a.eval d x : Eval K W _) := by
  induction a generalizing d x with
  | leaf l =>
    cases d with
    | forward => exact Leaf.inert_forward hfree x
    | adjoint => exact Leaf.inert_adjoint hfree x
  | sum a b iha ihb => exact (iha hfree.1 d x).zipMap (ihb hfree.2 d x) _ _
  | difference a b iha ihb => exact (iha hfree.1 d x).zipMap (ihb hfree.2 d x) _ _
  | multiple s a ih =>
    cases d with
    | forward => exact (ih hfree .forward x).map _
    | adjoint => exact (ih hfree .adjoint x).map _
  | composition outer inner iho ihi =>
    cases d with
    | forward => exact (ihi hfree.2 .forward x).bind fun u => iho hfree.1 .forward u
    | adjoint => exact (iho hfree.1 .adjoint x).bind fun u => ihi hfree.2 .adjoint u
  | transpose a ih => exact (ih hfree d.flip x.conj).map _
  | conjTranspose a ih => exact ih hfree d.flip x
  | conjugate a ih => exact (ih hfree d x.conj).map _
  | negation a ih => exact (ih hfree d x).map _

theorem inert_apply {a : LinearOperator K} (hfree : a.ClosureFree) (x : Signal K) :
    Inert (a.apply x : Eval K W _) :=
  .ite (inert_eval hfree .forward x) (.throw _)

theorem inert_adjoint {a : LinearOperator K} (hfree : a.ClosureFree) (y : Signal K) :
    Inert (a.adjoint y : Eval K W _) :=
  .ite (inert_eval hfree .adjoint y) (.throw _)

theorem inert_gram {a : LinearOperator K} (hfree : a.ClosureFree) (x : Signal K) :
    Inert (a.gram x : Eval K W _) :=
  (inert_apply hfree x).bind fun _ => inert_adjoint hfree _

/-! ### Runs -/

omit [Scalar K R W] in
theorem compose_conjTranspose (a : LinearOperator K) :
    compose (.conjTranspose a) a = .ok a.gramOperator :=
  if_neg (not_not_intro rfl)

omit [Scalar K R W] in
theorem adjointCompose_self (a : LinearOperator K) : adjointCompose a a = .ok a.gramOperator :=
  (if_neg (not_not_intro rfl)).trans (compose_conjTranspose a)

/-- The Gram operator does what `gram` does, whatever the closures do and whatever was evaluated
before. -/
theorem run_gramOperator {a : LinearOperator K} (hs : a.WellShaped) (x : Signal K)
    (t : Trace K W) : (a.gramOperator.apply x).run t = (a.gram x).run t := by
  by_cases hx : x.shape = a.input
  · -- Past the check of the argument, the intermediate result has the shape that `gram` asks for.
    have happly : (a.apply x : Eval K W _) = a.eval .forward x := if_pos hx
    have hadjoint (u : Signal K) (hu : u.shape = a.output) :
        (a.eval .adjoint u : Eval K W _) = a.adjoint u := (if_pos hu).symm
    have hexpression : (a.gramOperator.apply x : Eval K W _) =
        a.eval .forward x >>= a.eval .adjoint := if_pos hx
    rw [gram, happly, hexpression]
    exact run_bind_congr (ensures_eval hs .forward hx) hadjoint t
  · rw [gram, run_bind, run_apply_of_ne hx, run_apply_of_ne (a := a.gramOperator) hx]
    rfl

/-! ### The form over exact elements -/

section Form

variable {K : Type} [ExactScalar K] {a : LinearOperator K} {v w x : Signal K}

theorem outcome_gram_eq_ok_iff (hfree : a.ClosureFree) :
    (a.gram x : Eval K ℝ _).outcome = .ok w ↔ ∃ q, (a.apply x : Eval K ℝ _).outcome = .ok q ∧
      (a.adjoint q : Eval K ℝ _).outcome = .ok w := by
  rw [gram, (inert_apply hfree x).outcome_bind]
  exact Except.bind_eq_ok_iff

/-- A result of `gram` at one signal pairs with all others as their images do. -/
theorem exists_vdot_gram (hs : a.WellShaped) (hfree : a.ClosureFree) (hv : v.shape = x.shape)
    (hw : (a.gram x : Eval K ℝ _).outcome = .ok w) :
    ∃ p q d, (a.apply v : Eval K ℝ _).outcome = .ok p ∧ (a.apply x : Eval K ℝ _).outcome = .ok q ∧
      v.vdot w = .ok d ∧ p.vdot q = .ok d := by
  have ha : a.IsLinear anyNaming := isLinear_of_closureFree hs hfree
  obtain ⟨q, hq, hw⟩ := (outcome_gram_eq_ok_iff hfree).mp hw
  obtain ⟨p, hp⟩ := ha.apply_uniform hq hv
  obtain ⟨hvinput, hpshape⟩ := ha.shape_apply hp
  obtain ⟨hqshape, hwshape⟩ := ha.shape_adjoint hw
  obtain ⟨d, hd, hdval⟩ := Signal.vdot_eq_ok (hvinput.trans hwshape.symm)
  obtain ⟨d', hd', hdval'⟩ := Signal.vdot_eq_ok (hpshape.trans hqshape.symm)
  have hsame : d = d' := by
    apply ExactScalar.val_injective
    rw [hdval, hdval', ha.pairing_adjoint hp hw]
  exact ⟨p, q, d, hp, hq, hd, hsame ▸ hd'⟩

end Form

/-- All ways to form `Aᴴ A` can be taken, and they have the same runs: the same results, the same
errors and the same traces, whatever the closures do.  Over exact elements and without closures,
wherever `gram` returns, the images that it is made of are there and `⟨v, Aᴴ A x⟩ = ⟨A v, A x⟩`; if
the primitive operators are roomy, `gram` returns at every signal of the input shape. -/
theorem gram_routes :
    (∀ {K R W : Type} [Scalar K R W] {a : LinearOperator K}, a.WellShaped →
      compose (.conjTranspose a) a = .ok a.gramOperator ∧
      adjointCompose a a = .ok a.gramOperator ∧
      ∀ (x : Signal K) (t : Trace K W), (a.gramOperator.apply x).run t = (a.gram x).run t) ∧
    ∀ {K : Type} [ExactScalar K] {a : LinearOperator K}, a.WellShaped → a.ClosureFree →
      ∀ v x : Signal K, v.shape = a.input → x.shape = a.input →
        (a.AllLeaves Leaf.Roomy → ∃ w, ∀ t : Trace K ℝ, (a.gram x).run t = (.ok w, t)) ∧
        ∀ (w : Signal K) (t : Trace K ℝ), ((a.gram x).run t).1 = .ok w →
          ∃ p q d, (∀ t : Trace K ℝ, (a.apply v).run t = (.ok p, t)) ∧
            (∀ t : Trace K ℝ, (a.apply x).run t = (.ok q, t)) ∧
            v.vdot w = .ok d ∧ p.vdot q = .ok d := by
  refine ⟨fun hs => ⟨compose_conjTranspose _, adjointCompose_self _, run_gramOperator hs⟩, ?_⟩
  intro K _ a hs hfree v x hv hx
  have hgram : Inert (a.gram x : Eval K ℝ _) := inert_gram hfree x
  refine ⟨fun hroom => ?_, fun w t hw => ?_⟩
  · obtain ⟨q, hq, hqshape⟩ := (succeeds_apply (W := ℝ) hs hfree hroom hx).outcome
    obtain ⟨w, hw, -⟩ := (succeeds_adjoint (W := ℝ) hs hfree hroom hqshape.2).outcome
    have houtcome : (a.gram x : Eval K ℝ _).outcome = .ok w :=
      (outcome_gram_eq_ok_iff hfree).mpr ⟨q, hqshape.1, congrArg Prod.fst (hw .empty)⟩
    exact ⟨w, fun t => (hgram t).trans (by rw [houtcome])⟩
  · have houtcome : (a.gram x : Eval K ℝ _).outcome = .ok w :=
      (congrArg Prod.fst (hgram t)).symm.trans hw
    obtain ⟨p, q, d, hp, hq, hd, hd'⟩ :=
      exists_vdot_gram hs hfree (hv.trans hx.symm) houtcome
    exact ⟨p, q, d, fun t => (inert_apply hfree v t).trans (by rw [hp]),
      fun t => (inert_apply hfree x t).trans (by rw [hq]), hd, hd'⟩

/-- A failing closure fails alike in all the ways, and a diagonal operator has its form. -/
theorem gram_routes_diagonal :
    (∀ (x : Signal (ComplexOf ℝ)) (t : Trace (ComplexOf ℝ) ℝ),
      ((leaf (.closure failingClosure)).gramOperator.apply x).run t =
        ((leaf (.closure failingClosure)).gram x).run t) ∧
    ∃ w p q d, (∀ t : Trace ℝ ℝ, ((leaf (.diagonal stretchingDiagonal)).gram
        (.flat ⟨[2, 1], #[1, 2], rfl⟩)).run t = (.ok w, t)) ∧
      (∀ t : Trace ℝ ℝ, ((leaf (.diagonal stretchingDiagonal)).apply
        (.flat ⟨[2, 1], #[5, 6], rfl⟩)).run t = (.ok p, t)) ∧
      (∀ t : Trace ℝ ℝ, ((leaf (.diagonal stretchingDiagonal)).apply
        (.flat ⟨[2, 1], #[1, 2], rfl⟩)).run t = (.ok q, t)) ∧
      (Signal.flat ⟨[2, 1], #[5, 6], rfl⟩).vdot w = .ok d ∧ p.vdot q = .ok d := by
  obtain ⟨hruns, hform⟩ := gram_routes
  have hfailing : (leaf (.closure failingClosure)).WellShaped := trivial
  have hshaped : (leaf (.diagonal stretchingDiagonal)).WellShaped := trivial
  have hfree : (leaf (.diagonal stretchingDiagonal)).ClosureFree := trivial
  have hroom : (leaf (.diagonal stretchingDiagonal)).AllLeaves Leaf.Roomy := by
    show (Shape.flat [2, 2]).Roomy
    unfold Shape.Roomy
    decide
  obtain ⟨hreturns, hvdot⟩ := hform hshaped hfree (.flat ⟨[2, 1], #[5, 6], rfl⟩)
    (.flat ⟨[2, 1], #[1, 2], rfl⟩) rfl rfl
  obtain ⟨w, hw⟩ := hreturns hroom
  obtain ⟨p, q, d, hp, hq, hd, hd'⟩ := hvdot w .empty (congrArg Prod.fst (hw .empty))
  exact ⟨(hruns hfailing).2.2, w, p, q, d, hw, hp, hq, hd, hd'⟩

/-- Images may be there where `gram` does not return: an array without rows is summed to one place
by way of a row that memory cannot hold. -/
theorem exists_images_and_gram_fails :
    ∃ (a : LinearOperator ℝ) (x q : Signal ℝ) (d : ℝ), a.WellShaped ∧ a.ClosureFree ∧
      x.shape = a.input ∧ ((a.apply x : Eval ℝ ℝ _).run .empty).1 = .ok q ∧ q.vdot q = .ok d ∧
      ∀ w, ((a.gram x : Eval ℝ ℝ _).run .empty).1 ≠ .ok w := by
  let op : Diagonal ℝ := ⟨.flat ⟨[0, 2 ^ 60, 1], #[], by decide⟩, .flat [1],
    .flat [0, 2 ^ 60, 1], by decide⟩
  let x : Signal ℝ := .ofArray #[1]
  have hfree : (leaf (.diagonal op)).ClosureFree := trivial
  obtain ⟨q, hq⟩ : ∃ q, op.forward x = .ok q :=
    (Diagonal.exists_forward_iff rfl (by decide)).mpr (by decide)
  have hqshape : q.shape = op.output := op.forward_shapedMap.shape_eq rfl hq
  obtain ⟨d, hd, -⟩ := Signal.vdot_eq_ok (rfl : q.shape = q.shape)
  refine ⟨leaf (.diagonal op), x, q, d, trivial, hfree, rfl, hq, hd, fun w hw => ?_⟩
  obtain ⟨q', hq', hw⟩ := (outcome_gram_eq_ok_iff hfree).mp hw
  obtain ⟨-, hw⟩ := outcome_adjoint_eq_ok_iff.mp hw
  have hlong : ¬CanSum [0, 2 ^ 60, 1] [1] := by decide
  have hsame : q' = q := Except.ok.inj ((hq'.symm.trans rfl).trans hq)
  subst hsame
  refine hlong ?_
  exact (List.forall₂_cons.mp ((Diagonal.exists_adjoint_iff hqshape (hqshape ▸ by decide)).mp
    ⟨w, hw⟩)).1

end LinearOperator

end OperatorSplitting
