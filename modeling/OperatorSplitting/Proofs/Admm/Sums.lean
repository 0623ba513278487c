import Mathlib
import OperatorSplitting.Proofs.Admm.Step
import OperatorSplitting.Proofs.Admm.ScaledEquations

/-!
# Sums over the constraints

Objectives, gradients, right-hand sides, residuals and the operator of the normal equations are sums
with a part for every constraint.  In exact arithmetic the parts may be added in any order, and with
parts that are steady the sums do not depend on the order of the constraints.

Sums of signals may fail for their shapes.  They then fail in every order (`Signal.zipMap_swap`), perhaps
with another message.
-/

namespace OperatorSplitting

open Eval

noncomputable section

/-! ### Additions that commute -/

/-- Two elementwise combinations with a signal may be exchanged if they may be at each element. -/
theorem Signal.zipMap_swap {α β γ : Type} {place place' : String} {f : α → β → α} {g : α → γ → α}
    (hfg : ∀ a b c, g (f a b) c = f (g a c) b) (x : Signal α) (y : Signal β) (z : Signal γ) :
    Corresponds Eq (zipMap place f x y >>= fun s => zipMap place' g s z)
      (zipMap place' g x z >>= fun s => zipMap place f s y) := by
  have hside {β γ : Type} {place place' : String} {f : α → β → α} {g : α → γ → α}
      (hfg : ∀ a b c, g (f a b) c = f (g a c) b) {y : Signal β} {z : Signal γ} {r : Signal α}
      (h : (zipMap place f x y >>= fun s => zipMap place' g s z) = .ok r) :
      (zipMap place' g x z >>= fun s => zipMap place f s y) = .ok r := by
    obtain ⟨s, hs, hr⟩ := Except.bind_eq_ok_iff.mp h
    obtain ⟨hxy, hsx, hsentries⟩ := zipMap_spec hs
    obtain ⟨hsz, hrs, hrentries⟩ := zipMap_spec hr
    obtain ⟨s', hs', hsx', hsentries'⟩ : ∃ s', zipMap place' g x z = .ok s' ∧ s'.shape = x.shape ∧
        s'.entries = Array.zipWith g x.entries z.entries := zipMap_eq_ok (hsx.symm.trans hsz)
    obtain ⟨r', hr', hrs', hrentries'⟩ : ∃ r', zipMap place f s' y = .ok r' ∧ r'.shape = s'.shape ∧
        r'.entries = Array.zipWith f s'.entries y.entries := zipMap_eq_ok (hsx'.trans hxy)
    have hshape : r'.shape = r.shape := by rw [hrs', hsx', hrs, hsx]
    have hentries : r'.entries = r.entries := by
      rw [hrentries', hsentries', hrentries, hsentries]
      apply Array.ext
      · simp only [Array.size_zipWith]
        omega
      · intro k hk hk'
        simp only [Array.getElem_zipWith, hfg]
    rw [hs', ← ext_entries hshape hentries]
    exact hr'
  exact .of_isOk (fun r hr => ⟨r, hside hfg hr, rfl⟩)
    fun r hr => ⟨r, hside (fun a b c => (hfg a c b).symm) hr⟩

variable {K : Type} [ExactScalar K] {names : Naming K}

theorem ExactScalar.add_right_comm (a b c : K) : a + b + c = a + c + b := by
  apply val_injective
  rw [val_add, val_add, val_add, val_add]
  ring

theorem Signal.add_swap (x y z : Signal K) :
    Corresponds Eq (x.add y >>= (·.add z)) (x.add z >>= (·.add y)) :=
  zipMap_swap ExactScalar.add_right_comm x y z

/-- Add a multiple of a signal. -/
def Signal.addMultiple (x : Signal K) (p : ℝ × Signal K) : Except Error (Signal K) :=
  x.addScaled (Scalar.ofReal p.1) p.2

theorem Signal.addMultiple_swap (x : Signal K) (p q : ℝ × Signal K) :
    Corresponds Eq (x.addMultiple p >>= (·.addMultiple q)) (x.addMultiple q >>= (·.addMultiple p)) :=
  zipMap_swap (fun _ _ _ => ExactScalar.add_right_comm _ _ _) x p.2 q.2

theorem pure_add_swap (s v w : ℝ) :
    Corresponds Eq ((pure (s + v) : Except Error ℝ) >>= fun r => pure (r + w))
      ((pure (s + w) : Except Error ℝ) >>= fun r => pure (r + v)) :=
  .ok (add_right_comm s v w)

/-! ### Sums over couplings -/

section Couplings

variable {cs cs' : List (Coupling K ℝ)}

/-- What a coupling adds to the objective of the x-update. -/
def Coupling.penalty (x : Signal K) (c : Coupling K ℝ) : Eval K ℝ ℝ := do
  let r ← c.mismatch x
  return c.weight * r.normSqr / (1 + 1)

/-- What a coupling adds to its gradient, with its weight. -/
def Coupling.slopeAt (x : Signal K) (c : Coupling K ℝ) : Eval K ℝ (ℝ × Signal K) := do
  let r ← c.mismatch x
  let back ← c.operator.adjoint r
  return (c.weight, back)

/-- What a coupling adds to the right-hand side of the normal equations, with its weight. -/
def Coupling.load (c : Coupling K ℝ) : Eval K ℝ (ℝ × Signal K) := do
  let target ← c.z.sub c.u
  let back ← c.operator.adjoint target
  return (c.weight, back)

theorem alike_addPenalties (h : cs.Perm cs') (hcs : ∀ c ∈ cs, c.operator.Named names) (x : Signal K)
    (total : ℝ) : Alike names Eq (XUpdate.addPenalties x cs total : Eval K ℝ ℝ)
      (XUpdate.addPenalties x cs' total) :=
  Alike.accumulate_perm (Coupling.penalty x) (fun total v => pure (total + v))
    (XUpdate.addPenalties x) (fun _ => rfl)
    (fun c cs total => by
      simp only [XUpdate.addPenalties, Coupling.penalty, bind_assoc, pure_bind]
      rfl)
    pure_add_swap h (fun c hc => (Coupling.steady_mismatch (hcs c hc) x).map _) total

theorem alike_addGradients (h : cs.Perm cs') (hcs : ∀ c ∈ cs, c.operator.Named names)
    (x g : Signal K) : Alike names Eq (XUpdate.addGradients x cs g : Eval K ℝ _)
      (XUpdate.addGradients x cs' g) :=
  Alike.accumulate_perm (Coupling.slopeAt x) Signal.addMultiple
    (XUpdate.addGradients x) (fun _ => rfl)
    (fun c cs g => by
      simp only [XUpdate.addGradients, Coupling.slopeAt, bind_assoc, pure_bind]
      rfl)
    Signal.addMultiple_swap h
    (fun c hc => (Coupling.steady_mismatch (hcs c hc) x).bind fun r _ =>
      (LinearOperator.steady_adjoint (hcs c hc) r).map _) g

theorem NormalEquations.addCouplings_cons (c : Coupling K ℝ) (cs : List (Coupling K ℝ))
    (rhs : Signal K) : addCouplings (c :: cs) rhs = (do
      let v ← c.load
      let rhs ← rhs.addMultiple v
      addCouplings cs rhs : Eval K ℝ _) := by
  simp only [addCouplings, Coupling.load, bind_assoc, pure_bind]
  rfl

theorem alike_addCouplings (h : cs.Perm cs') (hcs : ∀ c ∈ cs, c.operator.Named names)
    (rhs : Signal K) : Alike names Eq (NormalEquations.addCouplings cs rhs : Eval K ℝ _)
      (NormalEquations.addCouplings cs' rhs) :=
  Alike.accumulate_perm Coupling.load Signal.addMultiple
    NormalEquations.addCouplings (fun _ => rfl) NormalEquations.addCouplings_cons
    Signal.addMultiple_swap h
    (fun c hc => (Steady.liftExcept _).bind fun target _ =>
      (LinearOperator.steady_adjoint (hcs c hc) target).map _) rhs

theorem alike_sumGrams {ps ps' : List (LinearOperator K × ℝ)} (h : ps.Perm ps')
    (hps : ∀ p ∈ ps, p.1.Named names) (x u : Signal K) :
    Alike names Eq (NormalEquations.sumGrams x ps u) (NormalEquations.sumGrams x ps' u) := by
  have hnamed : ∀ p ∈ ps,
      (LinearOperator.multiple (Scalar.ofReal p.2) p.1.gramOperator).Named names :=
    fun p hp => ⟨hps p hp, hps p hp⟩
  exact Alike.accumulate_perm _ Signal.add (NormalEquations.sumGrams x) (fun _ => rfl)
    (fun _ _ _ => rfl) Signal.add_swap h
    (fun p hp => LinearOperator.steady_eval (hnamed p hp) .forward x) u

end Couplings

/-! ### Sums over terms -/

namespace Solver

variable {us us' : List (TermUpdate K ℝ ℝ)}

/-- The squared residuals of a term. -/
def TermUpdate.residuals (t : TermUpdate K ℝ ℝ) : Eval K ℝ (ℝ × ℝ) := do
  let gap ← t.image.sub t.z
  let change ← t.z.sub t.before.z
  let back ← t.before.operator.adjoint change
  return (gap.normSqr, (back.scaled (Scalar.ofReal t.before.weight)).normSqr)

theorem alike_addValues (h : us.Perm us') (hus : ∀ t ∈ us, t.before.Named names) (total : ℝ) :
    Alike names Eq (addValues us total : Eval K ℝ ℝ) (addValues us' total) :=
  Alike.accumulate_perm (fun t => t.before.penalty.value t.image)
    (fun total v => pure (total + v)) addValues (fun _ => rfl) (fun _ _ _ => rfl)
    pure_add_swap h (fun t ht => Functional.steady_value (hus t ht).penalty _) total

theorem alike_addResiduals (h : us.Perm us') (hus : ∀ t ∈ us, t.before.Named names)
    (primal dual : ℝ) : Alike names Eq (addResiduals us primal dual : Eval K ℝ (ℝ × ℝ))
      (addResiduals us' primal dual) :=
  Alike.accumulate_perm TermUpdate.residuals
    (fun s v => pure (s.1 + v.1, s.2 + v.2))
    (fun us s => addResiduals us s.1 s.2) (fun _ => rfl)
    (fun t us s => by
      simp only [addResiduals, TermUpdate.residuals, bind_assoc, pure_bind]
      rfl)
    (fun s v w => .ok (Prod.ext (add_right_comm s.1 v.1 w.1) (add_right_comm s.2 v.2 w.2))) h
    (fun t ht => (Steady.liftExcept _).bind fun _ _ => (Steady.liftExcept _).bind fun change _ =>
      (LinearOperator.steady_adjoint (hus t ht).operator change).map _) (primal, dual)

end Solver

end

end OperatorSplitting
