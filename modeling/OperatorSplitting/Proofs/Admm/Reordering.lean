import Mathlib
import OperatorSplitting.Proofs.Admm.Lifecycle
import OperatorSplitting.Proofs.Admm.Lockstep
import OperatorSplitting.Proofs.Admm.Sums

/-!
# X-updates with couplings in another order

The couplings of an x-update may be given in any order.  Its gradient, its objective and the right-hand
side of its normal equations are sums over them.  The operator of the normal equations is not the same,
as its parts are nested in another order, but it cannot be told from the other one by evaluation.  Hence
the strategies of the library find the same solution (`Strategy.Agrees.alikeCalls_solve`), and fail
together.
-/

namespace OperatorSplitting

open Eval

noncomputable section

variable {K : Type} [ExactScalar K] {names : Naming K}

/-! ### The x-update -/

/-- The second x-update has the couplings of the first one in some order. -/
structure XUpdate.IsReordering (names : Naming K) (p p' : XUpdate K ℝ ℝ) : Prop where
  f : p'.f = p.f
  couplings : p.couplings.Perm p'.couplings
  named : p.Named names

variable {p p' : XUpdate K ℝ ℝ}

namespace XUpdate.IsReordering

theorem alike_objective (h : p.IsReordering names p') (x : Signal K) :
    Alike names Eq (p.objective x) (p'.objective x) := by
  unfold objective
  rw [h.f]
  exact (Functional.steady_value h.named.f x).alike.bind fun _ _ hvalue =>
    hvalue ▸ alike_addPenalties h.couplings h.named.couplings x _

theorem alike_gradient (h : p.IsReordering names p') (x : Signal K) :
    Alike names Eq (p.gradient x) (p'.gradient x) := by
  unfold gradient
  rw [h.f]
  exact (Functional.steady_grad h.named.f x).alike.bind fun _ _ hg =>
    hg ▸ alike_addGradients h.couplings h.named.couplings x _

end XUpdate.IsReordering

/-! ### Gradient steps -/

namespace Descent

theorem alike_search (h : p.IsReordering names p') (x g : Signal K) (phi gradientSqr : ℝ)
    (tries : ℕ) (t : ℝ) : Alike names Eq (search p x g phi gradientSqr tries t)
      (search p' x g phi gradientSqr tries t) := by
  induction tries generalizing t with
  | zero => exact .pure rfl
  | succ tries ih =>
    refine (Alike.liftExcept .refl).bind ?_
    rintro candidate _ rfl
    refine (h.alike_objective candidate).bind ?_
    rintro value _ rfl
    exact .ite Iff.rfl (.pure rfl) (ih _)

theorem alike_step (h : p.IsReordering names p') (x : Signal K) (stepSize : ℝ) :
    Alike names Eq (step p x stepSize) (step p' x stepSize) := by
  refine (h.alike_gradient x).bind ?_
  rintro g _ rfl
  refine .ite Iff.rfl (.pure rfl) ((h.alike_objective x).bind ?_)
  rintro phi _ rfl
  refine (alike_search h x g phi _ maxTries stepSize).bind ?_
  rintro found _ rfl
  exact .ite Iff.rfl ((Alike.report _ _).bind fun _ _ _ => .pure rfl) (.pure rfl)

theorem alikeCalls_run (h : p.IsReordering names p') (steps : ℕ) (x : Signal K) (stepSize : ℝ) :
    AlikeCalls names Eq Eq (run p steps x stepSize) (run p' steps x stepSize) := by
  induction steps generalizing x stepSize with
  | zero => exact fun t t' ht ht' => ⟨.ok rfl, rfl, ht, ht'⟩
  | succ steps ih =>
    intro t t' ht ht'
    obtain ⟨hresult, hkeep, hkeep'⟩ := alike_step h x stepSize t t' ht ht'
    rw [run_succ, run_succ]
    rcases hrun : (step p x stepSize).run t with ⟨r, t₁⟩
    rcases hrun' : (step p' x stepSize).run t' with ⟨r', t₁'⟩
    rw [hrun] at hresult hkeep
    rw [hrun'] at hresult hkeep'
    cases hresult with
    | error => exact ⟨.error, rfl, hkeep, hkeep'⟩
    | @ok found _ heq =>
      subst heq
      rcases found with _ | ⟨next, size⟩
      · exact ⟨.ok rfl, rfl, hkeep, hkeep'⟩
      · exact ih next (size + size) t₁ t₁' hkeep hkeep'

end Descent

/-! ### Strategies -/

/-- Two strategies of the library that cannot be told apart by what they compute. -/
inductive Strategy.Agrees (names : Naming K) : Strategy K ℝ ℝ → Strategy K ℝ ℝ → Prop
  | descent (steps : ℕ) (stepSize : ℝ) : Agrees names (.descent steps stepSize)
      (.descent steps stepSize)
  | leastSquares (options : CgOptions ℝ) {n n' : NormalEquations K} : n.IsMultiple names 1 n' →
      Agrees names (.leastSquares options (some n)) (.leastSquares options (some n'))

namespace NormalEquations

variable {ps ps' : List (LinearOperator K × ℝ)} {lhs : LinearOperator K}

/-- An operator with Gram operators added in another order. -/
theorem isMultiple_withGrams (hlhs : lhs.Named names) (h : ps.Perm ps')
    (hps : ∀ p ∈ ps, p.1.Named names) :
    (withGrams ps lhs).IsMultiple names 1 (withGrams ps' lhs) := by
  have happly (x : Signal K) : Alike names Eq ((withGrams ps lhs).apply x : Eval K ℝ _)
      ((withGrams ps' lhs).apply x) := by
    rw [apply_withGrams, apply_withGrams]
    refine .ite Iff.rfl ((LinearOperator.steady_eval hlhs .forward x).alike.bind ?_) (.throw _ _)
    rintro u _ rfl
    exact alike_sumGrams h hps x u
  refine ⟨by simp, by simp, fun x => (happly x).mono fun _ _ => Signal.isMultiple_one.mpr, ?_⟩
  intro x x' hx
  cases Signal.isMultiple_one.mp hx
  rw [one_mul]
  exact (happly x).mono fun _ _ => Signal.isMultiple_one.mpr

theorem corresponds_addGrams (hlhs : lhs.Named names) (h : ps.Perm ps')
    (hps : ∀ p ∈ ps, p.1.Named names) :
    Corresponds (LinearOperator.IsMultiple names 1) (addGrams ps lhs) (addGrams ps' lhs) := by
  refine .of_isOk (fun a ha => ?_) fun a ha => ?_
  · obtain ⟨hfit, rfl⟩ := addGrams_eq_ok_iff.mp ha
    exact ⟨_, addGrams_eq_ok_iff.mpr ⟨fun p hp => hfit p (h.mem_iff.mpr hp), rfl⟩,
      isMultiple_withGrams hlhs h hps⟩
  · obtain ⟨hfit, rfl⟩ := addGrams_eq_ok_iff.mp ha
    exact ⟨_, addGrams_eq_ok_iff.mpr ⟨fun p hp => hfit p (h.mem_iff.mp hp), rfl⟩⟩

end NormalEquations

namespace Strategy

variable {s s' : Strategy K ℝ ℝ}

/-- Strategies that are prepared for the same weighted operators in another order. -/
theorem alike_setup (hs : s.IsBuiltIn) {f : Functional K ℝ ℝ} (hf : f.Named names)
    {ps ps' : List (LinearOperator K × ℝ)} (h : ps.Perm ps') (hps : ∀ p ∈ ps, p.1.Named names) :
    Alike names (Agrees names) (s.setup f ps) (s.setup f ps') := by
  cases s with
  | descent steps stepSize =>
    exact .ite Iff.rfl (.throw _ _) ((Alike.report _ _).bind fun _ _ _ => .pure (.descent _ _))
  | leastSquares options equations =>
    unfold setup
    dsimp only
    split
    · exact .throw _ _
    · next l hl =>
      have hoperator := Functional.named_asSquaredLoss? hf hl
      refine (NormalEquations.alike_ofLoss hoperator rfl rfl (one_mul _).symm ?_).bind
        fun n n' hn => .pure (.leastSquares options hn)
      exact NormalEquations.corresponds_addGrams ⟨hoperator, hoperator⟩ h hps
  | external e solves => exact hs.elim

/-- The x-updates have the same solutions, and the strategies still agree. -/
theorem Agrees.alikeCalls_solve (hs : s.Agrees names s') (h : p.IsReordering names p')
    (x : Signal K) : AlikeCalls names Eq (Agrees names) (s.solve p x) (s'.solve p' x) := by
  cases hs with
  | descent steps stepSize =>
    intro t t' ht ht'
    obtain ⟨hresult, hsize, hkeep⟩ := Descent.alikeCalls_run h steps x stepSize t t' ht ht'
    refine ⟨?_, ?_, hkeep⟩
    · show Corresponds Eq ((Descent.run p steps x stepSize t).1.1.map _)
        ((Descent.run p' steps x stepSize t').1.1.map _)
      generalize (Descent.run p steps x stepSize t).1.1 = result at hresult ⊢
      generalize (Descent.run p' steps x stepSize t').1.1 = result' at hresult ⊢
      cases hresult with
      | ok heq => exact .ok (by rw [heq])
      | error => exact .error
    · show Agrees names (.descent steps (Descent.run p steps x stepSize t).1.2)
        (.descent steps (Descent.run p' steps x stepSize t').1.2)
      rw [hsize]
      exact .descent _ _
  | @leastSquares options n n' hn =>
    have hcouplings : Alike names (Signal.IsMultiple 1)
        (NormalEquations.addCouplings p.couplings n.rhsBase : Eval K ℝ _)
        (NormalEquations.addCouplings p'.couplings n'.rhsBase) := by
      rw [← Signal.isMultiple_one.mp hn.rhsBase]
      exact (alike_addCouplings h.couplings h.named.couplings _).mono
        fun _ _ => Signal.isMultiple_one.mpr
    have hsolve : Alike names (fun r r' => r' = r.rescaled 1) (n.solve options p.couplings x)
        (n'.solve options p'.couplings x) := hn.alike_solve one_pos (.inl rfl) hcouplings
    intro t t' ht ht'
    obtain ⟨hresult, hkeep⟩ := hsolve t t' ht ht'
    refine ⟨hresult.mono fun r r' hr => ?_, .leastSquares options hn, hkeep⟩
    rw [hr, SubproblemReport.rescaled_one]

end Strategy

end

end OperatorSplitting
