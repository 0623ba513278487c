import Mathlib
import OperatorSplitting.Proofs.Admm.Retry
import OperatorSplitting.Proofs.Admm.Lockstep
import OperatorSplitting.Proofs.Admm.Misfit
import OperatorSplitting.Proofs.Admm.Sums

/-!
# X-updates with the weights multiplied by a number

Multiply a squared loss and all weights of an x-update by a positive number.  Both sides of its normal
equations are multiplied, and with a purely relative tolerance the linear solve finds the same solution
(`Strategy.IsRescaling.alikeCalls_solve`).

The operator of the new equations is a multiple of the old one at every signal.  Conjugate gradients also
apply it to directions that have been multiplied; there it helps that all operators are linear
(`LinearOperator.IsPolar.alike_apply`).
-/

namespace OperatorSplitting

open Eval LinearOperator

noncomputable section

variable {K : Type} [ExactScalar K] {names : Naming K} {c : ℝ}

/-! ### Multiples of signals -/

theorem Signal.IsMultiple.trans {d : ℝ} {x y z : Signal K} (h : x.IsMultiple c y)
    (h' : y.IsMultiple d z) : x.IsMultiple (c * d) z :=
  ⟨h'.shape.trans h.shape, by rw [h'.vec, h.vec, smul_smul, mul_comm]⟩

theorem LinearOperator.polar_multiple {operators : List (LinearOperator K × ℝ)}
    (hoperators : ∀ p ∈ operators, p.1.IsLinear names) {x x' : Signal K} (h : Reaches operators x)
    (hx : x.IsMultiple c x') (v : Signal K) : polar operators v x' = c * polar operators v x := by
  have hvec : x'.vec = x.vec + (c - 1) • x.vec := by
    rw [hx.vec, sub_smul, one_smul]
    abel
  rw [polar, polar, ← List.sum_map_mul_left]
  congr 1
  refine List.map_congr_left fun p hp => ?_
  rw [h.imageVec_combination hoperators rfl hx.shape hvec hp, inner_add_right, real_inner_smul_right]
  ring

/-- An operator that evaluates a polar form sends multiples to multiples. -/
theorem LinearOperator.IsPolar.alike_apply {a : LinearOperator K}
    {operators : List (LinearOperator K × ℝ)} (ha : a.IsPolar names operators)
    (hoperators : ∀ p ∈ operators, p.1.IsLinear names) {x x' : Signal K} (hx : x.IsMultiple c x') :
    Alike names (Signal.IsMultiple c) (a.apply x : Eval K ℝ _) (a.apply x') := by
  have hsteady (x : Signal K) : Steady names (a.apply x : Eval K ℝ _) :=
    steady_apply ha.linear.named x
  refine (hsteady x).alike_of_outcome (hsteady x') ?_
  refine .of_isOk (fun u hu => ?_) fun u' hu' => ha.linear.apply_uniform hu' hx.shape.symm
  obtain ⟨u', hu'⟩ := ha.linear.apply_uniform hu hx.shape
  obtain ⟨hxshape, hushape⟩ := ha.linear.shape_apply hu
  have hushape' := (ha.linear.shape_apply hu').2
  refine ⟨u', hu', hushape'.trans hushape.symm, ?_⟩
  -- The deviation is a signal that the operator may be tested with.
  obtain ⟨e, he, heshape⟩ :=
    Signal.exists_addScaled (Scalar.ofReal (-c)) (hushape'.trans hushape.symm)
  have hevec : e.vec = u'.vec + -c • u.vec := Signal.vec_addScaled he
  have heinput : e.shape = x.shape := by rw [heshape, hushape', ha.square, hxshape]
  have hself : inner ℝ e.vec e.vec = 0 := by
    calc inner ℝ e.vec e.vec = inner ℝ e.vec (u'.vec + -c • u.vec) := congrArg (inner ℝ e.vec) hevec
      _ = polar operators e x' - c * polar operators e x := by
          rw [inner_add_right, real_inner_smul_right, ha.inner_apply hu heinput,
            ha.inner_apply hu' (heinput.trans hx.shape.symm)]
          ring
      _ = 0 := by rw [polar_multiple hoperators (ha.reaches hu) hx, sub_self]
  have hzero := inner_self_eq_zero.mp hself
  rw [hevec, neg_smul, ← sub_eq_add_neg, sub_eq_zero] at hzero
  exact hzero

/-! ### Equations -/

/-- A weighted operator with its weight multiplied. -/
def rescaledWeight (c : ℝ) (p : LinearOperator K × ℝ) : LinearOperator K × ℝ := (p.1, c * p.2)

/-- A coupling with its weight multiplied. -/
def Coupling.rescaled (c : ℝ) (k : Coupling K ℝ) : Coupling K ℝ := { k with weight := c * k.weight }

namespace NormalEquations

theorem alike_addCouplings_rescaled {cs : List (Coupling K ℝ)}
    (hcs : ∀ k ∈ cs, k.operator.Named names) {rhs rhs' : Signal K} (h : rhs.IsMultiple c rhs') :
    Alike names (Signal.IsMultiple c) (addCouplings cs rhs : Eval K ℝ _)
      (addCouplings (cs.map (Coupling.rescaled c)) rhs') := by
  refine Alike.accumulate_map Coupling.load Signal.addMultiple addCouplings (fun _ => rfl)
    addCouplings_cons (V := fun v v' => v' = (c * v.1, v.2)) ?_ (fun k hk => ?_) h
  · rintro s s' v _ hs rfl
    have hsame : v.2.IsMultiple 1 v.2 := Signal.isMultiple_one.mpr rfl
    exact hs.addScaled hsame (mul_one _)
  · refine (Alike.liftExcept .refl).bind ?_
    rintro target _ rfl
    exact (steady_adjoint (hcs k hk) target).alike.bind fun _ _ hback =>
      .pure (by rw [hback]; rfl)

/-- A multiple of an operator is multiplied with its factor. -/
theorem alike_eval_multiple {a : LinearOperator K} (ha : a.Named names) (r : ℝ) (x : Signal K) :
    Alike names (Signal.IsMultiple c) ((multiple (Scalar.ofReal r) a).eval .forward x : Eval K ℝ _)
      ((multiple (Scalar.ofReal (c * r)) a).eval .forward x) := by
  refine (steady_eval ha .forward x).alike.bind ?_
  rintro u _ rfl
  exact .pure (Signal.isMultiple_scaled u c r)

theorem alike_sumGrams_rescaled {ps : List (LinearOperator K × ℝ)}
    (hps : ∀ p ∈ ps, p.1.Named names) (x : Signal K) {u u' : Signal K} (h : u.IsMultiple c u') :
    Alike names (Signal.IsMultiple c) (sumGrams x ps u)
      (sumGrams x (ps.map (rescaledWeight c)) u') := by
  have hgram : ∀ p ∈ ps, p.1.gramOperator.Named names := fun p hp => ⟨hps p hp, hps p hp⟩
  exact Alike.accumulate_map
    (fun p => (multiple (Scalar.ofReal p.2) p.1.gramOperator).eval .forward x) Signal.add
    (sumGrams x) (fun _ => rfl) (fun _ _ _ => rfl) (fun _ _ _ _ hs hv => hs.add hv)
    (fun p hp => alike_eval_multiple (hgram p hp) p.2 x) h

variable {a : LinearOperator K} {r : ℝ} {ps : List (LinearOperator K × ℝ)} {lhs : LinearOperator K}

/-- The operator with all its weights multiplied. -/
theorem isMultiple_rescaled (ha : a.IsLinear names) (hps : ∀ p ∈ ps, p.1.IsLinear names)
    (hlhs : addGrams ps (multiple (Scalar.ofReal r) a.gramOperator) = .ok lhs) :
    lhs.IsMultiple names c
      (withGrams (ps.map (rescaledWeight c)) (multiple (Scalar.ofReal (c * r)) a.gramOperator)) := by
  have hpolar : lhs.IsPolar names ([(a, r)] ++ ps) := isPolar_addGrams (.gram ha r) hps hlhs
  have hlinear : ∀ p ∈ [(a, r)] ++ ps, p.1.IsLinear names :=
    List.forall_mem_append.mpr ⟨List.forall_mem_singleton.mpr ha, hps⟩
  obtain ⟨-, rfl⟩ := addGrams_eq_ok_iff.mp hlhs
  have happly (x : Signal K) : Alike names (Signal.IsMultiple c)
      ((withGrams ps (multiple (Scalar.ofReal r) a.gramOperator)).apply x : Eval K ℝ _)
      ((withGrams (ps.map (rescaledWeight c))
        (multiple (Scalar.ofReal (c * r)) a.gramOperator)).apply x) := by
    rw [apply_withGrams, apply_withGrams]
    exact .ite Iff.rfl ((alike_eval_multiple ha.gramOperator.named r x).bind fun u u' hu =>
      alike_sumGrams_rescaled (fun p hp => (hps p hp).named) x hu) (.throw _ _)
  refine ⟨by simp; rfl, by simp; rfl, happly, fun x x' hx => ?_⟩
  exact ((hpolar.alike_apply hlinear hx).trans (happly x')).mono
    fun u u'' ⟨u', hu, hu'⟩ => hu.trans hu'

theorem corresponds_addGrams_rescaled (ha : a.IsLinear names) (hps : ∀ p ∈ ps, p.1.IsLinear names) :
    Corresponds (LinearOperator.IsMultiple names c)
      (addGrams ps (multiple (Scalar.ofReal r) a.gramOperator))
      (addGrams (ps.map (rescaledWeight c)) (multiple (Scalar.ofReal (c * r)) a.gramOperator)) := by
  refine .of_isOk (fun lhs hlhs => ?_) fun lhs' hlhs' => ?_
  · obtain ⟨hfit, -⟩ := addGrams_eq_ok_iff.mp hlhs
    refine ⟨_, addGrams_eq_ok_iff.mpr ⟨fun q hq => ?_, rfl⟩, isMultiple_rescaled ha hps hlhs⟩
    obtain ⟨p, hp, rfl⟩ := List.mem_map.mp hq
    exact hfit p hp
  · obtain ⟨hfit, -⟩ := addGrams_eq_ok_iff.mp hlhs'
    refine ⟨_, addGrams_eq_ok_iff.mpr ⟨fun p hp => ?_, rfl⟩⟩
    exact hfit (rescaledWeight c p) (List.mem_map_of_mem hp)

end NormalEquations

/-! ### Strategies -/

namespace Strategy

/-- Two linear solves with a relative tolerance, of equations of which the second ones are the first
ones multiplied by a number. -/
inductive IsRescaling (names : Naming K) (c : ℝ) : Strategy K ℝ ℝ → Strategy K ℝ ℝ → Prop
  | leastSquares {options : CgOptions ℝ} {n n' : NormalEquations K} : options.atol = 0 →
      n.IsMultiple names c n' →
      IsRescaling names c (.leastSquares options (some n)) (.leastSquares options (some n'))

/-- Equations are set up for a functional and weighted operators, and for their multiples. -/
theorem alike_setup_rescaled {options : CgOptions ℝ} (hatol : options.atol = 0)
    {f : Functional K ℝ ℝ} (hf : ∀ l, f.asSquaredLoss? = some l → l.operator.IsLinear names)
    {ps : List (LinearOperator K × ℝ)} (hps : ∀ p ∈ ps, p.1.IsLinear names) :
    Alike names (IsRescaling names c) ((ofOptions options).setup f ps)
      ((ofOptions options).setup (.multiple c f) (ps.map (rescaledWeight c))) := by
  unfold ofOptions setup
  dsimp only [Functional.asSquaredLoss?]
  cases hl : f.asSquaredLoss? with
  | none => exact .throw _ _
  | some l =>
    have hlinear := hf l hl
    have hscale : (l.rescaled c).scale = c * l.scale := mul_comm _ _
    have hequations : Alike names (NormalEquations.IsMultiple names c)
        (NormalEquations.ofLoss l ps : Eval K ℝ _)
        (NormalEquations.ofLoss (l.rescaled c) (ps.map (rescaledWeight c))) := by
      refine NormalEquations.alike_ofLoss hlinear.named rfl rfl hscale ?_
      rw [hscale, ← mul_add]
      exact NormalEquations.corresponds_addGrams_rescaled hlinear hps
    exact hequations.bind fun n n' hn => .pure (.leastSquares hatol hn)

/-- The solutions are the same, and the residuals are multiplied. -/
theorem IsRescaling.alikeCalls_solve (hc : 0 < c) {s s' : Strategy K ℝ ℝ}
    (hs : s.IsRescaling names c s') {p p' : XUpdate K ℝ ℝ}
    (hcouplings : p'.couplings = p.couplings.map (Coupling.rescaled c))
    (hnamed : ∀ k ∈ p.couplings, k.operator.Named names) (x : Signal K) :
    AlikeCalls names (fun r r' => r' = r.rescaled c) (IsRescaling names c) (s.solve p x)
      (s'.solve p' x) := by
  cases hs with
  | @leastSquares options n n' hatol hn =>
    have hsolve := hn.alike_solve hc (.inr hatol)
      (NormalEquations.alike_addCouplings_rescaled hnamed hn.rhsBase) (x := x)
    rw [← hcouplings] at hsolve
    intro t t' ht ht'
    obtain ⟨hresult, hkeep⟩ := hsolve t t' ht ht'
    exact ⟨hresult, .leastSquares hatol hn, hkeep⟩

end Strategy

end

end OperatorSplitting
