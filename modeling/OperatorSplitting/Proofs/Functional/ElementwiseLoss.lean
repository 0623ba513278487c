import Mathlib
import OperatorSplitting.Proofs.Functional.Proximal
import OperatorSplitting.Proofs.Functional.SquaredLoss
import OperatorSplitting.Proofs.Linear.Elementwise
import OperatorSplitting.Proofs.Linear.NormalOperator

/-!
# The proximal map of an elementwise loss

A squared loss whose operator multiplies elementwise has a proximal map in closed form: each element
of the proximal point is a weighted mean of the element of `v` and of what the observation asks for.
The map reads the factors that were found when the loss was made, while the value and the gradient
run through the expression of the operator and of its adjoint.  They meet in one equation for each
coordinate (`SquaredLoss.proxDiagonal_spec`, `SquaredLoss.IsConsistent.succeeds_grad`), and so the
proximal point is where the gradient balances the step from `v`.

The weights by which the map divides are at least one, and the result does not depend on what a
quotient by zero is.
-/

namespace OperatorSplitting

open ExactScalar Eval

noncomputable section

variable {K : Type} [ExactScalar K]

open Classical in
/-- The same elements with another quotient by zero. -/
@[reducible] def zeroQuotient (junk : K → K) : Scalar K ℝ ℝ :=
  { (inferInstance : Scalar K ℝ ℝ) with div := fun a b => if b = 0 then junk a else a / b }

namespace SquaredLoss

variable {a : LinearOperator K} {l l' : SquaredLoss K ℝ} {d v x y : Signal K} {s t : ℝ}

/-! ### Losses as the constructors make them -/

/-- The shapes fit together, the scale is positive, and the factors are those that the operator
shows. -/
structure IsConsistent (l : SquaredLoss K ℝ) : Prop where
  wellShaped : l.operator.WellShaped
  observation : l.observation.shape = l.operator.output
  scale : 0 < l.scale
  diagonal : l.operator.diagonalEntries? = .ok l.diagonal?

theorem isConsistent_of_ofObservation (ha : a.WellShaped) (h : ofObservation y a = .ok l) :
    l.IsConsistent := by
  unfold ofObservation at h
  split at h
  · next hshape =>
    obtain ⟨d, hd, rfl⟩ := Except.map_eq_ok_iff.mp h
    refine ⟨ha, hshape, ?_, hd⟩
    show (0 : ℝ) < 1 / (1 + 1)
    norm_num
  · cases h

theorem isConsistent_of_scaledBy (hl : l.IsConsistent) (h : l.scaledBy s = .ok l') :
    l'.IsConsistent := by
  unfold scaledBy at h
  split at h
  · next hs =>
    cases h
    have hpos : 0 < s := by simpa [RealArithmetic.lt] using hs
    exact ⟨hl.wellShaped, hl.observation, mul_pos hl.scale hpos, hl.diagonal⟩
  · cases h

theorem IsConsistent.shape_eq (hl : l.IsConsistent) (hd : l.diagonal? = some d) :
    d.shape = l.operator.input ∧ d.shape = l.observation.shape := by
  obtain ⟨hin, hout⟩ := LinearOperator.shape_of_diagonalEntries? hl.wellShaped (hd ▸ hl.diagonal)
  exact ⟨hin, hin.trans (hout.symm.trans hl.observation.symm)⟩

/-- The operator of an elementwise loss is linear whatever closures are called. -/
theorem IsConsistent.isLinear (hl : l.IsConsistent) (hd : l.diagonal? = some d) :
    l.IsLinear LinearOperator.anyNaming where
  operator := by
    have hleaves := (LinearOperator.allLeaves_of_diagonalEntries? (hd ▸ hl.diagonal)).1
    refine LinearOperator.isLinear_of_closureFree hl.wellShaped (hleaves.mono fun a ha => ?_)
    cases a with
    | closure c => exact ha.elim
    | _ => trivial
  observation := hl.observation
  scale := hl.scale

/-! ### The gradient, one coordinate at a time -/

theorem IsConsistent.succeeds_grad (hl : l.IsConsistent) (hd : l.diagonal? = some d)
    (hx : x.shape = d.shape) (hroom : x.shape.Storable) :
    Succeeds (l.grad x : Eval K ℝ _) fun g => g.shape = x.shape ∧
      ∀ k, g.coord k = 2 * l.scale * ((starRingEnd ℂ) (d.coord k) *
        (d.coord k * x.coord k - l.observation.coord k)) := by
  have hfactors : l.operator.diagonalEntries? = .ok (some d) := hd ▸ hl.diagonal
  have hresidual : Succeeds (l.residual x : Eval K ℝ _) fun r => r.shape = x.shape ∧
      ∀ k, r.coord k = d.coord k * x.coord k - l.observation.coord k := by
    refine (LinearOperator.succeeds_apply_product hl.wellShaped hfactors hx hroom).bind
      fun u hu => ?_
    obtain ⟨r, hr, hrshape⟩ :=
      Signal.exists_sub (hu.shape.trans (hx.trans (hl.shape_eq hd).2))
    refine .liftExcept ⟨r, hr, hrshape.trans hu.shape, fun k => ?_⟩
    rw [Signal.coord_sub hr, hu.coord]
    rfl
  refine hresidual.bind fun r hr => ?_
  refine (LinearOperator.succeeds_adjoint_product hl.wellShaped hfactors (hr.1.trans hx)
    (hr.1 ▸ hroom)).bind fun w hw => .pure ?_
  refine ⟨(Signal.shape_scaled w _).trans (hw.shape.trans hr.1), fun k => ?_⟩
  rw [Signal.coord_scaled, hw.coord, hr.2, val_ofReal]
  push_cast
  ring

/-! ### The proximal map, one coordinate at a time -/

/-- The weight by which the proximal map divides. -/
def proxWeight (l : SquaredLoss K ℝ) (t : ℝ) (a : K) : ℝ :=
  1 + (l.scale * t + l.scale * t) * Scalar.modulusSqr a

/-- The weights of all elements. -/
def proxWeights (l : SquaredLoss K ℝ) (t : ℝ) (d : Signal K) : Signal K :=
  d.map fun a => Scalar.ofReal (l.proxWeight t a)

/-- The observation, weighted for the numerator of the proximal map. -/
def proxPull (l : SquaredLoss K ℝ) (t : ℝ) (d : Signal K) : Except Error (Signal K) :=
  Signal.zipMap "squared l2 loss prox"
    (fun a b => Scalar.conj a * b * Scalar.ofReal (l.scale * t + l.scale * t)) d l.observation

theorem one_le_proxWeight (hs : 0 < l.scale) (ht : 0 < t) (a : K) : 1 ≤ l.proxWeight t a := by
  have hfactor : 0 ≤ l.scale * t + l.scale * t := by positivity
  have hproduct : 0 ≤ (l.scale * t + l.scale * t) * Scalar.modulusSqr a := by
    rw [modulusSqr_eq]
    positivity
  rw [proxWeight]
  linarith

/-- No weight is zero. -/
theorem ne_zero_of_mem_proxWeights (hs : 0 < l.scale) (ht : 0 < t) {b : K}
    (hb : b ∈ (l.proxWeights t d).entries) : b ≠ 0 := by
  rw [proxWeights, Signal.entries_map] at hb
  obtain ⟨a, -, rfl⟩ := Array.mem_map.mp hb
  exact ofReal_ne_zero (zero_lt_one.trans_le (one_le_proxWeight hs ht a)).ne'

section Parts

variable {pull num p : Signal K} (hpull : l.proxPull t d = .ok pull) (hnum : v.add pull = .ok num)
  (hp : Signal.zipMap "squared l2 loss prox" (· / ·) num (l.proxWeights t d) = .ok p)

include hpull hnum hp

theorem proxDiagonal_of_parts : l.proxDiagonal d v t = .ok p := by
  show (l.proxPull t d >>= _) = _
  rw [hpull]
  show (v.add pull >>= _) = _
  rw [hnum]
  exact hp

/-- The result stays the same with another quotient by zero. -/
theorem proxDiagonal_zeroQuotient (hs : 0 < l.scale) (ht : 0 < t) (junk : K → K) :
    @proxDiagonal K ℝ ℝ _ (zeroQuotient junk) l d v t = .ok p := by
  show (l.proxPull t d >>= _) = _
  rw [hpull]
  show (v.add pull >>= _) = _
  rw [hnum]
  exact Signal.zipMap_of_agree (fun a b hb => if_neg (ne_zero_of_mem_proxWeights hs ht hb)) hp

theorem coord_proxDiagonal (hs : 0 < l.scale) (ht : 0 < t) (k : ℕ) :
    (1 + 2 * l.scale * t * ‖d.coord k‖ ^ 2) * p.coord k =
      v.coord k + 2 * l.scale * t * ((starRingEnd ℂ) (d.coord k) * l.observation.coord k) := by
  have hpullcoord : pull.coord k = (starRingEnd ℂ) (d.coord k) * l.observation.coord k *
      ((l.scale * t + l.scale * t : ℝ) : ℂ) :=
    Signal.coord_zipMap_all (g := fun a b => (starRingEnd ℂ) a * b *
      ((l.scale * t + l.scale * t : ℝ) : ℂ)) (by simp) (by simp) hpull k
  have hquotient : p.coord k = num.coord k / (l.proxWeights t d).coord k :=
    Signal.coord_zipMap_all (g := fun a b => a / b) val_div (div_zero 0) hp k
  have hnumcoord := Signal.coord_add hnum k
  rcases Nat.lt_or_ge k d.size with hk | hk
  · have hweight : (l.proxWeights t d).coord k =
        ((1 + 2 * l.scale * t * ‖d.coord k‖ ^ 2 : ℝ) : ℂ) := by
      rw [proxWeights, Signal.coord_map_of_lt _ hk, val_ofReal, proxWeight, modulusSqr_eq,
        Signal.coord]
      ring_nf
    have hpos : ((1 + 2 * l.scale * t * ‖d.coord k‖ ^ 2 : ℝ) : ℂ) ≠ 0 := by
      rw [Complex.ofReal_ne_zero]
      positivity
    have hproduct : ((1 + 2 * l.scale * t * ‖d.coord k‖ ^ 2 : ℝ) : ℂ) * p.coord k =
        v.coord k + pull.coord k := by
      rw [hquotient, hweight, mul_div_cancel₀ _ hpos, hnumcoord]
    rw [hpullcoord] at hproduct
    push_cast at hproduct
    rw [hproduct]
    ring
  · -- Beyond the last element everything is zero.
    have hshape := (Signal.shape_eq_of_zipMap hp).trans (Signal.shape_map _ d)
    have hbeyond {w : Signal K} (hw : w.shape = d.shape) : w.coord k = 0 :=
      Signal.coord_of_size_le ((Signal.size_eq_of_shape hw).trans_le hk)
    have hv : v.shape = d.shape := (Signal.shape_add hnum).symm.trans hshape
    rw [hbeyond ((Signal.shape_of_zipMap hp).trans hshape), hbeyond hv, hbeyond rfl]
    simp

end Parts

theorem proxDiagonal_spec (hs : 0 < l.scale) (ht : 0 < t) (hd : d.shape = l.observation.shape)
    (hv : v.shape = d.shape) :
    ∃ p, l.proxDiagonal d v t = .ok p ∧
      (∀ junk, @proxDiagonal K ℝ ℝ _ (zeroQuotient junk) l d v t = .ok p) ∧ p.shape = v.shape ∧
      ∀ k, (1 + 2 * l.scale * t * ‖d.coord k‖ ^ 2) * p.coord k =
        v.coord k + 2 * l.scale * t * ((starRingEnd ℂ) (d.coord k) * l.observation.coord k) := by
  obtain ⟨pull, hpull, hpullshape⟩ : ∃ pull, l.proxPull t d = .ok pull ∧ pull.shape = d.shape :=
    Signal.exists_zipMap _ _ hd
  obtain ⟨num, hnum, hnumshape⟩ := Signal.exists_add (hv.trans hpullshape.symm)
  have hden : num.shape = (l.proxWeights t d).shape :=
    hnumshape.trans (hv.trans (Signal.shape_map _ d).symm)
  obtain ⟨p, hp, hpshape⟩ :=
    Signal.exists_zipMap "squared l2 loss prox" (fun a b : K => a / b) hden
  exact ⟨p, proxDiagonal_of_parts hpull hnum hp, proxDiagonal_zeroQuotient hpull hnum hp hs ht,
    hpshape.trans hnumshape, coord_proxDiagonal hpull hnum hp hs ht⟩

/-- The proximal map with another quotient by zero. -/
def proxDividing (junk : K → K) (l : SquaredLoss K ℝ) (v : Signal K) (t : ℝ) :
    Except Error (Signal K) :=
  @prox K ℝ ℝ _ (zeroQuotient junk) l v t

end SquaredLoss

/-! ### Optimality -/

namespace Functional

variable {g : Functional K ℝ ℝ} {l : SquaredLoss K ℝ} {d q v z : Signal K} {t : ℝ}

/-- No signal of the shape of `z` has a smaller value, with the squared distance from `v` over twice
the step added to it. -/
def IsProximal (g : Functional K ℝ ℝ) (v : Signal K) (t : ℝ) (z : Signal K) : Prop :=
  ∃ a : ℝ, g.penalized v t z = .ok (a : WithTop ℝ) ∧
    ∀ u : Signal K, u.shape = z.shape → ∃ b, g.penalized v t u = .ok b ∧ (a : WithTop ℝ) ≤ b

/-- Whatever has happened before, the gradient at `z` balances the step from `v`. -/
def IsStationary (g : Functional K ℝ ℝ) (v : Signal K) (t : ℝ) (z : Signal K) : Prop :=
  ∃ r : Signal K, (∀ trace, (g.grad z : Eval K ℝ _).run trace = (.ok r, trace)) ∧
    (1 / t) • (z.vec - v.vec) + r.vec = 0

theorem Subgradient.isProximal (h : g.Subgradient ((1 / t) • (v.vec - z.vec)) z) (ht : 0 < t) :
    g.IsProximal v t z := by
  obtain ⟨a, ha, hbound⟩ := h.penalized_le ht
  refine ⟨a, ha, fun u hu => ?_⟩
  obtain ⟨b, hb, hle⟩ := hbound u hu
  refine ⟨b, hb, le_trans (WithTop.coe_le_coe.mpr ?_) hle⟩
  exact le_add_of_nonneg_right (by positivity)

/-- Only one signal can be least. -/
theorem Subgradient.eq_of_isProximal (h : g.Subgradient ((1 / t) • (v.vec - z.vec)) z)
    (ht : 0 < t) (hq : g.IsProximal v t q) (hshape : q.shape = z.shape) : q = z := by
  obtain ⟨a, ha, hbound⟩ := h.penalized_le ht
  obtain ⟨b, hb, hle⟩ := hbound q hshape
  obtain ⟨c, hc, hleast⟩ := hq
  obtain ⟨e, he, hce⟩ := hleast z hshape.symm
  cases hb.symm.trans hc
  cases ha.symm.trans he
  have hgrowth : a + ‖q.vec - z.vec‖ ^ 2 / (2 * t) ≤ a :=
    (WithTop.coe_le_coe.mp hle).trans (WithTop.coe_le_coe.mp hce)
  have hzero : ‖q.vec - z.vec‖ ^ 2 / (2 * t) = 0 := le_antisymm (by linarith) (by positivity)
  rw [div_eq_zero_iff, or_iff_left (by positivity), sq_eq_zero_iff, norm_sub_eq_zero_iff] at hzero
  exact Signal.vec_injective hshape hzero

/-- Where the gradient of an elementwise loss balances the step, the step is a subgradient. -/
theorem IsStationary.subgradient (hl : l.IsConsistent) (hd : l.diagonal? = some d)
    (h : (loss l).IsStationary v t z) : (loss l).Subgradient ((1 / t) • (v.vec - z.vec)) z := by
  obtain ⟨r, hrun, hbalance⟩ := h
  have hgrad : (l.grad z : Eval K ℝ _).outcome = .ok r := congrArg Prod.fst (hrun .empty)
  have hstep : (1 / t) • (v.vec - z.vec) = r.vec := by
    rw [← neg_sub, smul_neg]
    exact neg_eq_of_add_eq_zero_right hbalance
  rw [hstep]
  exact (SquaredLoss.subgradient_grad (hl.isLinear hd) hgrad).2

/-- The closed form solves the equation of balance in each coordinate. -/
theorem isStationary_of_coord (hl : l.IsConsistent) (hd : l.diagonal? = some d)
    (hz : z.shape = d.shape) (hroom : z.shape.Storable) (ht : t ≠ 0)
    (hcoord : ∀ k, (1 + 2 * l.scale * t * ‖d.coord k‖ ^ 2) * z.coord k =
      v.coord k + 2 * l.scale * t * ((starRingEnd ℂ) (d.coord k) * l.observation.coord k)) :
    (loss l).IsStationary v t z := by
  obtain ⟨r, hrun, -, hr⟩ := hl.succeeds_grad hd hz hroom
  refine ⟨r, hrun, ?_⟩
  ext k
  show ((1 / t : ℝ) : ℂ) * (z.coord k - v.coord k) + r.coord k = 0
  have hsquare : (starRingEnd ℂ) (d.coord k) * d.coord k = ‖d.coord k‖ ^ 2 :=
    Complex.conj_mul' _
  have hstep : z.coord k - v.coord k = -(t * r.coord k) := by
    rw [hr]
    linear_combination hcoord k + 2 * l.scale * t * z.coord k * hsquare
  have htc : (t : ℂ) ≠ 0 := Complex.ofReal_ne_zero.mpr ht
  rw [hstep]
  push_cast
  field_simp
  ring

/-- **The proximal map of a squared loss.**  If the operator of the loss shows that it multiplies
elementwise, there is a proximal point for every `v` of the shape of the observation and every
positive step, and nothing is divided by zero on the way.  It is the only signal of that shape at
which the loss, with the squared distance from `v` over twice the step added, is least, and the only
one at which the gradient balances the step.  If the operator does not show that, the map is not
supported. -/
theorem loss_prox_minimizes (hl : l.IsConsistent) :
    ((loss l : Functional K ℝ ℝ).hasProx = true → ∀ (v : Signal K) (t : ℝ),
      v.shape = l.observation.shape → v.shape.Storable → 0 < t →
      ∃ p : Signal K, p.shape = v.shape ∧
        (∀ trace, ((loss l).prox v t : Eval K ℝ _).run trace = (.ok p, trace)) ∧
        (∀ junk, l.proxDividing junk v t = .ok p) ∧
        ∀ q : Signal K, q.shape = v.shape →
          ((loss l).IsProximal v t q ↔ q = p) ∧ ((loss l).IsStationary v t q ↔ q = p)) ∧
    ((loss l : Functional K ℝ ℝ).hasProx = false → ∀ (v : Signal K) (t : ℝ) (trace : Trace K ℝ),
      ((loss l).prox v t).run trace =
        (.error (.unsupported (.elementwiseProx l.operator.text)), trace)) := by
  constructor
  · intro hprox v t hv hroom ht
    obtain ⟨d, hd⟩ := Option.isSome_iff_exists.mp hprox
    have hdobs := (hl.shape_eq hd).2
    have hvd : v.shape = d.shape := hv.trans hdobs.symm
    obtain ⟨p, hp, hjunk, hshape, hcoord⟩ := SquaredLoss.proxDiagonal_spec hl.scale ht hdobs hvd
    have hstationary : (loss l).IsStationary v t p :=
      isStationary_of_coord hl hd (hshape.trans hvd) (hshape ▸ hroom) ht.ne' hcoord
    have hsubgradient := hstationary.subgradient hl hd
    refine ⟨p, hshape, fun trace => ?_, fun junk => ?_, fun q hq => ⟨⟨fun h => ?_, ?_⟩, fun h => ?_, ?_⟩⟩
    · show (liftM (l.prox v t) : Eval K ℝ _).run trace = _
      rw [SquaredLoss.prox, hd]
      show (liftM (l.proxDiagonal d v t) : Eval K ℝ _).run trace = _
      rw [hp]
      rfl
    · unfold SquaredLoss.proxDividing SquaredLoss.prox
      rw [hd]
      exact hjunk junk
    · exact hsubgradient.eq_of_isProximal ht h (hq.trans hshape.symm)
    · rintro rfl
      exact hsubgradient.isProximal ht
    · exact hsubgradient.eq_of_isProximal ht ((h.subgradient hl hd).isProximal ht)
        (hq.trans hshape.symm)
    · rintro rfl
      exact hstationary
  · intro hprox v t trace
    have hd : l.diagonal? = none := by simpa [hasProx] using hprox
    show (liftM (l.prox v t) : Eval K ℝ _).run trace = _
    rw [SquaredLoss.prox, hd]
    rfl

open LinearOperator (blockedDiagonal)

/-- A complex loss on two blocks, with a factor zero. -/
def blockedLoss : SquaredLoss (ComplexOf ℝ) ℝ where
  observation := blockedDiagonal.factor
  operator := .leaf (.diagonal blockedDiagonal)
  scale := RealArithmetic.half
  diagonal? := some blockedDiagonal.factor

theorem ofObservation_blockedDiagonal :
    SquaredLoss.ofObservation blockedDiagonal.factor (.leaf (.diagonal blockedDiagonal)) =
      .ok blockedLoss := by
  have hfactors : blockedDiagonal.diagonalEntries? = some blockedDiagonal.factor :=
    if_pos ⟨rfl, rfl⟩
  have hshape : blockedDiagonal.factor.shape =
      (LinearOperator.leaf (.diagonal blockedDiagonal)).output := rfl
  rw [SquaredLoss.ofObservation, if_pos hshape, LinearOperator.diagonalEntries?,
    Leaf.diagonalEntries?, hfactors]
  rfl

theorem loss_prox_minimizes_blockedLoss :
    blockedLoss.IsConsistent ∧ (loss blockedLoss : Functional (ComplexOf ℝ) ℝ ℝ).hasProx = true ∧
      ∃ p : Signal (ComplexOf ℝ), p.shape = .blocked [[1], [2]] ∧
        (∀ junk, blockedLoss.proxDividing junk blockedDiagonal.factor 3 = .ok p) ∧
        (loss blockedLoss).IsProximal blockedDiagonal.factor 3 p ∧
        (loss blockedLoss).IsStationary blockedDiagonal.factor 3 p := by
  have hshaped : (LinearOperator.leaf (.diagonal blockedDiagonal)).WellShaped := trivial
  have hconsistent := SquaredLoss.isConsistent_of_ofObservation hshaped
    ofObservation_blockedDiagonal
  have hroom : blockedDiagonal.factor.shape.Storable := by decide
  obtain ⟨p, hshape, -, hjunk, hunique⟩ :=
    (loss_prox_minimizes hconsistent).1 rfl blockedDiagonal.factor 3 rfl hroom (by norm_num)
  obtain ⟨hproximal, hstationary⟩ := hunique p hshape
  exact ⟨hconsistent, rfl, p, hshape, hjunk, hproximal.mpr rfl, hstationary.mpr rfl⟩

end Functional

end

end OperatorSplitting
