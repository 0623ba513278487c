import Mathlib
import OperatorSplitting.Linear.AdjointCheck
import OperatorSplitting.Proofs.Linear.NormalOperator

/-!
# The adjoint check decides adjointness

An operator and a candidate for its adjoint are compared on signals that are drawn from a stream of
numbers.  Any two signals are drawn from some stream (`exists_source`), so that a check which finds
no difference for any stream compares all pairings, and these determine the adjoint.  Conversely
the adjoint passes for all streams.  What the check returns is never negative and at most two, by
the triangle inequality.
-/

namespace OperatorSplitting

open Eval ExactScalar

noncomputable section

/-! ### Reading from a stream -/

section Readers

variable {α β : Type} {a : α} {b : β} {read : (ℕ → ℝ) → ℕ → α × ℕ} {read' : (ℕ → ℝ) → ℕ → β × ℕ}

/-- From every position on, all streams that agree with some stream up to some later position make
the reader read a value and stop there. -/
def Readable (read : (ℕ → ℝ) → ℕ → α × ℕ) (a : α) : Prop :=
  ∀ start : ℕ, ∃ (stop : ℕ) (window : ℕ → ℝ), start ≤ stop ∧ ∀ source : ℕ → ℝ,
    (∀ i, start ≤ i → i < stop → source i = window i) → read source start = (a, stop)

theorem readable_pure (a : α) : Readable (fun _ k => (a, k)) a :=
  fun start => ⟨start, fun _ => 0, le_rfl, fun _ _ => rfl⟩

/-- One value after the other: both streams are glued where the first value ends. -/
theorem Readable.pair (h : Readable read a) (h' : Readable read' b) :
    Readable (fun source k => (((read source k).1, (read' source (read source k).2).1),
      (read' source (read source k).2).2)) (a, b) := by
  intro start
  obtain ⟨middle, window, hle, hread⟩ := h start
  obtain ⟨stop, window', hle', hread'⟩ := h' middle
  refine ⟨stop, fun i => if i < middle then window i else window' i, hle.trans hle',
    fun source hsource => ?_⟩
  have hfirst : read source start = (a, middle) := hread source fun i hi hlt =>
    (hsource i hi (hlt.trans_le hle')).trans (if_pos hlt)
  have hsecond : read' source middle = (b, stop) := hread' source fun i hi hlt =>
    (hsource i (hle.trans hi) hlt).trans (if_neg (not_lt.mpr hi))
  simp only [hfirst, hsecond]

theorem Readable.map (h : Readable read a) (g : α → β) :
    Readable (fun source k => (g (read source k).1, (read source k).2)) (g a) := by
  intro start
  obtain ⟨stop, window, hle, hread⟩ := h start
  exact ⟨stop, window, hle, fun source hsource => by simp only [hread source hsource]⟩

end Readers

/-- Every element is drawn from some stream. -/
class DrawsAll (K : Type) [ExactScalar K] : Prop where
  readable (a : K) : Readable (fun source k => (Scalar.draw source k : K × ℕ)) a

instance : DrawsAll ℝ where
  readable a start := ⟨start + 1, fun _ => a, Nat.le_succ _, fun _ hsource =>
    Prod.ext (hsource start le_rfl (Nat.lt_succ_self _)) rfl⟩

instance : DrawsAll (ComplexOf ℝ) where
  readable a start := by
    refine ⟨start + 2, fun i => if i = start then a.re else a.im, Nat.le_add_right _ _,
      fun source hsource => ?_⟩
    have hre : source start = a.re := (hsource start le_rfl (by omega)).trans (if_pos rfl)
    have him : source (start + 1) = a.im :=
      (hsource (start + 1) (by omega) (by omega)).trans (if_neg (by omega))
    show ((⟨source start, source (start + 1)⟩ : ComplexOf ℝ), start + 2) = (a, start + 2)
    rw [hre, him]

variable {K : Type} [ExactScalar K]

/-- The signal that is drawn if memory can hold it. -/
def Signal.read (source : ℕ → ℝ) (s : Shape) (k : ℕ) : Signal K × ℕ :=
  match s with
  | .flat dims =>
    let r := Tensor.draw source dims k
    (.flat r.1, r.2)
  | .blocked blocks =>
    let r := Tensor.drawBlocks source blocks k
    (.blocked r.1, r.2)

theorem Signal.draw_eq_ok_iff {source : ℕ → ℝ} {s : Shape} {k : ℕ} {r : Signal K × ℕ} :
    Signal.draw source s k = .ok r ↔ s.Storable ∧ r = read source s k := by
  unfold draw
  by_cases hroom : s.Storable
  · rw [if_pos hroom]
    cases s with
    | flat dims => exact ⟨fun h => ⟨hroom, (Except.ok.inj h).symm⟩, fun h => congrArg _ h.2.symm⟩
    | blocked blocks =>
      exact ⟨fun h => ⟨hroom, (Except.ok.inj h).symm⟩, fun h => congrArg _ h.2.symm⟩
  · rw [if_neg hroom]
    exact ⟨nofun, fun h => absurd h.1 hroom⟩

theorem map_dims_drawBlocks (source : ℕ → ℝ) (blocks : List (List ℕ)) (k : ℕ) :
    (Tensor.drawBlocks (K := K) source blocks k).1.map (·.dims) = blocks := by
  induction blocks generalizing k with
  | nil => rfl
  | cons dims rest ih => exact congrArg (dims :: ·) (ih _)

theorem Signal.shape_read (source : ℕ → ℝ) (s : Shape) (k : ℕ) :
    (read source s k : Signal K × ℕ).1.shape = s := by
  cases s with
  | flat dims => rfl
  | blocked blocks => exact congrArg Shape.blocked (map_dims_drawBlocks source blocks k)

section Signals

variable [DrawsAll K]

theorem readable_drawEntries (values : List K) :
    Readable (fun source k => drawEntries (K := K) source values.length k) values := by
  induction values with
  | nil => exact readable_pure []
  | cons a values ih => exact ((DrawsAll.readable a).pair ih).map fun p => p.1 :: p.2

theorem readable_tensor (t : Tensor K) :
    Readable (fun source k => Tensor.draw (K := K) source t.dims k) t := by
  obtain ⟨dims, entries, hsize⟩ := t
  have hlength : entries.toList.length = volume dims := hsize
  intro start
  obtain ⟨stop, window, hle, hread⟩ := readable_drawEntries entries.toList start
  refine ⟨stop, window, hle, fun source hsource => ?_⟩
  have hentries := hread source hsource
  rw [hlength] at hentries
  simp only [Tensor.draw, hentries]

theorem readable_blocks (ts : List (Tensor K)) :
    Readable (fun source k => Tensor.drawBlocks (K := K) source (ts.map (·.dims)) k) ts := by
  induction ts with
  | nil => exact readable_pure []
  | cons t ts ih => exact ((readable_tensor t).pair ih).map fun p => p.1 :: p.2

theorem readable_signal (x : Signal K) :
    Readable (fun source k => Signal.read (K := K) source x.shape k) x := by
  cases x with
  | flat t => exact (readable_tensor t).map Signal.flat
  | blocked ts => exact (readable_blocks ts).map Signal.blocked

/-- Any two signals are drawn from some stream, one after the other. -/
theorem exists_source (x y : Signal K) : ∃ (source : ℕ → ℝ) (middle stop : ℕ),
    Signal.read source x.shape 0 = (x, middle) ∧
      Signal.read source y.shape middle = (y, stop) := by
  obtain ⟨stop, window, -, hread⟩ := (readable_signal x).pair (readable_signal y) 0
  have hboth := hread window fun i _ _ => rfl
  simp only [Prod.mk.injEq] at hboth
  obtain ⟨⟨hx, hy⟩, hstop⟩ := hboth
  exact ⟨window, _, stop, Prod.ext hx rfl, Prod.ext hy hstop⟩

end Signals

/-! ### The relative difference -/

/-- The distance of two numbers relative to the larger one; zero if both are zero. -/
def relativeError (p q : ℂ) : ℝ := ‖p - q‖ / max ‖p‖ ‖q‖

theorem relativeError_nonneg (p q : ℂ) : 0 ≤ relativeError p q :=
  div_nonneg (norm_nonneg _) (le_max_of_le_left (norm_nonneg _))

theorem relativeError_le_two (p q : ℂ) : relativeError p q ≤ 2 := by
  refine div_le_of_le_mul₀ (le_max_of_le_left (norm_nonneg _)) two_pos.le ?_
  calc ‖p - q‖ ≤ ‖p‖ + ‖q‖ := norm_sub_le p q
    _ ≤ max ‖p‖ ‖q‖ + max ‖p‖ ‖q‖ := add_le_add (le_max_left _ _) (le_max_right _ _)
    _ = 2 * max ‖p‖ ‖q‖ := (two_mul _).symm

theorem relativeError_eq_zero_iff {p q : ℂ} : relativeError p q = 0 ↔ p = q := by
  rw [relativeError, div_eq_zero_iff, norm_eq_zero, sub_eq_zero, or_iff_left_iff_imp]
  intro hmax
  have hp : ‖p‖ ≤ 0 := hmax ▸ le_max_left _ _
  have hq : ‖q‖ ≤ 0 := hmax ▸ le_max_right _ _
  rw [norm_le_zero_iff.mp hp, norm_le_zero_iff.mp hq]

namespace LinearOperator

variable {names : Naming K} {a candidate : LinearOperator K} {x y u w : Signal K}

/-- The relative difference as it is computed, with the case of two zeros apart. -/
def quotient (p q : K) : Eval K ℝ ℝ :=
  let scale : ℝ := Widening.widen (RealArithmetic.max (Scalar.modulus p) (Scalar.modulus q))
  if RealArithmetic.beq scale 0 then return 0
  else return Widening.widen (Scalar.modulus (p - q)) / scale

theorem outcome_quotient (p q : K) :
    (quotient p q).outcome = .ok (relativeError (val p) (val q)) := by
  have hscale : RealArithmetic.max (Scalar.modulus p) (Scalar.modulus q) =
      max ‖val p‖ ‖val q‖ := by
    rw [modulus_eq, modulus_eq]
    rfl
  have hdifference : (Scalar.modulus (p - q) : ℝ) = ‖val p - val q‖ := by
    rw [modulus_eq, val_sub]
  have hzero : RealArithmetic.beq (max ‖val p‖ ‖val q‖) 0 = true ↔ max ‖val p‖ ‖val q‖ = 0 :=
    decide_eq_true_iff
  unfold quotient
  rw [hscale, hdifference]
  show (if RealArithmetic.beq (max ‖val p‖ ‖val q‖) 0 = true then pure 0
    else pure (‖val p - val q‖ / max ‖val p‖ ‖val q‖) : Eval K ℝ ℝ).outcome = _
  by_cases h : max ‖val p‖ ‖val q‖ = 0
  · rw [if_pos (hzero.mpr h), relativeError, h, div_zero]
    rfl
  · rw [if_neg (mt hzero.mp h)]
    rfl

theorem steady_adjointErrorAt (ha : a.Named names) (hcandidate : candidate.Named names)
    (x y : Signal K) : Steady names (a.adjointErrorAt candidate x y : Eval K ℝ ℝ) :=
  (steady_apply ha x).bind fun _ _ => (Steady.liftExcept _).bind fun _ _ =>
    (steady_apply hcandidate y).bind fun _ _ => (Steady.liftExcept _).bind fun _ _ =>
      .ite (.pure _) (.pure _)

/-- What the check computes from two signals. -/
theorem outcome_adjointErrorAt_eq_ok_iff (ha : a.Named names) (hcandidate : candidate.Named names)
    {e : ℝ} : (a.adjointErrorAt candidate x y : Eval K ℝ ℝ).outcome = .ok e ↔
      ∃ u p w q, (a.apply x : Eval K ℝ _).outcome = .ok u ∧ y.vdot u = .ok p ∧
        (candidate.apply y : Eval K ℝ _).outcome = .ok w ∧ w.vdot x = .ok q ∧
          e = relativeError (val p) (val q) := by
  have hquotient (p q : K) : Steady names (quotient p q) := .ite (.pure _) (.pure _)
  have hright (p : K) : Steady names (do
      let ay ← candidate.apply y
      quotient p (← ay.vdot x) : Eval K ℝ ℝ) :=
    (steady_apply hcandidate y).bind fun _ _ => (Steady.liftExcept _).bind fun q _ => hquotient p q
  have hcheck : (a.adjointErrorAt candidate x y : Eval K ℝ ℝ) = (do
      let ax ← a.apply x
      let lhs ← y.vdot ax
      let ay ← candidate.apply y
      quotient lhs (← ay.vdot x)) := rfl
  rw [hcheck, (steady_apply ha x).outcome_bind_eq_ok_iff fun _ _ =>
    (Steady.liftExcept _).bind fun p _ => hright p]
  simp only [outcome_liftExcept_bind, Except.bind_eq_ok_iff,
    (steady_apply hcandidate y).outcome_bind_eq_ok_iff fun _ _ =>
      (Steady.liftExcept _).bind fun q _ => hquotient _ q, outcome_quotient, Except.ok.injEq]
  constructor
  · rintro ⟨u, hu, p, hp, w, hw, q, hq, rfl⟩
    exact ⟨u, p, w, q, hu, hp, hw, hq, rfl⟩
  · rintro ⟨u, p, w, q, hu, hp, hw, hq, rfl⟩
    exact ⟨u, hu, p, hp, w, hw, q, hq, rfl⟩

/-! ### The check -/

/-- The candidate goes from the output shape of the operator to its input shape. -/
structure Transposed (a candidate : LinearOperator K) : Prop where
  input : candidate.input = a.output
  output : candidate.output = a.input

/-- Memory holds the signals that are drawn, and the primitive operators are roomy. -/
structure HasRoom (a : LinearOperator K) : Prop where
  leaves : a.AllLeaves Leaf.Roomy
  input : a.input.Storable
  output : a.output.Storable

variable {source : ℕ → ℝ} {e : ℝ}

/-- The signals that the check draws. -/
def drawn (a : LinearOperator K) (source : ℕ → ℝ) : Signal K × Signal K :=
  let x := Signal.read source a.input 0
  (x.1, (Signal.read source a.output x.2).1)

theorem shape_drawn (a : LinearOperator K) (source : ℕ → ℝ) :
    (a.drawn source).1.shape = a.input ∧ (a.drawn source).2.shape = a.output :=
  ⟨Signal.shape_read _ _ _, Signal.shape_read _ _ _⟩

/-- The signals of all pairs of the right shapes are drawn from some streams. -/
theorem exists_drawn [DrawsAll K] (hx : x.shape = a.input) (hy : y.shape = a.output) :
    ∃ source, a.drawn source = (x, y) := by
  obtain ⟨source, middle, stop, hreadx, hready⟩ := exists_source x y
  refine ⟨source, ?_⟩
  rw [drawn, ← hx, ← hy, hreadx]
  dsimp only
  rw [hready]

/-- Between transposed shapes the check draws both signals and compares on them. -/
theorem adjointError_of_transposed (h : a.Transposed candidate) (source : ℕ → ℝ) :
    (a.adjointError candidate source : Eval K ℝ ℝ) = (do
      let x ← Signal.draw source a.input 0
      let y ← Signal.draw source a.output x.2
      a.adjointErrorAt candidate x.1 y.1) := by
  unfold adjointError
  rw [if_neg (not_not.mpr h.input), if_neg (not_not.mpr h.output)]

theorem steady_adjointError (ha : a.Named names) (hcandidate : candidate.Named names)
    (source : ℕ → ℝ) : Steady names (a.adjointError candidate source : Eval K ℝ ℝ) :=
  .ite (.throw _) (.ite (.throw _) ((Steady.liftExcept _).bind fun _ _ =>
    (Steady.liftExcept _).bind fun _ _ => steady_adjointErrorAt ha hcandidate _ _))

theorem outcome_adjointError_eq_ok_iff (h : a.Transposed candidate) :
    (a.adjointError candidate source : Eval K ℝ ℝ).outcome = .ok e ↔
      a.input.Storable ∧ a.output.Storable ∧
        (a.adjointErrorAt candidate (a.drawn source).1 (a.drawn source).2 : Eval K ℝ ℝ).outcome =
          .ok e := by
  rw [adjointError_of_transposed h, outcome_liftExcept_bind, Except.bind_eq_ok_iff]
  simp only [outcome_liftExcept_bind, Except.bind_eq_ok_iff, Signal.draw_eq_ok_iff]
  constructor
  · rintro ⟨x, ⟨hinput, rfl⟩, y, ⟨houtput, rfl⟩, he⟩
    exact ⟨hinput, houtput, he⟩
  · rintro ⟨hinput, houtput, he⟩
    exact ⟨_, ⟨hinput, rfl⟩, _, ⟨houtput, rfl⟩, he⟩

/-- What the check returns is in range. -/
theorem adjointError_mem_Icc (ha : a.Named names) (hcandidate : candidate.Named names)
    (h : a.Transposed candidate)
    (he : (a.adjointError candidate source : Eval K ℝ ℝ).outcome = .ok e) : 0 ≤ e ∧ e ≤ 2 := by
  obtain ⟨-, -, he⟩ := (outcome_adjointError_eq_ok_iff h).mp he
  obtain ⟨-, p, -, q, -, -, -, -, rfl⟩ := (outcome_adjointErrorAt_eq_ok_iff ha hcandidate).mp he
  exact ⟨relativeError_nonneg _ _, relativeError_le_two _ _⟩

section Linear

variable (ha : a.IsLinear names) (hcandidate : candidate.IsLinear names)
  (h : a.Transposed candidate)

include ha hcandidate h

/-- The comparison of two signals is one of two pairings. -/
theorem outcome_adjointErrorAt (hx : x.shape = a.input) (hy : y.shape = a.output)
    (hu : (a.apply x : Eval K ℝ _).outcome = .ok u)
    (hw : (candidate.apply y : Eval K ℝ _).outcome = .ok w) :
    (a.adjointErrorAt candidate x y : Eval K ℝ ℝ).outcome =
      .ok (relativeError (y.pairing u) (w.pairing x)) := by
  obtain ⟨p, hp, hpval⟩ := Signal.vdot_eq_ok (hy.trans (ha.shape_apply hu).2.symm)
  obtain ⟨q, hq, hqval⟩ :=
    Signal.vdot_eq_ok (((hcandidate.shape_apply hw).2.trans h.output).trans hx.symm)
  rw [← hpval, ← hqval]
  exact (outcome_adjointErrorAt_eq_ok_iff ha.named hcandidate.named).mpr
    ⟨u, p, w, q, hu, hp, hw, hq, rfl⟩

/-- The check has a result where there is room. -/
theorem exists_adjointError (hroom : a.HasRoom) (hroomy : candidate.AllLeaves Leaf.Roomy)
    (source : ℕ → ℝ) : ∃ e, (a.adjointError candidate source : Eval K ℝ ℝ).outcome = .ok e := by
  obtain ⟨hx, hy⟩ := a.shape_drawn source
  obtain ⟨u, -, hu, -⟩ := ha.exists_images hroom.leaves hx
  obtain ⟨w, -, hw, -⟩ := hcandidate.exists_images hroomy (hy.trans h.input.symm)
  exact ⟨_, (outcome_adjointError_eq_ok_iff h).mpr ⟨hroom.input, hroom.output,
    outcome_adjointErrorAt ha hcandidate h hx hy hu hw⟩⟩

/-- The check finds no difference for any stream if the candidate is the adjoint, and only then. -/
theorem adjointError_eq_zero_iff [DrawsAll K] (hroom : a.HasRoom)
    (hroomy : candidate.AllLeaves Leaf.Roomy) :
    (∀ source, (a.adjointError candidate source : Eval K ℝ ℝ).outcome = .ok 0) ↔
      ∀ y : Signal K, y.shape = a.output →
        (candidate.apply y : Eval K ℝ _).outcome = (a.adjoint y : Eval K ℝ _).outcome := by
  obtain ⟨hforward, hbackward⟩ := totalOn ha.wellShaped ha.named ha.leaves hroom.leaves
  constructor
  · intro hzero y hy
    obtain ⟨v, hv⟩ := hbackward y hy
    obtain ⟨w, -, hw, -⟩ := hcandidate.exists_images hroomy (hy.trans h.input.symm)
    have hwshape := (hcandidate.shape_apply hw).2.trans h.output
    have hvw : v = w := by
      refine ha.adjointMaps.eq_of_pairing hy hv hwshape fun x hx => ?_
      obtain ⟨u, hu⟩ := hforward x hx
      refine ⟨u, hu, relativeError_eq_zero_iff.mp ?_⟩
      obtain ⟨source, hsource⟩ := exists_drawn hx hy
      obtain ⟨-, -, he⟩ := (outcome_adjointError_eq_ok_iff h).mp (hzero source)
      rw [hsource, outcome_adjointErrorAt ha hcandidate h hx hy
        (outcome_apply_eq_ok_iff.mpr ⟨hx, hu⟩) hw] at he
      exact Except.ok.inj he
    rw [hw, ← hvw]
    exact (outcome_adjoint_eq_ok_iff.mpr ⟨hy, hv⟩).symm
  · intro hagree source
    obtain ⟨hx, hy⟩ := a.shape_drawn source
    obtain ⟨u, hu⟩ := hforward _ hx
    obtain ⟨v, hv⟩ := hbackward _ hy
    have hw := (hagree _ hy).trans (outcome_adjoint_eq_ok_iff.mpr ⟨hy, hv⟩)
    have he := outcome_adjointErrorAt ha hcandidate h hx hy
      (outcome_apply_eq_ok_iff.mpr ⟨hx, hu⟩) hw
    rw [relativeError_eq_zero_iff.mpr (ha.adjointMaps.pairing_eq hx hy hu hv)] at he
    exact (outcome_adjointError_eq_ok_iff h).mpr ⟨hroom.input, hroom.output, he⟩

end Linear

/-! ### The adjoint itself -/

omit [ExactScalar K] in
theorem transposed_conjTranspose (a : LinearOperator K) : a.Transposed (.conjTranspose a) :=
  ⟨rfl, rfl⟩

theorem IsLinear.conjTranspose (ha : a.IsLinear names) : (conjTranspose a).IsLinear names :=
  ⟨ha.wellShaped, ha.named, ha.leaves⟩

theorem outcome_apply_conjTranspose (hy : y.shape = a.output) :
    ((conjTranspose a).apply y : Eval K ℝ _).outcome = (a.adjoint y : Eval K ℝ _).outcome := by
  have hinput : y.shape = (conjTranspose a).input := hy
  unfold apply evalChecked adjoint
  rw [if_pos hy, if_pos hinput]
  rfl

/-- The adjoint passes the check. -/
theorem outcome_isValidAdjoint_conjTranspose [DrawsAll K] (ha : a.IsLinear names)
    (hroom : a.HasRoom) {rtol : ℝ} (hrtol : 0 ≤ rtol) (source : ℕ → ℝ) :
    (a.isValidAdjoint (.conjTranspose a) rtol source : Eval K ℝ Bool).outcome = .ok true := by
  have hzero : (a.adjointError (.conjTranspose a) source : Eval K ℝ ℝ).outcome = .ok 0 :=
    (adjointError_eq_zero_iff ha ha.conjTranspose a.transposed_conjTranspose hroom
      hroom.leaves).mpr (fun _ => outcome_apply_conjTranspose) source
  unfold isValidAdjoint
  rw [(steady_adjointError ha.named ha.conjTranspose.named source).outcome_bind fun _ _ => .pure _,
    hzero]
  exact congrArg Except.ok (decide_eq_true hrtol)

/-- **The adjoint check decides adjointness.**  Between transposed shapes every result of the check
is from zero to two.  Where there is room the check always has a result, and it finds no difference
for all streams exactly if the candidate sends all signals to what the adjoint sends them to; the
adjoint itself passes with every tolerance and for every stream.  If the shapes are not transposed,
the first mismatch is the error, whatever the stream is, and nothing is evaluated. -/
theorem adjointError_decides [DrawsAll K] (ha : a.IsLinear names)
    (hcandidate : candidate.IsLinear names) :
    (a.Transposed candidate →
      (∀ source (t : Trace K ℝ), t.Faithful names → ∀ e,
        ((a.adjointError candidate source).run t).1 = .ok e → 0 ≤ e ∧ e ≤ 2) ∧
      (a.HasRoom → candidate.AllLeaves Leaf.Roomy →
        (∀ source (t : Trace K ℝ), t.Faithful names →
          ∃ e, ((a.adjointError candidate source).run t).1 = .ok e) ∧
        ((∀ source (t : Trace K ℝ), t.Faithful names →
            ((a.adjointError candidate source).run t).1 = .ok 0) ↔
          ∀ y (t : Trace K ℝ), y.shape = a.output → t.Faithful names →
            ((candidate.apply y).run t).1 = ((a.adjoint y).run t).1))) ∧
    (a.HasRoom → ∀ rtol source (t : Trace K ℝ), 0 ≤ rtol → t.Faithful names →
      ((a.isValidAdjoint (.conjTranspose a) rtol source).run t).1 = .ok true) ∧
    ∀ source (t : Trace K ℝ),
      (candidate.input ≠ a.output → (a.adjointError candidate source).run t =
        (.error (.shapeMismatch "adjoint check" a.output candidate.input), t)) ∧
      (candidate.input = a.output → candidate.output ≠ a.input →
        (a.adjointError candidate source).run t =
          (.error (.shapeMismatch "adjoint check" a.input candidate.output), t)) := by
  have hrun (source : ℕ → ℝ) {t : Trace K ℝ} (ht : t.Faithful names) :
      ((a.adjointError candidate source).run t).1 =
        (a.adjointError candidate source : Eval K ℝ ℝ).outcome :=
    (steady_adjointError ha.named hcandidate.named source t ht).1
  have hempty : (Trace.empty : Trace K ℝ).Faithful names := Trace.faithful_empty names
  refine ⟨fun h => ⟨fun source t ht e he => ?_, fun hroom hroomy => ⟨fun source t ht => ?_, ?_⟩⟩,
    fun hroom rtol source t hrtol ht => ?_,
    fun source t => ⟨fun hinput => ?_, fun hinput houtput => ?_⟩⟩
  · exact adjointError_mem_Icc ha.named hcandidate.named h ((hrun source ht).symm.trans he)
  · obtain ⟨e, he⟩ := exists_adjointError ha hcandidate h hroom hroomy source
    exact ⟨e, (hrun source ht).trans he⟩
  · have hiff := adjointError_eq_zero_iff ha hcandidate h hroom hroomy
    constructor
    · intro hzero y t hy ht
      rw [(steady_apply hcandidate.named y t ht).1, (steady_adjoint ha.named y t ht).1]
      exact hiff.mp (fun source => hzero source .empty hempty) y hy
    · intro hagree source t ht
      exact (hrun source ht).trans (hiff.mpr (fun y hy => hagree y .empty hy hempty) source)
  · have hsteady : Steady names (a.isValidAdjoint (.conjTranspose a) rtol source : Eval K ℝ Bool) :=
      (steady_adjointError ha.named ha.conjTranspose.named source).map _
    exact (hsteady t ht).1.trans (outcome_isValidAdjoint_conjTranspose ha hroom hrtol source)
  · unfold adjointError
    rw [if_pos hinput]
    rfl
  · unfold adjointError
    rw [if_neg (not_not.mpr hinput), if_pos houtput]
    rfl

theorem adjointError_decides_identity :
    (∀ source, (((leaf (.closure identityClosure)).isValidAdjoint
      (.conjTranspose (leaf (.closure identityClosure))) 0 source).run .empty).1 = .ok true) ∧
    ¬∀ source (t : Trace ℝ ℝ), t.Faithful anyNaming → (((leaf (.identity (.vector 1))).adjointError
      (.negation (leaf (.identity (.vector 1)))) source).run t).1 = .ok 0 := by
  refine ⟨fun source => ?_, fun hzero => ?_⟩
  · have hlinear : (leaf (.closure identityClosure)).IsLinear fun _ => identityClosure :=
      ⟨trivial, rfl, isLinear_identityClosure⟩
    have hroom : (leaf (.closure identityClosure)).HasRoom := {
      leaves := ⟨by unfold Shape.Roomy; decide, by unfold Shape.Roomy; decide,
        fun _ => by unfold OperatorSplitting.Roomy; decide⟩
      input := (by decide : (Shape.vector 2).Storable)
      output := (by decide : (Shape.vector 2).Storable) }
    obtain ⟨-, hvalid, -⟩ := adjointError_decides hlinear hlinear
    exact hvalid hroom 0 source .empty le_rfl (Trace.faithful_empty _)
  · -- The negative sends the number one to minus one, which the check finds for some stream.
    have hidentity := (IsPlain.identity (K := ℝ) (.vector 1)).isLinear
    have hroom : (leaf (.identity (.vector 1)) : LinearOperator ℝ).HasRoom :=
      ⟨trivial, (by decide : (Shape.vector 1).Storable), (by decide : (Shape.vector 1).Storable)⟩
    obtain ⟨hcheck, -⟩ := adjointError_decides hidentity
      (⟨hidentity.wellShaped, hidentity.named, hidentity.leaves⟩ :
        (negation (leaf (.identity (.vector 1)))).IsLinear anyNaming)
    obtain ⟨-, hroomCheck⟩ := hcheck ⟨rfl, rfl⟩
    obtain ⟨-, hiff⟩ := hroomCheck hroom trivial
    have hsame : (Signal.single 1).neg = Signal.single 1 :=
      Except.ok.inj (hiff.mp hzero (.single 1) .empty rfl (Trace.faithful_empty _))
    rw [Signal.neg, Signal.map_single] at hsame
    have hone := Signal.single_injective hsame
    norm_num at hone

/-- The shape of arrays without elements, which are too long to be laid out. -/
def vastShape : Shape := .flat [2 ^ 63 - 1, 2, 0]

theorem adjointError_identity_vastShape :
    ((leaf (.identity vastShape) : LinearOperator ℝ).IsLinear anyNaming ∧
      (leaf (.identity vastShape) : LinearOperator ℝ).Transposed
        (.conjTranspose (leaf (.identity vastShape)))) ∧
    ∀ source : ℕ → ℝ, ((leaf (.identity vastShape) : LinearOperator ℝ).adjointError
      (.conjTranspose (leaf (.identity vastShape))) source).run (.empty : Trace ℝ ℝ) =
        (.error .misuse, .empty) := by
  refine ⟨⟨(IsPlain.identity vastShape).isLinear, transposed_conjTranspose _⟩, fun source => ?_⟩
  have hroom : ¬vastShape.Storable := by decide
  have hdraw : (Signal.draw source (leaf (.identity vastShape) : LinearOperator ℝ).input 0 :
      Except Error (Signal ℝ × ℕ)) = .error .misuse := if_neg hroom
  rw [adjointError_of_transposed (transposed_conjTranspose _), hdraw]
  rfl

end LinearOperator

end

end OperatorSplitting
