import Mathlib
import OperatorSplitting.Linear.Operator
import OperatorSplitting.Proofs.Linear.Closure
import OperatorSplitting.Proofs.Linear.Convolution
import OperatorSplitting.Proofs.Linear.Diagonal
import OperatorSplitting.Proofs.Linear.Difference

/-!
# The adjoint of an operator expression

Every expression over linear primitive operators has the adjoint that its evaluation computes:
wherever both directions have values, the inner product moves from one side to the other.  The proof
follows the expression; transposes and adjoints exchange the two directions, which is why both are
carried through the induction.

Values may be missing only because an array along the way cannot be laid out.  Whether they are
missing is decided by the shapes, and they are not missing if the primitive operators are roomy.
-/

namespace OperatorSplitting

open ExactScalar Eval

variable {K : Type} [ExactScalar K]

/-! ### Primitive operators -/

namespace Leaf

/-- A closure is a linear map of its declared shapes; all other primitive operators are linear. -/
def IsLinear : Leaf K → Prop
  | .closure c => c.IsLinear
  | _ => True

/-- The declared shapes, the kernel of a convolution, and the matrix of a derived adjoint leave room
for everything that evaluation lays out. -/
def Roomy : Leaf K → Prop
  | .identity _ => True
  | .matrix m => Storable [m.rows] ∧ Storable [m.cols]
  | .diagonal d => d.output.Roomy
  | .difference d => d.input.Roomy ∧ d.output.Roomy
  | .convolution c => c.input.Roomy ∧ c.output.Roomy ∧ OperatorSplitting.Roomy c.kernel.dims
  | .closure c => c.input.Roomy ∧ c.output.Roomy ∧
      (c.adjointFn? = none → OperatorSplitting.Roomy [c.input.size, c.output.size])

/-- Evaluation in a direction when nothing has happened before. -/
def outcomeMap (l : Leaf K) (d : LinearOperator.Direction) : PartialMap K := fun x =>
  match d with
  | .forward => (l.forward x : Eval K ℝ _).outcome
  | .adjoint => (l.adjoint x : Eval K ℝ _).outcome

theorem outcomeMap_closure (c : Closure K) :
    (closure c).outcomeMap .forward = c.image ∧ (closure c).outcomeMap .adjoint = c.adjointImage :=
  ⟨funext c.outcome_forward, funext c.outcome_adjoint⟩

theorem adjointMaps {l : Leaf K} (h : l.IsLinear) :
    AdjointMaps (l.outcomeMap .forward) (l.outcomeMap .adjoint) l.input l.output := by
  cases l with
  | identity shape =>
    refine ⟨.ofTotal (fun hx hu => ?_) fun x _ => ⟨x, rfl⟩,
      .ofTotal (fun hy hv => ?_) fun y _ => ⟨y, rfl⟩, fun _ _ hu hv => ?_⟩
    · cases hu
      exact hx
    · cases hv
      exact hy
    · cases hu
      cases hv
      rfl
  | matrix m => exact m.adjointMaps
  | diagonal d => exact d.adjointMaps
  | difference d => exact d.adjointMaps
  | convolution c => exact c.adjointMaps
  | closure c =>
    rw [(outcomeMap_closure c).1, (outcomeMap_closure c).2]
    exact Closure.adjointMaps h

theorem totalOn {l : Leaf K} (h : l.IsLinear) (hroom : l.Roomy) :
    TotalOn (l.outcomeMap .forward) l.input ∧ TotalOn (l.outcomeMap .adjoint) l.output := by
  cases l with
  | identity shape => exact ⟨fun x _ => ⟨x, rfl⟩, fun y _ => ⟨y, rfl⟩⟩
  | matrix m =>
    exact ⟨DenseMatrix.forward_totalOn hroom.1, DenseMatrix.adjoint_totalOn hroom.2⟩
  | diagonal d =>
    exact ⟨Diagonal.forward_totalOn (Shape.Roomy.storable hroom), Diagonal.adjoint_totalOn hroom⟩
  | difference d =>
    exact ⟨FiniteDifference.forward_totalOn hroom.1 hroom.2,
      FiniteDifference.adjoint_totalOn hroom.1⟩
  | convolution c =>
    exact ⟨Convolution.forward_totalOn hroom.1 hroom.2.1 hroom.2.2,
      Convolution.adjoint_totalOn hroom.1 hroom.2.2⟩
  | closure c =>
    rw [(outcomeMap_closure c).1, (outcomeMap_closure c).2]
    exact ⟨Closure.image_totalOn h,
      Closure.adjointImage_totalOn h hroom.1 hroom.2.1 hroom.2.2⟩

end Leaf

/-! ### Expressions -/

namespace LinearOperator

/-- Evaluation in a direction when nothing has happened before. -/
def outcomeMap (a : LinearOperator K) (d : Direction) : PartialMap K := fun x =>
  (a.eval d x : Eval K ℝ _).outcome

section Parts

variable {names : Naming K} {a b : LinearOperator K}

theorem outcomeMap_leaf (l : Leaf K) (d : Direction) : (leaf l).outcomeMap d = l.outcomeMap d := by
  cases d <;> rfl

/-- Two expressions evaluated one after the other at the same signal. -/
theorem outcome_combined (ha : a.Named names) (hb : b.Named names) (d : Direction)
    (combine : Signal K → Signal K → Except Error (Signal K)) (x : Signal K) :
    (do
      let u ← a.eval d x
      let v ← b.eval d x
      combine u v : Eval K ℝ _).outcome =
      a.outcomeMap d x >>= fun u => b.outcomeMap d x >>= fun v => combine u v := by
  have hsteady (u : Signal K) : Steady names (do
      let v ← b.eval d x
      combine u v : Eval K ℝ _) := (steady_eval hb d x).bind fun v _ => .liftExcept _
  rw [(steady_eval ha d x).outcome_bind fun u _ => hsteady u]
  congr 1
  funext u
  rw [(steady_eval hb d x).outcome_bind fun v _ => .liftExcept _]
  rfl

theorem outcomeMap_sum (ha : a.Named names) (hb : b.Named names) (d : Direction) :
    (sum a b).outcomeMap d =
      fun x => a.outcomeMap d x >>= fun u => b.outcomeMap d x >>= fun v => u.add v :=
  funext fun x => outcome_combined ha hb d Signal.add x

theorem outcomeMap_difference (ha : a.Named names) (hb : b.Named names) (d : Direction) :
    (difference a b).outcomeMap d =
      fun x => a.outcomeMap d x >>= fun u => b.outcomeMap d x >>= fun v => u.sub v :=
  funext fun x => outcome_combined ha hb d Signal.sub x

theorem outcomeMap_composition (ha : a.Named names) (hb : b.Named names) :
    (composition a b).outcomeMap .forward =
        (fun x => b.outcomeMap .forward x >>= a.outcomeMap .forward) ∧
      (composition a b).outcomeMap .adjoint =
        fun y => a.outcomeMap .adjoint y >>= b.outcomeMap .adjoint := by
  constructor
  · funext x
    exact (steady_eval hb .forward x).outcome_bind fun u _ => steady_eval ha .forward u
  · funext y
    exact (steady_eval ha .adjoint y).outcome_bind fun u _ => steady_eval hb .adjoint u

theorem outcomeMap_multiple (ha : a.Named names) (s : K) :
    (multiple s a).outcomeMap .forward = (fun x => (a.outcomeMap .forward x).map (·.scaled s)) ∧
      (multiple s a).outcomeMap .adjoint =
        fun y => (a.outcomeMap .adjoint y).map (·.scaled (Scalar.conj s)) := by
  constructor
  · funext x
    exact (steady_eval ha .forward x).outcome_map _
  · funext y
    exact (steady_eval ha .adjoint y).outcome_map _

theorem outcomeMap_transpose (ha : a.Named names) (d : Direction) :
    (transpose a).outcomeMap d = fun x => (a.outcomeMap d.flip x.conj).map (·.conj) := by
  funext x
  exact (steady_eval ha d.flip x.conj).outcome_map _

theorem outcomeMap_conjTranspose (a : LinearOperator K) (d : Direction) :
    (conjTranspose a).outcomeMap d = a.outcomeMap d.flip := rfl

theorem outcomeMap_conjugate (ha : a.Named names) (d : Direction) :
    (conjugate a).outcomeMap d = fun x => (a.outcomeMap d x.conj).map (·.conj) := by
  funext x
  exact (steady_eval ha d x.conj).outcome_map _

theorem outcomeMap_negation (ha : a.Named names) (d : Direction) :
    (negation a).outcomeMap d = fun x => (a.outcomeMap d x).map (·.neg) := by
  funext x
  exact (steady_eval ha d x).outcome_map _

end Parts

variable {names : Naming K} {a : LinearOperator K}

/-- The two directions of an expression are adjoint maps. -/
theorem adjointMaps (hs : a.WellShaped) (hn : a.Named names) (hl : a.AllLeaves Leaf.IsLinear) :
    AdjointMaps (a.outcomeMap .forward) (a.outcomeMap .adjoint) a.input a.output := by
  induction a with
  | leaf l =>
    rw [outcomeMap_leaf, outcomeMap_leaf]
    exact Leaf.adjointMaps hl
  | sum a b iha ihb =>
    obtain ⟨hsa, hsb, hinput, houtput⟩ := hs
    have hb := ihb hsb hn.2 hl.2
    rw [← hinput, ← houtput] at hb
    rw [outcomeMap_sum hn.1 hn.2, outcomeMap_sum hn.1 hn.2]
    exact (iha hsa hn.1 hl.1).add hb
  | difference a b iha ihb =>
    obtain ⟨hsa, hsb, hinput, houtput⟩ := hs
    have hb := ihb hsb hn.2 hl.2
    rw [← hinput, ← houtput] at hb
    rw [outcomeMap_difference hn.1 hn.2, outcomeMap_difference hn.1 hn.2]
    exact (iha hsa hn.1 hl.1).sub hb
  | multiple s a ih =>
    have hn : a.Named names := hn
    rw [(outcomeMap_multiple hn s).1, (outcomeMap_multiple hn s).2]
    exact (ih hs hn hl).scaled s
  | composition outer inner iho ihi =>
    obtain ⟨hso, hsi, hmiddle⟩ := hs
    have ho := iho hso hn.1 hl.1
    rw [hmiddle] at ho
    rw [(outcomeMap_composition hn.1 hn.2).1, (outcomeMap_composition hn.1 hn.2).2]
    exact ho.comp (ihi hsi hn.2 hl.2)
  | transpose a ih =>
    have hn : a.Named names := hn
    rw [outcomeMap_transpose hn, outcomeMap_transpose hn]
    exact (ih hs hn hl).flip.conj
  | conjTranspose a ih =>
    rw [outcomeMap_conjTranspose, outcomeMap_conjTranspose]
    exact (ih hs hn hl).flip
  | conjugate a ih =>
    have hn : a.Named names := hn
    rw [outcomeMap_conjugate hn, outcomeMap_conjugate hn]
    exact (ih hs hn hl).conj
  | negation a ih =>
    have hn : a.Named names := hn
    rw [outcomeMap_negation hn, outcomeMap_negation hn]
    exact (ih hs hn hl).neg

/-- If the primitive operators are roomy, both directions have values. -/
theorem totalOn (hs : a.WellShaped) (hn : a.Named names) (hl : a.AllLeaves Leaf.IsLinear)
    (hr : a.AllLeaves Leaf.Roomy) :
    TotalOn (a.outcomeMap .forward) a.input ∧ TotalOn (a.outcomeMap .adjoint) a.output := by
  induction a with
  | leaf l =>
    rw [outcomeMap_leaf, outcomeMap_leaf]
    exact Leaf.totalOn hl hr
  | sum a b iha ihb =>
    have ha := adjointMaps hs.1 hn.1 hl.1
    have hb := adjointMaps hs.2.1 hn.2 hl.2
    obtain ⟨hsa, hsb, hinput, houtput⟩ := hs
    have htb := ihb hsb hn.2 hl.2 hr.2
    rw [← hinput, ← houtput] at hb htb
    obtain ⟨haf, haa⟩ := iha hsa hn.1 hl.1 hr.1
    rw [outcomeMap_sum hn.1 hn.2, outcomeMap_sum hn.1 hn.2]
    exact ⟨haf.zipMap _ _ htb.1 ha.forward hb.forward,
      haa.zipMap _ _ htb.2 ha.backward hb.backward⟩
  | difference a b iha ihb =>
    have ha := adjointMaps hs.1 hn.1 hl.1
    have hb := adjointMaps hs.2.1 hn.2 hl.2
    obtain ⟨hsa, hsb, hinput, houtput⟩ := hs
    have htb := ihb hsb hn.2 hl.2 hr.2
    rw [← hinput, ← houtput] at hb htb
    obtain ⟨haf, haa⟩ := iha hsa hn.1 hl.1 hr.1
    rw [outcomeMap_difference hn.1 hn.2, outcomeMap_difference hn.1 hn.2]
    exact ⟨haf.zipMap _ _ htb.1 ha.forward hb.forward,
      haa.zipMap _ _ htb.2 ha.backward hb.backward⟩
  | multiple s a ih =>
    have hn : a.Named names := hn
    obtain ⟨hf, ha⟩ := ih hs hn hl hr
    rw [(outcomeMap_multiple hn s).1, (outcomeMap_multiple hn s).2]
    exact ⟨hf.mapResult _, ha.mapResult _⟩
  | composition outer inner iho ihi =>
    have ho := adjointMaps hs.1 hn.1 hl.1
    have hi := adjointMaps hs.2.1 hn.2 hl.2
    obtain ⟨hso, hsi, hmiddle⟩ := hs
    obtain ⟨hof, hoa⟩ := iho hso hn.1 hl.1 hr.1
    obtain ⟨hif, hia⟩ := ihi hsi hn.2 hl.2 hr.2
    rw [hmiddle] at hof ho
    rw [(outcomeMap_composition hn.1 hn.2).1, (outcomeMap_composition hn.1 hn.2).2]
    exact ⟨hof.comp hif hi.forward, hia.comp hoa ho.backward⟩
  | transpose a ih =>
    have hn : a.Named names := hn
    obtain ⟨hf, ha⟩ := ih hs hn hl hr
    rw [outcomeMap_transpose hn, outcomeMap_transpose hn]
    exact ⟨ha.map _ _, hf.map _ _⟩
  | conjTranspose a ih =>
    rw [outcomeMap_conjTranspose, outcomeMap_conjTranspose]
    exact (ih hs hn hl hr).symm
  | conjugate a ih =>
    have hn : a.Named names := hn
    obtain ⟨hf, ha⟩ := ih hs hn hl hr
    rw [outcomeMap_conjugate hn, outcomeMap_conjugate hn]
    exact ⟨hf.map _ _, ha.map _ _⟩
  | negation a ih =>
    have hn : a.Named names := hn
    obtain ⟨hf, ha⟩ := ih hs hn hl hr
    rw [outcomeMap_negation hn, outcomeMap_negation hn]
    exact ⟨hf.mapResult _, ha.mapResult _⟩

/-! ### Apply and adjoint -/

/-- Between faithful traces the result of `apply` is the outcome of forward evaluation. -/
theorem apply_run_eq (hn : a.Named names) {x : Signal K} (hx : x.shape = a.input) {t : Trace K ℝ}
    (ht : t.Faithful names) : ((a.apply x).run t).1 = a.outcomeMap .forward x := by
  rw [((steady_apply hn x) t ht).1]
  unfold apply evalChecked
  rw [if_pos hx]
  rfl

theorem adjoint_run_eq (hn : a.Named names) {y : Signal K} (hy : y.shape = a.output)
    {t : Trace K ℝ} (ht : t.Faithful names) :
    ((a.adjoint y).run t).1 = a.outcomeMap .adjoint y := by
  rw [((steady_adjoint hn y) t ht).1]
  unfold adjoint
  rw [if_pos hy]
  rfl

/-- The inner product moves from one side to the other.  If the primitive operators are roomy, both
directions have values; and wherever both have values, whatever was evaluated before them,
`⟨y, A x⟩ = ⟨Aᴴ y, x⟩` without rounding. -/
theorem vdot_apply_eq_vdot_adjoint (hs : a.WellShaped) (hn : a.Named names)
    (hl : a.AllLeaves Leaf.IsLinear) {x y : Signal K} (hx : x.shape = a.input)
    (hy : y.shape = a.output) {t₁ t₂ : Trace K ℝ} (ht₁ : t₁.Faithful names)
    (ht₂ : t₂.Faithful names) :
    (a.AllLeaves Leaf.Roomy →
      (∃ u, ((a.apply x).run t₁).1 = .ok u) ∧ ∃ v, ((a.adjoint y).run t₂).1 = .ok v) ∧
    ∀ u v, ((a.apply x).run t₁).1 = .ok u → ((a.adjoint y).run t₂).1 = .ok v →
      ∃ d, y.vdot u = .ok d ∧ v.vdot x = .ok d := by
  rw [apply_run_eq hn hx ht₁, adjoint_run_eq hn hy ht₂]
  refine ⟨fun hr => ?_, fun u v hu hv => ?_⟩
  · obtain ⟨hforward, hadjoint⟩ := totalOn hs hn hl hr
    exact ⟨hforward x hx, hadjoint y hy⟩
  · have hmaps := adjointMaps hs hn hl
    obtain ⟨d, hd, hdval⟩ := Signal.vdot_eq_ok (hy.trans (hmaps.forward.shape_eq hx hu).symm)
    obtain ⟨d', hd', hdval'⟩ := Signal.vdot_eq_ok ((hmaps.backward.shape_eq hy hv).trans hx.symm)
    have hdd' : d = d' := by
      apply val_injective
      rw [hdval, hdval', hmaps.pairing_eq hx hy hu hv]
    exact ⟨d, hd, hdd' ▸ hd'⟩

/-- The closure operator of the identity, whose adjoint has to be derived. -/
def identityClosure : Closure ℝ := ⟨0, .vector 2, .vector 2, fun x => .ok x, none⟩

theorem isLinear_identityClosure : identityClosure.IsLinear where
  total hx := ⟨_, rfl, hx⟩
  map_add _ h := h.symm
  map_scaled _ _ := rfl
  adjoint_total h := by cases h
  vdot_adjoint h := by cases h

theorem vdot_apply_gram_identityClosure :
    ∃ u v d, (((gramOperator (.leaf (.closure identityClosure))).apply
        (Signal.ofArray #[1, 2])).run .empty).1 = .ok u ∧
      (((gramOperator (.leaf (.closure identityClosure))).adjoint
        (Signal.ofArray #[3, 4])).run .empty).1 = .ok v ∧
      (Signal.ofArray #[3, 4]).vdot u = .ok d ∧ v.vdot (Signal.ofArray #[1, 2]) = .ok d := by
  have hroomy : (gramOperator (.leaf (.closure identityClosure))).AllLeaves Leaf.Roomy := by
    have hleaf : (Leaf.closure identityClosure).Roomy :=
      ⟨by unfold Shape.Roomy; decide, by unfold Shape.Roomy; decide,
        fun _ => by unfold OperatorSplitting.Roomy; decide⟩
    exact ⟨hleaf, hleaf⟩
  have hnamed : (gramOperator (.leaf (.closure identityClosure))).Named
      fun _ => identityClosure := by
    have hleaf : (Leaf.closure identityClosure).Named fun _ => identityClosure := rfl
    exact ⟨hleaf, hleaf⟩
  have hempty : (Trace.empty : Trace ℝ ℝ).Faithful fun _ => identityClosure :=
    Trace.faithful_empty _
  have hshaped : (leaf (.closure identityClosure)).WellShaped := trivial
  obtain ⟨hvalues, hvdot⟩ := vdot_apply_eq_vdot_adjoint hshaped.gramOperator hnamed
    ⟨isLinear_identityClosure, isLinear_identityClosure⟩ (x := .ofArray #[1, 2])
    (y := .ofArray #[3, 4]) rfl rfl hempty hempty
  obtain ⟨⟨u, hu⟩, ⟨v, hv⟩⟩ := hvalues hroomy
  obtain ⟨d, hd, hd'⟩ := hvdot u v hu hv
  exact ⟨u, v, d, hu, hv, hd, hd'⟩

/-- An array without entries, but so long that the stretched array cannot be addressed. -/
def longEmpty (dims : List ℕ) (h : volume dims = 0) : Tensor ℝ := ⟨dims, #[], h.symm⟩

/-- A diagonal operator between arrays without entries. -/
def longDiagonal : Diagonal ℝ where
  factor := .flat (longEmpty [1, 2 ^ 32, 0] rfl)
  input := .flat [2 ^ 32, 1, 0]
  output := .flat [2 ^ 32, 2 ^ 32, 0]
  broadcast_eq := rfl

/-- Not every expression has values at all signals of its shapes: the result of a diagonal operator
may be too long to be addressed, even without entries. -/
theorem exists_apply_ne_ok :
    ∃ (a : LinearOperator ℝ) (x y : Signal ℝ), a.WellShaped ∧ (∀ names, a.Named names) ∧
      a.AllLeaves Leaf.IsLinear ∧ x.shape = a.input ∧ y.shape = a.output ∧
      ∀ u, ((a.apply x).run .empty).1 ≠ .ok u := by
  have hshaped : (leaf (.diagonal longDiagonal)).WellShaped := trivial
  have hnamed (names : Naming ℝ) : (leaf (.diagonal longDiagonal)).Named names := trivial
  refine ⟨gramOperator (.leaf (.diagonal longDiagonal)), .flat (longEmpty [2 ^ 32, 1, 0] rfl),
    .flat (longEmpty [2 ^ 32, 1, 0] rfl), hshaped.gramOperator,
    fun names => ⟨hnamed names, hnamed names⟩, ⟨trivial, trivial⟩, rfl, rfl, fun u hu => ?_⟩
  have hadjoint : (conjTranspose (leaf (.diagonal longDiagonal))).Named
      fun _ => identityClosure := trivial
  have hcomposition := (outcomeMap_composition hadjoint (hnamed fun _ => identityClosure)).1
  have hrun : ((gramOperator (.leaf (.diagonal longDiagonal))).outcomeMap .forward
      (.flat (longEmpty [2 ^ 32, 1, 0] rfl))) = .ok u := hu
  rw [gramOperator, hcomposition] at hrun
  obtain ⟨v, hv, -⟩ := Except.bind_eq_ok_iff.mp hrun
  obtain ⟨r, hr, -⟩ := Except.map_eq_ok_iff.mp
    (show (Diagonal.stretchedProduct (· * ·) (longEmpty [2 ^ 32, 1, 0] rfl)
      (longEmpty [1, 2 ^ 32, 0] rfl) [2 ^ 32, 2 ^ 32, 0]).map Signal.flat = .ok v from hv)
  exact absurd (Diagonal.stretchedProduct_eq_ok_iff.mp hr).1 (by decide)

end LinearOperator

end OperatorSplitting
