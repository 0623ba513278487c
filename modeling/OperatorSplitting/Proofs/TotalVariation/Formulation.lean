import Mathlib
import OperatorSplitting.Admm.Solver
import OperatorSplitting.Proofs.Functional.Norms
import OperatorSplitting.Proofs.Functional.Optimality
import OperatorSplitting.Proofs.Linear.Difference
import OperatorSplitting.Proofs.Linear.Matrix
import OperatorSplitting.Proofs.TotalVariation.Vectors

/-!
# Two formulations of total variation

The reference solver has the differences of neighbours as a matrix, and adds up its objective itself.
The splitting is given the same problem as a squared loss and a weighted sum of moduli, with a finite
difference between them that subtracts slices of an array.

Entry by entry the slices give the product with the matrix (`forward_neighbours`).  The two adjoints
need no entries: an operator that has results everywhere has only one adjoint, and the transposed
matrix is one.  With the same differences the objectives are the same sums.

The slices only need room for the samples, so that the finite difference and the objective have more
lengths than the matrix.
-/

namespace OperatorSplitting

/-! ### Vectors as signals -/

theorem Signal.shape_ofArray {α : Type} {a : Array α} {n : ℕ} (h : a.size = n) :
    (Signal.ofArray a).shape = .vector n := congrArg (fun k => Shape.flat [k]) h

theorem Signal.eq_ofArray {α : Type} {x : Signal α} {n : ℕ} (h : x.shape = .vector n) :
    x = .ofArray x.entries := by
  have hsize : x.size = n := (DenseMatrix.vectorOf_eq_ok h "").2
  exact Signal.ext_entries (h.trans (Signal.shape_ofArray hsize).symm) rfl

theorem Signal.sub_ofArray {α : Type} [Sub α] {x y : Array α} (h : x.size = y.size) :
    (Signal.ofArray x).sub (.ofArray y) = .ok (.ofArray (Array.zipWith (· - ·) x y)) := by
  obtain ⟨d, hd, hshape, hentries⟩ : ∃ d, (Signal.ofArray x).sub (.ofArray y) = .ok d ∧
      d.shape = (Signal.ofArray x).shape ∧ d.entries = Array.zipWith (· - ·) x y :=
    Signal.zipMap_eq_ok (Signal.shape_ofArray h)
  rw [hd, Signal.eq_ofArray hshape, hentries]

namespace TotalVariation

noncomputable section

variable {n : ℕ} {x y w : Array ℝ} {lambda : ℝ}

/-! ### The differences of neighbours -/

theorem onlyAxis_ne_nil : ([0] : List ℕ) ≠ [] := List.cons_ne_nil _ _

theorem axesFault?_onlyAxis (hn : 2 ≤ n) : axesFault? [n] [] [0] = none := by
  simp [axesFault?]
  omega

/-- The finite difference along the only axis, without anything at its end. -/
def neighbours (n : ℕ) (hn : 2 ≤ n) : FiniteDifference where
  dims := [n]
  axes := [0]
  boundary := .truncate
  axes_ne_nil := onlyAxis_ne_nil
  axes_fit := axesFault?_onlyAxis hn

theorem ofAxes_neighbours (hn : 2 ≤ n) :
    FiniteDifference.ofAxes [n] none .truncate = .ok (neighbours n hn) := by
  have haxes : (none : Option (List ℕ)).getD (List.range [n].length) = [0] := rfl
  unfold FiniteDifference.ofAxes
  simp only [haxes]
  rw [dif_neg onlyAxis_ne_nil]
  split
  · next h => simp [axesFault?_onlyAxis hn] at h
  · rfl

theorem neighbours_fits (hn : 2 ≤ n) : (neighbours n hn).Fits 0 := ⟨Nat.zero_lt_one, hn⟩

/-- Subtracting the slices gives the product with the matrix. -/
theorem forward_neighbours (hn : 2 ≤ n) (hroom : Storable [n]) (hx : x.size = n) :
    (neighbours n hn).forward (.ofArray x) = .ok (.ofArray ((differenceMatrix n).mulVec x)) := by
  have hsize : ((differenceMatrix n).mulVec x).size = n - 1 := size_mulVec _ _
  have hcut : cutPlace? n (n - 1) = some (n - 1) :=
    cutPlace?_of_le ((Nat.sub_le n 1).trans_lt (hroom.1.getD_lt Nat.zero_lt_one)) (Nat.sub_le n 1)
  have hentry : ∀ i < ((differenceMatrix n).mulVec x).size,
      (neighbours n hn).differenceEntry (.ofArray x) 0 [i] =
        ((differenceMatrix n).mulVec x).getD i 0 := by
    intro i hi
    have hi' : i < n - 1 := hsize ▸ hi
    have hproduct := congrArg (· ⟨i, hi'⟩) (toVector_mulVec (differenceMatrix n) x)
    have hmatrix : ((differenceMatrix n).mulVec x).getD i 0 = x.getD (i + 1) 0 - x.getD i 0 :=
      hproduct.trans (differences_apply (toVector n x) ⟨i, hi'⟩)
    rw [hmatrix, ← Tensor.entry_ofArray x (i + 1), ← Tensor.entry_ofArray x i]
    exact if_pos hi'
  have halong : (neighbours n hn).differenceAlong (.ofArray x) 0 =
      .ok (.ofArray ((differenceMatrix n).mulVec x)) := by
    rw [FiniteDifference.differenceAlong_eq_ok_iff (congrArg ([·]) hx) (neighbours_fits hn)]
    refine ⟨hcut, fun h => absurd rfl h, ?_⟩
    rw [← Tensor.ofFn_eq_ofArray hentry, hsize]
    rfl
  show (neighbours n hn).forward (.flat (.ofArray x)) = _
  rw [FiniteDifference.forward_single rfl, halong]
  rfl

/-- The adjoint is the product with the transposed matrix. -/
theorem adjoint_neighbours (hn : 2 ≤ n) (hroom : Storable [n]) (hw : w.size = n - 1) :
    (neighbours n hn).adjoint (.ofArray w) =
      .ok (.ofArray ((transposed (differenceMatrix n)).mulVec w)) := by
  have hshape : (Signal.ofArray w).shape = .vector (n - 1) := Signal.shape_ofArray hw
  obtain ⟨v, hv, -⟩ : ∃ v, (neighbours n hn).adjoint (.ofArray w) = .ok v ∧ v.shape = .vector n :=
    FiniteDifference.adjoint_spec hroom hshape
  have hproduct : (Signal.ofArray ((transposed (differenceMatrix n)).mulVec w)).shape = .vector n :=
    Signal.shape_ofArray (size_mulVec (transposed (differenceMatrix n)) w)
  rw [hv, (neighbours n hn).adjointMaps.eq_of_pairing hshape hv hproduct fun x hx => ?_]
  refine ⟨_, ?_, (differenceMatrix n).pairing_mulVec x hshape⟩
  obtain ⟨-, hsize⟩ := DenseMatrix.vectorOf_eq_ok hx ""
  rw [← forward_neighbours hn hroom hsize, ← Signal.eq_ofArray hx]

theorem run_apply_neighbours (hn : 2 ≤ n) (hroom : Storable [n]) (hx : x.size = n)
    (t : Trace ℝ ℝ) :
    ((LinearOperator.leaf (.difference (neighbours n hn))).apply (.ofArray x)).run t =
      (.ok (.ofArray ((differenceMatrix n).mulVec x)), t) := by
  have hshape : (Signal.ofArray x).shape =
      (LinearOperator.leaf (K := ℝ) (.difference (neighbours n hn))).input := Signal.shape_ofArray hx
  rw [LinearOperator.apply, LinearOperator.evalChecked, if_pos hshape]
  show (liftM ((neighbours n hn).forward (.ofArray x)) : Eval ℝ ℝ _).run t = _
  rw [forward_neighbours hn hroom hx]
  rfl

theorem run_adjoint_neighbours (hn : 2 ≤ n) (hroom : Storable [n]) (hw : w.size = n - 1)
    (t : Trace ℝ ℝ) :
    ((LinearOperator.leaf (.difference (neighbours n hn))).adjoint (.ofArray w)).run t =
      (.ok (.ofArray ((transposed (differenceMatrix n)).mulVec w)), t) := by
  have hshape : (Signal.ofArray w).shape =
      (LinearOperator.leaf (K := ℝ) (.difference (neighbours n hn))).output := Signal.shape_ofArray hw
  rw [LinearOperator.adjoint, if_pos hshape]
  show (liftM ((neighbours n hn).adjoint (.ofArray w)) : Eval ℝ ℝ _).run t = _
  rw [adjoint_neighbours hn hroom hw]
  rfl

/-! ### The objectives -/

/-- The value `f x + g (c x)`. -/
def splitValue (f g : Functional ℝ ℝ ℝ) (c : LinearOperator ℝ) (x : Signal ℝ) : Eval ℝ ℝ ℝ := do
  let a ← f.value x
  let u ← c.apply x
  let b ← g.value u
  return a + b

/-- The squared loss of the samples. -/
def sampleLoss (y : Array ℝ) : SquaredLoss ℝ ℝ where
  observation := .ofArray y
  operator := .leaf (.identity (.vector y.size))
  scale := RealArithmetic.half
  diagonal? := some (.replicate (.vector y.size) 1)

theorem ofObservation_samples (hroom : Storable [y.size]) :
    SquaredLoss.ofObservation (.ofArray y) (.leaf (.identity (.vector y.size))) =
      .ok (sampleLoss y) := by
  have hones : Signal.filled (.vector y.size) (1 : ℝ) = .ok (.replicate (.vector y.size) 1) :=
    if_pos hroom
  have hfactors : (LinearOperator.leaf (.identity (.vector y.size))).diagonalEntries? =
      .ok (some (.replicate (.vector y.size) (1 : ℝ))) := congrArg (Except.map some) hones
  have hshape : (Signal.ofArray y).shape =
      (LinearOperator.leaf (K := ℝ) (.identity (.vector y.size))).output := rfl
  rw [SquaredLoss.ofObservation, if_pos hshape, hfactors]
  rfl

theorem fidelity_eq_normSqr (h : x.size = y.size) :
    fidelity y x = normSqr (Array.zipWith (· - ·) x y) := by
  have hsize : (Array.zipWith (· - ·) x y).size = y.size := by rw [Array.size_zipWith, h, min_self]
  rw [fidelity_eq rfl h, normSqr_eq hsize]
  congr 2
  ext i
  exact (toVector_zipWith (f := fun a b => a - b) h rfl i).symm

theorem run_value_sampleLoss (h : x.size = y.size) (t : Trace ℝ ℝ) :
    ((Functional.loss (sampleLoss y)).value (.ofArray x)).run t =
      (.ok (RealArithmetic.half * fidelity y x), t) := by
  have hshape : (Signal.ofArray x).shape = (sampleLoss y).operator.input := Signal.shape_ofArray h
  have hresidual : (sampleLoss y).residual (.ofArray x) =
      (liftM ((Signal.ofArray x).sub (.ofArray y)) : Eval ℝ ℝ _) := by
    rw [SquaredLoss.residual, LinearOperator.apply, LinearOperator.evalChecked, if_pos hshape]
    rfl
  rw [Functional.value, SquaredLoss.value, hresidual, Signal.sub_ofArray h, fidelity_eq_normSqr h]
  rfl

/-- The moduli of the differences add up to the variation. -/
theorem l1_value_differences (x : Array ℝ) :
    L1.value (.ofArray ((differenceMatrix x.size).mulVec x) : Signal ℝ) = variation x := by
  have hsize : (Signal.ofArray ((differenceMatrix x.size).mulVec x)).size = x.size - 1 :=
    size_mulVec _ _
  rw [L1.value_eq, variation_eq rfl, hsize, Finset.sum_range]
  refine Finset.sum_congr rfl fun i _ => ?_
  have hproduct := congrArg (· i) (toVector_mulVec (differenceMatrix x.size) x)
  rw [DenseMatrix.coord_ofArray]
  exact (Complex.norm_real _).trans (congrArg abs hproduct)

theorem value_differences (lambda : ℝ) (hx : x.size = n) :
    (Functional.multiple lambda .l1 : Functional ℝ ℝ ℝ).value
      (.ofArray ((differenceMatrix n).mulVec x)) = pure (lambda * variation x) := by
  rw [← l1_value_differences, hx]
  rfl

/-- With one weighted penalty on the differences, a step reports the objective of the reference. -/
theorem run_objective_neighbours {u : Solver.TermUpdate ℝ ℝ ℝ} (h : x.size = y.size)
    (hpenalty : u.before.penalty = .multiple lambda .l1)
    (himage : u.image = .ofArray ((differenceMatrix y.size).mulVec x)) (t : Trace ℝ ℝ) :
    (Solver.objective (.loss (sampleLoss y)) (.ofArray x) [u]).run t =
      (.ok (some (objective y x lambda)), t) := by
  have heval : ((Functional.loss (sampleLoss y) : Functional ℝ ℝ ℝ).hasEval &&
      [u].all fun t => t.before.penalty.hasEval) = true := by
    simp [hpenalty, Functional.hasEval]
  rw [Solver.objective, if_pos heval, Eval.run_bind, run_value_sampleLoss h]
  show ((Solver.addValues [u] _ >>= _ : Eval ℝ ℝ (Option ℝ)).run t) = _
  rw [Solver.addValues, hpenalty, himage, value_differences lambda h]
  rfl

/-- **One problem, two formulations.**  For any number of samples from two on that memory can hold, the
finite difference exists.  Where memory also holds the matrix of the differences, the finite difference
and its adjoint multiply by it and by its transpose.  The squared loss of the samples plus the weighted
sum of the moduli of the differences is the objective of the reference, and a step with this one
penalty reports it. -/
theorem formulations_agree (hn : 2 ≤ n) (hroom : Storable [n]) :
    ∃ op, FiniteDifference.ofAxes [n] none .truncate = .ok op ∧
      (Storable [n - 1, n] → ∃ d, differenceMatrix? n = some d ∧
        (∀ x : Array ℝ, x.size = n → ∀ t : Trace ℝ ℝ,
          ((LinearOperator.leaf (.difference op)).apply (.ofArray x)).run t =
            (.ok (.ofArray (d.mulVec x)), t)) ∧
        ∀ w : Array ℝ, w.size = n - 1 → ∀ t : Trace ℝ ℝ,
          ((LinearOperator.leaf (.difference op)).adjoint (.ofArray w)).run t =
            (.ok (.ofArray ((transposed d).mulVec w)), t)) ∧
      ∀ (y x : Array ℝ) (lambda : ℝ), y.size = n → x.size = n → 0 < lambda →
        ∃ l g, SquaredLoss.ofObservation (.ofArray y) (.leaf (.identity (.vector n))) = .ok l ∧
          Functional.scaled lambda .l1 = .ok g ∧
          (∀ t : Trace ℝ ℝ,
            (splitValue (.loss l) g (.leaf (.difference op)) (.ofArray x)).run t =
              (.ok (objective y x lambda), t)) ∧
          ∀ (u : Solver.TermUpdate ℝ ℝ ℝ) (t : Trace ℝ ℝ), u.before.penalty = g →
            ((LinearOperator.leaf (.difference op)).apply (.ofArray x)).run t = (.ok u.image, t) →
            (Solver.objective (.loss l) (.ofArray x) [u]).run t =
              (.ok (some (objective y x lambda)), t) := by
  refine ⟨neighbours n hn, ofAxes_neighbours hn, fun hmatrix => ⟨differenceMatrix n,
    differenceMatrix?_eq_some_iff.mpr ⟨hmatrix, rfl⟩, fun x hx => run_apply_neighbours hn hroom hx,
    fun w hw => run_adjoint_neighbours hn hroom hw⟩, ?_⟩
  rintro y x lambda rfl hx hlambda
  refine ⟨sampleLoss y, .multiple lambda .l1, ofObservation_samples hroom,
    Functional.scaled_eq_ok_iff.mpr ⟨hlambda, rfl⟩, fun t => ?_, fun u t hpenalty himage => ?_⟩
  · rw [splitValue, Eval.run_bind, run_value_sampleLoss hx]
    show ((LinearOperator.apply _ _ >>= _ : Eval ℝ ℝ ℝ).run t) = _
    rw [Eval.run_bind, run_apply_neighbours hn hroom hx]
    show ((Functional.value _ _ >>= _ : Eval ℝ ℝ ℝ).run t) = _
    rw [value_differences lambda hx]
    rfl
  · rw [run_apply_neighbours hn hroom hx] at himage
    exact run_objective_neighbours hx hpenalty
      (Except.ok.inj (congrArg Prod.fst himage)).symm t

theorem formulations_agree_three :
    2 ≤ 3 ∧ Storable [3] ∧ Storable [3 - 1, 3] ∧
    ∃ op, FiniteDifference.ofAxes [3] none .truncate = .ok op ∧
      ((LinearOperator.leaf (.difference op)).apply (.ofArray #[(1 : ℝ), 4, 2])).run .empty =
        (.ok (.ofArray #[3, -2]), (.empty : Trace ℝ ℝ)) ∧
      ((LinearOperator.leaf (.difference op)).adjoint (.ofArray #[(5 : ℝ), 7])).run .empty =
        (.ok (.ofArray #[-5, -2, 7]), (.empty : Trace ℝ ℝ)) ∧
      ∃ l g, SquaredLoss.ofObservation (.ofArray #[(1 : ℝ), 2, 2])
          (.leaf (.identity (.vector 3))) = .ok l ∧
        Functional.scaled 3 .l1 = .ok g ∧
        (splitValue (.loss l) g (.leaf (.difference op)) (.ofArray #[1, 4, 2])).run .empty =
          (.ok 17, .empty) ∧
        (Solver.objective (.loss l) (.ofArray #[1, 4, 2]) [⟨⟨g, .leaf (.difference op), 1,
          .ofArray #[], .ofArray #[]⟩, .ofArray #[3, -2], .ofArray #[], .ofArray #[]⟩]).run .empty =
          (.ok (some 17), .empty) := by
  have hroom : Storable [3] := by decide
  have hmatrix : Storable [3 - 1, 3] := by decide
  have hforward : (differenceMatrix 3).mulVec #[(1 : ℝ), 4, 2] = #[3, -2] := by
    simp [DenseMatrix.mulVec, differenceMatrix, DenseMatrix.ofFn, DenseMatrix.entry, sumBelow,
      Array.ofFn_succ]
    norm_num
  have hadjoint : (transposed (differenceMatrix 3)).mulVec #[(5 : ℝ), 7] = #[-5, -2, 7] := by
    simp [DenseMatrix.mulVec, transposed, differenceMatrix, DenseMatrix.ofFn, DenseMatrix.entry,
      sumBelow, Array.ofFn_succ]
    norm_num
  have hobjective : objective #[(1 : ℝ), 2, 2] #[1, 4, 2] 3 = 17 := by
    rw [objective, RealArithmetic.half_eq]
    simp [fidelity, variation, sumTerms, RealArithmetic.abs]
    norm_num
  obtain ⟨op, hop, hproducts, hvalue⟩ := formulations_agree (n := 3) (by decide) hroom
  obtain ⟨d, hd, happly, hback⟩ := hproducts hmatrix
  obtain ⟨l, g, hl, hg, hsum, hstep⟩ := hvalue #[1, 2, 2] #[1, 4, 2] 3 rfl rfl (by norm_num)
  obtain ⟨-, rfl⟩ := differenceMatrix?_eq_some_iff.mp hd
  have hthree := happly #[1, 4, 2] rfl .empty
  rw [hforward] at hthree
  refine ⟨by decide, hroom, hmatrix, op, hop, hthree, ?_, l, g, hl, hg, ?_, ?_⟩
  · rw [hback _ rfl, hadjoint]
  · rw [hsum, hobjective]
  · rw [hstep _ _ rfl hthree, hobjective]

/-- There are lengths at which the finite difference exists and has results, but memory does not hold
the matrix of the differences. -/
theorem exists_differenceMatrix_eq_none : 2 ≤ 2 ^ 30 + 1 ∧ Storable [2 ^ 30 + 1] ∧
    (∃ op, FiniteDifference.ofAxes [2 ^ 30 + 1] none .truncate = .ok op ∧
      ∀ x : Array ℝ, x.size = 2 ^ 30 + 1 → ∃ u, ∀ t : Trace ℝ ℝ,
        ((LinearOperator.leaf (.difference op)).apply (.ofArray x)).run t = (.ok u, t)) ∧
    differenceMatrix? (2 ^ 30 + 1) = (none : Option (DenseMatrix ℝ)) := by
  have hn : 2 ≤ 2 ^ 30 + 1 := by decide
  have hroom : Storable [2 ^ 30 + 1] := by decide
  exact ⟨hn, hroom, ⟨_, ofAxes_neighbours hn, fun x hx =>
    ⟨_, run_apply_neighbours hn hroom hx⟩⟩, if_neg (by decide)⟩

end

end TotalVariation

end OperatorSplitting
