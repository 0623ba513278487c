import Mathlib
import OperatorSplitting.Proofs.Exact.AcceleratedGradient
import OperatorSplitting.Proofs.Exact.Box
import OperatorSplitting.Proofs.Exact.Scalar
import OperatorSplitting.TotalVariation

/-!
# Samples as vectors

The reference solver works with arrays and with the matrix of the differences of neighbours.  Over
exact numbers an array of `n` samples is a vector (`toVector`), a matrix is a linear map
(`toVector_mulVec`), and the transposed matrix is its adjoint (`matrixMap_transposed`).  The loops that
add up terms are sums: squared norms, and the sum of the moduli of the differences.

No difference of neighbours is larger than the two samples together, so the differences stretch a
vector at most by two, and so does their transpose (`isTranspose`).
-/

namespace OperatorSplitting.TotalVariation

open AcceleratedGradient

noncomputable section

variable {n : ℕ} {a b x y w : Array ℝ}

/-! ### Vectors -/

/-- The first `n` samples of an array; samples that are missing count as zero. -/
def toVector (n : ℕ) (a : Array ℝ) : EuclideanSpace ℝ (Fin n) := WithLp.toLp _ fun i => a.getD i 0

/-- The array of the coordinates. -/
def ofVector (x : EuclideanSpace ℝ (Fin n)) : Array ℝ := Array.ofFn fun i => x i

@[simp] theorem toVector_apply (i : Fin n) : toVector n a i = a.getD i 0 := rfl

@[simp] theorem size_ofVector (x : EuclideanSpace ℝ (Fin n)) : (ofVector x).size = n :=
  Array.size_ofFn

@[simp] theorem toVector_ofVector (x : EuclideanSpace ℝ (Fin n)) : toVector n (ofVector x) = x := by
  ext i
  simp [ofVector]

theorem toVector_injective (ha : a.size = n) (hb : b.size = n) (h : toVector n a = toVector n b) :
    a = b := by
  refine Array.ext (ha.trans hb.symm) fun i hia hib => ?_
  have hi := congrArg (fun x : EuclideanSpace ℝ (Fin n) => x ⟨i, ha ▸ hia⟩) h
  simpa [hia, hib] using hi

theorem toVector_zipWith {f : ℝ → ℝ → ℝ} (ha : a.size = n) (hb : b.size = n) (i : Fin n) :
    toVector n (Array.zipWith f a b) i = f (toVector n a i) (toVector n b i) := by
  have hia : (i : ℕ) < a.size := ha ▸ i.isLt
  have hib : (i : ℕ) < b.size := hb ▸ i.isLt
  simp [hia, hib]

/-! ### Sums -/

theorem sumTerms_eq {α : Type} (f : α → ℝ) (d : α) (terms : Array α) :
    sumTerms f terms = ∑ k ∈ Finset.range terms.size, f (terms.getD k d) := by
  rw [sumTerms, ← Array.foldl_toList,
    map_foldl_add (φ := fun r : ℝ => r) (fun _ _ => rfl) f d, Array.length_toList]
  rw [show (-0 : ℝ) = 0 from neg_zero, zero_add]
  refine Finset.sum_congr rfl fun k _ => ?_
  rw [List.getD_eq_getElem?_getD, Array.getElem?_toList, Array.getD_eq_getD_getElem?]

theorem normSqr_eq (hx : x.size = n) : normSqr x = ‖toVector n x‖ ^ 2 := by
  rw [normSqr, map_sumEntries (φ := fun r : ℝ => r) rfl (fun _ _ => rfl) _ 0, hx,
    EuclideanSpace.norm_sq_eq, Finset.sum_range]
  refine Finset.sum_congr rfl fun i _ => ?_
  rw [toVector_apply, Real.norm_eq_abs, sq_abs, sq]

/-- The squared distances of the samples are the squared distance of the vectors. -/
theorem fidelity_eq (hy : y.size = n) (hx : x.size = n) :
    fidelity y x = ‖toVector n x - toVector n y‖ ^ 2 := by
  have hsize : (x.zip y).size = n := by rw [Array.size_zip, hx, hy, min_self]
  rw [fidelity, sumTerms_eq _ (0, 0), hsize, EuclideanSpace.norm_sq_eq, Finset.sum_range]
  refine Finset.sum_congr rfl fun i _ => ?_
  have hix : (i : ℕ) < x.size := hx ▸ i.isLt
  have hiy : (i : ℕ) < y.size := hy ▸ i.isLt
  rw [PiLp.sub_apply, toVector_apply, toVector_apply, Real.norm_eq_abs, sq_abs, sq]
  simp [hix, hiy]

/-! ### Matrices -/

/-- A matrix as a linear map. -/
def matrixMap (d : DenseMatrix ℝ) :
    EuclideanSpace ℝ (Fin d.cols) →ₗ[ℝ] EuclideanSpace ℝ (Fin d.rows) :=
  Matrix.toEuclideanLin (Matrix.of fun i j => d.entry i j)

theorem matrixMap_apply (d : DenseMatrix ℝ) (x : EuclideanSpace ℝ (Fin d.cols)) (i : Fin d.rows) :
    matrixMap d x i = ∑ j : Fin d.cols, d.entry i j * x j := rfl

theorem size_mulVec (d : DenseMatrix ℝ) (x : Array ℝ) : (d.mulVec x).size = d.rows :=
  Array.size_ofFn

/-- The product with a vector is the linear map. -/
theorem toVector_mulVec (d : DenseMatrix ℝ) (x : Array ℝ) :
    toVector d.rows (d.mulVec x) = matrixMap d (toVector d.cols x) := by
  ext i
  have hentry : (d.mulVec x).getD i 0 = sumBelow (fun j => d.entry i j * x.getD j 0) d.cols * 1 := by
    simp [DenseMatrix.mulVec]
  rw [toVector_apply, hentry, matrixMap_apply, mul_one,
    map_sumBelow (φ := fun r : ℝ => r) rfl (fun _ _ => rfl), Finset.sum_range]
  rfl

/-- The transposed matrix is the adjoint map. -/
theorem matrixMap_transposed (d : DenseMatrix ℝ) :
    matrixMap (transposed d) = LinearMap.adjoint (matrixMap d) := by
  have htranspose : (Matrix.of fun (j : Fin d.cols) (i : Fin d.rows) => (transposed d).entry j i) =
      (Matrix.of fun (i : Fin d.rows) (j : Fin d.cols) => d.entry i j).conjTranspose := by
    ext j i
    exact DenseMatrix.entry_ofFn _ j.isLt i.isLt
  have hadjoint := Matrix.toEuclideanLin_conjTranspose_eq_adjoint
    (Matrix.of fun (i : Fin d.rows) (j : Fin d.cols) => d.entry i j)
  rw [← htranspose] at hadjoint
  exact hadjoint

/-! ### Differences -/

/-- The differences of neighbours. -/
def differences (n : ℕ) : EuclideanSpace ℝ (Fin n) →ₗ[ℝ] EuclideanSpace ℝ (Fin (n - 1)) :=
  matrixMap (differenceMatrix n)

/-- The transpose of the differences. -/
def spread (n : ℕ) : EuclideanSpace ℝ (Fin (n - 1)) →ₗ[ℝ] EuclideanSpace ℝ (Fin n) :=
  LinearMap.adjoint (differences n)

theorem differences_apply (x : EuclideanSpace ℝ (Fin n)) (i : Fin (n - 1)) :
    differences n x i = x ⟨i + 1, by omega⟩ - x ⟨i, by omega⟩ := by
  have hterm (j : Fin n) : (differenceMatrix n : DenseMatrix ℝ).entry i j * x j =
      (if j = ⟨i + 1, by omega⟩ then x j else 0) - if j = ⟨i, by omega⟩ then x j else 0 := by
    have hentry : (differenceMatrix n : DenseMatrix ℝ).entry i j =
        if (j : ℕ) = i + 1 then 1 else if (j : ℕ) = i then -1 else 0 :=
      DenseMatrix.entry_ofFn _ i.isLt j.isLt
    rw [hentry]
    simp only [Fin.ext_iff]
    by_cases hsucc : (j : ℕ) = i + 1
    · have hne : (j : ℕ) ≠ i := by omega
      simp [hsucc]
    · by_cases hsame : (j : ℕ) = i
      · simp [hsame]
      · simp [hsucc, hsame]
  show ∑ j : Fin n, (differenceMatrix n : DenseMatrix ℝ).entry i j * x j = _
  rw [Finset.sum_congr rfl fun j _ => hterm j, Finset.sum_sub_distrib, Finset.sum_ite_eq',
    Finset.sum_ite_eq', if_pos (Finset.mem_univ _), if_pos (Finset.mem_univ _)]

/-- The differences stretch a vector at most by two. -/
theorem normSqr_differences_le (x : EuclideanSpace ℝ (Fin n)) :
    ‖differences n x‖ ^ 2 ≤ 4 * ‖x‖ ^ 2 := by
  cases n with
  | zero =>
    have hempty : ‖differences 0 x‖ ^ 2 = 0 := by
      rw [EuclideanSpace.norm_sq_eq]
      exact Finset.sum_eq_zero fun i _ => i.elim0
    rw [hempty]
    positivity
  | succ n =>
    have hterm (i : Fin n) : ‖differences (n + 1) x i‖ ^ 2 ≤
        2 * ‖x i.succ‖ ^ 2 + 2 * ‖x i.castSucc‖ ^ 2 := by
      have happly : differences (n + 1) x i = x i.succ - x i.castSucc := differences_apply x i
      rw [happly, Real.norm_eq_abs, Real.norm_eq_abs, Real.norm_eq_abs, sq_abs, sq_abs, sq_abs]
      linarith [sq_nonneg (x i.succ + x i.castSucc)]
    have hsucc : ∑ i : Fin n, ‖x i.succ‖ ^ 2 ≤ ‖x‖ ^ 2 := by
      rw [EuclideanSpace.norm_sq_eq, Fin.sum_univ_succ]
      exact le_add_of_nonneg_left (sq_nonneg _)
    have hcast : ∑ i : Fin n, ‖x i.castSucc‖ ^ 2 ≤ ‖x‖ ^ 2 := by
      rw [EuclideanSpace.norm_sq_eq, Fin.sum_univ_castSucc]
      exact le_add_of_nonneg_right (sq_nonneg _)
    calc ‖differences (n + 1) x‖ ^ 2
        = ∑ i : Fin n, ‖differences (n + 1) x i‖ ^ 2 := EuclideanSpace.norm_sq_eq _
      _ ≤ ∑ i : Fin n, (2 * ‖x i.succ‖ ^ 2 + 2 * ‖x i.castSucc‖ ^ 2) :=
          Finset.sum_le_sum fun i _ => hterm i
      _ = 2 * ∑ i : Fin n, ‖x i.succ‖ ^ 2 + 2 * ∑ i : Fin n, ‖x i.castSucc‖ ^ 2 := by
          rw [Finset.sum_add_distrib, Finset.mul_sum, Finset.mul_sum]
      _ ≤ 4 * ‖x‖ ^ 2 := by linarith

/-- The transpose stretches no more than the differences do. -/
theorem isTranspose (n : ℕ) : IsTranspose (differences n) (spread n) where
  inner_map x w := (LinearMap.adjoint_inner_right (differences n) x w).symm
  normSqr_le w := by
    have hself : ‖spread n w‖ ^ 2 ≤ ‖differences n (spread n w)‖ * ‖w‖ := by
      rw [← real_inner_self_eq_norm_sq, spread, LinearMap.adjoint_inner_right]
      exact real_inner_le_norm _ _
    have hstretch := normSqr_differences_le (spread n w)
    nlinarith [sq_nonneg (‖differences n (spread n w)‖ - 2 * ‖w‖),
      sq_nonneg (‖differences n (spread n w)‖ - 4 * ‖w‖), norm_nonneg w,
      norm_nonneg (spread n w), norm_nonneg (differences n (spread n w))]

/-! ### The objective -/

/-- The variation adds the moduli of the differences. -/
theorem variation_eq (hx : x.size = n) :
    variation x = ∑ i, |differences n (toVector n x) i| := by
  have hsize : (x.zip (x.extract 1 x.size)).size = n - 1 := by
    rw [Array.size_zip, Array.size_extract, hx]
    omega
  rw [variation, sumTerms_eq _ (0, 0), hsize, Finset.sum_range]
  refine Finset.sum_congr rfl fun i _ => ?_
  have hi : (i : ℕ) < x.size := by omega
  have hnext : (i : ℕ) + 1 < x.size := by omega
  have hpair : (x.zip (x.extract 1 x.size)).getD i (0, 0) = (x.getD i 0, x.getD (i + 1) 0) := by
    have hi' : (i : ℕ) < (x.zip (x.extract 1 x.size)).size := by omega
    rw [Array.getD_eq_getD_getElem?, Array.getElem?_eq_getElem hi', Option.getD_some,
      Array.getElem_zip, Array.getElem_extract]
    simp [hi, hnext, add_comm]
  rw [hpair, differences_apply]
  rfl

theorem objective_eq (hy : y.size = n) (hx : x.size = n) (lambda : ℝ) :
    objective y x lambda = RealArithmetic.half * ‖toVector n x - toVector n y‖ ^ 2 +
      lambda * ∑ i, |differences n (toVector n x) i| := by
  rw [objective, fidelity_eq hy hx, variation_eq hx]

/-! ### The dual problem -/

variable {lambda : ℝ}

/-- The problem that some samples pose where memory holds the matrix of their differences. -/
def Problem.ofSamples (y : Array ℝ) (lambda : ℝ) : Problem ℝ :=
  .ofDifferences y lambda (differenceMatrix y.size)

/-- The transposed matrix of the differences is the transpose. -/
theorem toVector_mulVec_transposed (n : ℕ) (w : Array ℝ) :
    toVector n ((transposed (differenceMatrix n)).mulVec w) = spread n (toVector (n - 1) w) := by
  have hmap : matrixMap (transposed (differenceMatrix n)) = spread n := matrixMap_transposed _
  rw [← hmap]
  exact toVector_mulVec (transposed (differenceMatrix n)) w

theorem size_primalPoint (y w : Array ℝ) (lambda : ℝ) :
    (primalPoint (.ofSamples y lambda) w).size = y.size := by
  rw [primalPoint, Array.size_zipWith, size_mulVec]
  exact min_self _

/-- The primal point of a dual point. -/
theorem toVector_primalPoint (y w : Array ℝ) (lambda : ℝ) :
    toVector y.size (primalPoint (.ofSamples y lambda) w) =
      toVector y.size y - spread y.size (toVector (y.size - 1) w) := by
  ext i
  rw [PiLp.sub_apply, ← toVector_mulVec_transposed]
  exact toVector_zipWith rfl (size_mulVec _ _) i

namespace DualState

variable {s : DualState ℝ}

theorem size_step_w (lambda : ℝ) (hv : s.v.size = y.size - 1) :
    (s.step (.ofSamples y lambda)).w.size = y.size - 1 := by
  rw [step, Array.size_zipWith, size_mulVec, hv]
  exact min_self _

/-- A step goes from the extrapolated point along the gradient, and what is out of bounds is cut
off. -/
theorem toVector_step_w (hv : s.v.size = y.size - 1) (i : Fin (y.size - 1)) :
    toVector (y.size - 1) (s.step (.ofSamples y lambda)).w i =
      RealArithmetic.clamp ((toVector (y.size - 1) s.v + stepLength • differences y.size
        (toVector y.size y - spread y.size (toVector (y.size - 1) s.v))) i) (-lambda) lambda := by
  have hascent : toVector (y.size - 1) ((differenceMatrix y.size).mulVec
      (primalPoint (.ofSamples y lambda) s.v)) = differences y.size
        (toVector y.size y - spread y.size (toVector (y.size - 1) s.v)) := by
    rw [← toVector_primalPoint y s.v lambda]
    exact toVector_mulVec (differenceMatrix y.size) _
  rw [step, toVector_zipWith hv (size_mulVec _ _), ← hascent, PiLp.add_apply, PiLp.smul_apply,
    smul_eq_mul, mul_comm]
  rfl

theorem step_momentum (p : Problem ℝ) (s : DualState ℝ) :
    (s.step p).momentum = nextMomentum s.momentum := rfl

theorem size_step_v (lambda : ℝ) (hw : s.w.size = y.size - 1) (hv : s.v.size = y.size - 1) :
    (s.step (.ofSamples y lambda)).v.size = y.size - 1 := by
  have hnew := size_step_w lambda hv
  show (Array.zipWith _ (s.step (.ofSamples y lambda)).w s.w).size = _
  rw [Array.size_zipWith, hnew, hw, min_self]

/-- The new point is extrapolated beyond itself, away from the last one. -/
theorem toVector_step_v (lambda : ℝ) (hw : s.w.size = y.size - 1) (hv : s.v.size = y.size - 1) :
    toVector (y.size - 1) (s.step (.ofSamples y lambda)).v =
      toVector (y.size - 1) (s.step (.ofSamples y lambda)).w +
        ((s.momentum - 1) / nextMomentum s.momentum) •
          (toVector (y.size - 1) (s.step (.ofSamples y lambda)).w -
            toVector (y.size - 1) s.w) := by
  ext i
  rw [← step_momentum (.ofSamples y lambda), PiLp.add_apply, PiLp.smul_apply, PiLp.sub_apply,
    smul_eq_mul, mul_comm]
  exact toVector_zipWith (size_step_w lambda hv) hw i

end DualState

end

end OperatorSplitting.TotalVariation
