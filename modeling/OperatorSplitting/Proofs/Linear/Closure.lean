import Mathlib
import OperatorSplitting.Proofs.Evaluation
import OperatorSplitting.Proofs.Linear.Matrix
import OperatorSplitting.Proofs.Tensor.Flattening

/-!
# Closures that are linear maps

A closure operator is only a function.  If the function is a linear map of the declared shapes, it is
determined by its images of the basis vectors; these are what the derived adjoint keeps.  The derived
adjoint is then the adjoint of the function (`Closure.pairing_derived`).  A given adjoint has to be the
adjoint already.
-/

namespace OperatorSplitting

open ExactScalar Eval

namespace Closure

variable {K : Type}

/-! ### What probing gives -/

section Probing

variable {R W : Type} [Scalar K R W]

/-- The images of basis vectors, without what evaluation leaves behind. -/
def columns (c : Closure K) : ℕ → ℕ → Except Error (List (Array K))
  | 0, _ => .ok []
  | count + 1, j => do
    let e ← Signal.ofEntries c.input (basisEntries c.input.size j)
    let y ← c.image e
    let rest ← c.columns count (j + 1)
    .ok (y.entries :: rest)

theorem outcome_columnsFrom (c : Closure K) (count j : ℕ) :
    (c.columnsFrom count j : Eval K W _).outcome = c.columns count j := by
  induction count generalizing j with
  | zero => rfl
  | succ count ih =>
    have hsteady : Steady (fun _ => c) (c.columnsFrom count (j + 1) : Eval K W _) :=
      c.steady_columnsFrom count (j + 1)
    have hforward (e : Signal K) : Steady (fun _ => c) (c.forward e : Eval K W _) :=
      c.steady_forward e
    rw [columnsFrom, outcome_liftExcept_bind, columns]
    congr 1
    funext e
    rw [(hforward e).outcome_bind fun y _ => hsteady.map _, outcome_forward]
    congr 1
    funext y
    rw [hsteady.outcome_map, ih]
    rfl

/-- Each column is the image of a basis vector. -/
theorem columns_spec {c : Closure K} {count j : ℕ} {cols : List (Array K)}
    (h : c.columns count j = .ok cols) :
    cols.length = count ∧ ∀ i < count, ∃ e y, e.shape = c.input ∧
      e.entries = basisEntries c.input.size (j + i) ∧ c.image e = .ok y ∧
      cols.getD i #[] = y.entries := by
  induction count generalizing j cols with
  | zero =>
    cases h
    exact ⟨rfl, fun i hi => absurd hi (Nat.not_lt_zero i)⟩
  | succ count ih =>
    simp only [columns, Except.bind_eq_ok_iff, Except.ok.injEq] at h
    obtain ⟨e, he, y, hy, rest, hrest, rfl⟩ := h
    obtain ⟨hlen, hcols⟩ := ih hrest
    refine ⟨by rw [List.length_cons, hlen], fun i hi => ?_⟩
    cases i with
    | zero =>
      obtain ⟨hshape, hentries⟩ := Signal.ofEntries_spec he
      exact ⟨e, y, hshape, hentries, hy, rfl⟩
    | succ i =>
      obtain ⟨e', y', hshape, hentries, hy', hget⟩ := hcols i (by omega)
      exact ⟨e', y', hshape, by rw [hentries, Nat.add_assoc, Nat.add_comm 1], hy', hget⟩

/-- The matrix of the derived adjoint. -/
def derivedMatrix (c : Closure K) (cols : List (Array K)) : DenseMatrix K :=
  .ofFn c.input.size c.output.size fun j i =>
    Scalar.conj ((cols.toArray.getD j #[]).getD i 0)

theorem outcome_probe_eq_ok_iff {c : Closure K} {m : DenseMatrix K} :
    (c.probe : Eval K W _).outcome = .ok m ↔
      Storable [c.input.size, c.output.size] ∧ Storable [c.input.size] ∧
        ∃ cols, c.columns c.input.size 0 = .ok cols ∧ m = c.derivedMatrix cols := by
  have hsteady : Steady (fun _ => c) (c.columnsFrom c.input.size 0 : Eval K W _) :=
    c.steady_columnsFrom c.input.size 0
  unfold probe
  dsimp only
  by_cases hroom : Storable [c.input.size, c.output.size] ∧ Storable [c.input.size]
  · rw [if_pos hroom, hsteady.outcome_bind fun _ _ => .pure _, outcome_columnsFrom,
      Except.bind_eq_ok_iff]
    simp only [hroom.1, hroom.2, true_and]
    refine exists_congr fun cols => and_congr_right fun _ => ?_
    exact ⟨fun h => (Except.ok.inj h).symm, fun h => congrArg Except.ok h.symm⟩
  · rw [if_neg hroom]
    constructor
    · intro h
      cases h
    · intro h
      exact absurd ⟨h.1, h.2.1⟩ hroom

theorem image_eq_ok_iff {c : Closure K} {x u : Signal K} :
    c.image x = .ok u ↔ c.forwardFn x = .ok u ∧ u.shape = c.output := by
  unfold image
  rw [Except.bind_eq_ok_iff]
  constructor
  · rintro ⟨y, hy, hu⟩
    split at hu
    · next hshape =>
      cases hu
      exact ⟨hy, hshape⟩
    · cases hu
  · rintro ⟨hu, hshape⟩
    exact ⟨u, hu, if_pos hshape⟩

end Probing

/-! ### Linear closures -/

variable [ExactScalar K]

/-- The function is a linear map of the declared shapes, and an adjoint that is given with it is its
adjoint. -/
structure IsLinear (c : Closure K) : Prop where
  total : ∀ {x : Signal K}, x.shape = c.input → ∃ u, c.forwardFn x = .ok u ∧ u.shape = c.output
  map_add : ∀ {x y s : Signal K}, x.shape = c.input → x.add y = .ok s →
    c.forwardFn s = (do (← c.forwardFn x).add (← c.forwardFn y))
  map_scaled : ∀ {x : Signal K} (a : K), x.shape = c.input →
    c.forwardFn (x.scaled a) = (do return (← c.forwardFn x).scaled a)
  adjoint_total : ∀ {f : PartialMap K}, c.adjointFn? = some f → ∀ {y : Signal K},
    y.shape = c.output → ∃ v, f y = .ok v ∧ v.shape = c.input
  vdot_adjoint : ∀ {f : PartialMap K}, c.adjointFn? = some f → ∀ {x y u v : Signal K},
    x.shape = c.input → y.shape = c.output → c.forwardFn x = .ok u → f y = .ok v →
      y.vdot u = v.vdot x

/-! ### Both directions as maps -/

/-- The adjoint, without what evaluation leaves behind. -/
def adjointImage (c : Closure K) (y : Signal K) : Except Error (Signal K) :=
  match c.adjointFn? with
  | some f => do
    let x ← f y
    if x.shape = c.input then .ok x
    else .error (.shapeMismatch "closure operator adjoint" c.input x.shape)
  | none => do
    let m ← (c.probe : Eval K ℝ _).outcome
    let v ← orMisuse (m.mulVec? y.entries)
    Signal.ofEntries c.input v

theorem outcome_adjoint (c : Closure K) (y : Signal K) :
    (c.adjoint y : Eval K ℝ _).outcome = c.adjointImage y := by
  unfold adjoint adjointImage
  cases c.adjointFn? with
  | some f =>
    dsimp only
    have htouch : Steady (fun _ => c) (c.touch fun cell =>
        { cell with adjointCalls := cell.adjointCalls + 1 } : Eval K ℝ Unit) :=
      Steady.touch c fun _ => rfl
    rw [htouch.outcome_bind fun _ _ => (Steady.liftExcept _).bind fun x _ => ?_]
    · show (liftM (f y) >>= _ : Eval K ℝ _).outcome = _
      rw [outcome_liftExcept_bind]
      congr 1
      funext x
      split <;> rfl
    · split
      · exact .pure _
      · exact .throw _
  | none =>
    dsimp only
    obtain ⟨hderived, hprobe⟩ : Steady (fun _ => c) (c.derivedAdjoint : Eval K ℝ _) ∧
        (c.derivedAdjoint : Eval K ℝ _).outcome = (c.probe : Eval K ℝ _).outcome :=
      steady_derivedAdjoint rfl
    rw [hderived.outcome_bind fun m _ => (Steady.liftExcept _).bind fun v _ => .liftExcept _,
      hprobe]
    congr 1
    funext m
    rw [outcome_liftExcept_bind]
    rfl

theorem adjointImage_of_derived {c : Closure K} (hnone : c.adjointFn? = none) {y v : Signal K} :
    c.adjointImage y = .ok v ↔ ∃ m, (c.probe : Eval K ℝ _).outcome = .ok m ∧
      ∃ w, m.mulVec? y.entries = some w ∧ Signal.ofEntries c.input w = .ok v := by
  unfold adjointImage
  rw [hnone]
  simp only [Except.bind_eq_ok_iff, orMisuse_eq_ok_iff]

/-! ### Linear combinations of basis vectors -/

theorem coord_basis {e : Signal K} {n j : ℕ} (he : e.entries = basisEntries n j) {k : ℕ}
    (hk : k < n) : e.coord k = if k = j then 1 else 0 := by
  rw [Signal.coord, he, basisEntries]
  by_cases hkj : k = j
  · subst hkj
    simp [Array.getD_eq_getD_getElem?, hk]
  · simp [Array.getD_eq_getD_getElem?, hk, hkj]

/-- Some signal has the first `n` coordinates of `x` and zeros for the others, and its image against
`y` is the combination of `n` images. -/
def HasPartialImage (c : Closure K) (x y : Signal K) (images : ℕ → Signal K) (n : ℕ) : Prop :=
  ∃ s t, s.shape = c.input ∧ c.forwardFn s = .ok t ∧
    (∀ k < x.size, s.coord k = if k < n then x.coord k else 0) ∧
    y.pairing t = ∑ j ∈ Finset.range n, y.pairing (images j) * x.coord j

theorem HasPartialImage.zero {c : Closure K} (hc : c.IsLinear) {x u y : Signal K}
    {images : ℕ → Signal K} (hx : x.shape = c.input) (hu : c.forwardFn x = .ok u) :
    c.HasPartialImage x y images 0 := by
  refine ⟨x.scaled 0, u.scaled 0, (Signal.shape_scaled x 0).trans hx, ?_, ?_, ?_⟩
  · rw [hc.map_scaled 0 hx, hu]
    rfl
  · intro k _
    rw [Signal.coord_scaled, val_zero, mul_zero, if_neg (Nat.not_lt_zero k)]
  · rw [Signal.pairing_scaled_right, val_zero, mul_zero, Finset.sum_range_zero]

/-- One basis vector more. -/
theorem HasPartialImage.succ {c : Closure K} (hc : c.IsLinear) {x y e : Signal K}
    {images : ℕ → Signal K} {n : ℕ} (h : c.HasPartialImage x y images n)
    (hshape : e.shape = c.input) (hentries : e.entries = basisEntries x.size n)
    (himage : c.forwardFn e = .ok (images n)) : c.HasPartialImage x y images (n + 1) := by
  obtain ⟨s, t, hs, ht, hcoord, hpairing⟩ := h
  set a : K := x.entries.getD n 0 with ha
  have hstep : (e.scaled a).shape = c.input := (Signal.shape_scaled _ a).trans hshape
  obtain ⟨s', hs', hsshape, -⟩ : ∃ s', s.add (e.scaled a) = .ok s' ∧ s'.shape = s.shape ∧ _ :=
    Signal.zipMap_eq_ok (hs.trans hstep.symm)
  have hsum := hc.map_add hs hs'
  rw [ht, hc.map_scaled a hshape, himage] at hsum
  obtain ⟨t', ht', -⟩ := hc.total (hsshape.trans hs)
  have hadd : t.add ((images n).scaled a) = .ok t' := hsum.symm.trans ht'
  refine ⟨s', t', hsshape.trans hs, ht', ?_, ?_⟩
  · intro k hk
    rw [Signal.coord_add hs', hcoord k hk, Signal.coord_scaled, coord_basis hentries hk]
    rcases Nat.lt_trichotomy k n with hlt | rfl | hgt
    · rw [if_pos hlt, if_neg hlt.ne, if_pos (by omega), zero_mul, add_zero]
    · rw [if_neg (lt_irrefl k), if_pos rfl, if_pos (Nat.lt_succ_self k), one_mul, zero_add]
      rfl
    · rw [if_neg (by omega), if_neg (by omega), if_neg (by omega), zero_mul, add_zero]
  · rw [Signal.pairing_add_right hadd, hpairing, Signal.pairing_scaled_right,
      Finset.sum_range_succ]
    rfl

/-- The image of a signal is the combination of the images of the basis vectors, tested against any
signal.  The induction adds one basis vector at a time to the zero signal. -/
theorem pairing_eq_sum_columns {c : Closure K} (hc : c.IsLinear) {x u y : Signal K}
    {basis images : ℕ → Signal K} (hx : x.shape = c.input) (hu : c.forwardFn x = .ok u)
    (hbasis : ∀ j < x.size, (basis j).shape = c.input ∧
      (basis j).entries = basisEntries x.size j ∧ c.forwardFn (basis j) = .ok (images j)) :
    y.pairing u = ∑ j ∈ Finset.range x.size, y.pairing (images j) * x.coord j := by
  have hpartial : ∀ n ≤ x.size, c.HasPartialImage x y images n := by
    intro n
    induction n with
    | zero => exact fun _ => .zero hc hx hu
    | succ n ih =>
      intro hn
      obtain ⟨hshape, hentries, himage⟩ := hbasis n (by omega)
      exact (ih (by omega)).succ hc hshape hentries himage
  obtain ⟨s, t, hs, ht, hcoord, hpairing⟩ := hpartial x.size le_rfl
  have hsx : s = x := by
    apply Signal.ext_coord (hs.trans hx.symm)
    intro k
    rcases Nat.lt_or_ge k x.size with hk | hk
    · rw [hcoord k hk, if_pos hk]
    · rw [Signal.coord_of_size_le hk,
        Signal.coord_of_size_le (Signal.size_eq_of_shape (hs.trans hx.symm) ▸ hk)]
  rw [hsx, hu] at ht
  rw [Except.ok.inj ht, hpairing]

/-- A coordinate of the derived adjoint is the pairing with a column. -/
theorem val_mulVec_derivedMatrix {c : Closure K} {cols : List (Array K)} {image y : Signal K} {j : ℕ}
    (hj : j < c.input.size) (hcol : cols.getD j #[] = image.entries)
    (hsize : image.size = c.output.size) :
    val (((c.derivedMatrix cols).mulVec y.entries).getD j 0) = image.pairing y := by
  rw [DenseMatrix.val_mulVec _ hj, Signal.pairing, hsize]
  apply Finset.sum_congr rfl
  intro i hi
  have hcol' : cols.toArray.getD j #[] = image.entries := by
    rw [← hcol]
    simp [Array.getD_eq_getD_getElem?, List.getD_eq_getElem?_getD]
  have hi' : i < c.output.size := Finset.mem_range.mp hi
  rw [derivedMatrix, DenseMatrix.entry_ofFn _ hj hi', hcol', val_conj]
  rfl

/-- The derived adjoint is the adjoint. -/
theorem pairing_derived {c : Closure K} (hc : c.IsLinear) (hnone : c.adjointFn? = none)
    {x y u v : Signal K} (hx : x.shape = c.input) (hu : c.forwardFn x = .ok u)
    (hy : y.shape = c.output) (hv : c.adjointImage y = .ok v) :
    v.shape = c.input ∧ y.pairing u = v.pairing x := by
  obtain ⟨m, hm, w, hw, hv⟩ := (adjointImage_of_derived hnone).mp hv
  obtain ⟨-, -, cols, hcols, rfl⟩ := outcome_probe_eq_ok_iff.mp hm
  obtain ⟨hvshape, hventries⟩ := Signal.ofEntries_spec hv
  obtain ⟨hysize, -, rfl⟩ := DenseMatrix.mulVec?_spec hw
  have hvsize : v.size = c.input.size := by
    rw [Signal.size, hventries, DenseMatrix.size_mulVec]
    rfl
  have hxsize : x.size = c.input.size := by
    rw [← hvsize]
    exact Signal.size_eq_of_shape (hx.trans hvshape.symm)
  obtain ⟨-, hspec⟩ := columns_spec hcols
  have : Nonempty (Signal K) := ⟨x⟩
  choose! basis images hbshape hbentries himage hget using hspec
  have hforward (j : ℕ) (hj : j < c.input.size) : c.forwardFn (basis j) = .ok (images j) ∧
      (images j).shape = c.output := image_eq_ok_iff.mp (himage j hj)
  have hbasis : ∀ j < x.size, (basis j).shape = c.input ∧
      (basis j).entries = basisEntries x.size j ∧ c.forwardFn (basis j) = .ok (images j) := by
    intro j hj
    rw [hxsize] at hj ⊢
    have hentries := hbentries j hj
    rw [Nat.zero_add] at hentries
    exact ⟨hbshape j hj, hentries, (hforward j hj).1⟩
  refine ⟨hvshape, ?_⟩
  rw [pairing_eq_sum_columns hc hx hu hbasis, Signal.pairing, hvsize, hxsize]
  apply Finset.sum_congr rfl
  intro j hj
  have hj' : j < c.input.size := Finset.mem_range.mp hj
  have hsize : (images j).size = c.output.size :=
    (Signal.size_eq_of_shape ((hforward j hj').2.trans hy.symm)).trans hysize
  have hcoord : v.coord j = (images j).pairing y := by
    rw [Signal.coord, hventries]
    exact val_mulVec_derivedMatrix hj' (hget j hj') hsize
  rw [hcoord, Signal.pairing_symm ((hforward j hj').2.trans hy.symm), Complex.conj_conj]

/-! ### The two maps of a closure -/

theorem image_totalOn {c : Closure K} (hc : c.IsLinear) : TotalOn c.image c.input := by
  intro x hx
  obtain ⟨u, hu, hshape⟩ := hc.total hx
  exact ⟨u, image_eq_ok_iff.mpr ⟨hu, hshape⟩⟩

theorem adjointImage_of_given {c : Closure K} {f : PartialMap K} (hf : c.adjointFn? = some f)
    {y v : Signal K} : c.adjointImage y = .ok v ↔ f y = .ok v ∧ v.shape = c.input := by
  unfold adjointImage
  rw [hf]
  simp only [Except.bind_eq_ok_iff]
  constructor
  · rintro ⟨x, hx, hv⟩
    split at hv
    · next hshape =>
      cases hv
      exact ⟨hx, hshape⟩
    · cases hv
  · rintro ⟨hv, hshape⟩
    exact ⟨v, hv, if_pos hshape⟩

theorem adjointMaps {c : Closure K} (hc : c.IsLinear) :
    AdjointMaps c.image c.adjointImage c.input c.output := by
  have hforward : ShapedMap c.image c.input c.output :=
    .ofTotal (fun _ hu => (image_eq_ok_iff.mp hu).2) (image_totalOn hc)
  cases hgiven : c.adjointFn? with
  | some f =>
    refine ⟨hforward, ⟨fun _ hv => ((adjointImage_of_given hgiven).mp hv).2, ?_⟩, ?_⟩
    · intro y v y' _ _ hy'
      obtain ⟨v', hv', hshape⟩ := hc.adjoint_total hgiven hy'
      exact ⟨v', (adjointImage_of_given hgiven).mpr ⟨hv', hshape⟩⟩
    · intro x y u v hx hy hu hv
      obtain ⟨hu, hushape⟩ := image_eq_ok_iff.mp hu
      obtain ⟨hv, hvshape⟩ := (adjointImage_of_given hgiven).mp hv
      have hvdot := hc.vdot_adjoint hgiven hx hy hu hv
      obtain ⟨d, hd, hdval⟩ := Signal.vdot_eq_ok (hy.trans hushape.symm)
      obtain ⟨d', hd', hdval'⟩ := Signal.vdot_eq_ok (hvshape.trans hx.symm)
      rw [hd, hd'] at hvdot
      rw [← hdval, ← hdval', Except.ok.inj hvdot]
  | none =>
    refine ⟨hforward, ⟨?_, ?_⟩, ?_⟩
    · intro y v _ hv
      obtain ⟨m, -, w, -, hv⟩ := (adjointImage_of_derived hgiven).mp hv
      exact (Signal.ofEntries_spec hv).1
    · intro y v y' hy hv hy'
      obtain ⟨m, hm, w, hw, hv⟩ := (adjointImage_of_derived hgiven).mp hv
      have hsize : y'.entries.size = y.entries.size := Signal.size_eq_of_shape (hy'.trans hy.symm)
      obtain ⟨hcols, hroom, rfl⟩ := DenseMatrix.mulVec?_spec hw
      have hw' := (DenseMatrix.mulVec?_eq_some_iff (hsize.trans hcols)).mpr ⟨hroom, rfl⟩
      have hww' : (m.mulVec y'.entries).size = (m.mulVec y.entries).size := by
        rw [DenseMatrix.size_mulVec, DenseMatrix.size_mulVec]
      obtain ⟨v', hv'⟩ := Signal.ofEntries_uniform hww' hv
      exact ⟨v', (adjointImage_of_derived hgiven).mpr ⟨m, hm, _, hw', hv'⟩⟩
    · intro x y u v hx hy hu hv
      obtain ⟨hu, hushape⟩ := image_eq_ok_iff.mp hu
      exact (pairing_derived hc hgiven hx hu hy hv).2

/-- Basis vectors and their images are found where there is room for the input. -/
theorem columns_of_roomy {c : Closure K} (hc : c.IsLinear) (hroom : c.input.Roomy) (count j : ℕ) :
    ∃ cols, c.columns count j = .ok cols := by
  induction count generalizing j with
  | zero => exact ⟨[], rfl⟩
  | succ count ih =>
    obtain ⟨e, he⟩ : ∃ e : Signal K, Signal.ofEntries c.input (basisEntries c.input.size j) = .ok e :=
      Signal.ofEntries_of_roomy hroom Array.size_ofFn
    obtain ⟨y, hy⟩ := image_totalOn hc e (Signal.ofEntries_spec he).1
    obtain ⟨rest, hrest⟩ := ih (j + 1)
    refine ⟨y.entries :: rest, ?_⟩
    simp only [columns, Except.bind_eq_ok_iff]
    exact ⟨e, he, y, hy, rest, hrest, rfl⟩

/-- The adjoint has a value where there is room for the shapes and for the matrix of a derived
adjoint. -/
theorem adjointImage_totalOn {c : Closure K} (hc : c.IsLinear) (hinput : c.input.Roomy)
    (houtput : c.output.Roomy)
    (hmatrix : c.adjointFn? = none → Roomy [c.input.size, c.output.size]) :
    TotalOn c.adjointImage c.output := by
  intro y hy
  cases hgiven : c.adjointFn? with
  | some f =>
    obtain ⟨v, hv, hshape⟩ := hc.adjoint_total hgiven hy
    exact ⟨v, (adjointImage_of_given hgiven).mpr ⟨hv, hshape⟩⟩
  | none =>
    obtain ⟨cols, hcols⟩ := columns_of_roomy hc hinput c.input.size 0
    have hrows : Storable [c.input.size] := Roomy.storable (roomy_singleton hinput.size_lt)
    have hm : (c.probe : Eval K ℝ _).outcome = .ok (c.derivedMatrix cols) :=
      outcome_probe_eq_ok_iff.mpr ⟨(hmatrix hgiven).storable, hrows, cols, hcols, rfl⟩
    have hsize : y.entries.size = c.output.size := by
      rw [← hy] at houtput ⊢
      exact Signal.size_of_roomy houtput
    obtain ⟨v, hv⟩ : ∃ v, Signal.ofEntries c.input ((c.derivedMatrix cols).mulVec y.entries) =
        .ok v := Signal.ofEntries_of_roomy hinput (DenseMatrix.size_mulVec _ _)
    exact ⟨v, (adjointImage_of_derived hgiven).mpr
      ⟨_, hm, _, (DenseMatrix.mulVec?_eq_some_iff hsize).mpr ⟨hrows, rfl⟩, hv⟩⟩

end Closure

end OperatorSplitting
