import Mathlib
import OperatorSplitting.Signal
import OperatorSplitting.Proofs.Exact.Box
import OperatorSplitting.Proofs.Exact.Scalar

/-!
# Signals as vectors

A signal is a vector by its elements in order, block after block: its coordinates are their complex
values, and zero beyond the last element.  Signals of one shape are equal when their coordinates are.
Checked addition, subtraction and scaling are those of vectors; the inner product of signals is the
`pairing` of their coordinates, conjugate in the first one.

With real inner products, vectors of all lengths live in one Hilbert space, the space of
square-summable sequences.  The descent arguments about the solver take place there; the real inner
product is the real part of the pairing (`inner_vec`).
-/

namespace OperatorSplitting

open ExactScalar

noncomputable section

/-! ### Shapes and elements of checked operations -/

namespace Signal

variable {α β γ : Type}

/-- A signal is determined by its shape and its elements. -/
theorem ext_entries {x y : Signal α} (hshape : x.shape = y.shape)
    (hentries : x.entries = y.entries) : x = y := by
  cases x with
  | flat s =>
    cases y with
    | flat t =>
      obtain ⟨sd, se, hs⟩ := s
      obtain ⟨td, te, ht⟩ := t
      simp only [shape, Shape.flat.injEq] at hshape
      simp only [entries] at hentries
      subst hshape hentries
      rfl
    | blocked ts => simp [shape] at hshape
  | blocked ss =>
    cases y with
    | flat t => simp [shape] at hshape
    | blocked ts =>
      simp only [shape, Shape.blocked.injEq] at hshape
      simp only [entries] at hentries
      congr 1
      induction ss generalizing ts with
      | nil => cases ts with
        | nil => rfl
        | cons t ts => simp at hshape
      | cons s ss ih => cases ts with
        | nil => simp at hshape
        | cons t ts =>
          obtain ⟨sd, se, hs⟩ := s
          obtain ⟨td, te, ht⟩ := t
          simp only [List.map_cons, List.cons.injEq] at hshape
          obtain ⟨hd, hds⟩ := hshape
          subst hd
          simp only [blockEntries] at hentries
          obtain ⟨he, hes⟩ := Array.append_inj hentries (by rw [hs, ht])
          subst he
          rw [ih ts hes hds]

theorem exists_of_shape_flat {x : Signal α} {dims : List ℕ} (h : x.shape = .flat dims) :
    ∃ t : Tensor α, x = .flat t ∧ t.dims = dims := by
  cases x with
  | flat t => exact ⟨t, rfl, Shape.flat.inj h⟩
  | blocked ts => cases h

theorem exists_of_shape_blocked {x : Signal α} {blocks : List (List ℕ)}
    (h : x.shape = .blocked blocks) : ∃ ts : List (Tensor α), x = .blocked ts ∧
      ts.map (·.dims) = blocks := by
  cases x with
  | flat t => cases h
  | blocked ts => exact ⟨ts, rfl, Shape.blocked.inj h⟩

theorem size_eq_of_shape {x : Signal α} {y : Signal β} (h : x.shape = y.shape) :
    x.size = y.size := by
  cases x with
  | flat s =>
    cases y with
    | flat t =>
      simp only [shape, Shape.flat.injEq] at h
      simp only [size, entries, s.size_entries, t.size_entries, h]
    | blocked ts => simp [shape] at h
  | blocked ss =>
    cases y with
    | flat t => simp [shape] at h
    | blocked ts =>
      simp only [shape, Shape.blocked.injEq] at h
      simp only [size, entries, size_blockEntries, h]

theorem blockEntries_map (f : α → β) (ts : List (Tensor α)) :
    blockEntries (ts.map (Tensor.map f)) = (blockEntries ts).map f := by
  induction ts with
  | nil => simp [blockEntries]
  | cons t ts ih =>
    rw [List.map_cons, blockEntries, blockEntries, ih, Array.map_append]
    rfl

@[simp] theorem entries_map (f : α → β) (x : Signal α) : (x.map f).entries = x.entries.map f := by
  cases x with
  | flat t => rfl
  | blocked ts => exact blockEntries_map f ts

theorem zipBlocks?_eq_some {f : α → β → γ} {xs : List (Tensor α)} {ys : List (Tensor β)}
    (h : xs.map (·.dims) = ys.map (·.dims)) :
    ∃ zs, zipBlocks? f xs ys = some zs ∧ zs.map (·.dims) = xs.map (·.dims) ∧
      blockEntries zs = Array.zipWith f (blockEntries xs) (blockEntries ys) := by
  induction xs generalizing ys with
  | nil => cases ys with
    | nil => exact ⟨[], rfl, rfl, by simp [blockEntries]⟩
    | cons y ys => simp at h
  | cons x xs ih => cases ys with
    | nil => simp at h
    | cons y ys =>
      simp only [List.map_cons, List.cons.injEq] at h
      obtain ⟨zs, hzs, hdims, hentries⟩ := ih h.2
      have hz : Tensor.zip? f x y = some ⟨x.dims, Array.zipWith f x.entries y.entries, by
          rw [Array.size_zipWith, x.size_entries, y.size_entries, h.1, Nat.min_self]⟩ := by
        simp [Tensor.zip?, h.1]
      refine ⟨_, by rw [zipBlocks?, hz, hzs]; rfl, by simp [hdims], ?_⟩
      have hsize : x.entries.size = y.entries.size := by
        rw [x.size_entries, y.size_entries, h.1]
      simp only [blockEntries, hentries]
      apply Array.ext'
      simp only [Array.toList_append, Array.toList_zipWith]
      rw [List.zipWith_append (by simpa using hsize)]

theorem zipBlocks?_cons_eq_some_iff {f : α → β → γ} {x : Tensor α} {y : Tensor β}
    {xs : List (Tensor α)} {ys : List (Tensor β)} {zs : List (Tensor γ)} :
    zipBlocks? f (x :: xs) (y :: ys) = some zs ↔
      ∃ z, Tensor.zip? f x y = some z ∧ ∃ rest, zipBlocks? f xs ys = some rest ∧ z :: rest = zs := by
  simp only [zipBlocks?, Option.bind_eq_bind, Option.bind_eq_some_iff, Option.some.injEq]

theorem dims_eq_of_zipBlocks? {f : α → β → γ} {xs : List (Tensor α)} {ys : List (Tensor β)}
    {zs : List (Tensor γ)} (h : zipBlocks? f xs ys = some zs) :
    xs.map (·.dims) = ys.map (·.dims) := by
  induction xs generalizing ys zs with
  | nil => cases ys with
    | nil => rfl
    | cons y ys => simp [zipBlocks?] at h
  | cons x xs ih => cases ys with
    | nil => simp [zipBlocks?] at h
    | cons y ys =>
      simp only [zipBlocks?, Option.bind_eq_bind, Option.bind_eq_some_iff] at h
      obtain ⟨t, ht, ts, hts, -⟩ := h
      have hdims : x.dims = y.dims := by
        unfold Tensor.zip? at ht
        split at ht
        · assumption
        · cases ht
      simp [hdims, ih hts]

/-- An elementwise combination has a result exactly for signals of one shape. -/
theorem zipMap_eq_ok {place : String} {f : α → β → γ} {x : Signal α} {y : Signal β}
    (h : x.shape = y.shape) :
    ∃ z, zipMap place f x y = .ok z ∧ z.shape = x.shape ∧
      z.entries = Array.zipWith f x.entries y.entries := by
  cases x with
  | flat s =>
    cases y with
    | flat t =>
      simp only [shape, Shape.flat.injEq] at h
      refine ⟨_, by simp only [zipMap, Tensor.zip?, h, dite_true, Option.map_some]; rfl, ?_, ?_⟩
      · simp [shape, h]
      · rfl
    | blocked ts => simp [shape] at h
  | blocked ss =>
    cases y with
    | flat t => simp [shape] at h
    | blocked ts =>
      simp only [shape, Shape.blocked.injEq] at h
      obtain ⟨zs, hzs, hdims, hentries⟩ := zipBlocks?_eq_some (f := f) h
      exact ⟨.blocked zs, by simp only [zipMap, hzs, Option.map_some],
        by simp only [shape, hdims], hentries⟩

theorem shape_eq_of_zipMap {place : String} {f : α → β → γ} {x : Signal α} {y : Signal β}
    {z : Signal γ} (h : zipMap place f x y = .ok z) : x.shape = y.shape := by
  cases x with
  | flat s =>
    cases y with
    | flat t =>
      by_cases hd : s.dims = t.dims
      · simp only [shape, hd]
      · simp [zipMap, Tensor.zip?, hd] at h
    | blocked ts => cases h
  | blocked ss =>
    cases y with
    | flat t => cases h
    | blocked ts =>
      cases hzip : zipBlocks? f ss ts with
      | some zs => simp only [shape, dims_eq_of_zipBlocks? hzip]
      | none => simp [zipMap, hzip] at h

/-- What is known of the result of an elementwise combination. -/
theorem zipMap_spec {place : String} {f : α → β → γ} {x : Signal α} {y : Signal β}
    {z : Signal γ} (h : zipMap place f x y = .ok z) :
    x.shape = y.shape ∧ z.shape = x.shape ∧ z.entries = Array.zipWith f x.entries y.entries := by
  have hshape := shape_eq_of_zipMap h
  obtain ⟨w, hw, hwshape, hwentries⟩ :
      ∃ w, zipMap place f x y = .ok w ∧ w.shape = x.shape ∧
        w.entries = Array.zipWith f x.entries y.entries := zipMap_eq_ok hshape
  rw [h] at hw
  cases hw
  exact ⟨hshape, hwshape, hwentries⟩

theorem exists_zipMap (place : String) (f : α → β → γ) {x : Signal α} {y : Signal β}
    (h : x.shape = y.shape) : ∃ z, zipMap place f x y = .ok z ∧ z.shape = x.shape :=
  (zipMap_eq_ok h).imp fun _ hz => ⟨hz.1, hz.2.1⟩

/-- Operations that agree on the elements of the second signal combine signals alike. -/
theorem zipMap_of_agree {place : String} {f g : α → β → γ} {x : Signal α} {y : Signal β}
    {z : Signal γ} (hfg : ∀ a, ∀ b ∈ y.entries, f a b = g a b) (h : zipMap place g x y = .ok z) :
    zipMap place f x y = .ok z := by
  obtain ⟨hshape, hzshape, hentries⟩ := zipMap_spec h
  obtain ⟨w, hw, hwshape, hwentries⟩ :
      ∃ w, zipMap place f x y = .ok w ∧ w.shape = x.shape ∧
        w.entries = Array.zipWith f x.entries y.entries := zipMap_eq_ok hshape
  rw [hw, ext_entries (hwshape.trans hzshape.symm)]
  rw [hwentries, hentries]
  apply Array.ext
  · simp
  · intro k _ _
    simp [hfg]

/-- An elementwise combination is one of two arrays or one of two lists of blocks. -/
theorem zipMap_cases {place : String} {f : α → β → γ} {x : Signal α} {y : Signal β}
    {z : Signal γ} (h : zipMap place f x y = .ok z) :
    (∃ s t r, x = .flat s ∧ y = .flat t ∧ z = .flat r ∧ Tensor.zip? f s t = some r) ∨
      ∃ ss ts rs, x = .blocked ss ∧ y = .blocked ts ∧ z = .blocked rs ∧
        zipBlocks? f ss ts = some rs := by
  cases x with
  | flat s =>
    cases y with
    | flat t =>
      cases hr : Tensor.zip? f s t with
      | none => simp [zipMap, hr] at h
      | some r =>
        simp only [zipMap, hr, Option.map_some, Except.ok.injEq] at h
        exact .inl ⟨s, t, r, rfl, rfl, h.symm, hr⟩
    | blocked ts => cases h
  | blocked ss =>
    cases y with
    | flat t => cases h
    | blocked ts =>
      cases hr : zipBlocks? f ss ts with
      | none => simp [zipMap, hr] at h
      | some rs =>
        simp only [zipMap, hr, Option.map_some, Except.ok.injEq] at h
        exact .inr ⟨ss, ts, rs, rfl, rfl, h.symm, hr⟩

end Signal

/-! ### Coordinates -/

namespace Signal

variable {K : Type} [ExactScalar K]

@[simp] theorem shape_scaled (x : Signal K) (s : K) : (x.scaled s).shape = x.shape := shape_map _ x

@[simp] theorem shape_neg (x : Signal K) : x.neg.shape = x.shape := shape_map _ x

@[simp] theorem shape_conj (x : Signal K) : x.conj.shape = x.shape := shape_map _ x

theorem shape_add {x y z : Signal K} (h : x.add y = .ok z) : z.shape = x.shape :=
  (zipMap_spec h).2.1

theorem exists_add {x y : Signal K} (h : x.shape = y.shape) :
    ∃ z, x.add y = .ok z ∧ z.shape = x.shape :=
  (zipMap_eq_ok h).imp fun _ hz => ⟨hz.1, hz.2.1⟩

theorem exists_sub {x y : Signal K} (h : x.shape = y.shape) :
    ∃ z, x.sub y = .ok z ∧ z.shape = x.shape :=
  (zipMap_eq_ok h).imp fun _ hz => ⟨hz.1, hz.2.1⟩

theorem exists_addScaled {x y : Signal K} (s : K) (h : x.shape = y.shape) :
    ∃ z, x.addScaled s y = .ok z ∧ z.shape = x.shape :=
  (zipMap_eq_ok h).imp fun _ hz => ⟨hz.1, hz.2.1⟩

/-- The complex value of an element; zero beyond the last one. -/
def coord (x : Signal K) (k : ℕ) : ℂ := val (x.entries.getD k 0)

theorem coord_of_size_le {x : Signal K} {k : ℕ} (h : x.size ≤ k) : x.coord k = 0 := by
  have hnone : x.entries.getD k 0 = 0 := by
    rw [Array.getD_eq_getD_getElem?, Array.getElem?_eq_none h, Option.getD_none]
  rw [coord, hnone, val_zero]

theorem coord_eq {x : Signal K} {k : ℕ} (hsize : k < x.entries.size) :
    x.coord k = val x.entries[k] := by
  rw [coord, Array.getD_eq_getD_getElem?, Array.getElem?_eq_getElem hsize, Option.getD_some]

/-- Signals of one shape are equal when their coordinates are. -/
theorem ext_coord {x y : Signal K} (hshape : x.shape = y.shape)
    (hcoord : ∀ k, x.coord k = y.coord k) : x = y := by
  apply ext_entries hshape
  apply Array.ext (size_eq_of_shape hshape)
  intro k hx hy
  apply val_injective
  rw [← coord_eq hx, ← coord_eq hy, hcoord]

theorem coord_zipMap {place : String} {f : K → K → K} {x y z : Signal K}
    (h : zipMap place f x y = .ok z) {k : ℕ} (hk : k < x.size) :
    z.coord k = val (f (x.entries.getD k 0) (y.entries.getD k 0)) := by
  obtain ⟨hshape, hzshape, hentries⟩ := zipMap_spec h
  have hx : k < x.entries.size := hk
  have hy : k < y.entries.size := hk.trans_eq (size_eq_of_shape hshape)
  rw [coord, hentries]
  simp [Array.getD_eq_getD_getElem?, hx, hy]

/-- The coordinates of a combination that sends zeros to zero are the combined coordinates. -/
theorem coord_zipMap_all {place : String} {f : K → K → K} {g : ℂ → ℂ → ℂ}
    (hfg : ∀ a b, val (f a b) = g (val a) (val b)) (hzero : g 0 0 = 0) {x y z : Signal K}
    (h : zipMap place f x y = .ok z) (k : ℕ) : z.coord k = g (x.coord k) (y.coord k) := by
  obtain ⟨hshape, hzshape, -⟩ := zipMap_spec h
  rcases Nat.lt_or_ge k x.size with hk | hk
  · rw [coord_zipMap h hk, hfg]
    rfl
  · rw [coord_of_size_le (size_eq_of_shape hzshape ▸ hk), coord_of_size_le hk,
      coord_of_size_le (size_eq_of_shape hshape ▸ hk), hzero]

theorem coord_add {x y z : Signal K} (h : x.add y = .ok z) (k : ℕ) :
    z.coord k = x.coord k + y.coord k :=
  coord_zipMap_all (g := fun a b => a + b) val_add (add_zero 0) h k

theorem coord_sub {x y z : Signal K} (h : x.sub y = .ok z) (k : ℕ) :
    z.coord k = x.coord k - y.coord k :=
  coord_zipMap_all (g := fun a b => a - b) val_sub (sub_zero 0) h k

theorem coord_addScaled {s : K} {x y z : Signal K} (h : x.addScaled s y = .ok z) (k : ℕ) :
    z.coord k = x.coord k + val s * y.coord k :=
  coord_zipMap_all (g := fun a b => a + val s * b) (by simp) (by simp) h k

theorem coord_map_of_lt (f : K → K) {x : Signal K} {k : ℕ} (hk : k < x.size) :
    (x.map f).coord k = val (f (x.entries.getD k 0)) := by
  have hx : k < x.entries.size := hk
  rw [coord, entries_map]
  simp [Array.getD_eq_getD_getElem?, hx]

theorem coord_map {f : K → K} {g : ℂ → ℂ} (hfg : ∀ a, val (f a) = g (val a)) (hzero : g 0 = 0)
    (x : Signal K) (k : ℕ) : (x.map f).coord k = g (x.coord k) := by
  rcases Nat.lt_or_ge k x.size with hk | hk
  · rw [coord_map_of_lt f hk, hfg]
    rfl
  · rw [coord_of_size_le (size_eq_of_shape (shape_map f x) ▸ hk), coord_of_size_le hk, hzero]

theorem coord_scaled (x : Signal K) (s : K) (k : ℕ) :
    (x.scaled s).coord k = x.coord k * val s :=
  coord_map (f := fun a => a * s) (g := fun a => a * val s) (by simp) (zero_mul _) x k

theorem coord_neg (x : Signal K) (k : ℕ) : x.neg.coord k = -x.coord k :=
  coord_map (f := fun a => -a) (g := fun a => -a) val_neg neg_zero x k

theorem coord_conj (x : Signal K) (k : ℕ) : x.conj.coord k = (starRingEnd ℂ) (x.coord k) :=
  coord_map (f := Scalar.conj) (g := starRingEnd ℂ) val_conj (map_zero _) x k

theorem coord_zeros (s : Shape) (k : ℕ) : (zeros s : Signal K).coord k = 0 := by
  have hmap : (zeros s : Signal K) = (zeros s : Signal K).map fun _ => 0 := by
    cases s with
    | flat dims =>
      simp only [zeros, replicate, map]
      congr 1
      simp [Tensor.map, Tensor.replicate]
    | blocked blocks =>
      simp only [zeros, replicate, map, List.map_map]
      congr 1
      apply List.map_congr_left
      intro dims _
      simp [Tensor.map, Tensor.replicate]
  rw [hmap]
  exact coord_map (f := fun _ => 0) (g := fun _ => 0) (by simp) rfl _ k

/-! ### The pairing -/

/-- The inner product of the coordinates, conjugate in the first signal. -/
def pairing (x y : Signal K) : ℂ :=
  ∑ k ∈ Finset.range x.size, (starRingEnd ℂ) (x.coord k) * y.coord k

/-- The checked inner product of two signals of one shape is their pairing. -/
theorem vdot_eq_ok {x y : Signal K} (h : x.shape = y.shape) :
    ∃ d, x.vdot y = .ok d ∧ val d = x.pairing y := by
  refine ⟨_, by rw [vdot, if_pos h], ?_⟩
  rw [map_sumEntries (φ := (val : K → ℂ)) val_zero val_add id 0, pairing]
  have hsize : x.entries.size = y.entries.size := size_eq_of_shape h
  rw [Array.size_zipWith, ← hsize, Nat.min_self]
  apply Finset.sum_congr rfl
  intro k hk
  have hx : k < x.entries.size := by simpa using hk
  have hy : k < y.entries.size := hsize ▸ hx
  simp [coord, Array.getD_eq_getD_getElem?, hx, hy]

theorem pairing_add_right {x u v w : Signal K} (h : u.add v = .ok w) :
    x.pairing w = x.pairing u + x.pairing v := by
  rw [pairing, pairing, pairing, ← Finset.sum_add_distrib]
  apply Finset.sum_congr rfl
  intro k _
  rw [coord_add h, mul_add]

theorem pairing_sub_right {x u v w : Signal K} (h : u.sub v = .ok w) :
    x.pairing w = x.pairing u - x.pairing v := by
  rw [pairing, pairing, pairing, ← Finset.sum_sub_distrib]
  apply Finset.sum_congr rfl
  intro k _
  rw [coord_sub h, mul_sub]

theorem pairing_scaled_right (x u : Signal K) (s : K) :
    x.pairing (u.scaled s) = x.pairing u * val s := by
  rw [pairing, pairing, Finset.sum_mul]
  apply Finset.sum_congr rfl
  intro k _
  rw [coord_scaled, mul_assoc]

theorem pairing_neg_right (x u : Signal K) : x.pairing u.neg = -x.pairing u := by
  rw [pairing, pairing, ← Finset.sum_neg_distrib]
  apply Finset.sum_congr rfl
  intro k _
  rw [coord_neg, mul_neg]

/-- Exchanging the two signals conjugates their pairing. -/
theorem pairing_symm {x y : Signal K} (h : x.shape = y.shape) :
    x.pairing y = (starRingEnd ℂ) (y.pairing x) := by
  rw [pairing, pairing, map_sum, size_eq_of_shape h]
  apply Finset.sum_congr rfl
  intro k _
  rw [map_mul, Complex.conj_conj, mul_comm]

theorem pairing_add_left {u v w y : Signal K} (h : u.add v = .ok w) (hy : u.shape = y.shape) :
    w.pairing y = u.pairing y + v.pairing y := by
  obtain ⟨huv, hwu, -⟩ := zipMap_spec h
  rw [pairing_symm (hwu.trans hy), pairing_add_right h, map_add, ← pairing_symm hy,
    ← pairing_symm (huv.symm.trans hy)]

theorem pairing_sub_left {u v w y : Signal K} (h : u.sub v = .ok w) (hy : u.shape = y.shape) :
    w.pairing y = u.pairing y - v.pairing y := by
  obtain ⟨huv, hwu, -⟩ := zipMap_spec h
  rw [pairing_symm (hwu.trans hy), pairing_sub_right h, map_sub, ← pairing_symm hy,
    ← pairing_symm (huv.symm.trans hy)]

theorem pairing_scaled_left {u y : Signal K} (s : K) (h : u.shape = y.shape) :
    (u.scaled s).pairing y = (starRingEnd ℂ) (val s) * u.pairing y := by
  rw [pairing_symm ((shape_scaled u s).trans h), pairing_scaled_right, map_mul, ← pairing_symm h,
    mul_comm]

theorem pairing_neg_left {u y : Signal K} (h : u.shape = y.shape) :
    u.neg.pairing y = -u.pairing y := by
  rw [pairing_symm ((shape_neg u).trans h), pairing_neg_right, map_neg, ← pairing_symm h]

theorem size_conj (x : Signal K) : x.conj.size = x.size := size_eq_of_shape (shape_conj x)

/-- Conjugation moves from one signal to the other. -/
theorem pairing_conj_left (x y : Signal K) :
    x.conj.pairing y = (starRingEnd ℂ) (x.pairing y.conj) := by
  rw [pairing, pairing, map_sum, size_conj]
  apply Finset.sum_congr rfl
  intro k _
  rw [coord_conj, coord_conj, map_mul, Complex.conj_conj, Complex.conj_conj]

end Signal

/-! ### The Hilbert space of vectors -/

/-- Square-summable complex sequences; vectors of all lengths are among them. -/
abbrev Vector : Type := lp (fun _ : ℕ => ℂ) 2

/-- Vectors have real inner products, and the norms are theirs. -/
instance : InnerProductSpace ℝ Vector := inferInstance

namespace Signal

variable {K : Type} [ExactScalar K]

theorem memℓp_coord (x : Signal K) : Memℓp (E := fun _ : ℕ => ℂ) x.coord 2 := by
  apply memℓp_gen
  apply summable_of_ne_finset_zero (s := Finset.range x.size)
  intro k hk
  rw [coord_of_size_le (by simpa using hk)]
  simp

/-- The signal as a vector. -/
def vec (x : Signal K) : Vector := ⟨x.coord, x.memℓp_coord⟩

@[simp] theorem vec_apply (x : Signal K) (k : ℕ) : x.vec k = x.coord k := rfl

theorem vec_injective {x y : Signal K} (hshape : x.shape = y.shape) (h : x.vec = y.vec) : x = y := by
  apply ext_coord hshape
  intro k
  rw [← vec_apply, h, vec_apply]

theorem vec_add {x y z : Signal K} (h : x.add y = .ok z) : z.vec = x.vec + y.vec := by
  ext k
  exact coord_add h k

theorem vec_sub {x y z : Signal K} (h : x.sub y = .ok z) : z.vec = x.vec - y.vec := by
  ext k
  exact coord_sub h k

theorem vec_addScaled {r : ℝ} {x y z : Signal K} (h : x.addScaled (Scalar.ofReal r) y = .ok z) :
    z.vec = x.vec + r • y.vec := by
  ext k
  rw [vec_apply, coord_addScaled h, val_ofReal]
  rfl

theorem vec_scaled (x : Signal K) (r : ℝ) : (x.scaled (Scalar.ofReal r)).vec = r • x.vec := by
  ext k
  rw [vec_apply, coord_scaled, val_ofReal, mul_comm]
  rfl

theorem vec_zeros (s : Shape) : (zeros s : Signal K).vec = 0 := by
  ext k
  exact coord_zeros s k

/-- The complex inner product of two vectors is the pairing. -/
theorem inner_complex_vec (x y : Signal K) : inner ℂ x.vec y.vec = x.pairing y := by
  rw [lp.inner_eq_tsum, tsum_eq_sum (s := Finset.range x.size), pairing]
  · apply Finset.sum_congr rfl
    intro k _
    rw [vec_apply, vec_apply, RCLike.inner_apply, mul_comm]
  · intro k hk
    rw [vec_apply, coord_of_size_le (by simpa using hk), inner_zero_left]

/-- The real inner product of two vectors is the real part of the pairing. -/
theorem inner_vec (x y : Signal K) : inner ℝ x.vec y.vec = (x.pairing y).re := by
  rw [lp.inner_eq_tsum, tsum_eq_sum (s := Finset.range x.size), pairing, Complex.re_sum]
  · apply Finset.sum_congr rfl
    intro k _
    rw [vec_apply, vec_apply, Complex.inner, mul_comm]
  · intro k hk
    rw [vec_apply, coord_of_size_le (by simpa using hk)]
    simp

theorem normSqr_eq (x : Signal K) : x.normSqr = ‖x.vec‖ ^ 2 := by
  rw [← real_inner_self_eq_norm_sq, inner_vec, pairing, Complex.re_sum]
  rw [normSqr, map_sumEntries (φ := fun r : ℝ => r) rfl (fun _ _ => rfl) Scalar.modulusSqr 0]
  apply Finset.sum_congr rfl
  intro k _
  rw [modulusSqr_eq, coord, Complex.conj_mul', ← Complex.ofReal_pow, Complex.ofReal_re]

theorem norm_eq (x : Signal K) : x.norm = ‖x.vec‖ := by
  show √x.normSqr = _
  rw [normSqr_eq, Real.sqrt_sq (norm_nonneg _)]

/-- A signal is determined by its inner products with the signals of its shape. -/
theorem eq_of_inner {x y : Signal K} (hshape : x.shape = y.shape)
    (h : ∀ v : Signal K, v.shape = x.shape → inner ℝ v.vec x.vec = inner ℝ v.vec y.vec) : x = y := by
  obtain ⟨d, hd, hdshape⟩ := exists_sub hshape
  have hself : inner ℝ d.vec (x.vec - y.vec) = 0 := by
    rw [inner_sub_right, h d hdshape, sub_self]
  rw [← vec_sub hd] at hself
  have hzero : x.vec - y.vec = 0 := (vec_sub hd).symm.trans (inner_self_eq_zero.mp hself)
  exact vec_injective hshape (sub_eq_zero.mp hzero)

/-! ### Arrays of one number -/

/-- The array of one number. -/
def single (r : ℝ) : Signal ℝ := .flat ⟨[1], #[r], rfl⟩

theorem zipMap_single (place : String) (f : ℝ → ℝ → ℝ) (a b : ℝ) :
    zipMap place f (single a) (single b) = .ok (single (f a b)) := by
  simp [Signal.zipMap, single, Tensor.zip?]

theorem map_single (f : ℝ → ℝ) (a : ℝ) : (single a).map f = single (f a) := by
  simp [single, Signal.map, Tensor.map]

theorem normSqr_single (a : ℝ) : (single a).normSqr = a * a := by
  simp [Signal.normSqr, single, sumEntries, Signal.entries, Scalar.modulusSqr]

theorem norm_vec_sub_sq_single (a b : ℝ) : ‖(single a).vec - (single b).vec‖ ^ 2 = (a - b) ^ 2 := by
  have hsub : (single a).sub (single b) = .ok (single (a - b)) := zipMap_single _ _ _ _
  rw [← vec_sub hsub, ← normSqr_eq, normSqr_single, sq]

theorem zeros_vector_one : (zeros (.vector 1) : Signal ℝ) = single 0 := by
  simp [zeros, replicate, single, Shape.vector, Tensor.replicate, volume]

theorem vec_single_zero : (single 0).vec = 0 := by
  rw [← zeros_vector_one, vec_zeros]

theorem single_injective : Function.Injective single := by
  intro a b h
  have := congrArg Signal.entries h
  simpa [single, Signal.entries] using this

/-! ### Arrays of two numbers -/

/-- The array of two numbers. -/
def pair (r s : ℝ) : Signal ℝ := .flat ⟨[2], #[r, s], rfl⟩

theorem zipMap_pair (place : String) (f : ℝ → ℝ → ℝ) (a b c d : ℝ) :
    zipMap place f (pair a b) (pair c d) = .ok (pair (f a c) (f b d)) := by
  simp [Signal.zipMap, pair, Tensor.zip?]

theorem map_pair (f : ℝ → ℝ) (a b : ℝ) : (pair a b).map f = pair (f a) (f b) := by
  simp [pair, Signal.map, Tensor.map]

theorem normSqr_pair (a b : ℝ) : (pair a b).normSqr = a * a + b * b := by
  simp [Signal.normSqr, pair, sumEntries, Signal.entries, Scalar.modulusSqr]

theorem zeros_vector_two : (zeros (.vector 2) : Signal ℝ) = pair 0 0 := by
  simp [zeros, replicate, pair, Shape.vector, Tensor.replicate, volume]
  rfl

theorem vdot_pair (a b c d : ℝ) : (pair a b).vdot (pair c d) = .ok (a * c + b * d) := by
  simp [Signal.vdot, Signal.shape, pair, sumEntries, Signal.entries, Scalar.conj]

end Signal

end

end OperatorSplitting
