import Mathlib
import OperatorSplitting.Proofs.Exact.Pairing

/-!
# Maps and their adjoints

An operator is evaluated by a map that may fail.  What is asked of such a map is that its results
have the output shape, and that the shape of the argument alone decides whether there is a result.
Two maps in opposite directions are adjoint if the pairing moves from one to the other wherever both
have results.

Adjoint maps are closed under everything from which operator expressions are built: exchange of the
two directions, sums, multiples, composition and conjugation.
-/

namespace OperatorSplitting

open ExactScalar

/-- A map of signals that may fail. -/
abbrev PartialMap (K : Type) := Signal K → Except Error (Signal K)

/-- Results have the output shape, and whether there is a result is decided by the input shape. -/
structure ShapedMap {K : Type} (f : PartialMap K) (input output : Shape) : Prop where
  shape_eq : ∀ {x u : Signal K}, x.shape = input → f x = .ok u → u.shape = output
  uniform : ∀ {x u x' : Signal K}, x.shape = input → f x = .ok u → x'.shape = input →
    ∃ u', f x' = .ok u'

/-- The map has a result at every signal of the input shape. -/
def TotalOn {K : Type} (f : PartialMap K) (input : Shape) : Prop :=
  ∀ x : Signal K, x.shape = input → ∃ u, f x = .ok u

/-- Two maps in opposite directions between which the pairing moves. -/
structure AdjointMaps {K : Type} [ExactScalar K] (f g : PartialMap K) (input output : Shape) :
    Prop where
  forward : ShapedMap f input output
  backward : ShapedMap g output input
  pairing_eq : ∀ {x y u v : Signal K}, x.shape = input → y.shape = output → f x = .ok u →
    g y = .ok v → y.pairing u = v.pairing x

variable {K : Type} {f g f' g' : PartialMap K} {input middle output : Shape}

theorem Except.bind_eq_ok_iff {α β : Type} {r : Except Error α} {k : α → Except Error β} {b : β} :
    (r >>= k) = .ok b ↔ ∃ a, r = .ok a ∧ k a = .ok b := by
  cases r with
  | error e =>
    constructor
    · intro h
      cases h
    · rintro ⟨_, h, _⟩
      cases h
  | ok a =>
    constructor
    · intro h
      exact ⟨a, rfl, h⟩
    · rintro ⟨_, ⟨rfl⟩, h⟩
      exact h

theorem Except.map_eq_ok_iff {α β : Type} {r : Except Error α} {k : α → β} {b : β} :
    r.map k = .ok b ↔ ∃ a, r = .ok a ∧ k a = b := by
  cases r with
  | error e =>
    constructor
    · intro h
      cases h
    · rintro ⟨_, h, _⟩
      cases h
  | ok a => simp [Except.map]

@[simp] theorem orMisuse_eq_ok_iff {α : Type} {r : Option α} {a : α} :
    orMisuse r = .ok a ↔ r = some a := by
  cases r <;> simp [orMisuse]

/-- A map whose results are combined elementwise keeps the shape. -/
theorem Signal.shape_of_zipMap {place : String} {h : K → K → K} {x y z : Signal K}
    (hz : Signal.zipMap place h x y = .ok z) : z.shape = x.shape := (Signal.zipMap_spec hz).2.1

/-! ### Shaped maps -/

namespace ShapedMap

theorem ofTotal (hshape : ∀ {x u : Signal K}, x.shape = input → f x = .ok u → u.shape = output)
    (htotal : TotalOn f input) : ShapedMap f input output :=
  ⟨hshape, fun _ _ hx' => htotal _ hx'⟩

theorem comp (hf : ShapedMap f middle output) (hg : ShapedMap g input middle) :
    ShapedMap (fun x => g x >>= f) input output where
  shape_eq hx h := by
    obtain ⟨u, hu, hv⟩ := Except.bind_eq_ok_iff.mp h
    exact hf.shape_eq (hg.shape_eq hx hu) hv
  uniform hx h hx' := by
    obtain ⟨u, hu, hv⟩ := Except.bind_eq_ok_iff.mp h
    obtain ⟨u', hu'⟩ := hg.uniform hx hu hx'
    obtain ⟨v', hv'⟩ := hf.uniform (hg.shape_eq hx hu) hv (hg.shape_eq hx' hu')
    exact ⟨v', Except.bind_eq_ok_iff.mpr ⟨u', hu', hv'⟩⟩

theorem zipMap (place : String) (h : K → K → K) (hf : ShapedMap f input output)
    (hg : ShapedMap g input output) :
    ShapedMap (fun x => f x >>= fun u => g x >>= fun v => Signal.zipMap place h u v) input
      output where
  shape_eq hx hz := by
    obtain ⟨u, hu, hz⟩ := Except.bind_eq_ok_iff.mp hz
    obtain ⟨v, hv, hz⟩ := Except.bind_eq_ok_iff.mp hz
    exact (Signal.shape_of_zipMap hz).trans (hf.shape_eq hx hu)
  uniform hx hz hx' := by
    obtain ⟨u, hu, hz⟩ := Except.bind_eq_ok_iff.mp hz
    obtain ⟨v, hv, -⟩ := Except.bind_eq_ok_iff.mp hz
    obtain ⟨u', hu'⟩ := hf.uniform hx hu hx'
    obtain ⟨v', hv'⟩ := hg.uniform hx hv hx'
    obtain ⟨w, hw, -⟩ : ∃ w, Signal.zipMap place h u' v' = .ok w ∧ w.shape = u'.shape ∧
        w.entries = Array.zipWith h u'.entries v'.entries :=
      Signal.zipMap_eq_ok ((hf.shape_eq hx' hu').trans (hg.shape_eq hx' hv').symm)
    exact ⟨w, Except.bind_eq_ok_iff.mpr ⟨u', hu', Except.bind_eq_ok_iff.mpr ⟨v', hv', hw⟩⟩⟩

/-- The elements of the result and of the argument may be changed one by one. -/
theorem map (before after : K → K) (hf : ShapedMap f input output) :
    ShapedMap (fun x => (f (x.map before)).map (Signal.map after)) input output where
  shape_eq hx h := by
    obtain ⟨u, hu, rfl⟩ := Except.map_eq_ok_iff.mp h
    rw [Signal.shape_map]
    exact hf.shape_eq ((Signal.shape_map before _).trans hx) hu
  uniform hx h hx' := by
    obtain ⟨u, hu, -⟩ := Except.map_eq_ok_iff.mp h
    obtain ⟨u', hu'⟩ := hf.uniform ((Signal.shape_map before _).trans hx) hu
      ((Signal.shape_map before _).trans hx')
    exact ⟨_, Except.map_eq_ok_iff.mpr ⟨u', hu', rfl⟩⟩

/-- The elements of the result may be changed one by one. -/
theorem mapResult (after : K → K) (hf : ShapedMap f input output) :
    ShapedMap (fun x => (f x).map (Signal.map after)) input output where
  shape_eq hx h := by
    obtain ⟨u, hu, rfl⟩ := Except.map_eq_ok_iff.mp h
    rw [Signal.shape_map]
    exact hf.shape_eq hx hu
  uniform hx h hx' := by
    obtain ⟨u, hu, -⟩ := Except.map_eq_ok_iff.mp h
    obtain ⟨u', hu'⟩ := hf.uniform hx hu hx'
    exact ⟨_, Except.map_eq_ok_iff.mpr ⟨u', hu', rfl⟩⟩

end ShapedMap

/-! ### Adjoint maps -/

namespace AdjointMaps

variable [ExactScalar K]

/-- The adjoint of the adjoint is the map itself. -/
theorem flip (h : AdjointMaps f g input output) : AdjointMaps g f output input where
  forward := h.backward
  backward := h.forward
  pairing_eq {x y u v} hx hy hu hv := by
    have hxv : x.shape = v.shape := hx.trans (h.forward.shape_eq hy hv).symm
    have hyu : y.shape = u.shape := hy.trans (h.backward.shape_eq hx hu).symm
    rw [Signal.pairing_symm hyu, ← h.pairing_eq hy hx hv hu, Signal.pairing_symm hxv,
      Complex.conj_conj]

theorem comp (hf : AdjointMaps f g middle output) (hf' : AdjointMaps f' g' input middle) :
    AdjointMaps (fun x => f' x >>= f) (fun y => g y >>= g') input output where
  forward := hf.forward.comp hf'.forward
  backward := hf'.backward.comp hf.backward
  pairing_eq hx hy hu hv := by
    obtain ⟨p, hp, hu⟩ := Except.bind_eq_ok_iff.mp hu
    obtain ⟨q, hq, hv⟩ := Except.bind_eq_ok_iff.mp hv
    rw [hf.pairing_eq (hf'.forward.shape_eq hx hp) hy hu hq,
      hf'.pairing_eq hx (hf.backward.shape_eq hy hq) hp hv]

theorem add (hf : AdjointMaps f g input output) (hf' : AdjointMaps f' g' input output) :
    AdjointMaps (fun x => f x >>= fun u => f' x >>= fun v => u.add v)
      (fun y => g y >>= fun u => g' y >>= fun v => u.add v) input output where
  forward := hf.forward.zipMap _ _ hf'.forward
  backward := hf.backward.zipMap _ _ hf'.backward
  pairing_eq {x y s t} hx hy hs ht := by
    obtain ⟨u, hu, hs⟩ := Except.bind_eq_ok_iff.mp hs
    obtain ⟨u', hu', hs⟩ := Except.bind_eq_ok_iff.mp hs
    obtain ⟨v, hv, ht⟩ := Except.bind_eq_ok_iff.mp ht
    obtain ⟨v', hv', ht⟩ := Except.bind_eq_ok_iff.mp ht
    have hvx : v.shape = x.shape := (hf.backward.shape_eq hy hv).trans hx.symm
    rw [Signal.pairing_add_right hs, hf.pairing_eq hx hy hu hv, hf'.pairing_eq hx hy hu' hv',
      Signal.pairing_add_left ht hvx]

theorem sub (hf : AdjointMaps f g input output) (hf' : AdjointMaps f' g' input output) :
    AdjointMaps (fun x => f x >>= fun u => f' x >>= fun v => u.sub v)
      (fun y => g y >>= fun u => g' y >>= fun v => u.sub v) input output where
  forward := hf.forward.zipMap _ _ hf'.forward
  backward := hf.backward.zipMap _ _ hf'.backward
  pairing_eq {x y s t} hx hy hs ht := by
    obtain ⟨u, hu, hs⟩ := Except.bind_eq_ok_iff.mp hs
    obtain ⟨u', hu', hs⟩ := Except.bind_eq_ok_iff.mp hs
    obtain ⟨v, hv, ht⟩ := Except.bind_eq_ok_iff.mp ht
    obtain ⟨v', hv', ht⟩ := Except.bind_eq_ok_iff.mp ht
    have hvx : v.shape = x.shape := (hf.backward.shape_eq hy hv).trans hx.symm
    rw [Signal.pairing_sub_right hs, hf.pairing_eq hx hy hu hv, hf'.pairing_eq hx hy hu' hv',
      Signal.pairing_sub_left ht hvx]

/-- A multiple has the conjugate multiple as its adjoint. -/
theorem scaled (hf : AdjointMaps f g input output) (s : K) :
    AdjointMaps (fun x => (f x).map (·.scaled s)) (fun y => (g y).map (·.scaled (Scalar.conj s)))
      input output where
  forward := hf.forward.mapResult _
  backward := hf.backward.mapResult _
  pairing_eq {x y s t} hx hy hs ht := by
    obtain ⟨u, hu, rfl⟩ := Except.map_eq_ok_iff.mp hs
    obtain ⟨v, hv, rfl⟩ := Except.map_eq_ok_iff.mp ht
    have hvx : v.shape = x.shape := (hf.backward.shape_eq hy hv).trans hx.symm
    rw [Signal.pairing_scaled_right, hf.pairing_eq hx hy hu hv, Signal.pairing_scaled_left _ hvx,
      val_conj, Complex.conj_conj, mul_comm]

theorem neg (hf : AdjointMaps f g input output) :
    AdjointMaps (fun x => (f x).map (·.neg)) (fun y => (g y).map (·.neg)) input output where
  forward := hf.forward.mapResult _
  backward := hf.backward.mapResult _
  pairing_eq {x y s t} hx hy hs ht := by
    obtain ⟨u, hu, rfl⟩ := Except.map_eq_ok_iff.mp hs
    obtain ⟨v, hv, rfl⟩ := Except.map_eq_ok_iff.mp ht
    have hvx : v.shape = x.shape := (hf.backward.shape_eq hy hv).trans hx.symm
    rw [Signal.pairing_neg_right, hf.pairing_eq hx hy hu hv, Signal.pairing_neg_left hvx]

/-- A map between two conjugations. -/
theorem conj (hf : AdjointMaps f g input output) :
    AdjointMaps (fun x => (f x.conj).map (·.conj)) (fun y => (g y.conj).map (·.conj)) input
      output where
  forward := hf.forward.map _ _
  backward := hf.backward.map _ _
  pairing_eq {x y s t} hx hy hs ht := by
    obtain ⟨u, hu, rfl⟩ := Except.map_eq_ok_iff.mp hs
    obtain ⟨v, hv, rfl⟩ := Except.map_eq_ok_iff.mp ht
    have hx' : x.conj.shape = input := (Signal.shape_map _ _).trans hx
    have hy' : y.conj.shape = output := (Signal.shape_map _ _).trans hy
    have hmove := hf.pairing_eq hx' hy' hu hv
    rw [Signal.pairing_conj_left] at hmove
    rw [Signal.pairing_conj_left, ← hmove, Complex.conj_conj]

/-- Where the map has results, the pairing leaves the adjoint no choice. -/
theorem eq_of_pairing (h : AdjointMaps f g input output) {y v v' : Signal K}
    (hy : y.shape = output) (hv : g y = .ok v) (hv' : v'.shape = input)
    (hpairing : ∀ x : Signal K, x.shape = input → ∃ u, f x = .ok u ∧ y.pairing u = v'.pairing x) :
    v = v' := by
  have hvshape := h.backward.shape_eq hy hv
  refine Signal.eq_of_inner (hvshape.trans hv'.symm) fun x hx => ?_
  obtain ⟨u, hu, hmove⟩ := hpairing x (hx.trans hvshape)
  rw [real_inner_comm, Signal.inner_vec, ← h.pairing_eq (hx.trans hvshape) hy hu hv, hmove,
    ← Signal.inner_vec, real_inner_comm]

end AdjointMaps

/-! ### Total maps -/

namespace TotalOn

theorem comp (hf : TotalOn f middle) (hg : TotalOn g input) (hs : ShapedMap g input middle) :
    TotalOn (fun x => g x >>= f) input := by
  intro x hx
  obtain ⟨u, hu⟩ := hg x hx
  obtain ⟨v, hv⟩ := hf u (hs.shape_eq hx hu)
  exact ⟨v, Except.bind_eq_ok_iff.mpr ⟨u, hu, hv⟩⟩

theorem zipMap (place : String) (h : K → K → K) (hf : TotalOn f input) (hg : TotalOn g input)
    (hsf : ShapedMap f input output) (hsg : ShapedMap g input output) :
    TotalOn (fun x => f x >>= fun u => g x >>= fun v => Signal.zipMap place h u v) input := by
  intro x hx
  obtain ⟨u, hu⟩ := hf x hx
  obtain ⟨v, hv⟩ := hg x hx
  obtain ⟨w, hw, -⟩ : ∃ w, Signal.zipMap place h u v = .ok w ∧ w.shape = u.shape ∧
      w.entries = Array.zipWith h u.entries v.entries :=
    Signal.zipMap_eq_ok ((hsf.shape_eq hx hu).trans (hsg.shape_eq hx hv).symm)
  exact ⟨w, Except.bind_eq_ok_iff.mpr ⟨u, hu, Except.bind_eq_ok_iff.mpr ⟨v, hv, hw⟩⟩⟩

theorem map (before after : K → K) (hf : TotalOn f input) :
    TotalOn (fun x => (f (x.map before)).map (Signal.map after)) input := by
  intro x hx
  obtain ⟨u, hu⟩ := hf (x.map before) ((Signal.shape_map before x).trans hx)
  exact ⟨_, Except.map_eq_ok_iff.mpr ⟨u, hu, rfl⟩⟩

theorem mapResult (after : K → K) (hf : TotalOn f input) :
    TotalOn (fun x => (f x).map (Signal.map after)) input := by
  intro x hx
  obtain ⟨u, hu⟩ := hf x hx
  exact ⟨_, Except.map_eq_ok_iff.mpr ⟨u, hu, rfl⟩⟩

end TotalOn

end OperatorSplitting
