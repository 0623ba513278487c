import Mathlib
import OperatorSplitting.Proofs.Tensor.Broadcasting

/-!
# Entries of the results of tensor operations

Each operation has a result under a condition on extents alone, and then the result is given entry by
entry: `op = some r ↔ condition ∧ r = …`, where the right-hand side is an array made from a function
on indices.  Everything that is known of an operation is in its equivalence; whether an operation
succeeds never depends on the entries of its operands.
-/

namespace OperatorSplitting

/-- The entry at an index of the array in a place of a list. -/
def layerEntry {α : Type} [Zero α] (us : List (Tensor α)) (k : ℕ) (idx : List ℕ) : α :=
  match us[k]? with
  | some u => u.entry idx
  | none => 0

namespace Tensor

variable {α β γ : Type}

theorem ofFn_congr {dims : List ℕ} {f g : List ℕ → α}
    (h : ∀ idx, InBox dims idx → f idx = g idx) : ofFn dims f = ofFn dims g := by
  have hentries : (Array.ofFn fun k : Fin (volume dims) => f (indexAt dims k)) =
      Array.ofFn fun k : Fin (volume dims) => g (indexAt dims k) := by
    congr 1
    funext k
    exact h _ (inBox_indexAt k.isLt)
  simp only [ofFn, hentries]

variable [Zero α] [Zero β] [Zero γ]

/-- An array is made from its own entries. -/
theorem ofFn_entry (t : Tensor α) : ofFn t.dims t.entry = t := by
  apply ext_entry (dims_ofFn _ _)
  intro idx hidx
  exact entry_ofFn t.entry hidx

theorem entry_map (f : α → β) {t : Tensor α} {idx : List ℕ} (h : InBox t.dims idx) :
    (t.map f).entry idx = f (t.entry idx) := by
  have hlt : offset t.dims idx < t.entries.size := t.size_entries ▸ offset_lt h
  simp [entry, map, hlt]

theorem map_eq_ofFn (f : α → β) (t : Tensor α) : t.map f = ofFn t.dims fun idx => f (t.entry idx) := by
  refine ext_entry (s := t.map f) rfl fun idx hidx => ?_
  have hidx' : InBox t.dims idx := hidx
  rw [entry_map f hidx', entry_ofFn _ hidx']

theorem entry_ofArray (a : Array α) (i : ℕ) : (ofArray a).entry [i] = a.getD i 0 := by
  have hoffset : offset [a.size] [i] = i := by simp [offset, volume]
  exact congrArg (a.getD · 0) hoffset

/-- An array with one axis is the vector of its entries. -/
theorem ofFn_eq_ofArray {f : List ℕ → α} {a : Array α} (h : ∀ i < a.size, f [i] = a.getD i 0) :
    ofFn [a.size] f = ofArray a := by
  refine ext_entry rfl fun idx (hidx : InBox [a.size] idx) => ?_
  rw [entry_ofFn _ hidx]
  cases idx with
  | nil => exact absurd hidx id
  | cons i is =>
    obtain ⟨hi, his⟩ := hidx
    rw [inBox_nil_iff.mp his, h i hi, entry_ofArray]

theorem zip?_eq_some_iff {f : α → β → γ} {a : Tensor α} {b : Tensor β} {r : Tensor γ} :
    zip? f a b = some r ↔
      a.dims = b.dims ∧ r = ofFn a.dims fun idx => f (a.entry idx) (b.entry idx) := by
  unfold zip?
  by_cases h : a.dims = b.dims
  · rw [dif_pos h]
    have hsize : a.entries.size = b.entries.size := by rw [a.size_entries, b.size_entries, h]
    have heq : (⟨a.dims, Array.zipWith f a.entries b.entries, by
        rw [Array.size_zipWith, a.size_entries, b.size_entries, h, Nat.min_self]⟩ : Tensor γ) =
        ofFn a.dims fun idx => f (a.entry idx) (b.entry idx) := by
      refine ext_entry (show a.dims = _ from rfl) fun idx hidx => ?_
      have hidx' : InBox a.dims idx := hidx
      have ha : offset a.dims idx < a.entries.size := a.size_entries ▸ offset_lt hidx'
      rw [entry_ofFn _ hidx']
      simp [entry, ← h, ha, ← hsize]
    simp only [h, true_and, Option.some.injEq] at heq ⊢
    rw [heq, eq_comm]
  · simp [h]

omit [Zero α] in
theorem build?_eq_some_iff {dims : List ℕ} {f : List ℕ → α} {r : Tensor α} :
    build? dims f = some r ↔ Storable dims ∧ r = ofFn dims f := by
  unfold build?
  by_cases h : Storable dims
  · simp [h, eq_comm]
  · simp [h]

/-- The array read as one of larger extents. -/
def stretched (t : Tensor α) (dims : List ℕ) : Tensor α :=
  ofFn dims fun idx => t.entry (project t.dims idx)

theorem entry_stretched {t : Tensor α} {dims idx : List ℕ} (h : InBox dims idx) :
    (t.stretched dims).entry idx = t.entry (project t.dims idx) := entry_ofFn _ h

theorem stretched_self (t : Tensor α) : t.stretched t.dims = t := by
  conv_rhs => rw [← ofFn_entry t]
  exact ofFn_congr fun idx hidx => by rw [project_self hidx]

/-- An array of some extents can be read as one of others: either nothing is to be done, or there is
room for the result. -/
def CanStretch (dims target : List ℕ) : Prop :=
  dims = target ∨ stretches dims target = true ∧ Storable target

theorem stretch?_eq_some_iff {t : Tensor α} {dims : List ℕ} {r : Tensor α} :
    t.stretch? dims = some r ↔ CanStretch t.dims dims ∧ r = t.stretched dims := by
  unfold stretch? CanStretch
  by_cases h : t.dims = dims
  · rw [if_pos h]
    have hself : t = t.stretched dims := by rw [← h, stretched_self]
    rw [← hself]
    exact ⟨fun hr => ⟨.inl h, (Option.some.inj hr).symm⟩, fun hr => by rw [hr.2]⟩
  · by_cases hs : stretches t.dims dims = true
    · simp only [h, hs, if_true, if_false, build?_eq_some_iff, true_and, false_or]
      rfl
    · simp [h, hs]

theorem stretch?_ofFn (dims : List ℕ) (f : List ℕ → α) :
    (ofFn dims f).stretch? dims = some (ofFn dims f) := by
  rw [stretch?]
  exact if_pos rfl

theorem CanStretch.stretches {dims target : List ℕ} (h : CanStretch dims target) :
    stretches dims target = true := by
  rcases h with rfl | h
  · exact stretches_refl dims
  · exact h.1

/-- Arrays can be combined after stretching. -/
theorem zipStretched?_eq_some_iff {f : α → β → γ} {a : Tensor α} {b : Tensor β} {r : Tensor γ} :
    zipStretched? f a b = some r ↔
      ∃ dims, broadcastDims a.dims b.dims = some dims ∧ CanStretch a.dims dims ∧
        CanStretch b.dims dims ∧
        r = ofFn dims fun idx =>
          f (a.entry (project a.dims idx)) (b.entry (project b.dims idx)) := by
  unfold zipStretched?
  simp only [Option.bind_eq_bind, Option.bind_eq_some_iff, stretch?_eq_some_iff, zip?_eq_some_iff]
  constructor
  · rintro ⟨dims, hdims, _, ⟨ha, rfl⟩, _, ⟨hb, rfl⟩, -, rfl⟩
    refine ⟨dims, hdims, ha, hb, ofFn_congr fun idx (hidx : InBox dims idx) => ?_⟩
    rw [entry_stretched hidx, entry_stretched hidx]
  · rintro ⟨dims, hdims, ha, hb, rfl⟩
    refine ⟨dims, hdims, _, ⟨ha, rfl⟩, _, ⟨hb, rfl⟩, rfl, ofFn_congr fun idx hidx => ?_⟩
    rw [entry_stretched hidx, entry_stretched hidx]

theorem zipStretched?_of_dims_eq {f : α → β → γ} {a : Tensor α} {b : Tensor β}
    (h : a.dims = b.dims) :
    zipStretched? f a b = some (ofFn a.dims fun idx => f (a.entry idx) (b.entry idx)) := by
  rw [zipStretched?_eq_some_iff]
  refine ⟨a.dims, by rw [← h, broadcastDims_self], .inl rfl, .inl h.symm, ?_⟩
  exact ofFn_congr fun idx hidx => by rw [project_self hidx, ← h, project_self hidx]

theorem zipStretched?_ofFn {dims : List ℕ} (f : α → β → γ) (s : List ℕ → α) (t : List ℕ → β) :
    zipStretched? f (ofFn dims s) (ofFn dims t) = some (ofFn dims fun idx => f (s idx) (t idx)) := by
  have hdims : (ofFn dims s).dims = (ofFn dims t).dims := rfl
  rw [zipStretched?_of_dims_eq hdims]
  congr 1
  refine ofFn_congr fun idx (hidx : InBox dims idx) => ?_
  rw [entry_ofFn _ hidx, entry_ofFn _ hidx]

theorem take?_eq_some_iff {t r : Tensor α} {axis position : ℕ} :
    t.take? axis position = some r ↔
      axis < t.rank ∧ ∃ place, cutPlace? (t.extent axis) position = some place ∧
        r = ofFn (t.dims.set axis place) t.entry := by
  unfold take?
  simp only [Option.bind_eq_bind, Option.bind_eq_some_iff]
  by_cases h : axis < t.rank
  · simp [h, eq_comm]
  · simp [h]

theorem drop?_eq_some_iff {t r : Tensor α} {axis position : ℕ} :
    t.drop? axis position = some r ↔
      axis < t.rank ∧ ∃ place, cutPlace? (t.extent axis) position = some place ∧
        r = ofFn (t.dims.set axis (t.extent axis - place)) fun idx =>
          t.entry (idx.modify axis (· + place)) := by
  unfold drop?
  simp only [Option.bind_eq_bind, Option.bind_eq_some_iff]
  by_cases h : axis < t.rank
  · simp [h, eq_comm]
  · simp [h]

theorem layer?_eq_some_iff {t r : Tensor α} {k d : ℕ} {ds : List ℕ} (h : t.dims = d :: ds) :
    t.layer? k = some r ↔ k < d ∧ r = ofFn ds fun idx => t.entry (k :: idx) := by
  unfold layer?
  rw [h]
  by_cases hk : k < d
  · simp [hk, eq_comm]
  · simp [hk]

theorem join_eq_ok_iff {axis : ℕ} {a b r : Tensor α} :
    join axis a b = .ok r ↔
      axis < a.rank ∧ a.dims.set axis 0 = b.dims.set axis 0 ∧
        Addressable (a.dims.set axis (a.extent axis + b.extent axis)) ∧
        r = ofFn (a.dims.set axis (a.extent axis + b.extent axis)) fun idx =>
          if idx.getD axis 0 < a.extent axis then a.entry idx
          else b.entry (idx.set axis (idx.getD axis 0 - a.extent axis)) := by
  unfold join
  dsimp only
  by_cases hfit : axis < a.rank ∧ a.dims.set axis 0 = b.dims.set axis 0
  · rw [if_pos hfit]
    by_cases hroom : Addressable (a.dims.set axis (a.extent axis + b.extent axis))
    · simp [hfit.1, hfit.2, hroom, eq_comm]
    · simp [hroom]
  · rw [if_neg hfit]
    constructor
    · intro h
      cases h
    · rintro ⟨haxis, hdims, -⟩
      exact absurd ⟨haxis, hdims⟩ hfit

/-- The entry at an index of the stack of some arrays. -/
def stackEntry (ts : List (Tensor α)) : List ℕ → α
  | [] => 0
  | k :: rest => layerEntry ts k rest

theorem stack_eq_ok_iff {t r : Tensor α} {ts : List (Tensor α)} :
    stack (t :: ts) = .ok r ↔
      (∀ s ∈ ts, s.dims = t.dims) ∧ Addressable ((ts.length + 1) :: t.dims) ∧
        r = ofFn ((ts.length + 1) :: t.dims) (stackEntry (t :: ts)) := by
  unfold stack
  dsimp only
  by_cases hdims : ∀ s ∈ ts, s.dims = t.dims
  · rw [if_pos (by simpa using hdims)]
    by_cases hroom : Addressable ((ts.length + 1) :: t.dims)
    · rw [if_pos hroom]
      simp only [Except.ok.injEq]
      exact ⟨fun h => ⟨hdims, hroom, h.symm⟩, fun h => h.2.2.symm⟩
    · rw [if_neg hroom]
      constructor
      · intro h
        cases h
      · exact fun h => absurd h.2.1 hroom
  · rw [if_neg (by simpa using hdims)]
    constructor
    · intro h
      cases h
    · exact fun h => absurd h.1 hdims

theorem stack_uniform {ts ts' : List (Tensor α)} {r : Tensor α}
    (hdims : ts.map (·.dims) = ts'.map (·.dims)) (h : stack ts = .ok r) :
    ∃ r', stack ts' = .ok r' := by
  cases ts with
  | nil => cases h
  | cons t ts =>
    obtain ⟨t', ts', rfl, ht, hts⟩ := List.map_eq_cons_iff.mp hdims.symm
    obtain ⟨hall, hroom, -⟩ := stack_eq_ok_iff.mp h
    have hlen : ts'.length = ts.length := by simpa using congrArg List.length hts
    refine ⟨_, stack_eq_ok_iff.mpr ⟨fun s hs => ?_, by rwa [hlen, ht], rfl⟩⟩
    have hmem : s.dims ∈ ts.map (·.dims) := by
      rw [← hts]
      exact List.mem_map_of_mem hs
    obtain ⟨s', hs', heq⟩ := List.mem_map.mp hmem
    rw [← heq, hall s' hs', ht]

end Tensor

end OperatorSplitting
