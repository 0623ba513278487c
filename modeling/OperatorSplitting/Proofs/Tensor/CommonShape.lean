import Mathlib
import OperatorSplitting.Proofs.Tensor.Broadcasting

/-!
# The common shape is a least one

A box is stretched by adding leading axes and by replacing extents one (`StretchStep`), and a shape
block by block.  Stretching is an order, and broadcasting is the join of this order, as far as there
are joins (`IsPartialJoin`): two shapes that can be stretched to a common one have a result, and the
shapes to which both can be stretched are those to which the result can be.  What is known of joins
follows from this alone; that a merge is a join is shown for extents, then carried over to boxes,
axis by axis, and to blocks (`isPartialJoin_broadcast`).
-/

namespace OperatorSplitting

/-! ### Partial joins -/

/-- An operation that is the join of an order as far as there is one.  Two elements have a common
upper bound exactly if there is a result, and then their upper bounds are those of the result. -/
structure IsPartialJoin {α : Type} (le : α → α → Prop) (join : α → α → Option α) : Prop where
  refl : ∀ a, le a a
  antisymm : ∀ {a b}, le a b → le b a → a = b
  upper_iff : ∀ {a b t}, (le a t ∧ le b t) ↔ ∃ s, join a b = some s ∧ le s t

namespace IsPartialJoin

variable {α : Type} {le : α → α → Prop} {join : α → α → Option α} {a b c s : α}

/-- Results with the same upper bounds are equal. -/
theorem ext (h : IsPartialJoin le join) {o o' : Option α}
    (hupper : ∀ t, (∃ s, o = some s ∧ le s t) ↔ ∃ s, o' = some s ∧ le s t) : o = o' := by
  cases o with
  | none =>
    cases o' with
    | none => rfl
    | some s' =>
      obtain ⟨s, hs, -⟩ := (hupper s').mpr ⟨s', rfl, h.refl s'⟩
      cases hs
  | some s =>
    obtain ⟨s', rfl, hle⟩ := (hupper s).mp ⟨s, rfl, h.refl s⟩
    obtain ⟨s'', hs'', hge⟩ := (hupper s').mpr ⟨s', rfl, h.refl s'⟩
    cases hs''
    rw [h.antisymm hge hle]

/-- The result is an upper bound. -/
theorem le_of_eq_some (h : IsPartialJoin le join) (hs : join a b = some s) : le a s ∧ le b s :=
  h.upper_iff.mpr ⟨s, hs, h.refl s⟩

/-- The result is the least upper bound. -/
theorem eq_some_iff (h : IsPartialJoin le join) :
    join a b = some s ↔ le a s ∧ le b s ∧ ∀ t, le a t → le b t → le s t := by
  constructor
  · intro hs
    refine ⟨(h.le_of_eq_some hs).1, (h.le_of_eq_some hs).2, fun t ha hb => ?_⟩
    obtain ⟨s', hs', hle⟩ := h.upper_iff.mp ⟨ha, hb⟩
    rw [hs] at hs'
    cases hs'
    exact hle
  · rintro ⟨ha, hb, hleast⟩
    obtain ⟨s', hs', hle⟩ := h.upper_iff.mp ⟨ha, hb⟩
    obtain ⟨ha', hb'⟩ := h.le_of_eq_some hs'
    rw [hs', h.antisymm hle (hleast s' ha' hb')]

/-- There is no result exactly if there is no common upper bound. -/
theorem eq_none_iff (h : IsPartialJoin le join) : join a b = none ↔ ¬∃ t, le a t ∧ le b t := by
  simp only [h.upper_iff]
  constructor
  · rintro hnone ⟨t, s, hs, -⟩
    rw [hnone] at hs
    cases hs
  · intro hno
    rw [Option.eq_none_iff_forall_ne_some]
    intro s hs
    exact hno ⟨s, s, hs, h.refl s⟩

theorem comm (h : IsPartialJoin le join) (a b : α) : join a b = join b a :=
  h.ext fun t => by rw [← h.upper_iff, ← h.upper_iff, and_comm]

theorem self (h : IsPartialJoin le join) (a : α) : join a a = some a :=
  h.eq_some_iff.mpr ⟨h.refl a, h.refl a, fun _ ha _ => ha⟩

theorem trans (h : IsPartialJoin le join) (hab : le a b) (hbc : le b c) : le a c := by
  have hjoin : join a b = some b := h.eq_some_iff.mpr ⟨hab, h.refl b, fun _ _ hb => hb⟩
  exact (h.upper_iff.mpr ⟨b, hjoin, hbc⟩).1

/-- The upper bounds of three elements, joined from the left. -/
theorem upper_left_iff (h : IsPartialJoin le join) {t : α} :
    (∃ s, (join a b).bind (join · c) = some s ∧ le s t) ↔ le a t ∧ le b t ∧ le c t := by
  rw [← and_assoc, h.upper_iff]
  cases join a b with
  | none => simp
  | some d => simp [← h.upper_iff]

/-- The upper bounds of three elements, joined from the right. -/
theorem upper_right_iff (h : IsPartialJoin le join) {t : α} :
    (∃ s, (join b c).bind (join a) = some s ∧ le s t) ↔ le a t ∧ le b t ∧ le c t := by
  rw [h.upper_iff]
  cases join b c with
  | none => simp
  | some d => simp [← h.upper_iff]

theorem assoc (h : IsPartialJoin le join) (a b c : α) :
    (join a b).bind (join · c) = (join b c).bind (join a) :=
  h.ext fun _ => h.upper_left_iff.trans h.upper_right_iff.symm

end IsPartialJoin

/-! ### Extents and boxes -/

theorem isPartialJoin_mergeExtent : IsPartialJoin Stretches mergeExtent where
  refl _ := .inl rfl
  antisymm hab hba := by
    unfold Stretches at hab hba
    omega
  upper_iff {a b t} := by
    unfold mergeExtent Stretches
    by_cases hab : a = b
    · simp [hab]
    · by_cases ha : a = 1
      · have hb : ¬1 = b := fun h => hab (ha.trans h)
        simp [ha, hb]
      · by_cases hb : b = 1
        · simp [ha, hb]
        · simp only [hab, ha, hb, if_false, or_false, reduceCtorEq, false_and, exists_false,
            iff_false]
          omega

/-- What holds of a list that is merged from its first item and the others. -/
theorem exists_cons_iff {α : Type} {o : Option α} {os : Option (List α)} {p : List α → Prop} :
    (∃ s, (o.bind fun d => os.bind fun ds => some (d :: ds)) = some s ∧ p s) ↔
      ∃ d, o = some d ∧ ∃ ds, os = some ds ∧ p (d :: ds) := by
  cases o with
  | none => simp
  | some d => cases os <;> simp

/-- What holds of it part by part. -/
theorem exists_cons_and_iff {α : Type} {o : Option α} {os : Option (List α)} {p : List α → Prop}
    {q : α → Prop} {r : List α → Prop} (h : ∀ d ds, p (d :: ds) ↔ q d ∧ r ds) :
    (∃ s, (o.bind fun d => os.bind fun ds => some (d :: ds)) = some s ∧ p s) ↔
      (∃ d, o = some d ∧ q d) ∧ ∃ ds, os = some ds ∧ r ds := by
  rw [exists_cons_iff]
  constructor
  · rintro ⟨d, hd, ds, hds, hp⟩
    obtain ⟨hq, hr⟩ := (h d ds).mp hp
    exact ⟨⟨d, hd, hq⟩, ds, hds, hr⟩
  · rintro ⟨⟨d, hd, hq⟩, ds, hds, hr⟩
    exact ⟨d, hd, ds, hds, (h d ds).mpr ⟨hq, hr⟩⟩

theorem stretchesReversed_cons_iff {a b : ℕ} {as bs : List ℕ} :
    stretchesReversed (a :: as) (b :: bs) = true ↔
      Stretches a b ∧ stretchesReversed as bs = true := by
  simp [stretchesReversed, Stretches]

theorem not_stretchesReversed_nil (a : ℕ) (as : List ℕ) :
    ¬stretchesReversed (a :: as) [] = true := by
  simp [stretchesReversed]

/-- Boxes, listed from the last axis on, are merged axis by axis, and an axis that only one of them
has is taken over. -/
theorem isPartialJoin_mergeReversed :
    IsPartialJoin (fun as bs => stretchesReversed as bs = true) mergeReversed where
  refl := stretchesReversed_refl
  antisymm {as bs} hab hba := by
    induction as generalizing bs with
    | nil =>
      cases bs with
      | nil => rfl
      | cons b bs => exact absurd hba (not_stretchesReversed_nil b bs)
    | cons a as ih =>
      cases bs with
      | nil => exact absurd hab (not_stretchesReversed_nil a as)
      | cons b bs =>
        rw [stretchesReversed_cons_iff] at hab hba
        rw [isPartialJoin_mergeExtent.antisymm hab.1 hba.1, ih hab.2 hba.2]
  upper_iff {as bs ts} := by
    induction as generalizing bs ts with
    | nil => simp [mergeReversed, stretchesReversed]
    | cons a as ih =>
      cases bs with
      | nil => simp [mergeReversed, stretchesReversed]
      | cons b bs =>
        simp only [mergeReversed, Option.bind_eq_bind]
        cases ts with
        | nil => simp [exists_cons_iff, stretchesReversed]
        | cons t ts =>
          rw [exists_cons_and_iff fun d ds => stretchesReversed_cons_iff, stretchesReversed_cons_iff,
            stretchesReversed_cons_iff, and_and_and_comm, isPartialJoin_mergeExtent.upper_iff, ih]

theorem isPartialJoin_broadcastDims :
    IsPartialJoin (fun a b => stretches a b = true) broadcastDims where
  refl := stretches_refl
  antisymm hab hba := List.reverse_injective (isPartialJoin_mergeReversed.antisymm hab hba)
  upper_iff {a b t} := by
    unfold broadcastDims stretches
    rw [isPartialJoin_mergeReversed.upper_iff]
    simp

/-! ### Steps of stretching -/

/-- One way to stretch a box: add a leading axis, or replace an extent one. -/
inductive StretchStep : List ℕ → List ℕ → Prop
  | lead (d : ℕ) (dims : List ℕ) : StretchStep dims (d :: dims)
  | widen (before after : List ℕ) (d : ℕ) :
    StretchStep (before ++ 1 :: after) (before ++ d :: after)

/-- A box can be stretched to another one in some steps. -/
def StretchesTo : List ℕ → List ℕ → Prop := Relation.ReflTransGen StretchStep

theorem stretches_of_step {a b : List ℕ} (h : StretchStep a b) : stretches a b = true := by
  rw [stretches_iff]
  cases h with
  | lead d =>
    refine ⟨Nat.le_succ _, ?_⟩
    rw [List.length_cons, Nat.add_sub_cancel_left, List.drop_one, List.tail_cons]
    exact forall₂_stretches_refl a
  | widen before after d =>
    simp only [List.length_append, List.length_cons, le_refl, Nat.sub_self, List.drop_zero,
      true_and]
    exact List.rel_append (forall₂_stretches_refl before)
      (.cons (.inr rfl) (forall₂_stretches_refl after))

/-- Leading axes are added one after the other. -/
theorem stretchesTo_append (leading dims : List ℕ) : StretchesTo dims (leading ++ dims) := by
  induction leading with
  | nil => exact .refl
  | cons d leading ih => exact ih.tail (.lead d _)

/-- Extents one are replaced one after the other, behind axes that stay. -/
theorem stretchesTo_of_forall₂ {a b : List ℕ} (h : List.Forall₂ Stretches a b)
    (before : List ℕ) : StretchesTo (before ++ a) (before ++ b) := by
  induction h generalizing before with
  | nil => exact .refl
  | @cons x y xs ys hxy _ ih =>
    have hrest : StretchesTo (before ++ y :: xs) (before ++ y :: ys) := by
      simpa using ih (before ++ [y])
    rcases hxy with rfl | rfl
    · exact hrest
    · exact .head (.widen before xs y) hrest

/-- The test for boxes agrees with stretching step by step. -/
theorem stretchesTo_iff {a b : List ℕ} : StretchesTo a b ↔ stretches a b = true := by
  constructor
  · intro h
    induction h with
    | refl => exact stretches_refl a
    | tail _ hstep ih => exact isPartialJoin_broadcastDims.trans ih (stretches_of_step hstep)
  · intro h
    obtain ⟨-, hforall⟩ := (stretches_iff a b).mp h
    have hwiden := stretchesTo_of_forall₂ hforall []
    have hlead := stretchesTo_append (b.take (b.length - a.length)) (b.drop (b.length - a.length))
    rw [List.take_append_drop] at hlead
    exact hwiden.trans hlead

/-! ### Shapes -/

namespace Shape

/-- A shape can be stretched to another one: one array to one array, and blocks one by one. -/
inductive StretchesTo : Shape → Shape → Prop
  | flat {a b : List ℕ} (h : OperatorSplitting.StretchesTo a b) : StretchesTo (.flat a) (.flat b)
  | blocked {as bs : List (List ℕ)} (h : List.Forall₂ OperatorSplitting.StretchesTo as bs) :
    StretchesTo (.blocked as) (.blocked bs)

theorem flat_stretchesTo_iff {a b : List ℕ} :
    (flat a).StretchesTo (.flat b) ↔ stretches a b = true := by
  rw [← stretchesTo_iff]
  exact ⟨fun h => by cases h; assumption, .flat⟩

theorem blocked_stretchesTo_iff {as bs : List (List ℕ)} :
    (blocked as).StretchesTo (.blocked bs) ↔
      List.Forall₂ (fun a b => stretches a b = true) as bs := by
  simp only [← stretchesTo_iff]
  exact ⟨fun h => by cases h; assumption, .blocked⟩

theorem not_flat_stretchesTo_blocked {a : List ℕ} {bs : List (List ℕ)} :
    ¬(flat a).StretchesTo (.blocked bs) := nofun

theorem not_blocked_stretchesTo_flat {as : List (List ℕ)} {b : List ℕ} :
    ¬(blocked as).StretchesTo (.flat b) := nofun

/-- Lists of blocks are merged block by block. -/
theorem isPartialJoin_mergeBlocks :
    IsPartialJoin (List.Forall₂ fun a b => stretches a b = true) mergeBlocks where
  refl as := List.forall₂_same.mpr fun a _ => stretches_refl a
  antisymm {as bs} hab hba := by
    induction hab with
    | nil => rfl
    | cons h _ ih =>
      rw [List.forall₂_cons] at hba
      rw [isPartialJoin_broadcastDims.antisymm h hba.1, ih hba.2]
  upper_iff {as bs ts} := by
    induction as generalizing bs ts with
    | nil => cases bs <;> cases ts <;> simp [mergeBlocks]
    | cons a as ih =>
      cases bs with
      | nil => cases ts <;> simp [mergeBlocks]
      | cons b bs =>
        simp only [mergeBlocks, Option.bind_eq_bind]
        cases ts with
        | nil =>
          rw [exists_cons_iff]
          simp
        | cons t ts =>
          refine Iff.trans ?_ (Iff.symm (exists_cons_and_iff fun d ds => List.forall₂_cons))
          rw [List.forall₂_cons, List.forall₂_cons, and_and_and_comm,
            isPartialJoin_broadcastDims.upper_iff, ih]

/-- Broadcasting is the join of the order of stretching. -/
theorem isPartialJoin_broadcast : IsPartialJoin StretchesTo broadcast where
  refl a := by
    cases a with
    | flat dims => exact flat_stretchesTo_iff.mpr (stretches_refl dims)
    | blocked blocks => exact blocked_stretchesTo_iff.mpr (isPartialJoin_mergeBlocks.refl blocks)
  antisymm {a b} hab hba := by
    cases a with
    | flat a =>
      cases b with
      | flat b =>
        rw [isPartialJoin_broadcastDims.antisymm (flat_stretchesTo_iff.mp hab)
          (flat_stretchesTo_iff.mp hba)]
      | blocked bs => exact absurd hab not_flat_stretchesTo_blocked
    | blocked as =>
      cases b with
      | flat b => exact absurd hab not_blocked_stretchesTo_flat
      | blocked bs =>
        rw [isPartialJoin_mergeBlocks.antisymm (blocked_stretchesTo_iff.mp hab)
          (blocked_stretchesTo_iff.mp hba)]
  upper_iff {a b t} := by
    cases a with
    | flat a =>
      cases b with
      | flat b =>
        cases t with
        | flat t =>
          simpa [broadcast, flat_stretchesTo_iff] using
            isPartialJoin_broadcastDims.upper_iff (a := a) (b := b) (t := t)
        | blocked ts => simp [broadcast, not_flat_stretchesTo_blocked]
      | blocked bs =>
        cases t <;>
          simp [broadcast, not_flat_stretchesTo_blocked, not_blocked_stretchesTo_flat]
    | blocked as =>
      cases b with
      | flat b =>
        cases t <;>
          simp [broadcast, not_flat_stretchesTo_blocked, not_blocked_stretchesTo_flat]
      | blocked bs =>
        cases t with
        | flat t => simp [broadcast, not_blocked_stretchesTo_flat]
        | blocked ts =>
          simpa [broadcast, blocked_stretchesTo_iff] using
            isPartialJoin_mergeBlocks.upper_iff (a := as) (b := bs) (t := ts)

/-- A scalar takes the shape of any other array. -/
theorem broadcast_scalar (dims : List ℕ) :
    (flat []).broadcast (.flat dims) = some (.flat dims) := by
  simp [broadcast, broadcastDims, mergeReversed]

/-- Broadcasting is a partial semilattice.  It is commutative, idempotent and associative, where no
shape comes of no shape; a scalar is neutral among single arrays; its result is the least shape to
which both operands can be stretched; and it has no result exactly if there is no such shape. -/
theorem broadcast_semilattice :
    (∀ a b : Shape, a.broadcast b = b.broadcast a) ∧
    (∀ a : Shape, a.broadcast a = some a) ∧
    (∀ a b c : Shape, (a.broadcast b).bind (·.broadcast c) = (b.broadcast c).bind a.broadcast) ∧
    (∀ dims, (flat []).broadcast (.flat dims) = some (.flat dims) ∧
      (flat dims).broadcast (.flat []) = some (.flat dims)) ∧
    (∀ a b s : Shape, a.broadcast b = some s ↔ a.StretchesTo s ∧ b.StretchesTo s ∧
      ∀ t, a.StretchesTo t → b.StretchesTo t → s.StretchesTo t) ∧
    ∀ a b : Shape, a.broadcast b = none ↔ ¬∃ t, a.StretchesTo t ∧ b.StretchesTo t := by
  have h := isPartialJoin_broadcast
  exact ⟨h.comm, h.self, h.assoc,
    fun dims => ⟨broadcast_scalar dims, (h.comm _ _).trans (broadcast_scalar dims)⟩,
    fun _ _ _ => h.eq_some_iff, fun _ _ => h.eq_none_iff⟩

end Shape

end OperatorSplitting
