import Mathlib
import OperatorSplitting.Records

/-!
# Numbers and fields of records

A count is written with its decimal digits.  They are a literal without a superfluous zero in front,
so that a count within 64 bits is read back (`Json.asNat?_ofNat`); a larger one is refused.

A floating-point number has a literal exactly if it is finite; all others are written as `null`
(`Recorded.ofFloat_eq_null_iff`).

A record that is written as an object with distinct names is read by these names field by field
(`Json.fields?_ofFields`), and a list item by item (`Json.asList?_ofList`).
-/

namespace OperatorSplitting

open Json

/-! ### Digits -/

namespace Decimal

theorem digit?_digitChar {d : ℕ} (h : d < 10) : digit? (Nat.digitChar d) = some d := by
  interval_cases d <;> rfl

/-- The characters of some digits are read as these digits. -/
theorem digits_map_digitChar {ds : List ℕ} (h : ∀ d ∈ ds, d < 10) :
    digits (ds.map Nat.digitChar) = (ds, []) := by
  induction ds with
  | nil => rfl
  | cons d ds ih =>
    obtain ⟨hd, hds⟩ := List.forall_mem_cons.mp h
    rw [List.map_cons, digits, digit?_digitChar hd]
    simp only [ih hds]

theorem natOfDigits_concat (ds : List ℕ) (d : ℕ) :
    natOfDigits (ds ++ [d]) = 10 * natOfDigits ds + d := by
  rw [natOfDigits, List.foldl_append]
  rfl

/-- Digits of a number, without a zero in front of others. -/
structure IsDigitsOf (n : ℕ) (ds : List ℕ) : Prop where
  chars : Nat.toDigits 10 n = ds.map Nat.digitChar
  lt : ∀ d ∈ ds, d < 10
  value : natOfDigits ds = n
  ne_nil : ds ≠ []
  tail_eq_nil : ds.head? = some 0 → ds.tail = []

theorem exists_isDigitsOf (n : ℕ) : ∃ ds, IsDigitsOf n ds := by
  induction n using Nat.strong_induction_on with
  | _ n ih =>
    by_cases hn : n < 10
    · exact ⟨[n], Nat.toDigits_of_lt_base hn, List.forall_mem_singleton.mpr hn, Nat.zero_add n,
        List.cons_ne_nil _ _, fun _ => rfl⟩
    · obtain ⟨ds, hds⟩ := ih (n / 10) (by omega)
      have hchars := Nat.toDigits_of_base_le (b := 10) (n := n) (by decide) (by omega)
      refine ⟨ds ++ [n % 10], ?_, ?_, ?_, by simp, fun hzero => ?_⟩
      · rw [hchars, hds.chars, List.map_append]
        rfl
      · exact List.forall_mem_append.mpr ⟨hds.lt, List.forall_mem_singleton.mpr (by omega)⟩
      · rw [natOfDigits_concat, hds.value]
        omega
      · -- A single zero in front would make the quotient zero.
        have hvalue := hds.value
        cases ds with
        | nil => exact absurd rfl hds.ne_nil
        | cons d ds =>
          have hd : d = 0 := Option.some.inj hzero
          subst hd
          have htail : ds = [] := hds.tail_eq_nil rfl
          subst htail
          change 0 = n / 10 at hvalue
          omega

end Decimal

/-! ### Counts -/

namespace Json

open Decimal

/-- The literal of some digits. -/
theorem ofChars?_digits {n : ℕ} {ds : List ℕ} (h : IsDigitsOf n ds) :
    Literal.ofChars? (Nat.toDigits 10 n) = some ⟨false, ds, none, none⟩ := by
  have hdigits := digits_map_digitChar h.lt
  have hsign : Literal.ofChars? (ds.map Nat.digitChar) =
      Literal.unsigned? false (ds.map Nat.digitChar) := by
    unfold Literal.ofChars?
    split
    · next cs hcs =>
      cases ds with
      | nil => cases hcs
      | cons d ds =>
        have hminus : Nat.digitChar d = '-' := (List.cons.inj hcs).1
        have hd := digit?_digitChar (h.lt d List.mem_cons_self)
        rw [hminus] at hd
        cases hd
    · rfl
  rw [h.chars, hsign, Literal.unsigned?, hdigits]
  match ds, h.ne_nil, h.tail_eq_nil with
  | 0 :: d :: ds, _, htail => cases htail rfl
  | [0], _, _ => rfl
  | (_ + 1) :: _, _, _ => rfl

/-- A count is read back if it is within 64 bits. -/
theorem asNat?_ofNat (n : ℕ) : asNat? (.ofNat n) = if n < Nat.pow 2 64 then some n else none := by
  obtain ⟨ds, hds⟩ := exists_isDigitsOf n
  rw [ofNat, asNat?, String.toList_ofList, ofChars?_digits hds, Option.bind_some, Literal.toNat?]
  simp [Literal.isWhole, hds.value, Literal.wordBound]

end Json

/-! ### Floating-point numbers -/

/-- There is no literal exactly if all bits of the exponent are set. -/
theorem Decimal.literal_decode_eq_none_iff (f : BinaryFormat) (word : ℕ) :
    (decode f word).literal = none ↔ word / Nat.pow 2 f.fractionBits % Nat.pow 2 f.exponentBits =
      Nat.pow 2 f.exponentBits - 1 := by
  unfold decode
  dsimp only
  split
  · next hset =>
    refine iff_of_true ?_ hset
    split <;> rfl
  · next hset =>
    refine iff_of_false ?_ hset
    split <;> exact Option.some_ne_none _

/-- The exponent of a word of double precision. -/
theorem toNat_unpackExponent (b : BitVec 64) :
    (@Float.Model.UnpackedFloat.unpackExponent .binary64 b).toNat =
      b.toNat / 2 ^ 52 % 2 ^ 11 := by
  unfold Float.Model.UnpackedFloat.unpackExponent
  simp [BitVec.extractLsb, BitVec.extractLsb'_toNat, Nat.shiftRight_eq_div_pow]

/-- A number is finite unless all bits of its exponent are set. -/
theorem isFinite_eq_false_iff (x : Float) :
    x.isFinite = false ↔ x.toBits.toNat / 2 ^ 52 % 2 ^ 11 = 2 ^ 11 - 1 := by
  have hones (e : BitVec 11) : e = -1#11 ↔ e.toNat = 2 ^ 11 - 1 := BitVec.toNat_inj.symm
  have hfield := toNat_unpackExponent x.toModel.toBits.toBitVec
  show x.toModel.unpack.isFinite = false ↔ x.toModel.toBits.toBitVec.toNat / 2 ^ 52 % 2 ^ 11 = _
  rw [← hfield, ← hones]
  unfold Float.Model.unpack Float.Model.UnpackedFloat.unpack
  dsimp only
  split
  · next hset =>
    refine iff_of_true ?_ hset
    split <;> rfl
  · next hset =>
    refine iff_of_false ?_ hset
    split
    · split <;> exact Bool.noConfusion
    · exact Bool.noConfusion

namespace Recorded

/-- A number that is not finite is `null`, and no other. -/
theorem ofFloat_eq_null_iff (x : Float) : ofFloat x = .null ↔ x.isFinite = false := by
  have hliteral : (Decimal.ofDouble x).literal = none ↔ x.isFinite = false :=
    (Decimal.literal_decode_eq_none_iff .double _).trans (isFinite_eq_false_iff x).symm
  rw [← hliteral, ofFloat]
  cases (Decimal.ofDouble x).literal with
  | none => exact iff_of_true rfl rfl
  | some text => exact iff_of_false Json.noConfusion (Option.some_ne_none _)

end Recorded

/-! ### Fields and items -/

/-- A list is read if all its items are. -/
theorem mapM_eq_some_iff {α β : Type} {f : α → Option β} {xs : List α} {ys : List β} :
    xs.mapM f = some ys ↔ List.Forall₂ (fun x y => f x = some y) xs ys := by
  induction xs generalizing ys with
  | nil =>
    rw [List.mapM_nil, List.forall₂_nil_left_iff]
    exact ⟨fun h => (Option.some.inj h).symm, fun h => congrArg some h.symm⟩
  | cons x xs ih =>
    rw [List.mapM_cons, List.forall₂_cons_left_iff]
    constructor
    · intro h
      obtain ⟨y, hy, h⟩ := Option.bind_eq_some_iff.mp h
      obtain ⟨ys', hys, h⟩ := Option.bind_eq_some_iff.mp h
      cases h
      exact ⟨y, ys', hy, ih.mp hys, rfl⟩
    · rintro ⟨y, ys', hy, hys, rfl⟩
      rw [hy, ih.mpr hys]
      rfl

theorem exists_mapM_eq_some_iff {α β : Type} {f : α → Option β} {xs : List α} :
    (∃ ys, xs.mapM f = some ys) ↔ ∀ x ∈ xs, ∃ y, f x = some y := by
  induction xs with
  | nil => exact iff_of_true ⟨[], rfl⟩ (List.forall_mem_nil _)
  | cons x xs ih =>
    rw [List.forall_mem_cons, ← ih]
    simp only [mapM_eq_some_iff, List.forall₂_cons_left_iff]
    constructor
    · rintro ⟨_, y, ys, hy, hys, rfl⟩
      exact ⟨⟨y, hy⟩, ys, hys⟩
    · rintro ⟨⟨y, hy⟩, ys, hys⟩
      exact ⟨y :: ys, y, ys, hy, hys, rfl⟩

theorem mapM_congr {α β : Type} {f g : α → Option β} {xs : List α} (h : ∀ x ∈ xs, f x = g x) :
    xs.mapM f = xs.mapM g := by
  induction xs with
  | nil => rfl
  | cons x xs ih =>
    obtain ⟨hx, hxs⟩ := List.forall_mem_cons.mp h
    rw [List.mapM_cons, List.mapM_cons, hx, ih hxs]

namespace Json

theorem valuesOf_eq_nil {name : String} {fields : List (String × Json)}
    (h : name ∉ fields.map Prod.fst) :
    valuesOf name (fields.map fun q => (some q.1, q.2)) = [] := by
  rw [valuesOf, List.filterMap_map, List.filterMap_eq_nil_iff]
  intro q hq
  have hname : q.1 ≠ name := fun heq => h (heq ▸ List.mem_map_of_mem hq)
  exact if_neg fun heq => hname (Option.some.inj heq)

/-- A name that is written once has one value. -/
theorem valuesOf_ofFields {fields : List (String × Json)} (h : (fields.map Prod.fst).Nodup)
    {p : String × Json} (hp : p ∈ fields) :
    valuesOf p.1 (fields.map fun q => (some q.1, q.2)) = [p.2] := by
  induction fields with
  | nil => cases hp
  | cons q fields ih =>
    obtain ⟨hq, hfields⟩ := List.nodup_cons.mp h
    rw [valuesOf, List.map_cons, List.filterMap_cons]
    rcases List.mem_cons.mp hp with rfl | hp
    · rw [if_pos rfl]
      exact congrArg (p.2 :: ·) (valuesOf_eq_nil hq)
    · have hname : q.1 ≠ p.1 := fun heq => hq (heq ▸ List.mem_map_of_mem hp)
      rw [if_neg fun heq => hname (Option.some.inj heq)]
      exact ih hfields hp

/-- A record is read by the names that it is written with. -/
theorem fields?_ofFields (complete : Bool) {fields : List (String × Json)}
    (h : (fields.map Prod.fst).Nodup) :
    fields? complete (fields.map Prod.fst) (.ofFields fields) =
      some (fields.map fun p => some p.2) := by
  have hnames : (fields.map fun p => (some p.1, p.2)).all (fun p => p.1.isSome) = true := by
    simp
  rw [ofFields, fields?, if_pos hnames, mapM_eq_some_iff, List.forall₂_map_left_iff,
    List.forall₂_map_right_iff, List.forall₂_same]
  intro p hp
  rw [fieldValue?, valuesOf_ofFields h hp]

/-- A list is read item by item. -/
theorem asList?_ofList {α β : Type} (write : α → Json) (read : Json → Option β) (items : List α) :
    asList? read (.ofList write items) = items.mapM fun a => read (write a) := List.mapM_map

end Json

end OperatorSplitting
