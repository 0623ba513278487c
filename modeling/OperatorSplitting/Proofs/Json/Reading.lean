import Mathlib
import OperatorSplitting.Json.Reader
import OperatorSplitting.Proofs.Json.Tokens

/-!
# Reading a written text

The reader puts every value that it has read into the innermost open container, whatever is open
around it.  So the tokens of a value take the reader from where a value is expected to where the
value has been put (`Json.foldlM_tokens`), by induction on the value: behind an item or a field the
reader stands at a separator, and each comma with what follows it adds one item or field.

Together with the tokens of a text this gives that a value is read back from its indented text
(`Json.parse?_pretty`).
-/

namespace OperatorSplitting.Json

/-- The first one of several parts, and each other one behind a separator. -/
theorem intercalate_cons_eq_flatMap {α : Type} (sep first : List α) (rest : List (List α)) :
    sep.intercalate (first :: rest) = first ++ rest.flatMap (sep ++ ·) := by
  induction rest generalizing first with
  | nil => rw [List.intercalate_singleton, List.flatMap_nil, List.append_nil]
  | cons next rest ih =>
    rw [List.intercalate_cons_cons, ih, List.flatMap_cons, List.append_assoc, List.append_assoc]

namespace Reader

variable {frames : List Frame} {fields : List (Option String × Json)} {α : Type}

/-- The reader inside an array, behind an item. -/
def behindItem (frames : List Frame) (items : List Json) : Reader :=
  ⟨.array items :: frames, [], .separator⟩

/-- The reader inside an object, behind a field. -/
def behindField (frames : List Frame) (fields : List (Option String × Json)) : Reader :=
  ⟨.object fields none :: frames, [], .separator⟩

/-- A comma and a part that is read behind it, any number of times.  The parts are collected in
reverse. -/
theorem foldlM_separated {behind : List α → Reader} {write : α → List Token} {parts : List α}
    (h : ∀ a ∈ parts, ∀ done, (Token.comma :: write a).foldlM step (behind done) =
      some (behind (a :: done))) (done : List α) :
    ((parts.map write).flatMap ([Token.comma] ++ ·)).foldlM step (behind done) =
      some (behind (parts.reverse ++ done)) := by
  induction parts generalizing done with
  | nil => rfl
  | cons a parts ih =>
    obtain ⟨ha, hparts⟩ := List.forall_mem_cons.mp h
    rw [List.map_cons, List.flatMap_cons, List.foldlM_append, List.singleton_append, ha done]
    refine (ih hparts (a :: done)).trans ?_
    rw [List.reverse_cons, List.append_assoc]
    rfl

/-- The parts of a container that is not empty: the first one is read where the container has been
opened. -/
theorem foldlM_parts (behind : List α → Reader) (write : α → List Token) {opened : Reader} {a : α}
    {parts : List α} (hfirst : (write a).foldlM step opened = some (behind [a]))
    (hrest : ∀ b ∈ parts, ∀ done, (Token.comma :: write b).foldlM step (behind done) =
      some (behind (b :: done))) :
    ([Token.comma].intercalate ((a :: parts).map write)).foldlM step opened =
      some (behind (a :: parts).reverse) := by
  rw [List.map_cons, intercalate_cons_eq_flatMap, List.foldlM_append, hfirst]
  refine (foldlM_separated hrest [a]).trans ?_
  rw [List.reverse_cons]

/-- At the start of an array that is not closed at once, a value is read as anywhere else. -/
theorem foldlM_valueOrEnd {ts : List Token} (hts : ts ≠ []) (h : ∀ t ∈ ts.head?, t ≠ .closeArray) :
    ts.foldlM step ⟨frames, fields, .valueOrEnd⟩ = ts.foldlM step ⟨frames, fields, .value⟩ := by
  cases ts with
  | nil => exact absurd rfl hts
  | cons t ts =>
    have ht := h t rfl
    have hstep : step ⟨frames, fields, .valueOrEnd⟩ t = step ⟨frames, fields, .value⟩ t := by
      cases t with
      | closeArray => exact absurd rfl ht
      | _ => rfl
    rw [List.foldlM_cons, List.foldlM_cons, hstep]

end Reader

open Reader

/-- The tokens of a value do not start with the end of an array. -/
theorem head_tokens (v : Json) : v.tokens ≠ [] ∧ ∀ t ∈ v.tokens.head?, t ≠ .closeArray := by
  cases v <;> simp [tokens]

/-- The tokens of a value, read where a value is expected, put the value. -/
theorem foldlM_tokens {v : Json} (h : v.Writable) (frames : List Frame)
    (fields : List (Option String × Json)) :
    v.tokens.foldlM Reader.step ⟨frames, fields, .value⟩ = some (.put frames v) := by
  induction h generalizing frames fields with
  | null => rfl
  | bool b => rfl
  | number h => rfl
  | string text => rfl
  | @array items h ih =>
    rw [tokens, itemTokens_eq_map]
    cases items with
    | nil => rfl
    | cons v items =>
      have hfirst : v.tokens.foldlM step ⟨.array [] :: frames, [], .valueOrEnd⟩ =
          some (behindItem frames [v]) := by
        obtain ⟨hne, hhead⟩ := head_tokens v
        rw [foldlM_valueOrEnd hne hhead]
        exact ih v List.mem_cons_self _ _
      have hitems := foldlM_parts (behindItem frames) tokens hfirst
        fun b hb done => ih b (List.mem_cons_of_mem v hb) (.array done :: frames) []
      rw [List.foldlM_cons]
      show (_ ++ [Token.closeArray]).foldlM step ⟨.array [] :: frames, [], .valueOrEnd⟩ = _
      rw [List.foldlM_append, hitems]
      show some (put frames (.array (v :: items).reverse.reverse)) = _
      rw [List.reverse_reverse]
  | @object pairs hnames h ih =>
    rw [tokens, fieldTokens_eq_map]
    cases pairs with
    | nil => rfl
    | cons p pairs =>
      have hfirst : (Token.scalar (.string p.1) :: .colon :: p.2.tokens).foldlM step
          ⟨frames, [], .nameOrEnd⟩ = some (behindField frames [p]) :=
        ih p List.mem_cons_self (.object [] p.1 :: frames) []
      have hpairs := foldlM_parts (behindField frames)
        (fun p => .scalar (.string p.1) :: .colon :: tokens p.2) hfirst
        fun q hq done => ih q (List.mem_cons_of_mem p hq) (.object done q.1 :: frames) []
      rw [List.foldlM_cons]
      show (_ ++ [Token.closeObject]).foldlM step ⟨frames, [], .nameOrEnd⟩ = _
      rw [List.foldlM_append, hpairs]
      show some (put frames (.object (p :: pairs).reverse.reverse)) = _
      rw [List.reverse_reverse]

theorem ofTokens?_tokens {v : Json} (h : v.Writable) : ofTokens? v.tokens = some v := by
  rw [ofTokens?, initial, foldlM_tokens h]
  rfl

/-- A value is read back from its text. -/
theorem parse?_pretty {v : Json} (h : v.Writable) : parse? v.pretty = some v := by
  rw [parse?, ofChars?_pretty h]
  exact ofTokens?_tokens h

end OperatorSplitting.Json
