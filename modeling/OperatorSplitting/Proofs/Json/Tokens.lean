import Mathlib
import OperatorSplitting.Json.Token
import OperatorSplitting.Json.Writer

/-!
# The tokens of a written text

The pass over the characters of a text finds the tokens that the text was written with.  A piece of
a text is followed by other pieces, and a word ends only where the next piece begins.  So a piece
*scans* to some tokens if the pass goes on behind it as if these tokens had been found and nothing
were being read, provided that the next character ends a word (`Token.Scans`); a *closed* piece
needs no such character (`Token.Closed`).  Marks, blanks and quoted texts are closed, words are not.

A value can be written if its numbers are literals and its texts are whole (`Json.Writable`).  Then
its indented text has the tokens of the value, at every depth (`Json.ofChars?_pretty`).
-/

namespace OperatorSplitting.Json

/-! ### Tokens of values -/

mutual

/-- The tokens of a value. -/
def tokens : Json → List Token
  | .array items =>
    .openArray :: ([Token.comma].intercalate (itemTokens items) ++ [.closeArray])
  | .object fields =>
    .openObject :: ([Token.comma].intercalate (fieldTokens fields) ++ [.closeObject])
  | v => [.scalar v]

/-- The tokens of each item. -/
def itemTokens : List Json → List (List Token)
  | [] => []
  | v :: vs => tokens v :: itemTokens vs

/-- The tokens of each field. -/
def fieldTokens : List (Option String × Json) → List (List Token)
  | [] => []
  | (name, v) :: fs => (.scalar (.string name) :: .colon :: tokens v) :: fieldTokens fs

end

/-- All numbers are literals and all texts are whole. -/
inductive Writable : Json → Prop
  | null : Writable .null
  | bool (b : Bool) : Writable (.bool b)
  | number {literal : String} :
      (Literal.ofChars? literal.toList).isSome → Writable (.number literal)
  | string (text : String) : Writable (.string (some text))
  | array {items : List Json} : (∀ v ∈ items, Writable v) → Writable (.array items)
  | object {fields : List (Option String × Json)} : (∀ p ∈ fields, p.1.isSome) →
      (∀ p ∈ fields, Writable p.2) → Writable (.object fields)

namespace Token

/-! ### Pieces of a text -/

/-- The tokens at the end of a text, from a state of the pass on. -/
def read? (s : Scan) (cs : List Char) : Option (List Token) :=
  (cs.foldlM Scan.step s).bind Scan.finish

theorem read?_cons (s : Scan) (c : Char) (cs : List Char) :
    read? s (c :: cs) = (s.step c).bind (read? · cs) := by
  rw [read?, List.foldlM_cons]
  cases s.step c <;> rfl

theorem read?_append {s s' : Scan} {w : List Char} (h : w.foldlM Scan.step s = some s')
    (rest : List Char) : read? s (w ++ rest) = read? s' rest := by
  rw [read?, List.foldlM_append, h]
  rfl

/-- The character ends a word. -/
def endsWord (c : Char) : Bool := (mark? c).isSome || isBlank c || c = '"'

/-- The text is at its end, or starts with a character that ends a word. -/
def Delimited (cs : List Char) : Prop := ∀ c ∈ cs.head?, endsWord c = true

theorem delimited_nil : Delimited [] := fun _ h => nomatch h

theorem delimited_cons {c : Char} (h : endsWord c = true) (cs : List Char) :
    Delimited (c :: cs) := by
  rintro _ ⟨rfl⟩
  exact h

/-- Behind the piece the pass goes on as if the tokens had been found and nothing were being
read. -/
def Closed (w : List Char) (ts : List Token) : Prop :=
  ∀ found rest, read? ⟨found, .none⟩ (w ++ rest) = read? ⟨ts.reverse ++ found, .none⟩ rest

/-- So it does if a word may end behind the piece. -/
def Scans (w : List Char) (ts : List Token) : Prop :=
  ∀ found rest, Delimited rest →
    read? ⟨found, .none⟩ (w ++ rest) = read? ⟨ts.reverse ++ found, .none⟩ rest

variable {w w' : List Char} {ts ts' : List Token}

theorem Closed.scans (h : Closed w ts) : Scans w ts := fun found rest _ => h found rest

theorem Closed.nil : Closed [] [] := fun _ _ => rfl

theorem Closed.append (h : Closed w ts) (h' : Closed w' ts') : Closed (w ++ w') (ts ++ ts') := by
  intro found rest
  rw [List.append_assoc, h, h', List.reverse_append, List.append_assoc]

theorem Closed.append_scans (h : Closed w ts) (h' : Scans w' ts') :
    Scans (w ++ w') (ts ++ ts') := by
  intro found rest hrest
  rw [List.append_assoc, h, h' _ _ hrest, List.reverse_append, List.append_assoc]

/-- A piece that starts by ending a word closes what is before it. -/
theorem Scans.append_closed {c : Char} (h : Scans w ts) (hc : endsWord c = true)
    (h' : Closed (c :: w') ts') : Closed (w ++ c :: w') (ts ++ ts') := by
  intro found rest
  have hnext : Delimited (c :: w' ++ rest) := delimited_cons hc _
  rw [List.append_assoc, h _ _ hnext, h', List.reverse_append, List.append_assoc]

/-! ### Marks and blanks -/

theorem closed_mark {c : Char} {t : Token} (h : mark? c = some t) : Closed [c] [t] := by
  intro found rest
  have hstep : Scan.step ⟨found, .none⟩ c = some ⟨t :: found, .none⟩ := by
    rw [Scan.step, Scan.between, h]
  exact read?_append (w := [c]) (by rw [List.foldlM_cons, hstep]; rfl) rest

theorem closed_blank {c : Char} (hmark : mark? c = none) (h : isBlank c = true) :
    Closed [c] [] := by
  intro found rest
  have hstep : Scan.step ⟨found, .none⟩ c = some ⟨found, .none⟩ := by
    rw [Scan.step, Scan.between, hmark]
    exact congrArg some (if_pos h)
  exact read?_append (w := [c]) (by rw [List.foldlM_cons, hstep]; rfl) rest

theorem closed_spaces (n : ℕ) : Closed (List.replicate n ' ') [] := by
  induction n with
  | zero => exact .nil
  | succ n ih => exact (closed_blank rfl (by decide)).append ih

theorem toList_lineBreak (depth : ℕ) :
    (lineBreak depth).toList = '\n' :: List.replicate (2 * depth) ' ' := by
  simp [lineBreak]

theorem closed_lineBreak (depth : ℕ) : Closed (lineBreak depth).toList [] := by
  rw [toList_lineBreak]
  exact (closed_blank (c := '\n') rfl (by decide)).append (closed_spaces _)

/-! ### Words -/

theorem step_word {found : List Token} {cs : List Char} {c : Char} (h : endsWord c = true) :
    Scan.step ⟨found, .word cs⟩ c =
      (ofWord? cs.reverse).map fun v => .between (.scalar v :: found) c := if_pos h

/-- The rest of a word is read. -/
theorem read?_word {found : List Token} {cs rest : List Char} {v : Json}
    (hw : ∀ c ∈ w, endsWord c = false) (hv : ofWord? (cs.reverse ++ w) = some v)
    (hrest : Delimited rest) :
    read? ⟨found, .word cs⟩ (w ++ rest) = read? ⟨.scalar v :: found, .none⟩ rest := by
  induction w generalizing cs with
  | nil =>
    rw [List.append_nil] at hv
    cases rest with
    | nil =>
      show (ofWord? cs.reverse).map (fun v => (Token.scalar v :: found).reverse) = _
      rw [hv]
      rfl
    | cons c rest =>
      rw [List.nil_append, read?_cons, read?_cons, step_word (hrest c rfl), hv]
      rfl
  | cons c w ih =>
    obtain ⟨hc, hw⟩ := List.forall_mem_cons.mp hw
    have hstep : Scan.step ⟨found, .word cs⟩ c = some ⟨found, .word (c :: cs)⟩ :=
      if_neg (Bool.eq_false_iff.mp hc)
    rw [List.cons_append, read?_cons, hstep]
    refine ih hw ?_
    rw [List.reverse_cons, List.append_assoc]
    exact hv

theorem scans_word {c : Char} {v : Json} (hw : ∀ d ∈ c :: w, endsWord d = false)
    (hv : ofWord? (c :: w) = some v) : Scans (c :: w) [.scalar v] := by
  intro found rest hrest
  obtain ⟨hc, hw⟩ := List.forall_mem_cons.mp hw
  unfold endsWord at hc
  simp only [Bool.or_eq_false_iff, Option.isSome_eq_false_iff, Option.isNone_iff_eq_none] at hc
  obtain ⟨⟨hmark, hblank⟩, hquote⟩ := hc
  have hstep : Scan.step ⟨found, .none⟩ c = some ⟨found, .word [c]⟩ := by
    rw [Scan.step, Scan.between, hmark]
    simp [hblank, of_decide_eq_false hquote]
  rw [List.cons_append, read?_cons, hstep]
  exact read?_word hw hv hrest

theorem scans_null : Scans "null".toList [.scalar .null] :=
  scans_word (c := 'n') (w := ['u', 'l', 'l']) (by simp [endsWord, mark?, isBlank]) rfl

theorem scans_true : Scans "true".toList [.scalar (.bool true)] :=
  scans_word (c := 't') (w := ['r', 'u', 'e']) (by simp [endsWord, mark?, isBlank]) rfl

theorem scans_false : Scans "false".toList [.scalar (.bool false)] :=
  scans_word (c := 'f') (w := ['a', 'l', 's', 'e']) (by simp [endsWord, mark?, isBlank]) rfl

/-! ### Number literals -/

/-- No character of the text ends a word. -/
def Unbroken (cs : List Char) : Prop := ∀ c ∈ cs, endsWord c = false

theorem unbroken_cons {c : Char} {cs : List Char} :
    Unbroken (c :: cs) ↔ endsWord c = false ∧ Unbroken cs := List.forall_mem_cons

/-- The characters that end a word. -/
def wordEnds : List Char :=
  ['[', ']', '\x7b', '\x7d', ':', ',', ' ', '\t', '\n', '\r', '"']

theorem mem_wordEnds {c : Char} (h : endsWord c = true) : c ∈ wordEnds := by
  unfold endsWord mark? at h
  split at h <;> simp_all [isBlank, wordEnds, or_assoc]

theorem endsWord_of_digit? {c : Char} {d : ℕ} (h : Decimal.digit? c = some d) :
    endsWord c = false := by
  have hall : ∀ c ∈ wordEnds, Decimal.digit? c = none := by simp [wordEnds, Decimal.digit?]
  by_contra hends
  rw [hall c (mem_wordEnds (Bool.not_eq_false _ ▸ hends))] at h
  cases h

/-- The digits in front of a text are unbroken. -/
theorem unbroken_of_digits {cs : List Char} (h : Unbroken (Decimal.digits cs).2) : Unbroken cs := by
  induction cs with
  | nil => exact h
  | cons c cs ih =>
    unfold Decimal.digits at h
    cases hc : Decimal.digit? c with
    | none =>
      rw [hc] at h
      exact h
    | some d =>
      rw [hc] at h
      exact unbroken_cons.mpr ⟨endsWord_of_digit? hc, ih h⟩

theorem unbroken_of_exponent? {negative : Bool} {cs : List Char} {e : Bool × List ℕ}
    (h : Decimal.exponent? negative cs = some e) : Unbroken cs := by
  unfold Decimal.exponent? at h
  split at h
  · next hdigits => exact unbroken_of_digits (hdigits ▸ List.forall_mem_nil _)
  · cases h

theorem unbroken_of_exponentPart? {cs : List Char} {e : Option (Bool × List ℕ)}
    (h : Decimal.exponentPart? cs = some e) : Unbroken cs := by
  unfold Decimal.exponentPart? at h
  split at h
  · exact List.forall_mem_nil _
  · next c cs =>
    split at h
    · next hletter =>
      have hc : endsWord c = false := by
        rcases hletter with rfl | rfl <;> rfl
      split at h
      · obtain ⟨e, he, -⟩ := Option.map_eq_some_iff.mp h
        exact unbroken_cons.mpr ⟨hc, unbroken_cons.mpr ⟨rfl, unbroken_of_exponent? he⟩⟩
      · obtain ⟨e, he, -⟩ := Option.map_eq_some_iff.mp h
        exact unbroken_cons.mpr ⟨hc, unbroken_cons.mpr ⟨rfl, unbroken_of_exponent? he⟩⟩
      · obtain ⟨e, he, -⟩ := Option.map_eq_some_iff.mp h
        exact unbroken_cons.mpr ⟨hc, unbroken_of_exponent? he⟩
    · cases h

theorem unbroken_of_tail? {cs : List Char} {t : Option (List ℕ) × Option (Bool × List ℕ)}
    (h : Literal.tail? cs = some t) : Unbroken cs := by
  unfold Literal.tail? at h
  split at h
  · next cs =>
    split at h
    · cases h
    · next hdigits =>
      obtain ⟨e, he, -⟩ := Option.map_eq_some_iff.mp h
      refine unbroken_cons.mpr ⟨rfl, unbroken_of_digits ?_⟩
      rw [hdigits]
      exact unbroken_of_exponentPart? he
  · obtain ⟨e, he, -⟩ := Option.map_eq_some_iff.mp h
    exact unbroken_of_exponentPart? he

theorem unbroken_of_unsigned? {negative : Bool} {cs : List Char} {l : Literal}
    (h : Literal.unsigned? negative cs = some l) : Unbroken cs := by
  unfold Literal.unsigned? at h
  split at h
  · cases h
  · cases h
  · next hdigits =>
    obtain ⟨t, ht, -⟩ := Option.map_eq_some_iff.mp h
    refine unbroken_of_digits ?_
    rw [hdigits]
    exact unbroken_of_tail? ht

theorem unbroken_of_literal {cs : List Char} {l : Literal} (h : Literal.ofChars? cs = some l) :
    Unbroken cs := by
  unfold Literal.ofChars? at h
  split at h
  · exact unbroken_cons.mpr ⟨rfl, unbroken_of_unsigned? h⟩
  · exact unbroken_of_unsigned? h

theorem scans_literal {literal : String} (h : (Literal.ofChars? literal.toList).isSome) :
    Scans literal.toList [.scalar (.number literal)] := by
  obtain ⟨l, hl⟩ := Option.isSome_iff_exists.mp h
  have hunbroken := unbroken_of_literal hl
  cases hcs : literal.toList with
  | nil =>
    rw [hcs] at hl
    cases hl
  | cons c w =>
    rw [hcs] at hl hunbroken
    refine scans_word hunbroken ?_
    have hword (name : String) (hname : Literal.ofChars? name.toList = none) :
        c :: w ≠ name.toList := by
      rintro heq
      rw [heq, hname] at hl
      cases hl
    rw [ofWord?, if_neg (hword "null" rfl), if_neg (hword "true" rfl), if_neg (hword "false" rfl),
      hl, ← hcs, String.ofList_toList]
    rfl

/-! ### Quoted texts -/

theorem hexDigit?_hexChar {n : ℕ} (h : n < 16) : hexDigit? (hexChar n) = some n := by
  interval_cases n <;> rfl

/-- Inside a text, a quoted character is read as its code. -/
theorem foldlM_quoteChar (found : List Token) (units : List ℕ) (c : Char) :
    (quoteChar c).foldlM Scan.step ⟨found, .text units .none⟩ =
      some ⟨found, .text (c.toNat :: units) .none⟩ := by
  unfold quoteChar
  split
  iterate 7 rfl
  next hquote hbackslash _ _ _ _ _ =>
    split
    · next hcontrol =>
      -- A control character is written with the two digits of its code.
      have hhigh := hexDigit?_hexChar (n := c.toNat / 16) (by omega)
      have hlow := hexDigit?_hexChar (n := c.toNat % 16) (by omega)
      have hcode : 16 * (c.toNat / 16) + c.toNat % 16 = c.toNat := by omega
      show List.foldlM Scan.step ⟨found, .text units (.unit 2 0)⟩
        [hexChar (c.toNat / 16), hexChar (c.toNat % 16)] = _
      simp [List.foldlM_cons, Scan.step, Scan.inText, hhigh, hlow, hcode]
    · next hplain =>
      have hstep : Scan.step ⟨found, .text units .none⟩ c =
          some ⟨found, .text (c.toNat :: units) .none⟩ := by
        show Scan.inText found units .none c = _
        rw [Scan.inText, if_neg hquote, if_neg hbackslash, if_neg hplain]
      rw [List.foldlM_cons, hstep]
      rfl

/-- The code of a character is no half of a surrogate pair. -/
theorem toNat_not_surrogate (c : Char) : ¬(0xD800 ≤ c.toNat ∧ c.toNat < 0xE000) := by
  have hvalid : c.toNat < 0xD800 ∨ 0xDFFF < c.toNat ∧ c.toNat < 0x110000 := c.valid
  omega

/-- Characters that are read one by one are joined to themselves. -/
theorem joinUnits_toNat (cs : List Char) : joinUnits (cs.map Char.toNat) = some cs := by
  induction cs with
  | nil => rfl
  | cons c cs ih =>
    have hc := toNat_not_surrogate c
    cases cs with
    | nil =>
      rw [List.map_cons, List.map_nil, joinUnits, if_neg hc, Char.ofNat_toNat]
    | cons d cs =>
      rw [List.map_cons] at ih
      rw [List.map_cons, List.map_cons, joinUnits, if_neg (by omega), if_neg (by omega), ih,
        Char.ofNat_toNat]
      rfl

theorem foldlM_quote (found : List Token) (units : List ℕ) (cs : List Char) :
    (cs.flatMap quoteChar).foldlM Scan.step ⟨found, .text units .none⟩ =
      some ⟨found, .text ((cs.map Char.toNat).reverse ++ units) .none⟩ := by
  induction cs generalizing units with
  | nil => rfl
  | cons c cs ih =>
    rw [List.flatMap_cons, List.foldlM_append, foldlM_quoteChar]
    refine (ih _).trans ?_
    rw [List.map_cons, List.reverse_cons, List.append_assoc]
    rfl

theorem closed_quote (text : String) :
    Closed (quote text).toList [.scalar (.string (some text))] := by
  intro found rest
  have htext : (quote text).toList = '"' :: (text.toList.flatMap quoteChar ++ ['"']) := by
    simp [quote]
  have hvalue : (joinUnits ((text.toList.map Char.toNat).reverse ++ []).reverse).map String.ofList =
      some text := by
    rw [List.append_nil, List.reverse_reverse, joinUnits_toNat, Option.map_some,
      String.ofList_toList]
  refine read?_append ?_ rest
  rw [htext, List.foldlM_cons]
  show (text.toList.flatMap quoteChar ++ ['"']).foldlM Scan.step ⟨found, .text [] .none⟩ = _
  rw [List.foldlM_append, foldlM_quote]
  show some (⟨.scalar (.string ((joinUnits _).map String.ofList)) :: found, .none⟩ : Scan) = _
  rw [hvalue]
  rfl

/-! ### Blocks -/

/-- Pieces with separators between them. -/
theorem scans_intercalate {sep : List Char} {c : Char} {t : Token} (hc : endsWord c = true)
    (hsep : Closed (c :: sep) [t]) {parts : List (List Char)} {tss : List (List Token)}
    (h : List.Forall₂ Scans parts tss) :
    Scans ((c :: sep).intercalate parts) ([t].intercalate tss) := by
  induction h with
  | nil => exact Closed.nil.scans
  | @cons part ts parts tss hpart hparts ih =>
    cases hparts with
    | nil =>
      rw [List.intercalate_singleton, List.intercalate_singleton]
      exact hpart
    | cons hnext hrest =>
      rw [List.intercalate_cons_cons, List.intercalate_cons_cons]
      exact (hpart.append_closed hc hsep).append_scans ih

/-- The parts of an array or object on lines of their own. -/
theorem closed_block {left right : String} {l r : Char} {first last : Token} (depth : ℕ)
    (hleft : left.toList = [l]) (hopen : mark? l = some first) (hright : right.toList = [r])
    (hclose : mark? r = some last) {parts : List String} {tss : List (List Token)}
    (h : List.Forall₂ Scans (parts.map String.toList) tss) :
    Closed (block left right depth parts).toList
      (first :: ([Token.comma].intercalate tss ++ [last])) := by
  have hl : Closed left.toList [first] := hleft ▸ closed_mark hopen
  have hr : Closed right.toList [last] := hright ▸ closed_mark hclose
  cases parts with
  | nil =>
    cases h
    rw [block, String.toList_append]
    exact hl.append hr
  | cons part parts =>
    have hcomma : Closed (',' :: (lineBreak (depth + 1)).toList) [.comma] :=
      (closed_mark rfl).append (closed_lineBreak _)
    have hparts := scans_intercalate rfl hcomma h
    have hend : Closed ('\n' :: (List.replicate (2 * depth) ' ' ++ right.toList)) [last] := by
      have hbreak := (closed_lineBreak depth).append hr
      rwa [toList_lineBreak] at hbreak
    have hbody := (hl.append (closed_lineBreak (depth + 1))).append
      (hparts.append_closed (by rfl) hend)
    have htext : (block left right depth (part :: parts)).toList =
        left.toList ++ (lineBreak (depth + 1)).toList ++
          ((',' :: (lineBreak (depth + 1)).toList).intercalate
            ((part :: parts).map String.toList) ++ '\n' :: (List.replicate (2 * depth) ' ' ++ right.toList)) := by
      simp [block, String.toList_intercalate, toList_lineBreak]
    rw [htext]
    exact hbody

end Token

/-! ### Values -/

theorem prettyItems_eq_map (vs : List Json) (depth : ℕ) :
    prettyItems vs depth = vs.map (prettyAt · depth) := by
  induction vs with
  | nil => rfl
  | cons v vs ih => rw [prettyItems, ih, List.map_cons]

theorem prettyFields_eq_map (fs : List (Option String × Json)) (depth : ℕ) :
    prettyFields fs depth =
      fs.map fun p => quote (p.1.getD "") ++ ": " ++ prettyAt p.2 depth := by
  induction fs with
  | nil => rfl
  | cons p fs ih => rw [prettyFields, ih, List.map_cons]

theorem itemTokens_eq_map (vs : List Json) : itemTokens vs = vs.map tokens := by
  induction vs with
  | nil => rfl
  | cons v vs ih => rw [itemTokens, ih, List.map_cons]

theorem fieldTokens_eq_map (fs : List (Option String × Json)) :
    fieldTokens fs = fs.map fun p => .scalar (.string p.1) :: .colon :: tokens p.2 := by
  induction fs with
  | nil => rfl
  | cons p fs ih => rw [fieldTokens, ih, List.map_cons]

open Token in
/-- The indented text of a value scans to the tokens of the value. -/
theorem scans_prettyAt {v : Json} (h : v.Writable) (depth : ℕ) :
    Scans (v.prettyAt depth).toList v.tokens := by
  induction h generalizing depth with
  | null => exact scans_null
  | bool b =>
    cases b with
    | true => exact scans_true
    | false => exact scans_false
  | number hliteral => exact scans_literal hliteral
  | string text => exact (closed_quote text).scans
  | array h ih =>
    rw [prettyAt, tokens, prettyItems_eq_map, itemTokens_eq_map]
    refine (closed_block depth rfl rfl rfl rfl ?_).scans
    rw [List.map_map, List.forall₂_map_left_iff, List.forall₂_map_right_iff, List.forall₂_same]
    exact fun v hv => ih v hv _
  | object hnames h ih =>
    rw [prettyAt, tokens, prettyFields_eq_map, fieldTokens_eq_map]
    refine (closed_block depth rfl rfl rfl rfl ?_).scans
    rw [List.map_map, List.forall₂_map_left_iff, List.forall₂_map_right_iff, List.forall₂_same]
    rintro ⟨name, v⟩ hp
    obtain ⟨name, rfl⟩ := Option.isSome_iff_exists.mp (hnames _ hp)
    have hcolon : Closed (": ".toList) [.colon] :=
      (closed_mark (c := ':') rfl).append (closed_blank (c := ' ') rfl (by decide))
    have hfield := ((closed_quote name).append hcolon).append_scans (ih _ hp (depth + 1))
    show Scans (quote name ++ ": " ++ prettyAt v (depth + 1)).toList _
    rw [String.toList_append, String.toList_append]
    exact hfield

/-- The tokens of a written text. -/
theorem ofChars?_pretty {v : Json} (h : v.Writable) :
    Token.ofChars? v.pretty.toList = some v.tokens := by
  have hscan := scans_prettyAt h 0 [] [] Token.delimited_nil
  rw [List.append_nil, List.append_nil] at hscan
  refine hscan.trans ?_
  show some v.tokens.reverse.reverse = _
  rw [List.reverse_reverse]

end OperatorSplitting.Json
