import FOmega.Proofs.Excerpt
import FOmega.Proofs.RoundTrip

/-!
# What stands between quotes

A literal is made of items, and each item stands for one character: a character that is neither the
quote nor a backslash, an escaped character, or a code point in braces. Every character literal that
the lexer takes is of this form. Strings are taken with two liberties: a plus sign may precede the
digits of a code point, and the end of the string may stand in for the last closing brace. A text is
cut into items in one way only, so a string is of the form above exactly if it takes neither
liberty, and every text that takes one is accepted all the same.
-/

namespace FOmega

open Text.Escape (isHexDigit hexDigit escaped CodePoint Unescapes)
open scoped Computability

namespace Lexer

variable {quote v v' : Char} {i hex w cs vs values tail last : List Char} {items : List (List Char)}

/-! ## Items -/

/-- One or more hexadecimal digits denote the code point of the character. -/
def Hexadecimal (hex : List Char) (v : Char) : Prop :=
  hex ≠ [] ∧ (∀ d ∈ hex, isHexDigit d = true) ∧
    Nat.ofDigits 16 (hex.reverse.map hexDigit) = v.toNat

/-- An item between quotes and the one character that it stands for, where a relation says which
    texts in braces denote which code points. -/
inductive Item (quote : Char) (point : List Char → Char → Prop) : List Char → Char → Prop where
  | plain {c : Char} (notQuote : c ≠ quote) (notSlash : c ≠ '\\') : Item quote point [c] c
  | escape {c : Char} (notPoint : c ≠ 'u') (sameLine : c ≠ '\n') :
    Item quote point ['\\', c] (escaped c)
  | codePoint {hex : List Char} {v : Char} (denotes : point hex v) :
    Item quote point ('\\' :: 'u' :: '{' :: (hex ++ ['}'])) v

/-- The text is a row of items that stand for the given characters, one each. -/
def Row (item : List Char → Char → Prop) (w vs : List Char) : Prop :=
  ∃ items, w = items.flatten ∧ List.Forall₂ item items vs

/-- What the end of a string may leave open: nothing, or a code point without its closing brace. -/
inductive Ending : List Char → List Char → Prop where
  | closed : Ending [] []
  | unclosed {hex : List Char} {v : Char} (denotes : CodePoint hex v) :
    Ending ('\\' :: 'u' :: '{' :: hex) [v]

/-- The item is a code point whose digits follow a plus sign. -/
def Signed (i : List Char) : Prop :=
  ['\\', 'u', '{', '+'] <+: i

theorem Hexadecimal.codePoint (h : Hexadecimal hex v) : CodePoint hex v :=
  ⟨hex, h.1, h.2.1, .inl rfl, h.2.2⟩

theorem Hexadecimal.not_mem_plus (h : Hexadecimal hex v) : '+' ∉ hex := by
  intro hplus
  exact absurd (h.2.1 '+' hplus) (by decide)

theorem hexadecimal_of_codePoint (h : CodePoint hex v) (hplus : '+' ∉ hex) : Hexadecimal hex v := by
  obtain ⟨digits, hne, hdigits, rfl | rfl, hvalue⟩ := h
  · exact ⟨hne, hdigits, hvalue⟩
  · exact absurd List.mem_cons_self hplus

/-- The text of a code point holds no quote and no backslash. -/
theorem plain_of_codePoint (h : CodePoint hex v) : ∀ d ∈ hex, d ≠ '"' ∧ d ≠ '\\' := by
  obtain ⟨digits, -, hdigits, hhex, -⟩ := h
  have hplain : ∀ d ∈ digits, d ≠ '"' ∧ d ≠ '\\' :=
    fun d hd => ⟨(isHexDigit_ne (hdigits d hd)).1, (isHexDigit_ne (hdigits d hd)).2.1⟩
  rcases hhex with rfl | rfl
  · exact hplain
  · exact List.forall_mem_cons.mpr ⟨by decide, hplain⟩

theorem Item.codePoints (h : Item quote Hexadecimal i v) : Item quote CodePoint i v := by
  cases h with
  | plain hquote hslash => exact .plain hquote hslash
  | escape hpoint hline => exact .escape hpoint hline
  | codePoint hdenotes => exact .codePoint hdenotes.codePoint

theorem Item.not_signed (h : Item quote Hexadecimal i v) : ¬ Signed i := by
  intro hsigned
  cases h with
  | plain | escape => simp [Signed] at hsigned
  | @codePoint hex _ hdenotes =>
    cases hex with
    | nil => exact hdenotes.1 rfl
    | cons d hex =>
      obtain rfl : '+' = d := by simpa [Signed] using hsigned
      exact hdenotes.not_mem_plus List.mem_cons_self

theorem Item.hexadecimal (h : Item quote CodePoint i v) (hsigned : ¬ Signed i) :
    Item quote Hexadecimal i v := by
  cases h with
  | plain hquote hslash => exact .plain hquote hslash
  | escape hpoint hline => exact .escape hpoint hline
  | codePoint hdenotes =>
    obtain ⟨digits, hne, hdigits, rfl | rfl, hvalue⟩ := hdenotes
    · exact .codePoint ⟨hne, hdigits, hvalue⟩
    · exact absurd ⟨digits ++ ['}'], rfl⟩ hsigned

/-! ## One way to cut a text into items -/

theorem Item.ne_nil {point : List Char → Char → Prop} (h : Item quote point i v) : i ≠ [] := by
  cases h <;> exact List.cons_ne_nil _ _

/-- A text starts with one item at most. -/
theorem Item.unique {i' rest rest' : List Char} (h : Item quote CodePoint i v)
    (h' : Item quote CodePoint i' v') (heq : i ++ rest = i' ++ rest') : i = i' := by
  cases h with
  | plain _ hslash =>
    cases h' with
    | plain => rw [(List.cons.inj heq).1]
    | escape | codePoint => exact absurd (List.cons.inj heq).1 hslash
  | escape hpoint =>
    cases h' with
    | plain _ hslash' => exact absurd (List.cons.inj heq).1.symm hslash'
    | escape => rw [(List.cons.inj (List.cons.inj heq).2).1]
    | codePoint => exact absurd (List.cons.inj (List.cons.inj heq).2).1 hpoint
  | codePoint hdenotes =>
    cases h' with
    | plain _ hslash' => exact absurd (List.cons.inj heq).1.symm hslash'
    | escape hpoint' => exact absurd (List.cons.inj (List.cons.inj heq).2).1.symm hpoint'
    | codePoint hdenotes' =>
      simp only [List.cons_append, List.append_assoc, List.cons.injEq, true_and,
        List.nil_append] at heq
      -- What stands in braces ends at the first closing brace.
      have hbefore := (Text.Escape.takeWhile_codePoint hdenotes.ne_brace rest).1
      rw [heq, (Text.Escape.takeWhile_codePoint hdenotes'.ne_brace rest').1] at hbefore
      rw [hbefore]

/-- Where a text starts with a row of items, every row of items for the whole text starts with
    these. -/
theorem exists_append_of_flatten {items' : List (List Char)} {values' : List Char}
    (h : List.Forall₂ (Item quote CodePoint) items values)
    (h' : List.Forall₂ (Item quote CodePoint) items' values')
    (heq : items'.flatten = items.flatten ++ tail) :
    ∃ more, items' = items ++ more ∧ more.flatten = tail := by
  induction h generalizing items' values' with
  | nil => exact ⟨items', rfl, heq⟩
  | @cons i v items values hitem _ ih =>
    cases h' with
    | nil =>
      simp only [List.flatten_nil, List.flatten_cons, List.append_assoc] at heq
      exact absurd (List.append_eq_nil_iff.mp heq.symm).1 hitem.ne_nil
    | cons hitem' hrest' =>
      simp only [List.flatten_cons, List.append_assoc] at heq
      obtain rfl := hitem'.unique hitem heq
      obtain ⟨more, rfl, hmore⟩ := ih hrest' (List.append_cancel_left heq)
      exact ⟨more, rfl, hmore⟩

/-- No item is the beginning of a code point that is not closed. -/
theorem Item.not_prefix_unclosed (h : Item quote CodePoint i v) (hpoint : CodePoint hex v') :
    ¬ i <+: '\\' :: 'u' :: '{' :: hex := by
  rintro ⟨rest, heq⟩
  cases h with
  | plain _ hslash => exact hslash (List.cons.inj heq).1
  | escape hletter => exact hletter (List.cons.inj (List.cons.inj heq).2).1
  | @codePoint hex' =>
    simp only [List.cons_append, List.append_assoc, List.cons.injEq, true_and,
      List.nil_append] at heq
    exact hpoint.ne_brace '}' (heq ▸ by simp) rfl

/-- Each item of a row is one, whatever it stands for. -/
theorem forall_mem_of_row {item : List Char → Char → Prop} (h : List.Forall₂ item items values) :
    ∀ i ∈ items, ∃ v, item i v :=
  ((List.forall₂_and_left _ _).mp (h.imp fun _ v hv => ⟨⟨v, hv⟩, hv⟩)).1

/-- A text that is taken with the two liberties is a row of items proper exactly if it uses
    neither. -/
theorem row_iff (hitems : List.Forall₂ (Item quote CodePoint) items values)
    (hending : Ending tail last) :
    Row (Item quote Hexadecimal) (items.flatten ++ tail) (values ++ last) ↔
      tail = [] ∧ ∀ i ∈ items, ¬ Signed i := by
  constructor
  · rintro ⟨items', heq, hrow⟩
    obtain ⟨more, rfl, hmore⟩ :=
      exists_append_of_flatten hitems (hrow.imp fun _ _ h => h.codePoints) heq.symm
    have hproper := forall_mem_of_row hrow
    refine ⟨?_, ?_⟩
    · cases hending with
      | closed => rfl
      | unclosed hpoint =>
        cases more with
        | nil => cases hmore
        | cons j more =>
          obtain ⟨v, hj⟩ := hproper j (by simp)
          exact absurd ⟨_, hmore⟩ (hj.codePoints.not_prefix_unclosed hpoint)
    · intro i hi
      obtain ⟨v, hv⟩ := hproper i (List.mem_append_left more hi)
      exact hv.not_signed
  · rintro ⟨rfl, hsigned⟩
    cases hending
    rw [List.append_nil, List.append_nil]
    refine ⟨items, rfl, ?_⟩
    exact ((List.forall₂_and_left _ _).mpr ⟨hsigned, hitems⟩).imp fun _ _ h => h.2.hexadecimal h.1

/-! ## The contents of strings -/

/-- The text stands between the quotes of a string with the given value: a row of items, where code
    points may have a plus sign and the last one may lack its closing brace. -/
def Content (w vs : List Char) : Prop :=
  ∃ items values tail last, w = items.flatten ++ tail ∧ vs = values ++ last ∧
    List.Forall₂ (Item '"' CodePoint) items values ∧ Ending tail last

theorem Content.cons (h : Item '"' CodePoint i v) (hrest : Content w vs) :
    Content (i ++ w) (v :: vs) := by
  obtain ⟨items, values, tail, last, rfl, rfl, hitems, hending⟩ := hrest
  exact ⟨i :: items, v :: values, tail, last, by simp, rfl, .cons h hitems, hending⟩

/-- A string goes on after an item. -/
theorem Item.stringEnd_append (h : Item '"' CodePoint i v) (hcs : '"' ∈ cs) :
    stringEnd (i ++ cs) = ((stringEnd cs).1, (stringEnd cs).2 + i.length) := by
  cases h with
  | plain hquote hslash => exact stringEnd_plain hquote hslash
  | escape _ hline =>
    refine stringEnd_escape hline ?_
    rintro rfl
    simp at hcs
  | codePoint hpoint => exact stringEnd_codePoint (plain_of_codePoint hpoint) cs

/-- A string with the given content ends at the quote after it. -/
def Closed (w : List Char) : Prop :=
  ∀ rest, stringEnd (w ++ '"' :: rest) = (true, w.length + 1)

theorem Item.closed_append_iff (h : Item '"' CodePoint i v) : Closed (i ++ w) ↔ Closed w := by
  unfold Closed
  refine forall_congr' fun rest => ?_
  have hstep : stringEnd (i ++ (w ++ '"' :: rest)) = _ := h.stringEnd_append (by simp)
  rw [List.append_assoc, hstep, List.length_append, Prod.ext_iff, Prod.ext_iff]
  constructor
  · rintro ⟨hclosed, hlength⟩
    exact ⟨hclosed, by simp only at hlength ⊢; omega⟩
  · rintro ⟨hclosed, hlength⟩
    exact ⟨hclosed, by simp only at hlength ⊢; omega⟩

/-- What can stand between the quotes of a string and means something is a content of strings. -/
theorem content_of_unescapes (h : Unescapes w vs) (hclosed : Closed w) : Content w vs := by
  induction h with
  | nil => exact ⟨[], [], [], [], rfl, rfl, .nil, .closed⟩
  | @plain c cs vs hslash _ ih =>
    have hquote : c ≠ '"' := by
      rintro rfl
      simpa [stringEnd] using hclosed []
    have hitem : Item '"' CodePoint [c] c := .plain hquote hslash
    exact .cons hitem (ih (hitem.closed_append_iff.mp hclosed))
  | @escape c cs vs hletter _ ih =>
    have hline : c ≠ '\n' := by
      rintro rfl
      simpa [stringEnd] using hclosed []
    have hitem : Item '"' CodePoint ['\\', c] (escaped c) := .escape hletter hline
    exact .cons hitem (ih (hitem.closed_append_iff.mp hclosed))
  | @codePoint hex cs vs v hpoint _ ih =>
    have hitem : Item '"' CodePoint ('\\' :: 'u' :: '{' :: (hex ++ ['}'])) v := .codePoint hpoint
    have hw : '\\' :: 'u' :: '{' :: (hex ++ '}' :: cs) =
        '\\' :: 'u' :: '{' :: (hex ++ ['}']) ++ cs := by simp
    rw [hw] at hclosed ⊢
    exact .cons hitem (ih (hitem.closed_append_iff.mp hclosed))
  | lastCodePoint hpoint => exact ⟨[], [], _, _, rfl, rfl, .nil, .unclosed hpoint⟩

theorem Item.unescapes (h : Item '"' CodePoint i v) (hrest : Unescapes w vs) :
    Unescapes (i ++ w) (v :: vs) := by
  cases h with
  | plain _ hslash => exact .plain hslash hrest
  | escape hletter _ => exact .escape hletter hrest
  | codePoint hpoint =>
    simp only [List.cons_append, List.append_assoc, List.nil_append]
    exact .codePoint hpoint hrest

theorem Ending.unescapes (h : Ending tail last) : Unescapes tail last ∧ Closed tail := by
  cases h with
  | closed => exact ⟨.nil, fun _ => rfl⟩
  | @unclosed hex v hpoint =>
    refine ⟨.lastCodePoint hpoint, ?_⟩
    intro rest
    have hplain : ∀ d ∈ '{' :: hex, d ≠ '"' ∧ d ≠ '\\' :=
      List.forall_mem_cons.mpr ⟨by decide, plain_of_codePoint hpoint⟩
    have hrun := stringEnd_run hplain ('"' :: rest)
    have hstep : stringEnd ('\\' :: 'u' :: ('{' :: hex ++ '"' :: rest)) = _ :=
      stringEnd_escape (by decide) (by simp)
    simp only [List.cons_append] at hrun hstep ⊢
    rw [hstep, hrun]
    simp [stringEnd]
    omega

/-- Every content of strings has a meaning, and a string with it ends after it. -/
theorem unescapes_of_items (hitems : List.Forall₂ (Item '"' CodePoint) items values)
    (hending : Ending tail last) :
    Unescapes (items.flatten ++ tail) (values ++ last) ∧ Closed (items.flatten ++ tail) := by
  induction hitems with
  | nil => exact hending.unescapes
  | cons hitem _ ih =>
    rw [List.flatten_cons, List.append_assoc]
    exact ⟨hitem.unescapes ih.1, hitem.closed_append_iff.mpr ih.2⟩

/-! ## Literals of a source -/

/-- What a character literal has between its quotes is one item. -/
theorem item_of_unescapes (hw : w ∈ quotedItem '\'') (h : Unescapes w [v]) :
    Item '\'' Hexadecimal w v := by
  have hread := Text.Escape.read?_of_unescapes h
  rcases mem_quotedItem.mp hw with ⟨c, hquote, hslash, rfl⟩ | ⟨hex, hne, hhex, rfl⟩ | ⟨c, hc, rfl⟩
  · obtain rfl : c = v := by simpa [Text.Escape.read?, hslash] using hread
    exact .plain hquote hslash
  · have hbrace : ∀ d ∈ hex, d ≠ '}' := fun d hd => (isHexDigit_ne (hhex d hd)).2.2
    obtain ⟨htake, hafter⟩ := Text.Escape.takeWhile_codePoint hbrace []
    rw [Text.Escape.read?, htake, hafter, Text.Escape.read?] at hread
    obtain ⟨u, hu, hvalue⟩ := Option.bind_eq_some_iff.mp hread
    obtain rfl : u = v := by simpa using hvalue
    have hpoint := Text.Escape.codePoint?_eq_some_iff.mp hu
    refine .codePoint (hexadecimal_of_codePoint hpoint ?_)
    intro hplus
    exact absurd (hhex '+' hplus) (by decide)
  · by_cases hletter : c = 'u'
    · subst hletter
      simp [Text.Escape.read?] at hread
    · obtain rfl : escaped c = v := by simpa [Text.Escape.read?, hletter] using hread
      exact .escape hletter hc

theorem item_of_char_token {src : String} {t : Token} (ht : t ∈ (lex src).tokens)
    (hkind : t.kind = .char v) :
    ∃ w, t.text.toList = '\'' :: (w ++ ['\'']) ∧ Item '\'' Hexadecimal w v := by
  obtain ⟨hmem, hvalue⟩ := mem_pattern_of_token ht (by simp [hkind])
  rw [hkind] at hmem hvalue
  obtain ⟨w, hw, htext⟩ := mem_char.mp hmem
  obtain ⟨cs, hcs, hread⟩ := Spells.char_iff.mp hvalue
  obtain rfl := quoted_inj (htext.symm.trans hcs)
  exact ⟨w, htext, item_of_unescapes hw (Text.Escape.readChar?_eq_some_iff.mp hread)⟩

theorem content_of_string_token {src s : String} {t : Token} (ht : t ∈ (lex src).tokens)
    (hkind : t.kind = .string s) :
    ∃ w, t.text.toList = '"' :: (w ++ ['"']) ∧ Content w s.toList := by
  obtain ⟨hmem, hvalue⟩ := mem_pattern_of_token ht (by simp [hkind])
  rw [hkind] at hmem hvalue
  obtain ⟨w, hw, htext⟩ := mem_string.mp hmem
  obtain ⟨cs, vs, hcs, rfl, hread⟩ := Spells.string_iff.mp hvalue
  obtain rfl := quoted_inj (htext.symm.trans hcs)
  rw [String.toList_ofList]
  exact ⟨w, htext, content_of_unescapes (Text.Escape.read?_eq_some_iff.mp hread)
    (stringEnd_of_items hw)⟩

end Lexer

open Lexer

/-- Every character literal that the lexer takes is one item between quotes and has the value of
    that item. Every string is a row of items that stand for the characters of its value, one each,
    except that code points may have a plus sign and the last one may lack its closing brace; it is a
    row of items proper exactly if neither is the case. A source that is such a string is taken. -/
theorem literals_are_items (src : String) :
    (∀ t ∈ (lex src).tokens,
      (∀ v, t.kind = .char v →
        ∃ w, t.text.toList = '\'' :: (w ++ ['\'']) ∧ Item '\'' Hexadecimal w v) ∧
      ∀ s, t.kind = .string s → ∃ items values tail last,
        t.text.toList = '"' :: (items.flatten ++ tail ++ ['"']) ∧ s.toList = values ++ last ∧
        List.Forall₂ (Item '"' CodePoint) items values ∧ Ending tail last ∧
        (Row (Item '"' Hexadecimal) (items.flatten ++ tail) s.toList ↔
          tail = [] ∧ ∀ i ∈ items, ¬ Signed i)) ∧
    ∀ items values tail last, List.Forall₂ (Item '"' CodePoint) items values → Ending tail last →
      src.toList = '"' :: (items.flatten ++ tail ++ ['"']) →
      (lex src).errors = [] ∧
        (lex src).tokens.map Token.spelled = [(.string (String.ofList (values ++ last)), src)] := by
  constructor
  · intro t ht
    refine ⟨fun v hkind => item_of_char_token ht hkind, ?_⟩
    intro s hkind
    obtain ⟨w, htext, items, values, tail, last, rfl, hs, hitems, hending⟩ :=
      content_of_string_token ht hkind
    rw [hs]
    exact ⟨items, values, tail, last, htext, rfl, hitems, hending, row_iff hitems hending⟩
  · intro items values tail last hitems hending hsrc
    obtain ⟨hmeaning, hclosed⟩ := unescapes_of_items hitems hending
    have hcloses : Closes [] := by simp [Closes]
    have hscans := Scans.lexeme (lexeme_of_unescapes hclosed hmeaning) hcloses Scans.nil
    rw [List.append_nil, ← hsrc] at hscans
    have hlex := hscans.lex
    rwa [String.ofList_toList] at hlex

/-- A string may take both liberties, as `"\u{+41}\u{42"` does; a character literal has one item. -/
theorem liberties_taken_together :
    let src := "\"\\u\x7b+41\x7d\\u\x7b42\""
    (lex src).errors = [] ∧ (lex src).tokens.map Token.spelled = [(.string "AB", src)] ∧
      ∃ t ∈ (lex "'\\u\x7b41\x7d'").tokens, ∃ w,
        t.text.toList = '\'' :: (w ++ ['\'']) ∧ Item '\'' Hexadecimal w 'A' := by
  have hsigned : CodePoint ['+', '4', '1'] 'A' := Text.Escape.codePoint?_eq_some_iff.mp rfl
  have hlast : CodePoint ['4', '2'] 'B' := Text.Escape.codePoint?_eq_some_iff.mp rfl
  obtain ⟨herrors, htokens⟩ := (literals_are_items "\"\\u\x7b+41\x7d\\u\x7b42\"").2 _ _ _ _
    (.cons (.codePoint hsigned) .nil) (.unclosed hlast) (by decide)
  have hlexed : (lex "'\\u\x7b41\x7d'").tokens =
      [⟨.char 'A', ⟨0, 8⟩, "'\\u\x7b41\x7d'"⟩] := by decide +kernel
  have hchar := List.mem_singleton_self (⟨.char 'A', ⟨0, 8⟩, "'\\u\x7b41\x7d'"⟩ : Token)
  rw [← hlexed] at hchar
  exact ⟨herrors, htokens, _, hchar, ((literals_are_items _).1 _ hchar).1 'A' rfl⟩

/-- A code point that nothing closes is taken at the end of a string: `"\u{41"` has the value `A`,
    but no row of items proper stands between its quotes. -/
theorem unclosed_codePoint_taken :
    ∃ t ∈ (lex "\"\\u\x7b41\"").tokens, t.kind = .string "A" ∧
      ¬ ∃ w, t.text.toList = '"' :: (w ++ ['"']) ∧ Row (Item '"' Hexadecimal) w "A".toList := by
  have hlexed : (lex "\"\\u\x7b41\"").tokens =
      [⟨.string "A", ⟨0, 7⟩, "\"\\u\x7b41\""⟩] := by decide +kernel
  rw [hlexed]
  refine ⟨_, List.mem_singleton_self _, rfl, ?_⟩
  rintro ⟨w, htext, hrow⟩
  have hpoint : CodePoint ['4', '1'] 'A' := Text.Escape.codePoint?_eq_some_iff.mp rfl
  obtain rfl : ['\\', 'u', '\x7b', '4', '1'] = w := quoted_inj htext
  cases ((row_iff .nil (.unclosed hpoint)).mp hrow).1

end FOmega
