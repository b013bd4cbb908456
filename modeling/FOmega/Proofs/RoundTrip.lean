import FOmega.Proofs.Pieces
import FOmega.Proofs.Sentence

/-!
# Texts that read back

The text of a constant is a single lexeme, and the text of a version is three numbers with dots
between. Read again they give what they were written from, a constant also inside any number of
parentheses that the limit on nesting allows.
-/

namespace FOmega

open Text.Decimal (isDigit digits)
open Text.Escape (write)
open Terminal
open scoped Computability

namespace Lexer

variable {c : Char} {u cs rest : List Char} {p : Char → Bool} {kind : TokenKind}

/-! ## Lexemes before something else -/

theorem count_append (hu : ∀ c ∈ u, p c = true) (hrest : ∀ c ∈ rest.head?, p c = false) :
    count p (u ++ rest) = u.length := by
  rw [count, List.takeWhile_append_of_pos hu]
  cases rest with
  | nil => simp
  | cons c rest => rw [List.takeWhile_cons_of_neg (by simp [hrest c rfl]), List.append_nil]

theorem isBlank_eq_false (h : 32 < c.toNat) : isBlank c = false := by
  by_contra hne
  have hle := toNat_of_isBlank (Bool.eq_true_of_not_eq_false hne)
  omega

theorem isDigit_eq_false (h : 57 < c.toNat) : isDigit c = false := by
  by_contra hne
  have hle := toNat_of_isDigit (Bool.eq_true_of_not_eq_false hne)
  omega

theorem piece_of_isDigit (h : isDigit c = true) : piece c cs = intPiece c cs := by
  have hbounds := toNat_of_isDigit h
  unfold piece
  split
  case h_11 => rw [if_neg (by simp [isBlank_eq_false (c := c) (by omega)]), if_pos h]
  all_goals exact absurd h (by decide)

/-- No digit and no character of an identifier comes first. -/
def Closes (rest : List Char) : Prop :=
  ∀ c ∈ rest.head?, isDigit c = false ∧ isIdentRest c = false

/-- The text is one lexeme of the given kind, whatever closes it. -/
def Lexeme (w : List Char) (kind : TokenKind) : Prop :=
  ∃ c cs, w = c :: cs ∧ ∀ rest, Closes rest → piece c (cs ++ rest) = ⟨.token kind, cs.length⟩

theorem isDigit_of_mem_digits {n : Nat} {d : Char} (h : d ∈ digits n) : isDigit d = true := by
  have hdigit := Nat.isDigit_of_mem_toDigits (by decide) (by decide) h
  have hbounds := Char.isDigit_iff_toNat.mp hdigit
  simp only [isDigit, Bool.and_eq_true, decide_eq_true_eq]
  exact hbounds

theorem value_digits (n : Nat) : Text.Decimal.value (digits n) = n :=
  Nat.ofDigitChars_toDigits (by decide) (by decide)

/-- A first character and the digits of a number are a single integer. -/
theorem intPiece_append {ds : List Char} (hds : ∀ d ∈ ds, isDigit d = true) (hrest : Closes rest) :
    intPiece c (ds ++ rest) = ⟨.token (.int (Text.Decimal.signedValue (c :: ds))), ds.length⟩ := by
  have hcount := count_append hds fun d hd => (hrest d hd).1
  simp only [intPiece, hcount, List.take_left]

theorem lexeme_natural (n : Nat) : Lexeme (digits n) (.int n) := by
  cases hdigits : digits n with
  | nil => exact absurd hdigits Nat.toDigits_ne_nil
  | cons d ds =>
    have hall : ∀ c ∈ d :: ds, isDigit c = true := hdigits ▸ fun c => isDigit_of_mem_digits
    obtain ⟨hd, hds⟩ := List.forall_mem_cons.mp hall
    have hvalue : Text.Decimal.signedValue (d :: ds) = n := by
      unfold Text.Decimal.signedValue
      split
      · next heq =>
        obtain ⟨rfl, -⟩ := List.cons.inj heq
        exact absurd hd (by decide)
      · rw [← hdigits, value_digits]
    refine ⟨d, ds, rfl, ?_⟩
    intro rest hrest
    rw [piece_of_isDigit hd, intPiece_append hds hrest, hvalue]

theorem lexeme_negative (n : Nat) : Lexeme ('-' :: digits n) (.int (-n)) := by
  refine ⟨'-', digits n, rfl, ?_⟩
  intro rest hrest
  have hint := intPiece_append (c := '-') (fun d => isDigit_of_mem_digits (n := n)) hrest
  have hvalue : Text.Decimal.signedValue ('-' :: digits n) = -n := by
    rw [Text.Decimal.signedValue, value_digits]
  rw [hvalue] at hint
  cases hdigits : digits n with
  | nil => exact absurd hdigits Nat.toDigits_ne_nil
  | cons d ds =>
    have hd : isDigit d = true := isDigit_of_mem_digits (hdigits ▸ List.mem_cons_self)
    have hne : d ≠ '-' := by
      rintro rfl
      exact absurd hd (by decide)
    rw [hdigits] at hint
    show minusPiece (d :: (ds ++ rest)) = _
    rw [minusPiece, if_pos hd]
    · exact hint
    · simpa using hne

theorem char_mem_quotedItem {quote : Char} (hquote : quote = '"' ∨ quote = '\'') (c : Char) :
    Text.Escape.char c ∈ quotedItem quote := by
  refine mem_quotedItem.mpr ?_
  unfold Text.Escape.char
  split
  case h_7 hapostrophe hmark hslash =>
    split
    · refine .inl ⟨c, ?_, hslash, rfl⟩
      rcases hquote with rfl | rfl
      · exact hmark
      · exact hapostrophe
    · have hdigits := (Text.Escape.hexValue_toDigits c.toNat).2
      exact .inr (.inl ⟨_, Nat.toDigits_ne_nil, hdigits, rfl⟩)
  all_goals exact .inr (.inr ⟨_, by decide, rfl⟩)

theorem write_mem_kstar (cs : List Char) : write cs ∈ (quotedItem '"')∗ := by
  induction cs with
  | nil => exact Language.nil_mem_kstar _
  | cons c cs ih => exact append_mem_kstar (char_mem_quotedItem (.inl rfl) c) ih

/-- A text that ends at the quote after it and means something is, between quotes, one string. -/
theorem lexeme_of_unescapes {w vs : List Char}
    (hend : ∀ rest, stringEnd (w ++ '"' :: rest) = (true, w.length + 1))
    (h : Text.Escape.Unescapes w vs) :
    Lexeme ('"' :: (w ++ ['"'])) (.string (String.ofList vs)) := by
  refine ⟨'"', _, rfl, ?_⟩
  intro rest _
  have hread := Text.Escape.read?_eq_some_iff.mpr h
  show stringPiece _ = _
  rw [List.append_assoc, List.singleton_append, stringPiece, hend]
  simp [hread]

theorem lexeme_string (s : String) : Lexeme ('"' :: (write s.toList ++ ['"'])) (.string s) := by
  have hlexeme := lexeme_of_unescapes (stringEnd_of_items (write_mem_kstar s.toList))
    (Text.Escape.unescapes_write s.toList)
  rwa [String.ofList_toList] at hlexeme

theorem lexeme_char (v : Char) : Lexeme ('\'' :: (Text.Escape.char v ++ ['\''])) (.char v) := by
  refine ⟨'\'', _, rfl, ?_⟩
  intro rest _
  have hend := charEnd_of_item (char_mem_quotedItem (.inr rfl) v) rest
  have hread := Text.Escape.readChar?_eq_some_iff.mpr (Text.Escape.unescapes_write [v])
  rw [write, List.flatMap_singleton] at hread
  show charPiece _ = _
  rw [List.append_assoc, List.singleton_append, charPiece, hend]
  simp [hread]

theorem lexeme_word (c : Char) (cs : List Char) (hc : Text.isLetter c = true)
    (hcs : cs.all isIdentRest = true) : Lexeme (c :: cs) .ident := by
  refine ⟨c, cs, rfl, ?_⟩
  intro rest hrest
  have hle := toNat_of_isLetter hc
  have hcount := count_append (List.all_eq_true.mp hcs) fun d hd => (hrest d hd).2
  unfold piece
  split
  case h_11 =>
    rw [if_neg (by simp [isBlank_eq_false (c := c) (by omega)]),
      if_neg (by simp [isDigit_eq_false (c := c) (by omega)]), if_pos hc, hcount]
  all_goals exact absurd hc (by decide)

end Lexer

/-- The kind of the token that a constant is written as. -/
def Constant.tokenKind : Constant → TokenKind
  | integer n => .int n
  | char c => .char c
  | string s => .string s
  | unit => .ident
  | bool _ => .ident

namespace Lexer

theorem lexeme_constant (c : Constant) : Lexeme c.text.toList c.tokenKind := by
  cases c with
  | integer n =>
    rw [Constant.text, Text.Decimal.signedText, String.toList_ofList]
    cases n with
    | ofNat n => exact lexeme_natural n
    | negSucc n => exact lexeme_negative (n + 1)
  | char v =>
    rw [Constant.text, String.toList_ofList]
    exact lexeme_char v
  | string s =>
    rw [Constant.text, String.toList_ofList]
    exact lexeme_string s
  | unit => exact lexeme_word 'u' ['n', 'i', 't'] rfl rfl
  | bool b =>
    cases b with
    | true => exact lexeme_word 'T' ['r', 'u', 'e'] rfl rfl
    | false => exact lexeme_word 'F' ['a', 'l', 's', 'e'] rfl rfl

/-! ## Texts of several lexemes -/

/-- The text is cut without errors into tokens of the given kinds and spellings. -/
def Scans (cs : List Char) (l : List (TokenKind × String)) : Prop :=
  ∀ total offset, (lexFrom total offset cs).errors = [] ∧
    (lexFrom total offset cs).tokens.map Token.spelled = l

variable {l : List (TokenKind × String)} {w : List Char}

theorem Scans.nil : Scans [] [] := by
  intro total offset
  simp [lexFrom]

theorem Scans.cons (cs : List Char) (hpiece : piece c (cs ++ rest) = ⟨.token kind, cs.length⟩)
    (h : Scans rest l) :
    Scans (c :: (cs ++ rest)) ((kind, String.ofList (c :: cs)) :: l) := by
  intro total offset
  obtain ⟨herrors, htokens⟩ := h total (offset + byteLength (c :: cs))
  rw [lexFrom]
  simp only [hpiece, List.take_left, List.drop_left, Span.stop]
  exact ⟨herrors, by rw [List.map_cons, htokens]; rfl⟩

theorem Scans.lexeme (hw : Lexeme w kind) (hrest : Closes rest) (h : Scans rest l) :
    Scans (w ++ rest) ((kind, String.ofList w) :: l) := by
  obtain ⟨c, cs, rfl, hpiece⟩ := hw
  exact Scans.cons cs (hpiece rest hrest) h

theorem Scans.delimiter (hpiece : piece c rest = ⟨.token kind, 0⟩) (h : Scans rest l) :
    Scans (c :: rest) ((kind, String.ofList [c]) :: l) :=
  Scans.cons [] hpiece h

/-- A run of one delimiter, where each of them is a token. -/
theorem Scans.replicate (hpiece : ∀ rest, piece c rest = ⟨.token kind, 0⟩) (h : Scans rest l)
    (k : Nat) : Scans (List.replicate k c ++ rest)
      (List.replicate k (kind, String.ofList [c]) ++ l) := by
  induction k with
  | zero => exact h
  | succ k ih => exact Scans.delimiter (hpiece _) ih

theorem Scans.lex {src : String} (h : Scans src.toList l) :
    (lex src).errors = [] ∧ (lex src).tokens.map Token.spelled = l :=
  h _ 0

end Lexer

open Lexer

/-- A source without comments gives the parser all of its tokens. -/
theorem lexSkippingComments_eq {src : String} {l : List (TokenKind × String)}
    (htokens : (lex src).tokens.map Token.spelled = l) (hl : ∀ x ∈ l, x.1.isComment = false) :
    lexSkippingComments src = lex src := by
  have hkeep : (lex src).tokens.filter (fun t => !t.kind.isComment) = (lex src).tokens := by
    refine List.filter_eq_self.mpr ?_
    intro t ht
    have hmem : t.spelled ∈ l := htokens ▸ List.mem_map_of_mem ht
    have hcomment : t.kind.isComment = false := hl _ hmem
    simp [hcomment]
  rw [lexSkippingComments, Lexed.withoutComments, hkeep]

theorem parseWith_of_read {α : Type} {maxDepth : Nat} {supply : Supply} {rule : Nat → Parser α}
    {label src : String} {a : α} (herrors : (lex src).errors = [])
    (hskip : lexSkippingComments src = lex src)
    (hread : ∀ c i, rule maxDepth c ⟨(lex src).tokens ++ [], none, i⟩ = .ok a ⟨[], none, i⟩) :
    (parseWith maxDepth supply rule label src).result = .ok a := by
  have hrule := hread (sourceContext maxDepth src) (.ofSupply supply)
  rw [List.append_nil, ← hskip] at hrule
  exact parseWith_eq_ok_iff.mpr ⟨hskip ▸ herrors, _, Parser.whole_eq_ok_iff.mpr ⟨hrule, rfl⟩⟩

/-! ## Constants in parentheses -/

/-- A text between the given number of parentheses on each side. -/
def parenthesized (k : Nat) (text : String) : String :=
  String.ofList (List.replicate k '(' ++ (text.toList ++ List.replicate k ')'))

/-- The tokens of a constant between parentheses. -/
def Constant.lexemes (c : Constant) (k : Nat) : List (TokenKind × String) :=
  List.replicate k (.lparen, "(") ++ (c.tokenKind, c.text) :: List.replicate k (.rparen, ")")

theorem Constant.scans (c : Constant) (k : Nat) :
    Scans (parenthesized k c.text).toList (c.lexemes k) := by
  have hclosing : Scans (List.replicate k ')') (List.replicate k (.rparen, ")")) := by
    have hrun : Scans _ (List.replicate k (.rparen, ")") ++ []) :=
      Scans.nil.replicate (c := ')') (fun _ => rfl) k
    simpa using hrun
  have hcloses : Closes (List.replicate k ')') := by
    cases k with
    | zero => simp [Closes]
    | succ k =>
      rintro d ⟨⟩
      decide
  have hconstant := Scans.lexeme (lexeme_constant c) hcloses hclosing
  rw [String.ofList_toList] at hconstant
  rw [parenthesized, String.toList_ofList]
  exact hconstant.replicate (fun _ => rfl) k

theorem Constant.denotes {c : Constant} {t : Token} (h : t.spelled = (c.tokenKind, c.text)) :
    Denotes t c := by
  obtain ⟨hkind, htext⟩ := Prod.mk.inj h
  cases c with
  | integer n => exact .integer hkind
  | char v => exact .char hkind
  | string s => exact .string hkind
  | unit => exact .unit hkind htext
  | bool b =>
    cases b with
    | true => exact .true hkind htext
    | false => exact .false hkind htext

/-- The tokens of a constant between parentheses are a derivation of it, with one level for each
    pair and one for the constant. -/
theorem Constant.derived (c : Constant) (k : Nat) {ts : List Token}
    (h : ts.map Token.spelled = c.lexemes k) :
    ∃ d : ConstantDerivation, d.tokens = ts ∧ d.ast = c ∧ d.depth = k + 1 := by
  induction k generalizing ts with
  | zero =>
    obtain ⟨t, rfl, ht⟩ := List.map_eq_singleton_iff.mp h
    exact ⟨.literal ⟨t, c, denotes ht⟩, rfl, rfl, rfl⟩
  | succ k ih =>
    have hlexemes : c.lexemes (k + 1) = (.lparen, "(") :: (c.lexemes k ++ [(.rparen, ")")]) := by
      rw [lexemes, lexemes, List.replicate_succ,
        List.replicate_succ' (a := (TokenKind.rparen, ")"))]
      simp
    rw [hlexemes] at h
    obtain ⟨o, ts, rfl, ho, hts⟩ := List.map_eq_cons_iff.mp h
    obtain ⟨inner, last, rfl, hinner, hlast⟩ := List.map_eq_append_iff.mp hts
    obtain ⟨cl, rfl, hcl⟩ := List.map_eq_singleton_iff.mp hlast
    obtain ⟨d, rfl, hast, hdepth⟩ := ih hinner
    refine ⟨.parens ⟨o, (Prod.mk.inj ho).1⟩ d ⟨cl, (Prod.mk.inj hcl).1⟩, rfl, hast, ?_⟩
    rw [ConstantDerivation.depth, hdepth]

theorem Constant.not_isComment (c : Constant) : c.tokenKind.isComment = false := by
  cases c <;> rfl

theorem Constant.lexemes_not_isComment (c : Constant) (k : Nat) :
    ∀ x ∈ c.lexemes k, x.1.isComment = false := by
  intro x hx
  rcases List.mem_append.mp hx with hx | hx
  · rw [List.eq_of_mem_replicate hx]
    rfl
  · rcases List.mem_cons.mp hx with rfl | hx
    · exact c.not_isComment
    · rw [List.eq_of_mem_replicate hx]
      rfl

/-! ## Versions -/

/-- The tokens of a version. -/
def Version.lexemes (v : Version) : List (TokenKind × String) :=
  [(.int v.major, Text.Decimal.text v.major), (.dot, "."),
    (.int v.minor, Text.Decimal.text v.minor), (.dot, "."),
    (.int v.patch, Text.Decimal.text v.patch)]

theorem Version.scans (v : Version) : Scans v.text.toList v.lexemes := by
  have hdot : ∀ rest, Closes ('.' :: rest) := by
    rintro rest d ⟨⟩
    decide
  have hpatch := Scans.lexeme (lexeme_natural v.patch) (by simp [Closes]) Scans.nil
  have hminor := Scans.lexeme (lexeme_natural v.minor) (hdot _) (hpatch.delimiter (c := '.') rfl)
  have hmajor := Scans.lexeme (lexeme_natural v.major) (hdot _) (hminor.delimiter (c := '.') rfl)
  have htext : v.text.toList =
      digits v.major ++ '.' :: (digits v.minor ++ '.' :: (digits v.patch ++ [])) := by
    simp [Version.text, Text.Decimal.text]
  rw [htext]
  exact hmajor

/-- The tokens of a version whose numbers fit into 64 bits are a derivation of it. -/
theorem Version.derived (v : Version) {ts : List Token} (h : ts.map Token.spelled = v.lexemes)
    (hmajor : v.major < Grammar.wordBound) (hminor : v.minor < Grammar.wordBound)
    (hpatch : v.patch < Grammar.wordBound) :
    ∃ d : VersionDerivation, d.tokens = ts ∧ d.major.value = v.major ∧ d.minor.value = v.minor ∧
      d.patch.value = v.patch := by
  unfold Version.lexemes at h
  obtain ⟨t₁, _, rfl, h₁, h⟩ := List.map_eq_cons_iff.mp h
  obtain ⟨t₂, _, rfl, h₂, h⟩ := List.map_eq_cons_iff.mp h
  obtain ⟨t₃, _, rfl, h₃, h⟩ := List.map_eq_cons_iff.mp h
  obtain ⟨t₄, _, rfl, h₄, h⟩ := List.map_eq_cons_iff.mp h
  obtain ⟨t₅, rfl, h₅⟩ := List.map_eq_singleton_iff.mp h
  exact ⟨⟨⟨t₁, v.major, hmajor, (Prod.mk.inj h₁).1⟩, ⟨t₂, (Prod.mk.inj h₂).1⟩,
    ⟨t₃, v.minor, hminor, (Prod.mk.inj h₃).1⟩, ⟨t₄, (Prod.mk.inj h₄).1⟩,
    ⟨t₅, v.patch, hpatch, (Prod.mk.inj h₅).1⟩⟩, rfl, rfl, rfl, rfl⟩

theorem Version.lexemes_not_isComment (v : Version) : ∀ x ∈ v.lexemes, x.1.isComment = false := by
  simp [Version.lexemes, TokenKind.isComment]

/-! ## Reading back -/

/-- What is written is read back. The text of any constant, between any number of parentheses that
    leaves a level for the constant, has no lexical errors and a single token between the
    parentheses, and is read as that constant. The text of a version is read as the same three
    numbers. -/
theorem texts_read_back (maxDepth : Nat) (supply : Supply) (label : String) :
    (∀ (c : Constant) (k : Nat), k + 1 ≤ maxDepth →
      (lex (parenthesized k c.text)).errors = [] ∧
      (lex (parenthesized k c.text)).tokens.map Token.spelled = List.replicate k (.lparen, "(") ++
        (c.tokenKind, c.text) :: List.replicate k (.rparen, ")") ∧
      (parseWith maxDepth supply Grammar.constant label (parenthesized k c.text)).result = .ok c) ∧
    ∀ v : Version, v.major < Grammar.wordBound → v.minor < Grammar.wordBound →
      v.patch < Grammar.wordBound →
      ∃ v', (parseWith maxDepth supply (fun _ => Grammar.version) label v.text).result = .ok v' ∧
        v'.major = v.major ∧ v'.minor = v.minor ∧ v'.patch = v.patch := by
  refine ⟨?_, ?_⟩
  · intro c k hk
    obtain ⟨herrors, htokens⟩ := (c.scans k).lex
    obtain ⟨d, hd, rfl, hdepth⟩ := c.derived k htokens
    have hskip := lexSkippingComments_eq htokens (d.ast.lexemes_not_isComment k)
    refine ⟨herrors, htokens, parseWith_of_read herrors hskip fun c i => ?_⟩
    rw [← hd]
    exact Grammar.constant_read c [] none i d (hdepth ▸ hk)
  · intro v hmajor hminor hpatch
    obtain ⟨herrors, htokens⟩ := v.scans.lex
    obtain ⟨d, hd, hvalues⟩ := v.derived htokens hmajor hminor hpatch
    have hskip := lexSkippingComments_eq htokens v.lexemes_not_isComment
    refine ⟨d.tree, parseWith_of_read herrors hskip fun c i => ?_, hvalues⟩
    rw [← hd]
    exact Grammar.version_read c [] none i d

theorem nested_string_reads_back :
    2 + 1 ≤ 3 ∧ Grammar.wordBound - 1 < Grammar.wordBound ∧
      (parseWith 3 .empty Grammar.constant "example"
        (parenthesized 2 (Constant.string "a\"\\\n→").text)).result = .ok (.string "a\"\\\n→") ∧
      ∃ v, (parseWith 0 .empty (fun _ => Grammar.version) "example"
        (Version.text ⟨.absent, 1, 0, Grammar.wordBound - 1⟩)).result = .ok v ∧
        v.major = 1 ∧ v.minor = 0 ∧ v.patch = Grammar.wordBound - 1 := by
  have hconstant := (texts_read_back 3 .empty "example").1 (.string "a\"\\\n→") 2 (by decide)
  have hversion := (texts_read_back 0 .empty "example").2 ⟨.absent, 1, 0, Grammar.wordBound - 1⟩
    (by decide) (by decide) (by decide)
  exact ⟨by decide, by decide, hconstant.2.2, hversion⟩

end FOmega
