import FOmega.Token.Lexer
import FOmega.Proofs.Escape
import Mathlib.Computability.Language

/-!
# The patterns of lexemes

Each class of lexemes is a regular language of texts, given by a pattern. Where several patterns
match a beginning of the source, the longest match counts. The piece that the lexer takes is judged
by this: it is the longest match with the value that its text denotes, or nothing matches, or what
matches is a literal that denotes nothing. A block comment is the one lexeme that goes on after its
pattern, to the end of a well-nested comment.
-/

namespace FOmega

open Text.Escape (isHexDigit Unescapes)
open Text.Decimal (isDigit)
open scoped Computability

namespace Lexer

/-! ## Patterns -/

/-- The texts of one character of a class. -/
def oneOf (p : Char → Bool) : Language Char :=
  {w | ∃ c, p c = true ∧ w = [c]}

/-- The one given text. -/
def exactly (w : List Char) : Language Char :=
  {w}

/-- An item between quotes: a character other than the quote and the backslash, a code point in
    hexadecimal, or a backslash and a character on the same line. -/
def quotedItem (quote : Char) : Language Char :=
  oneOf (fun c => c != quote && c != '\\')
    + exactly ['\\', 'u', '{'] * (oneOf isHexDigit * (oneOf isHexDigit)∗) * exactly ['}']
    + exactly ['\\'] * oneOf (· != '\n')

/-- The classes of lexemes. -/
inductive TokenClass where
  | blank
  | lineComment
  | blockComment
  | lparen
  | rparen
  | lbracket
  | rbracket
  | lbrace
  | rbrace
  | dot
  | int
  | string
  | char
  | ident
  deriving DecidableEq

namespace TokenClass

/-- The texts that a class of lexemes matches. Of a block comment this is only the opening. -/
def pattern : TokenClass → Language Char
  | blank => oneOf isBlank * (oneOf isBlank)∗
  | lineComment => exactly ['-', '-'] * (oneOf (· != '\n'))∗
  | blockComment => exactly ['{', '-']
  | lparen => exactly ['(']
  | rparen => exactly [')']
  | lbracket => exactly ['[']
  | rbracket => exactly [']']
  | lbrace => exactly ['{']
  | rbrace => exactly ['}']
  | dot => exactly ['.']
  | int => (1 + exactly ['-']) * (oneOf isDigit * (oneOf isDigit)∗)
  | string => exactly ['"'] * (quotedItem '"')∗ * exactly ['"']
  | char => exactly ['\''] * quotedItem '\'' * exactly ['\'']
  | ident => oneOf Text.isLetter * (oneOf isIdentRest)∗

/-- The characters with which a lexeme of a class can start. -/
def leads : TokenClass → Char → Bool
  | blank => isBlank
  | lineComment => (· == '-')
  | blockComment => (· == '{')
  | lparen => (· == '(')
  | rparen => (· == ')')
  | lbracket => (· == '[')
  | rbracket => (· == ']')
  | lbrace => (· == '{')
  | rbrace => (· == '}')
  | dot => (· == '.')
  | int => fun c => c == '-' || isDigit c
  | string => (· == '"')
  | char => (· == '\'')
  | ident => Text.isLetter

end TokenClass

/-- Of all beginnings of the source that match the pattern of any class, the text is the longest,
    and it is of the given class alone. -/
structure Longest (source : List Char) (k : TokenClass) (w : List Char) : Prop where
  starts : w <+: source
  mem : w ∈ k.pattern
  longest : ∀ k' w', w' <+: source → w' ∈ k'.pattern →
    w'.length ≤ w.length ∧ (w'.length = w.length → k' = k)

/-- What stands after the opening of a block comment through the end that belongs to it: comments
    inside it, and characters that are not the first of an opening or an end. -/
inductive CommentRest : List Char → Prop where
  | close : CommentRest ['-', '}']
  | nest {u w : List Char} (inner : CommentRest u) (rest : CommentRest w) :
    CommentRest ('{' :: '-' :: (u ++ w))
  | other {c d : Char} {w : List Char} (opens : ¬ (c = '{' ∧ d = '-'))
    (closes : ¬ (c = '-' ∧ d = '}')) (rest : CommentRest (d :: w)) : CommentRest (c :: d :: w)

/-- The text has the value of the token: digits denote a number, most significant first, and what
    stands between quotes denotes what it unescapes to. -/
inductive Spells : List Char → TokenKind → Prop where
  | natural {ds : List Char} (digits : ∀ d ∈ ds, isDigit d = true) :
    Spells ds (.int (Nat.ofDigitChars 10 ds 0))
  | negative {ds : List Char} (digits : ∀ d ∈ ds, isDigit d = true) :
    Spells ('-' :: ds) (.int (-Nat.ofDigitChars 10 ds 0))
  | string {cs vs : List Char} (content : Unescapes cs vs) :
    Spells ('"' :: (cs ++ ['"'])) (.string (String.ofList vs))
  | char {cs : List Char} {v : Char} (content : Unescapes cs [v]) :
    Spells ('\'' :: (cs ++ ['\''])) (.char v)
  | valueless {w : List Char} {kind : TokenKind} (int : ∀ n, kind ≠ .int n)
    (string : ∀ s, kind ≠ .string s) (char : ∀ v, kind ≠ .char v) : Spells w kind

/-- The text is a string or character literal whose content stands for no text, or not for a single
    character. -/
inductive Undecodable : TokenClass → List Char → Prop where
  | string {cs : List Char} (content : ¬ ∃ vs, Unescapes cs vs) :
    Undecodable .string ('"' :: (cs ++ ['"']))
  | char {cs : List Char} (content : ¬ ∃ v, Unescapes cs [v]) :
    Undecodable .char ('\'' :: (cs ++ ['\'']))

end Lexer

/-- The class of a token. -/
def TokenKind.tokenClass : TokenKind → Lexer.TokenClass
  | lineComment => .lineComment
  | blockComment => .blockComment
  | lparen => .lparen
  | rparen => .rparen
  | lbracket => .lbracket
  | rbracket => .rbracket
  | lbrace => .lbrace
  | rbrace => .rbrace
  | dot => .dot
  | int _ => .int
  | string _ => .string
  | char _ => .char
  | ident => .ident

/-- What a token is and how it is spelled, whatever its place. -/
def Token.spelled (t : Token) : TokenKind × String :=
  (t.kind, t.text)

namespace Lexer

variable {p : Char → Bool} {L : Language Char} {u v w cs rest source : List Char} {c d : Char}
  {k : TokenClass} {n : Nat}

/-! ## Texts of a pattern -/

theorem mem_oneOf : w ∈ oneOf p ↔ ∃ c, p c = true ∧ w = [c] :=
  Iff.rfl

theorem mem_oneOf_mul : w ∈ oneOf p * L ↔ ∃ c v, p c = true ∧ v ∈ L ∧ w = c :: v := by
  rw [Language.mem_mul]
  constructor
  · rintro ⟨_, ⟨c, hc, rfl⟩, v, hv, rfl⟩
    exact ⟨c, v, hc, hv, rfl⟩
  · rintro ⟨c, v, hc, hv, rfl⟩
    exact ⟨[c], ⟨c, hc, rfl⟩, v, hv, rfl⟩

theorem mem_exactly_mul : w ∈ exactly u * L ↔ ∃ v ∈ L, w = u ++ v := by
  rw [Language.mem_mul]
  constructor
  · rintro ⟨_, rfl, v, hv, rfl⟩
    exact ⟨v, hv, rfl⟩
  · rintro ⟨v, hv, rfl⟩
    exact ⟨u, rfl, v, hv, rfl⟩

theorem mem_mul_exactly : w ∈ L * exactly u ↔ ∃ v ∈ L, w = v ++ u := by
  rw [Language.mem_mul]
  constructor
  · rintro ⟨v, hv, _, rfl, rfl⟩
    exact ⟨v, hv, rfl⟩
  · rintro ⟨v, hv, rfl⟩
    exact ⟨v, hv, u, rfl, rfl⟩

theorem mem_oneOf_kstar : w ∈ (oneOf p)∗ ↔ ∀ c ∈ w, p c = true := by
  rw [Language.mem_kstar]
  constructor
  · rintro ⟨ws, rfl, hws⟩ c hc
    obtain ⟨y, hy, hcy⟩ := List.mem_flatten.mp hc
    obtain ⟨d, hd, rfl⟩ := hws y hy
    rw [List.mem_singleton.mp hcy]
    exact hd
  · intro h
    refine ⟨w.map fun c => [c], ?_, ?_⟩
    · rw [← List.flatMap_def, List.flatMap_singleton']
    intro y hy
    obtain ⟨c, hc, rfl⟩ := List.mem_map.mp hy
    exact ⟨c, h c hc, rfl⟩

/-- A run of a class with at least one character. -/
theorem mem_oneOrMore : w ∈ oneOf p * (oneOf p)∗ ↔ w ≠ [] ∧ ∀ c ∈ w, p c = true := by
  simp only [mem_oneOf_mul, mem_oneOf_kstar]
  constructor
  · rintro ⟨c, v, hc, hv, rfl⟩
    exact ⟨List.cons_ne_nil c v, List.forall_mem_cons.mpr ⟨hc, hv⟩⟩
  · rintro ⟨hne, hall⟩
    cases w with
    | nil => exact absurd rfl hne
    | cons c v =>
      have hcons := List.forall_mem_cons.mp hall
      exact ⟨c, v, hcons.1, hcons.2, rfl⟩

theorem mem_quotedItem {quote : Char} :
    w ∈ quotedItem quote ↔ (∃ c, c ≠ quote ∧ c ≠ '\\' ∧ w = [c]) ∨
      (∃ hex, hex ≠ [] ∧ (∀ d ∈ hex, isHexDigit d = true) ∧
        w = '\\' :: 'u' :: '{' :: (hex ++ ['}'])) ∨
      ∃ c, c ≠ '\n' ∧ w = ['\\', c] := by
  simp only [quotedItem, Language.mem_add, mem_mul_exactly, mem_exactly_mul, mem_oneOrMore,
    or_assoc]
  refine or_congr ?_ (or_congr ?_ ?_)
  · simp [mem_oneOf, and_assoc]
  · constructor
    · rintro ⟨_, ⟨hex, ⟨hne, hhex⟩, rfl⟩, rfl⟩
      exact ⟨hex, hne, hhex, by simp⟩
    · rintro ⟨hex, hne, hhex, rfl⟩
      exact ⟨_, ⟨hex, ⟨hne, hhex⟩, rfl⟩, by simp⟩
  · simp [mem_oneOf]

theorem mem_string : w ∈ TokenClass.string.pattern ↔
    ∃ v ∈ (quotedItem '"')∗, w = '"' :: (v ++ ['"']) := by
  simp only [TokenClass.pattern, mul_assoc, mem_exactly_mul, mem_mul_exactly]
  constructor
  · rintro ⟨_, ⟨v, hv, rfl⟩, rfl⟩
    exact ⟨v, hv, rfl⟩
  · rintro ⟨v, hv, rfl⟩
    exact ⟨_, ⟨v, hv, rfl⟩, rfl⟩

theorem mem_char : w ∈ TokenClass.char.pattern ↔
    ∃ v ∈ quotedItem '\'', w = '\'' :: (v ++ ['\'']) := by
  simp only [TokenClass.pattern, mul_assoc, mem_exactly_mul, mem_mul_exactly]
  constructor
  · rintro ⟨_, ⟨v, hv, rfl⟩, rfl⟩
    exact ⟨v, hv, rfl⟩
  · rintro ⟨v, hv, rfl⟩
    exact ⟨_, ⟨v, hv, rfl⟩, rfl⟩

theorem mem_int : w ∈ TokenClass.int.pattern ↔
    ∃ ds, ds ≠ [] ∧ (∀ d ∈ ds, isDigit d = true) ∧ (w = ds ∨ w = '-' :: ds) := by
  simp only [TokenClass.pattern, add_mul, one_mul, Language.mem_add, mem_exactly_mul, mem_oneOrMore]
  constructor
  · rintro (⟨hne, hw⟩ | ⟨ds, ⟨hne, hds⟩, rfl⟩)
    · exact ⟨w, hne, hw, .inl rfl⟩
    · exact ⟨ds, hne, hds, .inr rfl⟩
  · rintro ⟨ds, hne, hds, rfl | rfl⟩
    · exact .inl ⟨hne, hds⟩
    · exact .inr ⟨ds, ⟨hne, hds⟩, rfl⟩

theorem mem_lineComment : w ∈ TokenClass.lineComment.pattern ↔
    ∃ v, (∀ c ∈ v, (c != '\n') = true) ∧ w = '-' :: '-' :: v := by
  simp only [TokenClass.pattern, mem_exactly_mul, mem_oneOf_kstar, List.cons_append,
    List.nil_append]

theorem mem_ident : w ∈ TokenClass.ident.pattern ↔
    ∃ c v, Text.isLetter c = true ∧ (∀ d ∈ v, isIdentRest d = true) ∧ w = c :: v := by
  simp only [TokenClass.pattern, mem_oneOf_mul, mem_oneOf_kstar]

/-- What matches the pattern of a class starts with a character with which the class can start. -/
theorem exists_lead (h : w ∈ k.pattern) : ∃ c v, w = c :: v ∧ k.leads c = true := by
  cases k with
  | blank =>
    obtain ⟨c, v, hc, -, rfl⟩ := mem_oneOf_mul.mp h
    exact ⟨c, v, rfl, hc⟩
  | lineComment =>
    obtain ⟨v, -, rfl⟩ := mem_lineComment.mp h
    exact ⟨_, _, rfl, rfl⟩
  | int =>
    obtain ⟨ds, hne, hds, rfl | rfl⟩ := mem_int.mp h
    · cases w with
      | nil => exact absurd rfl hne
      | cons d ds => exact ⟨d, ds, rfl, by simp [TokenClass.leads, hds d]⟩
    · exact ⟨_, _, rfl, rfl⟩
  | string =>
    obtain ⟨v, -, rfl⟩ := mem_string.mp h
    exact ⟨_, _, rfl, rfl⟩
  | char =>
    obtain ⟨v, -, rfl⟩ := mem_char.mp h
    exact ⟨_, _, rfl, rfl⟩
  | ident =>
    obtain ⟨c, v, hc, -, rfl⟩ := mem_ident.mp h
    exact ⟨c, v, rfl, hc⟩
  | _ =>
    cases h
    exact ⟨_, _, rfl, rfl⟩

/-- A comment ends at one place only. -/
theorem CommentRest.unique (hu : CommentRest u) (hv : CommentRest v) {r s : List Char}
    (h : u ++ r = v ++ s) : u = v := by
  induction hu generalizing v r s with
  | close =>
    cases hv with
    | close => rfl
    | nest => simp at h
    | other _ hcloses =>
      simp only [List.cons_append, List.cons.injEq] at h
      exact absurd ⟨h.1.symm, h.2.1.symm⟩ hcloses
  | @nest u w _ _ ihu ihw =>
    cases hv with
    | close => simp at h
    | @nest u' w' hu' hw' =>
      simp only [List.cons_append, List.append_assoc, List.cons.injEq, true_and] at h
      obtain rfl := ihu hu' h
      rw [ihw hw' (List.append_cancel_left h)]
    | other hopens =>
      simp only [List.cons_append, List.cons.injEq] at h
      exact absurd ⟨h.1.symm, h.2.1.symm⟩ hopens
  | other hopens hcloses _ ih =>
    cases hv with
    | close =>
      simp only [List.cons_append, List.cons.injEq] at h
      exact absurd ⟨h.1, h.2.1⟩ hcloses
    | nest =>
      simp only [List.cons_append, List.cons.injEq] at h
      exact absurd ⟨h.1, h.2.1⟩ hopens
    | other _ _ hrest =>
      obtain ⟨rfl, htail⟩ := List.cons.inj h
      rw [ih hrest htail]

/-! ## The longest match -/

/-- A source that starts with a character of one class only has the longest match of that class. -/
theorem Longest.of_lead (hlead : ∀ k' : TokenClass, k'.leads c = true → k' = k)
    (hstarts : w <+: cs) (hmem : c :: w ∈ k.pattern)
    (hmax : ∀ v, v <+: cs → c :: v ∈ k.pattern → v.length ≤ w.length) :
    Longest (c :: cs) k (c :: w) where
  starts := List.cons_prefix_cons.mpr ⟨rfl, hstarts⟩
  mem := hmem
  longest := by
    intro k' w' hw' hmem'
    obtain ⟨d, v, rfl, hd⟩ := exists_lead hmem'
    obtain ⟨rfl, hv⟩ := List.cons_prefix_cons.mp hw'
    obtain rfl := hlead k' hd
    have hle := hmax v hv hmem'
    simp [hle]

/-- Where no class can start, nothing matches. -/
theorem not_mem_of_lead (hlead : ∀ k : TokenClass, k.leads c = false) (k : TokenClass)
    (hw : w <+: c :: cs) : w ∉ k.pattern := by
  intro hmem
  obtain ⟨d, v, rfl, hd⟩ := exists_lead hmem
  obtain ⟨rfl, -⟩ := List.cons_prefix_cons.mp hw
  rw [hlead k] at hd
  cases hd

theorem take_count (p : Char → Bool) (cs : List Char) : cs.take (count p cs) = cs.takeWhile p := by
  have hsplit := List.takeWhile_append_dropWhile (p := p) (l := cs)
  calc cs.take (count p cs)
      = (cs.takeWhile p ++ cs.dropWhile p).take (cs.takeWhile p).length := by rw [hsplit, count]
    _ = cs.takeWhile p := List.take_left

theorem length_le_count (h : v <+: cs) (hv : ∀ c ∈ v, p c = true) : v.length ≤ count p cs := by
  obtain ⟨rest, rfl⟩ := h
  rw [count, List.takeWhile_append_of_pos hv, List.length_append]
  exact Nat.le_add_right _ _

end Lexer

end FOmega
