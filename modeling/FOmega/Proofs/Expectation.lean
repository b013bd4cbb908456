import FOmega.Grammar
import FOmega.Proofs.Continuation

/-!
# What expectations stand for

A refusal lists the names of the classes of tokens that would have been accepted. The names of all
classes that a token belongs to can be read off the token, so a list of expectations stands for a
set of tokens: those of which it names a class. Here that set is worked out for every list that a
rule gives, and for the union of two lists.
-/

namespace FOmega

/-! ## Sets of expectations -/

namespace Expected

variable {s x : String} {a b l : List String}

theorem mem_insert : x ∈ insert s l ↔ x = s ∨ x ∈ l := by
  induction l with
  | nil => simp [insert]
  | cons t ts ih =>
    unfold insert
    by_cases hlt : s < t
    · rw [if_pos hlt, List.mem_cons]
    rw [if_neg hlt]
    by_cases heq : s = t
    · rw [if_pos heq, heq, List.mem_cons, or_self_left]
    · rw [if_neg heq, List.mem_cons, ih, List.mem_cons, or_left_comm]

/-- Adding to an increasing list keeps it increasing. -/
theorem pairwise_insert (h : l.Pairwise (· < ·)) : (insert s l).Pairwise (· < ·) := by
  induction l with
  | nil => exact List.pairwise_singleton _ s
  | cons t ts ih =>
    have hts := List.pairwise_cons.mp h
    unfold insert
    by_cases hlt : s < t
    · rw [if_pos hlt]
      refine List.pairwise_cons.mpr ⟨?_, h⟩
      intro x hx
      rcases List.mem_cons.mp hx with rfl | hx
      · exact hlt
      · exact String.lt_trans hlt (hts.1 x hx)
    rw [if_neg hlt]
    by_cases heq : s = t
    · rw [if_pos heq]
      exact h
    · rw [if_neg heq]
      refine List.pairwise_cons.mpr ⟨?_, ih hts.2⟩
      intro x hx
      rcases mem_insert.mp hx with rfl | hx
      · exact Std.lt_of_le_of_ne (String.not_lt.mp hlt) (Ne.symm heq)
      · exact hts.1 x hx

theorem mem_union : x ∈ union a b ↔ x ∈ a ∨ x ∈ b := by
  have hfold : ∀ l : List String, x ∈ l.foldr insert [] ↔ x ∈ l := by
    intro l
    induction l with
    | nil => rfl
    | cons s l ih => rw [List.foldr_cons, mem_insert, ih, List.mem_cons]
  rw [union, hfold, List.mem_append]

/-- What a union lists is in increasing order. -/
theorem pairwise_union : (union a b).Pairwise (· < ·) := by
  unfold union
  induction a ++ b with
  | nil => exact List.Pairwise.nil
  | cons s l ih => exact pairwise_insert ih

theorem nodup_union : (union a b).Nodup := by
  refine pairwise_union.imp ?_
  intro x y hlt heq
  exact String.lt_irrefl y (heq ▸ hlt)

end Expected

/-! ## The classes of a token -/

/-- The words that are keywords in some place. -/
def keywords : List String :=
  ["program", "type", "fun", "lam", "all", "ifix", "con", "prod", "abs", "iwrap", "unwrap", "error",
    "builtin", "proj", "unit", "True", "False"]

/-- The names of the classes to which every identifier belongs. -/
def identifierClasses : List String :=
  ["name", "type name", "variable", "type variable"]

/-- The kinds of token that have one spelling. -/
def delimiters : List TokenKind :=
  [.lparen, .rparen, .lbracket, .rbracket, .lbrace, .rbrace, .dot]

/-- The token is an identifier with the given spelling. -/
def IsWord (word : String) (t : Token) : Prop :=
  t.kind = .ident ∧ t.text = word

/-- The token is an integer from zero up to the largest that fits into 64 bits. -/
def IsNatural (t : Token) : Prop :=
  ∃ n, t.kind = .int n ∧ 0 ≤ n ∧ n < Grammar.wordBound

/-- The token is an identifier that spells a built-in function. -/
def IsBuiltinFunction (t : Token) : Prop :=
  t.kind = .ident ∧ (BuiltinFunction.ofText? t.text).isSome

/-- The token is an identifier that spells a built-in type. -/
def IsBuiltinType (t : Token) : Prop :=
  t.kind = .ident ∧ (BuiltinType.ofText? t.text).isSome

/-- The names of the classes to which a token belongs. -/
def Token.classes (t : Token) : List String :=
  match t.kind with
  | .lineComment => []
  | .blockComment => []
  | .int n => "integer" :: if 0 ≤ n ∧ n < Grammar.wordBound then ["natural number"] else []
  | .ident =>
    identifierClasses
      ++ (if t.text ∈ keywords then ["`" ++ t.text ++ "`"] else [])
      ++ (if (BuiltinFunction.ofText? t.text).isSome then ["built-in function name"] else [])
      ++ (if (BuiltinType.ofText? t.text).isSome then ["built-in type"] else [])
  | kind => [kind.describe]

/-- The names of all classes to which some identifier belongs. -/
def wordClasses : List String :=
  identifierClasses ++ keywords.map (fun word => "`" ++ word ++ "`")
    ++ ["built-in function name", "built-in type"]

/-- The names of all classes to which some other token belongs. -/
def markClasses : List String :=
  ["integer", "natural number", "string", "character"] ++ delimiters.map TokenKind.describe

theorem quoted_not_mem : ∀ word ∈ keywords,
    "`" ++ word ++ "`" ∉ identifierClasses ++ ["built-in function name", "built-in type"] := by
  decide

theorem not_mem_markClasses : ∀ x ∈ wordClasses, x ∉ markClasses := by decide

namespace Token

variable {t : Token} {x : String}

theorem mem_classes_of_ident (h : t.kind = .ident) :
    x ∈ t.classes ↔ x ∈ identifierClasses ∨ (t.text ∈ keywords ∧ x = "`" ++ t.text ++ "`") ∨
      ((BuiltinFunction.ofText? t.text).isSome ∧ x = "built-in function name") ∨
      ((BuiltinType.ofText? t.text).isSome ∧ x = "built-in type") := by
  simp only [classes, h, List.mem_append, List.mem_ite_nil_right, List.mem_singleton, or_assoc]

theorem mem_wordClasses (h : t.kind = .ident) (hx : x ∈ t.classes) : x ∈ wordClasses := by
  rcases (mem_classes_of_ident h).mp hx with hx | ⟨htext, rfl⟩ | ⟨-, rfl⟩ | ⟨-, rfl⟩
  · exact List.mem_append_left _ (List.mem_append_left _ hx)
  · exact List.mem_append_left _ (List.mem_append_right _ (List.mem_map_of_mem htext))
  · decide
  · decide

theorem mem_classes_of_ne_ident (h : t.kind ≠ .ident) (hx : x ∈ t.classes) :
    (∃ n, t.kind = .int n ∧
        (x = "integer" ∨ (0 ≤ n ∧ n < Grammar.wordBound) ∧ x = "natural number")) ∨
      (∃ value, t.kind = .string value ∧ x = "string") ∨
      (∃ value, t.kind = .char value ∧ x = "character") ∨
      (t.kind ∈ delimiters ∧ x = t.kind.describe) := by
  unfold classes at hx
  cases hkind : t.kind with
  | ident => exact absurd hkind h
  | lineComment | blockComment => simp [hkind] at hx
  | int n =>
    simp only [hkind, List.mem_cons, List.mem_ite_nil_right, List.not_mem_nil, or_false] at hx
    exact .inl ⟨n, rfl, hx⟩
  | string value =>
    simp only [hkind, List.mem_singleton] at hx
    exact .inr (.inl ⟨value, rfl, hx⟩)
  | char value =>
    simp only [hkind, List.mem_singleton] at hx
    exact .inr (.inr (.inl ⟨value, rfl, hx⟩))
  | _ =>
    simp only [hkind, List.mem_singleton] at hx
    exact .inr (.inr (.inr ⟨by decide, hx⟩))

theorem mem_markClasses (h : t.kind ≠ .ident) (hx : x ∈ t.classes) : x ∈ markClasses := by
  rcases mem_classes_of_ne_ident h hx with
    ⟨n, -, rfl | ⟨-, rfl⟩⟩ | ⟨value, -, rfl⟩ | ⟨value, -, rfl⟩ | ⟨hkind, rfl⟩
  · decide
  · decide
  · decide
  · decide
  · exact List.mem_append_right _ (List.mem_map_of_mem hkind)

theorem kind_eq_of_wordClass (hword : x ∈ wordClasses) (hx : x ∈ t.classes) : t.kind = .ident := by
  by_cases h : t.kind = .ident
  · exact h
  · exact absurd (mem_markClasses h hx) (not_mem_markClasses x hword)

theorem kind_ne_of_markClass (hmark : x ∈ markClasses) (hx : x ∈ t.classes) : t.kind ≠ .ident := by
  intro h
  exact not_mem_markClasses x (mem_wordClasses h hx) hmark

theorem endOfInput_not_mem_classes : "end of input" ∉ t.classes := by
  intro hx
  by_cases h : t.kind = .ident
  · exact absurd (mem_wordClasses h hx) (by decide)
  · exact absurd (mem_markClasses h hx) (by decide)

/-! ## What each name stands for -/

theorem identifier_mem_classes (hx : x ∈ identifierClasses) : x ∈ t.classes ↔ t.kind = .ident := by
  constructor
  · exact kind_eq_of_wordClass (List.mem_append_left _ (List.mem_append_left _ hx))
  · intro h
    exact (mem_classes_of_ident h).mpr (.inl hx)

theorem keyword_mem_classes {word : String} (hword : word ∈ keywords) :
    "`" ++ word ++ "`" ∈ t.classes ↔ t.kind = .ident ∧ t.text = word := by
  have hother := quoted_not_mem word hword
  constructor
  · intro hx
    have hkind : t.kind = .ident := kind_eq_of_wordClass
      (List.mem_append_left _ (List.mem_append_right _ (List.mem_map_of_mem hword))) hx
    rcases (mem_classes_of_ident hkind).mp hx with hclass | ⟨-, heq⟩ | ⟨-, heq⟩ | ⟨-, heq⟩
    · exact absurd (List.mem_append_left _ hclass) hother
    · exact ⟨hkind, by simpa using heq.symm⟩
    · exact absurd (by simp [heq]) hother
    · exact absurd (by simp [heq]) hother
  · rintro ⟨hkind, rfl⟩
    exact (mem_classes_of_ident hkind).mpr (.inr (.inl ⟨hword, rfl⟩))

theorem builtinFunction_mem_classes :
    "built-in function name" ∈ t.classes ↔ IsBuiltinFunction t := by
  constructor
  · intro hx
    have hkind : t.kind = .ident := kind_eq_of_wordClass (by decide) hx
    rcases (mem_classes_of_ident hkind).mp hx with hx | ⟨hword, hx⟩ | ⟨h, -⟩ | ⟨-, hx⟩
    · exact absurd hx (by decide)
    · exact absurd (hx ▸ List.mem_append_right _ (by decide)) (quoted_not_mem _ hword)
    · exact ⟨hkind, h⟩
    · exact absurd hx (by decide)
  · rintro ⟨hkind, h⟩
    exact (mem_classes_of_ident hkind).mpr (.inr (.inr (.inl ⟨h, rfl⟩)))

theorem builtinType_mem_classes :
    "built-in type" ∈ t.classes ↔ IsBuiltinType t := by
  constructor
  · intro hx
    have hkind : t.kind = .ident := kind_eq_of_wordClass (by decide) hx
    rcases (mem_classes_of_ident hkind).mp hx with hx | ⟨hword, hx⟩ | ⟨-, hx⟩ | ⟨h, -⟩
    · exact absurd hx (by decide)
    · exact absurd (hx ▸ List.mem_append_right _ (by decide)) (quoted_not_mem _ hword)
    · exact absurd hx (by decide)
    · exact ⟨hkind, h⟩
  · rintro ⟨hkind, h⟩
    exact (mem_classes_of_ident hkind).mpr (.inr (.inr (.inr ⟨h, rfl⟩)))

/-- The descriptions of delimiters are those of nothing else, and differ. -/
theorem describe_delimiter : ∀ kind ∈ delimiters,
    kind.describe ∉ ["integer", "natural number", "string", "character"] ∧
      ∀ other ∈ delimiters, kind.describe = other.describe → other = kind := by
  decide

theorem delimiter_mem_classes {kind : TokenKind} (hkind : kind ∈ delimiters) :
    kind.describe ∈ t.classes ↔ t.kind = kind := by
  have hmark : kind.describe ∈ markClasses :=
    List.mem_append_right _ (List.mem_map_of_mem hkind)
  rcases describe_delimiter kind hkind with ⟨hother, hinj⟩
  constructor
  · intro hx
    rcases mem_classes_of_ne_ident (kind_ne_of_markClass hmark hx) hx with
      ⟨n, -, heq | ⟨-, heq⟩⟩ | ⟨value, -, heq⟩ | ⟨value, -, heq⟩ | ⟨htkind, heq⟩
    · exact absurd (by simp [heq]) hother
    · exact absurd (by simp [heq]) hother
    · exact absurd (by simp [heq]) hother
    · exact absurd (by simp [heq]) hother
    · exact hinj t.kind htkind heq
  · rintro rfl
    unfold classes
    simp only [delimiters, List.mem_cons, List.not_mem_nil, or_false] at hkind
    rcases hkind with h | h | h | h | h | h | h <;> simp [h]

/-- A token of one of the other classes is no delimiter. -/
theorem value_cases (hvalue : x ∈ ["integer", "natural number", "string", "character"])
    (hx : x ∈ t.classes) :
    (∃ n, t.kind = .int n ∧
        (x = "integer" ∨ (0 ≤ n ∧ n < Grammar.wordBound) ∧ x = "natural number")) ∨
      (∃ value, t.kind = .string value ∧ x = "string") ∨
      (∃ value, t.kind = .char value ∧ x = "character") := by
  have hne := kind_ne_of_markClass (List.mem_append_left _ hvalue) hx
  rcases mem_classes_of_ne_ident hne hx with h | h | h | ⟨hkind, rfl⟩
  · exact .inl h
  · exact .inr (.inl h)
  · exact .inr (.inr h)
  · exact absurd hvalue (describe_delimiter t.kind hkind).1

theorem integer_mem_classes : "integer" ∈ t.classes ↔ ∃ n, t.kind = .int n := by
  constructor
  · intro hx
    rcases value_cases (by decide) hx with ⟨n, hkind, -⟩ | ⟨value, -, heq⟩ | ⟨value, -, heq⟩
    · exact ⟨n, hkind⟩
    · exact absurd heq (by decide)
    · exact absurd heq (by decide)
  · rintro ⟨n, hkind⟩
    simp [classes, hkind]

theorem natural_mem_classes : "natural number" ∈ t.classes ↔ IsNatural t := by
  constructor
  · intro hx
    rcases value_cases (by decide) hx with
      ⟨n, hkind, heq | ⟨hrange, -⟩⟩ | ⟨value, -, heq⟩ | ⟨value, -, heq⟩
    · exact absurd heq (by decide)
    · exact ⟨n, hkind, hrange⟩
    · exact absurd heq (by decide)
    · exact absurd heq (by decide)
  · rintro ⟨n, hkind, hrange⟩
    simp [classes, hkind, hrange]

theorem string_mem_classes : "string" ∈ t.classes ↔ ∃ value, t.kind = .string value := by
  constructor
  · intro hx
    rcases value_cases (by decide) hx with
      ⟨n, -, heq | ⟨-, heq⟩⟩ | ⟨value, hkind, -⟩ | ⟨value, -, heq⟩
    · exact absurd heq (by decide)
    · exact absurd heq (by decide)
    · exact ⟨value, hkind⟩
    · exact absurd heq (by decide)
  · rintro ⟨value, hkind⟩
    simp [classes, hkind, TokenKind.describe]

theorem character_mem_classes : "character" ∈ t.classes ↔ ∃ value, t.kind = .char value := by
  constructor
  · intro hx
    rcases value_cases (by decide) hx with
      ⟨n, -, heq | ⟨-, heq⟩⟩ | ⟨value, -, heq⟩ | ⟨value, hkind, -⟩
    · exact absurd heq (by decide)
    · exact absurd heq (by decide)
    · exact absurd heq (by decide)
    · exact ⟨value, hkind⟩
  · rintro ⟨value, hkind⟩
    simp [classes, hkind, TokenKind.describe]

end Token

/-! ## Exact expectations -/

/-- The list names, without repeats, classes of tokens that together make up the given set. -/
structure Exact (expected : List String) (S : Token → Prop) : Prop where
  nodup : expected.Nodup
  named : ∀ x ∈ expected, ∃ t : Token, x ∈ t.classes
  classes : ∀ t, S t ↔ ∃ x ∈ expected, x ∈ t.classes

namespace Exact

variable {expected others : List String} {S S' : Token → Prop} {x : String}

theorem congr (h : Exact expected S) (hS : ∀ t, S' t ↔ S t) : Exact expected S' :=
  ⟨h.nodup, h.named, fun t => (hS t).trans (h.classes t)⟩

theorem nil : Exact [] (fun _ => False) := by
  refine ⟨List.nodup_nil, ?_, ?_⟩ <;> simp

theorem single (hS : ∀ t : Token, x ∈ t.classes ↔ S t) (hex : ∃ t, S t) : Exact [x] S := by
  rcases hex with ⟨t, ht⟩
  refine ⟨List.pairwise_singleton _ x, ?_, ?_⟩
  · intro y hy
    rw [List.mem_singleton.mp hy]
    exact ⟨t, (hS t).mpr ht⟩
  · intro t
    simp [hS t]

theorem cons (h : Exact [x] S) (hothers : Exact others S') (hx : x ∉ others) :
    Exact (x :: others) (fun t => S t ∨ S' t) := by
  refine ⟨List.nodup_cons.mpr ⟨hx, hothers.nodup⟩, ?_, ?_⟩
  · intro y hy
    rcases List.mem_cons.mp hy with rfl | hy
    · exact h.named y List.mem_cons_self
    · exact hothers.named y hy
  · intro t
    rw [h.classes t, hothers.classes t]
    simp

theorem union (h : Exact expected S) (hothers : Exact others S') :
    Exact (Expected.union expected others) (fun t => S t ∨ S' t) := by
  refine ⟨Expected.nodup_union, ?_, ?_⟩
  · intro x hx
    rcases Expected.mem_union.mp hx with hx | hx
    · exact h.named x hx
    · exact hothers.named x hx
  · intro t
    simp only [h.classes t, hothers.classes t, Expected.mem_union, or_and_right, exists_or]

theorem endOfInput_not_mem (h : Exact expected S) : "end of input" ∉ expected := by
  intro hx
  rcases h.named _ hx with ⟨t, ht⟩
  exact Token.endOfInput_not_mem_classes ht

/-! ## The expectations of the rules -/

theorem delimiter (kind : TokenKind) (hkind : kind ∈ delimiters) :
    Exact [kind.describe] (IsKind kind) :=
  single (fun _ => Token.delimiter_mem_classes hkind) ⟨⟨kind, ⟨0, 0⟩, ""⟩, rfl⟩

theorem keyword (word : String) (hword : word ∈ keywords) :
    Exact ["`" ++ word ++ "`"] (IsWord word) :=
  single (fun _ => Token.keyword_mem_classes hword) ⟨⟨.ident, ⟨0, 0⟩, word⟩, rfl, rfl⟩

theorem identifier (what : String) (hwhat : what ∈ identifierClasses) :
    Exact [what] (IsKind .ident) :=
  single (fun _ => Token.identifier_mem_classes hwhat) ⟨⟨.ident, ⟨0, 0⟩, ""⟩, rfl⟩

theorem natural : Exact ["natural number"] IsNatural :=
  single (fun _ => Token.natural_mem_classes) ⟨⟨.int 0, ⟨0, 0⟩, ""⟩, 0, rfl, by decide⟩

theorem builtinFunction : Exact ["built-in function name"] IsBuiltinFunction :=
  single (fun _ => Token.builtinFunction_mem_classes) ⟨⟨.ident, ⟨0, 0⟩, "trace"⟩, rfl, by decide⟩

theorem builtinType : Exact ["built-in type"] IsBuiltinType :=
  single (fun _ => Token.builtinType_mem_classes) ⟨⟨.ident, ⟨0, 0⟩, "unit"⟩, rfl, by decide⟩

theorem integer : Exact ["integer"] (fun t => ∃ n, t.kind = .int n) :=
  single (fun _ => Token.integer_mem_classes) ⟨⟨.int 0, ⟨0, 0⟩, ""⟩, 0, rfl⟩

theorem string : Exact ["string"] (fun t => ∃ value, t.kind = .string value) :=
  single (fun _ => Token.string_mem_classes) ⟨⟨.string "", ⟨0, 0⟩, ""⟩, "", rfl⟩

theorem character : Exact ["character"] (fun t => ∃ value, t.kind = .char value) :=
  single (fun _ => Token.character_mem_classes) ⟨⟨.char ' ', ⟨0, 0⟩, ""⟩, ' ', rfl⟩

end Exact

end FOmega
