import FOmega.Grammar
import FOmega.Proofs.Skeleton

/-!
# Derivations of the written grammar

A derivation is a phrase of the grammar with its tokens: one constructor for each production, and in
it every terminal as the token that stands for it. A token list is a sentence of a rule when it is
the token list of a derivation of that rule.

```
program  ::= '(' 'program' version term ')'
version  ::= NAT '.' NAT '.' NAT
kind     ::= '(' 'type' ')' | '(' 'fun' kind kind ')'
type     ::= NAME
           | '(' 'lam' NAME kind type ')' | '(' 'all' NAME kind type ')'
           | '(' 'ifix' type type ')'     | '(' 'fun' type type ')'
           | '(' 'con' BTYPE ')'          | '(' 'prod' type* ')'
           | '[' type type+ ']'
term     ::= NAME
           | '(' 'lam' NAME type term ')'   | '(' 'abs' NAME kind term ')'
           | '(' 'iwrap' type type term ')' | '(' 'unwrap' term ')'
           | '(' 'error' type ')'           | '(' 'con' constant ')'
           | '(' 'builtin' BUILTIN ')'      | '(' 'prod' term* ')'
           | '(' 'proj' NAT term ')'
           | '[' term term+ ']'             | '{' term type+ '}'
constant ::= INT | CHAR | STRING | 'unit' | 'True' | 'False' | '(' constant ')'
```

Each derivation has a syntax tree without marks and uniques, in which applications and instantiations
nest to the left, and a depth: the number of levels that its rule opens.
-/

namespace FOmega

/-! ## Terminals -/

namespace Terminal

/-- A token of one kind, such as a bracket. -/
structure Delimiter (kind : TokenKind) where
  token : Token
  kind_eq : token.kind = kind

/-- An identifier with one spelling. -/
structure Keyword (word : String) where
  token : Token
  kind_eq : token.kind = .ident
  text_eq : token.text = word

/-- An identifier of any spelling, also that of a keyword. -/
structure Identifier where
  token : Token
  kind_eq : token.kind = .ident

/-- An integer from zero up to the largest that fits into 64 bits. -/
structure Natural where
  token : Token
  value : Nat
  value_lt : value < 18446744073709551616
  kind_eq : token.kind = .int value

/-- An identifier that spells a built-in type. -/
structure BuiltinTypeName where
  token : Token
  type : BuiltinType
  kind_eq : token.kind = .ident
  text_eq : token.text = type.text

/-- An identifier that spells a built-in function. -/
structure BuiltinFunctionName where
  token : Token
  function : BuiltinFunction
  kind_eq : token.kind = .ident
  text_eq : token.text = function.text

/-- Which constant a single token denotes. -/
inductive Denotes (t : Token) : Constant → Prop where
  | integer {n : Int} (h : t.kind = .int n) : Denotes t (.integer n)
  | char {c : Char} (h : t.kind = .char c) : Denotes t (.char c)
  | string {s : String} (h : t.kind = .string s) : Denotes t (.string s)
  | unit (h : t.kind = .ident) (htext : t.text = "unit") : Denotes t .unit
  | true (h : t.kind = .ident) (htext : t.text = "True") : Denotes t (.bool Bool.true)
  | false (h : t.kind = .ident) (htext : t.text = "False") : Denotes t (.bool Bool.false)

/-- A token that denotes a constant. -/
structure Literal where
  token : Token
  value : Constant
  denotes : Denotes token value

end Terminal

open Terminal

/-! ## Constants and kinds -/

/-- A derivation of a constant. -/
inductive ConstantDerivation where
  | literal (literal : Literal)
  | parens (opening : Delimiter .lparen) (inner : ConstantDerivation) (closing : Delimiter .rparen)

namespace ConstantDerivation

/-- The tokens of a constant. -/
def tokens : ConstantDerivation → List Token
  | literal l => [l.token]
  | parens o d c => o.token :: (d.tokens ++ [c.token])

/-- The constant itself. -/
def ast : ConstantDerivation → Constant
  | literal l => l.value
  | parens _ d _ => d.ast

/-- The number of levels that a constant opens. -/
def depth : ConstantDerivation → Nat
  | literal _ => 1
  | parens _ d _ => d.depth + 1

end ConstantDerivation

/-- A derivation of a kind. -/
inductive KindDerivation where
  | type (opening : Delimiter .lparen) (word : Keyword "type") (closing : Delimiter .rparen)
  | arrow (opening : Delimiter .lparen) (word : Keyword "fun") (domain codomain : KindDerivation)
    (closing : Delimiter .rparen)

namespace KindDerivation

/-- The tokens of a kind. -/
def tokens : KindDerivation → List Token
  | type o w c => [o.token, w.token, c.token]
  | arrow o w d e c => o.token :: w.token :: (d.tokens ++ e.tokens ++ [c.token])

/-- The syntax tree of a kind. -/
def ast : KindDerivation → Kind
  | type _ _ _ => .type .absent
  | arrow _ _ d e _ => .arrow .absent d.ast e.ast

/-- The number of levels that a kind opens. -/
def depth : KindDerivation → Nat
  | type _ _ _ => 1
  | arrow _ _ d e _ => max d.depth e.depth + 1

end KindDerivation

/-! ## Types -/

/-- A derivation of a type. An application has its first argument apart, so that it has one. -/
inductive TypeDerivation where
  | var (name : Identifier)
  | lam (opening : Delimiter .lparen) (word : Keyword "lam") (binder : Identifier)
    (kind : KindDerivation) (body : TypeDerivation) (closing : Delimiter .rparen)
  | all (opening : Delimiter .lparen) (word : Keyword "all") (binder : Identifier)
    (kind : KindDerivation) (body : TypeDerivation) (closing : Delimiter .rparen)
  | ifix (opening : Delimiter .lparen) (word : Keyword "ifix") (pattern arg : TypeDerivation)
    (closing : Delimiter .rparen)
  | fn (opening : Delimiter .lparen) (word : Keyword "fun") (domain codomain : TypeDerivation)
    (closing : Delimiter .rparen)
  | con (opening : Delimiter .lparen) (word : Keyword "con") (builtin : BuiltinTypeName)
    (closing : Delimiter .rparen)
  | prod (opening : Delimiter .lparen) (word : Keyword "prod") (items : List TypeDerivation)
    (closing : Delimiter .rparen)
  | app (opening : Delimiter .lbracket) (head arg : TypeDerivation) (args : List TypeDerivation)
    (closing : Delimiter .rbracket)

namespace TypeDerivation

mutual

/-- The tokens of a type. -/
def tokens : TypeDerivation → List Token
  | var x => [x.token]
  | lam o w x k d c => o.token :: w.token :: x.token :: (k.tokens ++ d.tokens ++ [c.token])
  | all o w x k d c => o.token :: w.token :: x.token :: (k.tokens ++ d.tokens ++ [c.token])
  | ifix o w d e c => o.token :: w.token :: (d.tokens ++ e.tokens ++ [c.token])
  | fn o w d e c => o.token :: w.token :: (d.tokens ++ e.tokens ++ [c.token])
  | con o w b c => [o.token, w.token, b.token, c.token]
  | prod o w ds c => o.token :: w.token :: (allTokens ds ++ [c.token])
  | app o d e es c => o.token :: (d.tokens ++ e.tokens ++ allTokens es ++ [c.token])

/-- The tokens of types in a row. -/
def allTokens : List TypeDerivation → List Token
  | [] => []
  | d :: ds => d.tokens ++ allTokens ds

end

mutual

/-- The syntax tree of a type. -/
def ast : TypeDerivation → Ty
  | var x => .var .absent ⟨x.token.text, 0⟩
  | lam _ _ x k d _ => .lam .absent ⟨x.token.text, 0⟩ k.ast d.ast
  | all _ _ x k d _ => .all .absent ⟨x.token.text, 0⟩ k.ast d.ast
  | ifix _ _ d e _ => .ifix .absent d.ast e.ast
  | fn _ _ d e _ => .fn .absent d.ast e.ast
  | con _ _ b _ => .builtin .absent b.type
  | prod _ _ ds _ => .prod .absent (asts ds)
  | app _ d e es _ => (asts es).foldl (.app .absent) (.app .absent d.ast e.ast)

/-- The syntax trees of types in a row. -/
def asts : List TypeDerivation → List Ty
  | [] => []
  | d :: ds => d.ast :: asts ds

end

mutual

/-- The number of levels that a type opens. After the last item of a product the rule looks for one
    more, so a product opens a level for its items also if it has none. -/
def depth : TypeDerivation → Nat
  | var _ => 1
  | lam _ _ _ k d _ => max k.depth d.depth + 1
  | all _ _ _ k d _ => max k.depth d.depth + 1
  | ifix _ _ d e _ => max d.depth e.depth + 1
  | fn _ _ d e _ => max d.depth e.depth + 1
  | con _ _ _ _ => 1
  | prod _ _ ds _ => max 1 (maxDepth ds) + 1
  | app _ d e es _ => max d.depth (max e.depth (maxDepth es)) + 1

/-- The largest depth of types in a row. -/
def maxDepth : List TypeDerivation → Nat
  | [] => 0
  | d :: ds => max d.depth (maxDepth ds)

end

/-- Induction over derivations of types; items and arguments come with their hypotheses. -/
@[elab_as_elim, induction_eliminator]
theorem inductionOn {motive : TypeDerivation → Prop}
    (var : ∀ x, motive (var x))
    (lam : ∀ o w x k d c, motive d → motive (lam o w x k d c))
    (all : ∀ o w x k d c, motive d → motive (all o w x k d c))
    (ifix : ∀ o w d e c, motive d → motive e → motive (ifix o w d e c))
    (fn : ∀ o w d e c, motive d → motive e → motive (fn o w d e c))
    (con : ∀ o w b c, motive (con o w b c))
    (prod : ∀ o w ds c, (∀ d ∈ ds, motive d) → motive (prod o w ds c))
    (app : ∀ o d e es c, motive d → motive e → (∀ d ∈ es, motive d) → motive (app o d e es c))
    (d : TypeDerivation) : motive d := by
  refine @TypeDerivation.rec motive (fun ds => ∀ d ∈ ds, motive d) var lam all ifix fn con prod app
    ?_ ?_ d
  · intro d hd
    cases hd
  · intro head tail hhead htail d hd
    rcases List.mem_cons.mp hd with rfl | hd
    · exact hhead
    · exact htail d hd

@[simp] theorem allTokens_eq_flatMap (ds : List TypeDerivation) :
    allTokens ds = ds.flatMap tokens := by
  induction ds with
  | nil => rfl
  | cons d ds ih => rw [allTokens, ih, List.flatMap_cons]

@[simp] theorem asts_eq_map (ds : List TypeDerivation) : asts ds = ds.map ast := by
  induction ds with
  | nil => rfl
  | cons d ds ih => rw [asts, ih, List.map_cons]

@[simp] theorem maxDepth_le_iff {ds : List TypeDerivation} {n : Nat} :
    maxDepth ds ≤ n ↔ ∀ d ∈ ds, d.depth ≤ n := by
  induction ds with
  | nil => simp [maxDepth]
  | cons d ds ih => rw [maxDepth, Nat.max_le, ih, List.forall_mem_cons]

theorem tokens_ne_nil (d : TypeDerivation) : d.tokens ≠ [] := by
  cases d <;> simp [tokens]

theorem depth_pos (d : TypeDerivation) : 0 < d.depth := by
  cases d <;> simp [depth]

end TypeDerivation

/-! ## Terms -/

/-- A derivation of a term. Applications and instantiations have their first argument apart, so that
    they have one. -/
inductive TermDerivation where
  | var (name : Identifier)
  | lam (opening : Delimiter .lparen) (word : Keyword "lam") (binder : Identifier)
    (type : TypeDerivation) (body : TermDerivation) (closing : Delimiter .rparen)
  | abs (opening : Delimiter .lparen) (word : Keyword "abs") (binder : Identifier)
    (kind : KindDerivation) (body : TermDerivation) (closing : Delimiter .rparen)
  | iwrap (opening : Delimiter .lparen) (word : Keyword "iwrap") (pattern arg : TypeDerivation)
    (term : TermDerivation) (closing : Delimiter .rparen)
  | unwrap (opening : Delimiter .lparen) (word : Keyword "unwrap") (term : TermDerivation)
    (closing : Delimiter .rparen)
  | error (opening : Delimiter .lparen) (word : Keyword "error") (type : TypeDerivation)
    (closing : Delimiter .rparen)
  | con (opening : Delimiter .lparen) (word : Keyword "con") (constant : ConstantDerivation)
    (closing : Delimiter .rparen)
  | builtin (opening : Delimiter .lparen) (word : Keyword "builtin") (builtin : BuiltinFunctionName)
    (closing : Delimiter .rparen)
  | prod (opening : Delimiter .lparen) (word : Keyword "prod") (items : List TermDerivation)
    (closing : Delimiter .rparen)
  | proj (opening : Delimiter .lparen) (word : Keyword "proj") (index : Natural)
    (term : TermDerivation) (closing : Delimiter .rparen)
  | apply (opening : Delimiter .lbracket) (head arg : TermDerivation) (args : List TermDerivation)
    (closing : Delimiter .rbracket)
  | inst (opening : Delimiter .lbrace) (head : TermDerivation) (arg : TypeDerivation)
    (args : List TypeDerivation) (closing : Delimiter .rbrace)

namespace TermDerivation

mutual

/-- The tokens of a term. -/
def tokens : TermDerivation → List Token
  | var x => [x.token]
  | lam o w x t d c => o.token :: w.token :: x.token :: (t.tokens ++ d.tokens ++ [c.token])
  | abs o w x k d c => o.token :: w.token :: x.token :: (k.tokens ++ d.tokens ++ [c.token])
  | iwrap o w t u d c => o.token :: w.token :: (t.tokens ++ u.tokens ++ d.tokens ++ [c.token])
  | unwrap o w d c => o.token :: w.token :: (d.tokens ++ [c.token])
  | error o w t c => o.token :: w.token :: (t.tokens ++ [c.token])
  | con o w k c => o.token :: w.token :: (k.tokens ++ [c.token])
  | builtin o w b c => [o.token, w.token, b.token, c.token]
  | prod o w ds c => o.token :: w.token :: (allTokens ds ++ [c.token])
  | proj o w n d c => o.token :: w.token :: n.token :: (d.tokens ++ [c.token])
  | apply o d e es c => o.token :: (d.tokens ++ e.tokens ++ allTokens es ++ [c.token])
  | inst o d t ts c =>
    o.token :: (d.tokens ++ t.tokens ++ TypeDerivation.allTokens ts ++ [c.token])

/-- The tokens of terms in a row. -/
def allTokens : List TermDerivation → List Token
  | [] => []
  | d :: ds => d.tokens ++ allTokens ds

end

mutual

/-- The syntax tree of a term. -/
def ast : TermDerivation → Term
  | var x => .var .absent ⟨x.token.text, 0⟩
  | lam _ _ x t d _ => .lam .absent ⟨x.token.text, 0⟩ t.ast d.ast
  | abs _ _ x k d _ => .abs .absent ⟨x.token.text, 0⟩ k.ast d.ast
  | iwrap _ _ t u d _ => .iwrap .absent t.ast u.ast d.ast
  | unwrap _ _ d _ => .unwrap .absent d.ast
  | error _ _ t _ => .error .absent t.ast
  | con _ _ k _ => .constant .absent k.ast
  | builtin _ _ b _ => .builtin .absent b.function
  | prod _ _ ds _ => .prod .absent (asts ds)
  | proj _ _ n d _ => .proj .absent n.value d.ast
  | apply _ d e es _ => (asts es).foldl (.apply .absent) (.apply .absent d.ast e.ast)
  | inst _ d t ts _ =>
    (TypeDerivation.asts ts).foldl (.inst .absent) (.inst .absent d.ast t.ast)

/-- The syntax trees of terms in a row. -/
def asts : List TermDerivation → List Term
  | [] => []
  | d :: ds => d.ast :: asts ds

end

mutual

/-- The number of levels that a term opens. As for types, a product opens a level for its items also
    if it has none. -/
def depth : TermDerivation → Nat
  | var _ => 1
  | lam _ _ _ t d _ => max t.depth d.depth + 1
  | abs _ _ _ k d _ => max k.depth d.depth + 1
  | iwrap _ _ t u d _ => max t.depth (max u.depth d.depth) + 1
  | unwrap _ _ d _ => d.depth + 1
  | error _ _ t _ => t.depth + 1
  | con _ _ k _ => k.depth + 1
  | builtin _ _ _ _ => 1
  | prod _ _ ds _ => max 1 (maxDepth ds) + 1
  | proj _ _ _ d _ => d.depth + 1
  | apply _ d e es _ => max d.depth (max e.depth (maxDepth es)) + 1
  | inst _ d t ts _ => max d.depth (max t.depth (TypeDerivation.maxDepth ts)) + 1

/-- The largest depth of terms in a row. -/
def maxDepth : List TermDerivation → Nat
  | [] => 0
  | d :: ds => max d.depth (maxDepth ds)

end

/-- Induction over derivations of terms; items and arguments come with their hypotheses. -/
@[elab_as_elim, induction_eliminator]
theorem inductionOn {motive : TermDerivation → Prop}
    (var : ∀ x, motive (var x))
    (lam : ∀ o w x t d c, motive d → motive (lam o w x t d c))
    (abs : ∀ o w x k d c, motive d → motive (abs o w x k d c))
    (iwrap : ∀ o w t u d c, motive d → motive (iwrap o w t u d c))
    (unwrap : ∀ o w d c, motive d → motive (unwrap o w d c))
    (error : ∀ o w t c, motive (error o w t c))
    (con : ∀ o w k c, motive (con o w k c))
    (builtin : ∀ o w b c, motive (builtin o w b c))
    (prod : ∀ o w ds c, (∀ d ∈ ds, motive d) → motive (prod o w ds c))
    (proj : ∀ o w n d c, motive d → motive (proj o w n d c))
    (apply : ∀ o d e es c, motive d → motive e → (∀ d ∈ es, motive d) →
      motive (apply o d e es c))
    (inst : ∀ o d t ts c, motive d → motive (inst o d t ts c)) (d : TermDerivation) : motive d := by
  refine @TermDerivation.rec motive (fun ds => ∀ d ∈ ds, motive d) var lam abs iwrap unwrap error
    con builtin prod proj apply inst ?_ ?_ d
  · intro d hd
    cases hd
  · intro head tail hhead htail d hd
    rcases List.mem_cons.mp hd with rfl | hd
    · exact hhead
    · exact htail d hd

@[simp] theorem allTokens_eq_flatMap (ds : List TermDerivation) :
    allTokens ds = ds.flatMap tokens := by
  induction ds with
  | nil => rfl
  | cons d ds ih => rw [allTokens, ih, List.flatMap_cons]

@[simp] theorem asts_eq_map (ds : List TermDerivation) : asts ds = ds.map ast := by
  induction ds with
  | nil => rfl
  | cons d ds ih => rw [asts, ih, List.map_cons]

@[simp] theorem maxDepth_le_iff {ds : List TermDerivation} {n : Nat} :
    maxDepth ds ≤ n ↔ ∀ d ∈ ds, d.depth ≤ n := by
  induction ds with
  | nil => simp [maxDepth]
  | cons d ds ih => rw [maxDepth, Nat.max_le, ih, List.forall_mem_cons]

theorem tokens_ne_nil (d : TermDerivation) : d.tokens ≠ [] := by
  cases d <;> simp [tokens]

theorem depth_pos (d : TermDerivation) : 0 < d.depth := by
  cases d <;> simp [depth]

end TermDerivation

/-! ## Programs -/

/-- A derivation of a version. -/
structure VersionDerivation where
  major : Natural
  firstDot : Delimiter .dot
  minor : Natural
  secondDot : Delimiter .dot
  patch : Natural

namespace VersionDerivation

/-- The tokens of a version. -/
def tokens (d : VersionDerivation) : List Token :=
  [d.major.token, d.firstDot.token, d.minor.token, d.secondDot.token, d.patch.token]

/-- The version without its mark. -/
def ast (d : VersionDerivation) : Version :=
  ⟨.absent, d.major.value, d.minor.value, d.patch.value⟩

end VersionDerivation

/-- A derivation of a program. -/
structure ProgramDerivation where
  opening : Delimiter .lparen
  word : Keyword "program"
  version : VersionDerivation
  term : TermDerivation
  closing : Delimiter .rparen

namespace ProgramDerivation

/-- The tokens of a program. -/
def tokens (d : ProgramDerivation) : List Token :=
  d.opening.token :: d.word.token :: (d.version.tokens ++ d.term.tokens ++ [d.closing.token])

/-- The syntax tree of a program. -/
def ast (d : ProgramDerivation) : Program :=
  ⟨.absent, d.version.ast, d.term.ast⟩

/-- The number of levels that a program opens, which are those of its term. -/
def depth (d : ProgramDerivation) : Nat :=
  d.term.depth

end ProgramDerivation

end FOmega
