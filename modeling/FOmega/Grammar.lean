import FOmega.Parser
import FOmega.Tree

/-!
# The grammar of the core language

Phrases are fully bracketed, and keywords are recognised only right after `(`:

```
kind     ::= (type) | (fun kind kind)
type     ::= name | [type type+] | (lam name kind type) | (all name kind type)
           | (ifix type type) | (fun type type) | (con builtin-type) | (prod type*)
term     ::= name | [term term+] | {term type+} | (lam name type term) | (abs name kind term)
           | (iwrap type type term) | (unwrap term) | (error type) | (con constant)
           | (builtin builtin-function) | (prod term*) | (proj natural term)
constant ::= integer | character | string | unit | True | False | (constant)
version  ::= natural . natural . natural
program  ::= (program version term)
```

Kinds, types, terms and constants nest. What a phrase is made of is said with the rules for its parts
as arguments, for every way to run rules. The parser of each phrase takes the number of levels that
it may still open and gives its parts one less, so it is defined by recursion on that number. Every
node is marked with its position.
-/

namespace FOmega.Grammar

open FOmega.Parser hiding choice many atLeastOne between
open FOmega.Combinators

variable {P : Type → Type} [Monad P] [Combinators P]

/-! ## Names, numbers and built-ins -/

/-- A name that stands for a term, with its place. -/
def spannedName : Parser (Name × Span) := do
  let (text, span) ← identifier "name"
  return (← intern text, span)

/-- A name that stands for a term. -/
def name : Parser Name := do
  return (← spannedName).1

/-- A name that stands for a type, with its place. -/
def spannedTypeName : Parser (Name × Span) := do
  let (text, span) ← identifier "type name"
  return (← intern text, span)

/-- A name that stands for a type. -/
def typeName : Parser Name := do
  return (← spannedTypeName).1

/-- The least number that does not fit into 64 bits. -/
def wordBound : Nat :=
  0x10000000000000000

/-- A number from zero up to but not including `bound`, with its place. An integer outside is
    reported as such and not read. -/
def natural (bound : Nat) : Parser (Nat × Span) :=
  fun c s =>
    match s.rest with
    | ⟨.int n, span, text⟩ :: _ =>
      if 0 ≤ n ∧ n < bound then .ok (n.toNat, span) s.advance
      else .error ⟨span, .outOfRange text⟩ s
    | _ => unexpected ["natural number"] c s

/-- A built-in function. -/
def builtinFunction : Parser BuiltinFunction :=
  accept (fun t => if t.kind = .ident then BuiltinFunction.ofText? t.text else none)
    ["built-in function name"]

/-- A built-in type. -/
def builtinType : Parser BuiltinType :=
  accept (fun t => if t.kind = .ident then BuiltinType.ofText? t.text else none)
    ["built-in type"]

/-- Three numbers with dots between. -/
def version : Parser Version := do
  let (major, first) ← natural wordBound
  let _ ← expect .dot
  let (minor, _) ← natural wordBound
  let _ ← expect .dot
  let (patch, last) ← natural wordBound
  return ⟨.position (first.through last), major, minor, patch⟩

/-! ## Constants -/

/-- The constant that a single token denotes. -/
def literal? (t : Token) : Option Constant :=
  match t.kind with
  | .int n => some (.integer n)
  | .char c => some (.char c)
  | .string s => some (.string s)
  | .ident =>
    if t.text = "unit" then some .unit
    else if t.text = "True" then some (.bool true)
    else if t.text = "False" then some (.bool false)
    else none
  | _ => none

/-- A literal, or a constant in parentheses that is read by the given rule. -/
def constantPhrase (constant : P Constant) : P Constant := do
  if ← isAt .lparen then
    return (← between .lparen .rparen constant).1
  else
    accept literal?
      ["integer", "character", "string", "`unit`", "`True`", "`False`", "`(`"]

/-- A constant. -/
def constant : (room : Nat) → Parser Constant
  | 0 => tooDeep
  | room + 1 => constantPhrase (constant room)

/-! ## Kinds -/

/-- What stands between the parentheses of a kind. -/
def kindBody (kind : P Kind) : P (Mark → Kind) :=
  choice [
    do
      let _ ← keyword "type"
      return fun m => .type m,
    do
      let _ ← keyword "fun"
      let domain ← kind
      let codomain ← kind
      return fun m => .arrow m domain codomain]

/-- A kind whose parts are read by the given rule. -/
def kindPhrase (kind : P Kind) : P Kind := do
  let (build, span) ← between .lparen .rparen (kindBody kind)
  return build (.position span)

/-- A kind. -/
def kind : (room : Nat) → Parser Kind
  | 0 => tooDeep
  | room + 1 => kindPhrase (kind room)

/-! ## Applications -/

/-- Nests a head and its arguments to the left. The node of the last argument spans the whole
    phrase, an earlier one everything from the opening bracket through its argument. -/
def nestLeft {α β : Type} (node : Mark → α → β → α) (mark : β → Mark) (whole : Span) :
    α → List β → α
  | head, [] => head
  | head, [arg] => node (.position whole) head arg
  | head, arg :: args =>
    let opening : Span := ⟨whole.offset, 1⟩
    let span := opening.through ((mark arg).span?.getD opening)
    nestLeft node mark whole (node (.position span) head arg) args

/-- A head and one or more arguments. -/
def application {α β : Type} (head : P α) (arg : P β) : P (α × List β) := do
  return (← head, ← atLeastOne arg)

/-! ## Types -/

/-- What stands between the parentheses of a type. -/
def typeBody (kind : P Kind) (type : P Ty) : P (Mark → Ty) :=
  choice [
    do
      let _ ← keyword "lam"
      let binder ← typeName
      let kind ← kind
      let body ← type
      return fun m => .lam m binder kind body,
    do
      let _ ← keyword "all"
      let binder ← typeName
      let kind ← kind
      let body ← type
      return fun m => .all m binder kind body,
    do
      let _ ← keyword "ifix"
      let pattern ← type
      let arg ← type
      return fun m => .ifix m pattern arg,
    do
      let _ ← keyword "fun"
      let domain ← type
      let codomain ← type
      return fun m => .fn m domain codomain,
    do
      let _ ← keyword "con"
      let b ← builtinType
      return fun m => .builtin m b,
    do
      let _ ← keyword "prod"
      let items ← many type
      return fun m => .prod m items]

/-- A type whose parts are read by the given rules. -/
def typePhrase (kind : P Kind) (type : P Ty) : P Ty := do
  if ← isAt .lparen then
    let (build, span) ← between .lparen .rparen (typeBody kind type)
    return build (.position span)
  else if ← isAt .lbracket then
    let ((head, args), span) ← between .lbracket .rbracket (application type type)
    return nestLeft .app Ty.mark span head args
  else if ← isAt .ident then
    let (name, span) ← spannedTypeName
    return .var (.position span) name
  else
    unexpected ["`(`", "`[`", "type variable"]

/-- A type. -/
def type : (room : Nat) → Parser Ty
  | 0 => tooDeep
  | room + 1 => typePhrase (kind room) (type room)

/-! ## Terms -/

/-- What stands between the parentheses of a term. -/
def termBody (constant : P Constant) (kind : P Kind) (type : P Ty) (term : P Term) :
    P (Mark → Term) :=
  choice [
    do
      let _ ← keyword "lam"
      let binder ← name
      let type ← type
      let body ← term
      return fun m => .lam m binder type body,
    do
      let _ ← keyword "abs"
      let binder ← typeName
      let kind ← kind
      let body ← term
      return fun m => .abs m binder kind body,
    do
      let _ ← keyword "iwrap"
      let pattern ← type
      let arg ← type
      let t ← term
      return fun m => .iwrap m pattern arg t,
    do
      let _ ← keyword "unwrap"
      let t ← term
      return fun m => .unwrap m t,
    do
      let _ ← keyword "error"
      let type ← type
      return fun m => .error m type,
    do
      let _ ← keyword "con"
      let value ← constant
      return fun m => .constant m value,
    do
      let _ ← keyword "builtin"
      let b ← builtinFunction
      return fun m => .builtin m b,
    do
      let _ ← keyword "prod"
      let items ← many term
      return fun m => .prod m items,
    do
      let _ ← keyword "proj"
      let (index, _) ← natural wordBound
      let t ← term
      return fun m => .proj m index t]

/-- A term whose parts are read by the given rules. -/
def termPhrase (constant : P Constant) (kind : P Kind) (type : P Ty) (term : P Term) :
    P Term := do
  if ← isAt .lparen then
    let (build, span) ← between .lparen .rparen (termBody constant kind type term)
    return build (.position span)
  else if ← isAt .lbracket then
    let ((head, args), span) ← between .lbracket .rbracket (application term term)
    return nestLeft .apply Term.mark span head args
  else if ← isAt .lbrace then
    let ((head, args), span) ← between .lbrace .rbrace (application term type)
    return nestLeft .inst Ty.mark span head args
  else if ← isAt .ident then
    let (name, span) ← spannedName
    return .var (.position span) name
  else
    unexpected ["`(`", "`[`", "`\x7b`", "variable"]

/-- A term. -/
def term : (room : Nat) → Parser Term
  | 0 => tooDeep
  | room + 1 => termPhrase (constant room) (kind room) (type room) (term room)

/-! ## Programs -/

/-- A program whose term is read by the given rule. -/
def programPhrase (term : P Term) : P Program := do
  let ((version, term), span) ← between .lparen .rparen do
    let _ ← keyword "program"
    return (← version, ← term)
  return ⟨.position span, version, term⟩

/-- A program. It opens no level of its own. -/
def program (room : Nat) : Parser Program :=
  programPhrase (term room)

end FOmega.Grammar
