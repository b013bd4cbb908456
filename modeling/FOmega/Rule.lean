import FOmega.Grammar

/-!
# Rule expressions

A rule expression is a rule written down as data: the phrases of the grammar and the combinators
that join them. Running one gives a value of whatever sort its phrase has.
-/

namespace FOmega

/-- What a rule expression can give. -/
inductive Value where
  | none
  | flag (value : Bool)
  | number (value : Nat)
  | span (span : Span)
  | token (token : Option Token)
  | identifier (text : String) (span : Span)
  | name (name : Name)
  | spannedName (name : Name) (span : Span)
  | numeral (value : Nat)
  | constant (constant : Constant)
  | builtinFunction (function : BuiltinFunction)
  | builtinType (type : BuiltinType)
  | version (version : Version)
  | tree (tree : Tree)
  | list (items : List Value)
  | spanned (value : Value) (span : Span)

/-- A rule as data. -/
inductive Rule where
  | term
  | type
  | kind
  | program
  | version
  | constant
  | builtinFunction
  | builtinType
  | name
  | typeName
  | spannedName
  | spannedTypeName
  | natural (bound : Nat)
  | endOfInput
  | empty
  | position
  | atEnd
  | here
  | peek
  | isAt (kind : TokenKind)
  | expect (kind : TokenKind)
  | keyword (word : String)
  | identifier (what : String)
  | unexpected (expected : List String)
  | preceded (kind : TokenKind) (rule : Rule)
  | followed (rule : Rule) (kind : TokenKind)
  | seq (rules : List Rule)
  | choice (rules : List Rule)
  | attempt (rule : Rule)
  | enforce (rule : Rule)
  | nested (rule : Rule)
  | many (rule : Rule)
  | atLeastOne (rule : Rule)
  | between (opening closing : TokenKind) (rule : Rule)

namespace Rule

mutual

/-- The parser that a rule expression describes, where phrases may open `room` more levels. -/
def run (room : Nat) : Rule → Parser Value
  | .term => return .tree (.term (← Grammar.term room))
  | .type => return .tree (.type (← Grammar.type room))
  | .kind => return .tree (.kind (← Grammar.kind room))
  | .program => return .tree (.program (← Grammar.program room))
  | .version => return .version (← Grammar.version)
  | .constant => return .constant (← Grammar.constant room)
  | .builtinFunction => return .builtinFunction (← Grammar.builtinFunction)
  | .builtinType => return .builtinType (← Grammar.builtinType)
  | .name => return .name (← Grammar.name)
  | .typeName => return .name (← Grammar.typeName)
  | .spannedName => do
    let (x, span) ← Grammar.spannedName
    return .spannedName x span
  | .spannedTypeName => do
    let (x, span) ← Grammar.spannedTypeName
    return .spannedName x span
  | .natural bound => do
    let (n, span) ← Grammar.natural bound
    return .spanned (.numeral n) span
  | .endOfInput => do
    let _ ← Parser.endOfInput
    return .none
  | .empty => return .none
  | .position => return .number (← Parser.position)
  | .atEnd => return .flag (← Parser.atEnd)
  | .here => return .span (← Parser.here)
  | .peek => return .token (← Parser.peek)
  | .isAt k => return .flag (← Parser.isAt k)
  | .expect k => return .span (← Parser.expect k)
  | .keyword word => return .span (← Parser.keyword word)
  | .identifier what => do
    let (text, span) ← Parser.identifier what
    return .identifier text span
  | .unexpected expected => Parser.unexpected expected
  | .preceded k rule => do
    let _ ← Parser.expect k
    run room rule
  | .followed rule k => do
    let value ← run room rule
    let _ ← Parser.expect k
    return value
  | .seq rules => return .list (← runAll room rules)
  | .choice rules => Parser.choice (runEach room rules)
  | .attempt rule => Parser.attempt (run room rule)
  | .enforce rule => Parser.enforce (run room rule)
  | .nested rule => Parser.nested room fun room => run room rule
  | .many rule => return .list (← Parser.many (run room rule))
  | .atLeastOne rule => return .list (← Parser.atLeastOne (run room rule))
  | .between opening closing rule => do
    let (value, span) ← Parser.between opening closing (run room rule)
    return .spanned value span

/-- The rules in order, up to the first that fails. -/
def runAll (room : Nat) : List Rule → Parser (List Value)
  | [] => return []
  | rule :: rules => return (← run room rule) :: (← runAll room rules)

/-- The parser of each rule. -/
def runEach (room : Nat) : List Rule → List (Parser Value)
  | [] => []
  | rule :: rules => run room rule :: runEach room rules

end

end Rule

end FOmega
