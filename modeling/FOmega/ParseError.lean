import FOmega.Token.Lexer

/-!
# Parse errors

A parse error says where a source went wrong and what would have been accepted there. Of two errors
the one that got further counts; two at the same place are joined, and there the nesting limit
counts before anything else.
-/

namespace FOmega

/-! ## Sets of expectations -/

namespace Expected

/-- Adds a text to a strictly increasing list of texts. -/
def insert (s : String) : List String → List String
  | [] => [s]
  | t :: ts => if s < t then s :: t :: ts else if s = t then t :: ts else t :: insert s ts

/-- The texts of both lists in increasing order, each once. -/
def union (a b : List String) : List String :=
  (a ++ b).foldr insert []

/-- The expectations as they end a message: nothing, one, or several with "or" before the last. -/
def phrase : List String → String
  | [] => ""
  | [s] => ", expected " ++ s
  | ss => ", expected " ++ ", ".intercalate ss.dropLast ++ " or " ++ ss.getLastD ""

end Expected

/-! ## Single errors -/

/-- Why a source is refused. -/
inductive Cause where
  | lexical (kind : LexErrorKind)
  | unexpected (found : String) (expected : List String)
  | unexpectedEnd (expected : List String)
  | zeroWidth
  | tooDeep (limit : Nat)
  | outOfRange (text : String)
  deriving DecidableEq

namespace Cause

/-- The wording of a cause. -/
def message : Cause → String
  | lexical kind => kind.message
  | unexpected found expected => "unexpected " ++ found ++ Expected.phrase expected
  | unexpectedEnd expected => "unexpected end of input" ++ Expected.phrase expected
  | zeroWidth => "rule succeeded without consuming input"
  | tooDeep limit => "nesting deeper than " ++ Text.Decimal.text limit ++ " levels"
  | outOfRange text => "number `" ++ text ++ "` is out of range"

/-- Holds of the nesting limit. -/
def isTooDeep : Cause → Bool
  | tooDeep _ => true
  | _ => false

/-- The cause that stands for two at the same place. -/
def join : Cause → Cause → Cause
  | unexpected found a, unexpected _ b => unexpected found (Expected.union a b)
  | unexpectedEnd a, unexpectedEnd b => unexpectedEnd (Expected.union a b)
  | _, tooDeep limit => tooDeep limit
  | cause, _ => cause

end Cause

/-- A cause and its place. -/
structure ParseError where
  span : Span
  cause : Cause
  deriving DecidableEq

namespace ParseError

/-- The error that got further; of two at one offset their join, at the place of the first. -/
def merge (a b : ParseError) : ParseError :=
  if b.span.offset < a.span.offset then a
  else if a.span.offset < b.span.offset then b
  else ⟨a.span, a.cause.join b.cause⟩

/-- The given error, and then each error of the list merged with all before it. -/
def mergeFrom (acc : ParseError) : List ParseError → List ParseError
  | [] => [acc]
  | e :: es => acc :: mergeFrom (acc.merge e) es

/-- Each error merged with all before it. -/
def mergeScan : List ParseError → List ParseError
  | [] => []
  | e :: es => mergeFrom e es

/-- Holds of an error at the nesting limit. -/
def isTooDeep (e : ParseError) : Bool :=
  e.cause.isTooDeep

end ParseError

/-! ## The report of a failed parse -/

/-- A parse error with its line and column. -/
structure LocatedError where
  error : ParseError
  position : Position
  deriving DecidableEq

namespace LocatedError

/-- Finds the line and column of an error. -/
def ofError (src : String) (e : ParseError) : LocatedError :=
  ⟨e, Position.ofOffset src e.span.offset⟩

/-- The position and the message. -/
def text (e : LocatedError) : String :=
  e.position.text ++ ": " ++ e.error.cause.message

end LocatedError

/-- Every error of one failed parse, under the label of its source. -/
structure Report where
  label : String
  errors : List LocatedError
  deriving DecidableEq

namespace Report

/-- The report of a source with lexical errors. -/
def ofLexErrors (label src : String) (errors : List LexError) : Report :=
  ⟨label, errors.map fun e => LocatedError.ofError src ⟨e.span, .lexical e.kind⟩⟩

/-- The report of a source with one grammatical error. -/
def single (label src : String) (e : ParseError) : Report :=
  ⟨label, [LocatedError.ofError src e]⟩

/-- One line for each error: the label, the position and the message. -/
def text (r : Report) : String :=
  "\n".intercalate (r.errors.map fun e => r.label ++ ":" ++ e.text)

end Report

end FOmega
