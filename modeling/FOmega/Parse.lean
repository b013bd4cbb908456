import FOmega.Machine

/-!
# Parsing a whole source

A source is cut into tokens and read by one rule, which has to reach the end. Lexical errors are
reported together, and then no rule is run. The supply moves past every unique that the parse drew,
also if it fails.
-/

namespace FOmega

/-- How deeply phrases may nest if nothing else is asked for. -/
def defaultDepth : Nat :=
  64

/-- The end of a parse: the value or the report of the errors, the supply after it, and what was
    noted on the way. -/
structure Parsed (α : Type) where
  result : Except Report α
  supply : Supply
  log : List LogRecord

/-- A rule that is followed by the end of the input. -/
def Parser.whole {α : Type} (rule : Parser α) : Parser α := do
  let a ← rule
  Parser.endOfInput
  return a

/-- Reads the whole of a source by a rule that may open up to `maxDepth` levels, drawing uniques
    from the given supply. -/
def parseWith {α : Type} (maxDepth : Nat) (supply : Supply) (rule : Nat → Parser α)
    (label src : String) : Parsed α :=
  let lexed := lexSkippingComments src
  if lexed.errors.isEmpty then
    let context : Parser.Context := ⟨lexed.tokens, byteLength src.toList, maxDepth⟩
    let reply := (rule maxDepth).whole context (.start context (.ofSupply supply))
    let interner := reply.state.interner
    let log (succeeded : Bool) :=
      interner.log ++ [.parsed label lexed.tokens.length interner.size succeeded]
    match reply with
    | .ok a _ => ⟨.ok a, interner.supply, log true⟩
    | .error e _ => ⟨.error (.single label src e), interner.supply, log false⟩
  else
    ⟨.error (.ofLexErrors label src lexed.errors), supply,
      [.lexicalErrors label lexed.errors.length]⟩

/-- Reads the whole of a source with a supply of its own and the default limit. -/
def parse {α : Type} (rule : Nat → Parser α) (label src : String) : Except Report α :=
  (parseWith defaultDepth .empty rule label src).result

/-! ## The sorts of phrase -/

/-- Reads a program. -/
def parseProgram : (label src : String) → Except Report Program :=
  parse Grammar.program

/-- Reads a term. -/
def parseTerm : (label src : String) → Except Report Term :=
  parse Grammar.term

/-- Reads a type. -/
def parseType : (label src : String) → Except Report Ty :=
  parse Grammar.type

/-- Reads a kind. -/
def parseKind : (label src : String) → Except Report Kind :=
  parse Grammar.kind

/-- Reads a constant. -/
def parseConstant : (label src : String) → Except Report Constant :=
  parse Grammar.constant

/-- Reads a name that stands for a term. -/
def parseName : (label src : String) → Except Report Name :=
  parse fun _ => Grammar.name

/-- Reads a name that stands for a type. -/
def parseTypeName : (label src : String) → Except Report Name :=
  parse fun _ => Grammar.typeName

end FOmega
