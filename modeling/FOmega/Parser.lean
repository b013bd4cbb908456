import FOmega.ParseError
import FOmega.Interner

/-!
# Rules over a token stream

A parser reads tokens from the front of what is left and answers with a value or an error, and in
either case with the state after it: a parser that fails after reading stays where it failed, unless
it is run as an attempt. Names interned on the way stay interned, also on an abandoned way.

A repetition that stops leaves a hint: what its item would have needed to go on. The hint joins the
next error raised at the same place, and is dropped when a token is read.
-/

namespace FOmega

namespace Parser

/-- What stays fixed while a source is parsed: its tokens, its length in bytes, and how deeply its
    phrases may nest. -/
structure Context where
  tokens : List Token
  inputLen : Nat
  maxDepth : Nat
  deriving DecidableEq

/-- What changes: the tokens that are left, the hint of a repetition that stopped here, and the
    names seen. -/
structure State where
  rest : List Token
  hint : Option ParseError
  interner : Interner
  deriving DecidableEq

/-- The number of tokens read. -/
def State.position (s : State) (c : Context) : Nat :=
  c.tokens.length - s.rest.length

/-- The state before the first token. -/
def State.start (c : Context) (interner : Interner) : State :=
  ⟨c.tokens, none, interner⟩

/-- The end of a run: a value or an error, with the state after it. -/
inductive Reply (α : Type) where
  | ok (value : α) (state : State)
  | error (error : ParseError) (state : State)

/-- The state after a run. -/
def Reply.state {α : Type} : Reply α → State
  | .ok _ s => s
  | .error _ s => s

/-- The value or the error of a run. -/
def Reply.toExcept {α : Type} : Reply α → Except ParseError α
  | .ok a _ => .ok a
  | .error e _ => .error e

end Parser

/-- A rule that reads a phrase and answers with a value. -/
def Parser (α : Type) : Type :=
  Parser.Context → Parser.State → Parser.Reply α

namespace Parser

variable {α β : Type}

/-! ## Sequence and failure -/

instance : Monad Parser where
  pure a := fun _ s => .ok a s
  bind p f := fun c s =>
    match p c s with
    | .ok a s' => f a c s'
    | .error e s' => .error e s'

/-- Fails with the given error and reads nothing. -/
def fail (e : ParseError) : Parser α :=
  fun _ s => .error e s

/-- The name with the given spelling, interned if it was not seen before. -/
def intern (text : String) : Parser Name :=
  fun _ s => .ok ⟨text, (s.interner.intern text).1⟩ { s with interner := (s.interner.intern text).2 }

/-! ## The next token -/

/-- The next token, which is not read. -/
def peek : Parser (Option Token) :=
  fun _ s => .ok s.rest.head? s

/-- The span of the next token, or the empty span at the end of the input. -/
def State.here (s : State) (c : Context) : Span :=
  match s.rest with
  | t :: _ => t.span
  | [] => ⟨c.inputLen, 0⟩

/-- The place of the next token. -/
def here : Parser Span :=
  fun c s => .ok (s.here c) s

/-- The number of tokens read so far. -/
def position : Parser Nat :=
  fun c s => .ok (s.position c) s

/-- Holds when no token is left. -/
def atEnd : Parser Bool :=
  fun _ s => .ok s.rest.isEmpty s

/-- Holds when the next token is of the given kind. -/
def State.isAt (s : State) (kind : TokenKind) : Bool :=
  match s.rest with
  | t :: _ => t.kind == kind
  | [] => false

/-- Whether the next token is of the given kind. -/
def isAt (kind : TokenKind) : Parser Bool :=
  fun _ s => .ok (s.isAt kind) s

/-- Reads past the next token, and drops the hint. At the end it does nothing. -/
def State.advance (s : State) : State :=
  match s.rest with
  | _ :: rest => { s with rest := rest, hint := none }
  | [] => s

/-- The error at the next token when only the given things would have been accepted. -/
def State.unexpected (s : State) (c : Context) (expected : List String) : ParseError :=
  match s.rest with
  | t :: _ => ⟨t.span, .unexpected t.describe expected⟩
  | [] => ⟨⟨c.inputLen, 0⟩, .unexpectedEnd expected⟩

/-- Fails at the next token, saying what would have been accepted; the hint joins in and is used
    up. -/
def unexpected (expected : List String) : Parser α :=
  fun c s =>
    let e := s.unexpected c expected
    .error (s.hint.elim e e.merge) { s with hint := none }

/-- Reads the next token if `f` accepts it, with the value that `f` gives it. -/
def accept (f : Token → Option α) (expected : List String) : Parser α :=
  fun c s =>
    match s.rest.head?.bind f with
    | some a => .ok a s.advance
    | none => unexpected expected c s

/-- Reads a token of the given kind. -/
def expect (kind : TokenKind) : Parser Span :=
  accept (fun t => if t.kind = kind then some t.span else none) [kind.describe]

/-- Reads an identifier spelled as given. Keywords are identifiers elsewhere. -/
def keyword (word : String) : Parser Span :=
  accept (fun t => if t.kind = .ident ∧ t.text = word then some t.span else none)
    ["`" ++ word ++ "`"]

/-- Reads any identifier, and says that `what` was expected if there is none. -/
def identifier (what : String) : Parser (String × Span) :=
  accept (fun t => if t.kind = .ident then some (t.text, t.span) else none) [what]

/-- Succeeds when no token is left. -/
def endOfInput : Parser Unit :=
  fun c s => if s.rest.isEmpty then .ok () s else unexpected ["end of input"] c s

/-! ## Alternatives -/

/-- Runs `p`; if it fails, goes back to where it started. The names it saw stay seen. -/
def attempt (p : Parser α) : Parser α :=
  fun c s =>
    match p c s with
    | .ok a s' => .ok a s'
    | .error e s' => .error e { s with interner := s'.interner }

/-- Attempts each alternative after those that failed with `best` in sum. -/
def choiceAfter (best : ParseError) : List (Parser α) → Parser α
  | [] => fail best
  | p :: ps => fun c s =>
    match attempt p c s with
    | .ok a s' => .ok a s'
    | .error e s' => choiceAfter (best.merge e) ps c s'

/-- The first alternative that succeeds; if all fail, the error that got furthest, joined with those
    at its place. -/
def choice : List (Parser α) → Parser α
  | [] => unexpected []
  | p :: ps => fun c s =>
    match attempt p c s with
    | .ok a s' => .ok a s'
    | .error e s' => choiceAfter e ps c s'

/-! ## Repetition -/

/-- Runs `p`, which has to read something. -/
def enforce (p : Parser α) : Parser α :=
  fun c s =>
    match p c s with
    | .ok a s' =>
      if s'.rest.length < s.rest.length then .ok a s' else .error ⟨s.here c, .zeroWidth⟩ s'
    | .error e s' => .error e s'

/-- What an enforced parser leaves is shorter than what it was given. -/
theorem enforce_rest_lt {p : Parser α} {c : Context} {s s' : State} {a : α}
    (h : enforce p c s = .ok a s') : s'.rest.length < s.rest.length := by
  unfold enforce at h
  split at h
  · split at h
    · simp_all
    · simp at h
  · simp at h

/-- As many `p` in a row as there are. It stops at a `p` that fails without reading and leaves that
    error as a hint; a `p` that fails after reading, or at the nesting limit, makes it fail. -/
def many (p : Parser α) : Parser (List α) :=
  fun c s =>
    match h : enforce p c s with
    | .ok a s' =>
      have := enforce_rest_lt h
      match many p c s' with
      | .ok as s'' => .ok (a :: as) s''
      | .error e s'' => .error e s''
    | .error e s' =>
      if s'.rest.length = s.rest.length ∧ ¬ e.isTooDeep then
        .ok [] { s' with hint := some (s'.hint.elim e (·.merge e)) }
      else .error e s'
termination_by _ s => s.rest.length

/-- One `p` and as many more as there are. -/
def atLeastOne (p : Parser α) : Parser (List α) := do
  let a ← enforce p
  let as ← many p
  return a :: as

/-! ## Brackets and nesting -/

/-- A phrase between two delimiters, with the span from the one through the other. -/
def between (opening closing : TokenKind) (p : Parser α) : Parser (α × Span) := do
  let first ← expect opening
  let a ← p
  let last ← expect closing
  return (a, first.through last)

/-- Fails because phrases nest too deeply. -/
def tooDeep : Parser α :=
  fun c s => .error ⟨s.here c, .tooDeep c.maxDepth⟩ s

/-- Runs a rule one level deeper, where `room` more levels are allowed. -/
def nested (room : Nat) (p : Nat → Parser α) : Parser α :=
  match room with
  | 0 => tooDeep
  | room + 1 => p room

end Parser

/-! ## Rules that are run in other ways -/

/-- What a grammar is written in. Rules need not be run as parsers; however they are run, the parsers
    of single tokens are taken over, and these combinators join rules. -/
class Combinators (P : Type → Type) extends MonadLift Parser P where
  choice {α : Type} (rules : List (P α)) : P α
  many {α : Type} (rule : P α) : P (List α)
  atLeastOne {α : Type} (rule : P α) : P (List α)
  between {α : Type} (opening closing : TokenKind) (rule : P α) : P (α × Span)

namespace Parser

instance : Combinators Parser where
  monadLift p := p
  choice := choice
  many := many
  atLeastOne := atLeastOne
  between := between

variable {α : Type}

theorem liftM_eq (p : Parser α) : (liftM p : Parser α) = p :=
  rfl

theorem choice_eq (ps : List (Parser α)) : Combinators.choice ps = choice ps :=
  rfl

theorem atLeastOne_eq (p : Parser α) : Combinators.atLeastOne p = atLeastOne p :=
  rfl

theorem between_eq (opening closing : TokenKind) (p : Parser α) :
    Combinators.between opening closing p = between opening closing p :=
  rfl

end Parser

end FOmega
