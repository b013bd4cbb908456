import FOmega.Rule

/-!
# Machines

A machine is a parser between two rules. It holds all that a run goes by, also the number of levels
that are open, so that a rule is run by what it does to the machine. A nested rule fails if as many
levels are open as are allowed; otherwise it opens one more, runs, and closes it again, whether it
succeeds or fails. An attempt notes where the cursor and the hint are and puts them back if it fails.

The grammar is run on machines as it is written. Rules of single tokens open no levels and do to the
tokens, the hint and the names what they do as parsers.
-/

namespace FOmega

/-- A parser between two rules: its fixed context, the levels that are open, and its state. -/
structure Machine where
  context : Parser.Context
  depth : Nat
  state : Parser.State
  deriving DecidableEq

namespace Machine

/-- A machine before the first of the given tokens. -/
def start (tokens : List Token) (inputLen : Nat) (interner : Interner) (maxDepth : Nat) : Machine :=
  let context := ⟨tokens, inputLen, maxDepth⟩
  ⟨context, 0, .start context interner⟩

/-- The index of the next token. -/
def position (m : Machine) : Nat :=
  m.state.position m.context

/-- The place of the next token. -/
def here (m : Machine) : Span :=
  m.state.here m.context

/-- The number of levels that may still be opened. -/
def room (m : Machine) : Nat :=
  m.context.maxDepth - m.depth

/-- The machine inside of one more level. -/
def enter (m : Machine) : Machine :=
  { m with depth := m.depth + 1 }

/-- The machine outside of its innermost level. -/
def leave (m : Machine) : Machine :=
  { m with depth := m.depth - 1 }

/-- The machine with the cursor and the hint of an earlier one. The names seen since stay seen. -/
def rewind (m earlier : Machine) : Machine :=
  { m with state := { m.state with rest := earlier.state.rest, hint := earlier.state.hint } }

/-- The answer of a parser that was run on the machine's state, with the machine after it. -/
def settle {α : Type} (m : Machine) (reply : Parser.Reply α) : Except ParseError α × Machine :=
  (reply.toExcept, { m with state := reply.state })

end Machine

/-- A rule as it is run on a machine: a value or an error, with the machine after it. -/
def Routine (α : Type) : Type :=
  Machine → Except ParseError α × Machine

namespace Routine

variable {α β : Type}

/-! ## Sequence and failure -/

instance : Monad Routine where
  pure a := fun m => (.ok a, m)
  bind r f := fun m =>
    match r m with
    | (.ok a, m') => f a m'
    | (.error e, m') => (.error e, m')

/-- Fails with the given error and changes nothing. -/
def fail (e : ParseError) : Routine α :=
  fun m => (.error e, m)

/-- A parser that opens no levels. -/
def ofParser (p : Parser α) : Routine α :=
  fun m => m.settle (p m.context m.state)

/-! ## Alternatives -/

/-- Runs `r`; if it fails, goes back to where it started. The names it saw stay seen. -/
def attempt (r : Routine α) : Routine α :=
  fun m =>
    match r m with
    | (.ok a, m') => (.ok a, m')
    | (.error e, m') => (.error e, m'.rewind m)

/-- Attempts each alternative after those that failed with `best` in sum. -/
def choiceAfter (best : ParseError) : List (Routine α) → Routine α
  | [] => fail best
  | r :: rs => fun m =>
    match attempt r m with
    | (.ok a, m') => (.ok a, m')
    | (.error e, m') => choiceAfter (best.merge e) rs m'

/-- The first alternative that succeeds; if all fail, the error that got furthest, joined with those
    at its place. -/
def choice : List (Routine α) → Routine α
  | [] => ofParser (Parser.unexpected [])
  | r :: rs => fun m =>
    match attempt r m with
    | (.ok a, m') => (.ok a, m')
    | (.error e, m') => choiceAfter e rs m'

/-! ## Repetition -/

/-- Runs `r`, which has to read something. -/
def enforce (r : Routine α) : Routine α :=
  fun m =>
    match r m with
    | (.ok a, m') =>
      if m'.state.rest.length < m.state.rest.length then (.ok a, m')
      else (.error ⟨m.here, .zeroWidth⟩, m')
    | (.error e, m') => (.error e, m')

/-- What an enforced routine leaves is shorter than what it was given. -/
theorem enforce_rest_lt {r : Routine α} {m m' : Machine} {a : α} (h : enforce r m = (.ok a, m')) :
    m'.state.rest.length < m.state.rest.length := by
  unfold enforce at h
  split at h
  · split at h
    · simp_all
    · simp at h
  · simp at h

/-- As many `r` in a row as there are. It stops at an `r` that fails without reading and leaves that
    error as a hint; an `r` that fails after reading, or at the nesting limit, makes it fail. -/
def many (r : Routine α) : Routine (List α) :=
  fun m =>
    match h : enforce r m with
    | (.ok a, m') =>
      have := enforce_rest_lt h
      match many r m' with
      | (.ok as, m'') => (.ok (a :: as), m'')
      | (.error e, m'') => (.error e, m'')
    | (.error e, m') =>
      if m'.state.rest.length = m.state.rest.length ∧ ¬ e.isTooDeep then
        let hint := m'.state.hint.elim e (·.merge e)
        (.ok [], { m' with state := { m'.state with hint := some hint } })
      else (.error e, m')
termination_by m => m.state.rest.length

/-- One `r` and as many more as there are. -/
def atLeastOne (r : Routine α) : Routine (List α) := do
  let a ← enforce r
  let as ← many r
  return a :: as

/-! ## Brackets and nesting -/

/-- A phrase between two delimiters, with the span from the one through the other. -/
def between (opening closing : TokenKind) (r : Routine α) : Routine (α × Span) := do
  let first ← ofParser (Parser.expect opening)
  let a ← r
  let last ← ofParser (Parser.expect closing)
  return (a, first.through last)

/-- Runs `r` inside of one more level, unless as many are open as are allowed. -/
def nested (r : Routine α) : Routine α :=
  fun m =>
    if m.context.maxDepth ≤ m.depth then
      (.error ⟨m.here, .tooDeep m.context.maxDepth⟩, m)
    else
      let (answer, m') := r m.enter
      (answer, m'.leave)

instance : Combinators Routine where
  monadLift := ofParser
  choice := choice
  many := many
  atLeastOne := atLeastOne
  between := between

theorem choice_eq (rs : List (Routine α)) : Combinators.choice rs = choice rs :=
  rfl

/-! ## Phrases

Phrases of phrases are unfolded `levels` deep. A machine on which fewer levels may still be opened
never gets to the end of them. -/

/-- A constant. -/
def constant : (levels : Nat) → Routine Constant
  | 0 => ofParser Parser.tooDeep
  | levels + 1 => nested (Grammar.constantPhrase (constant levels))

/-- A kind. -/
def kind : (levels : Nat) → Routine Kind
  | 0 => ofParser Parser.tooDeep
  | levels + 1 => nested (Grammar.kindPhrase (kind levels))

/-- A type. -/
def type : (levels : Nat) → Routine Ty
  | 0 => ofParser Parser.tooDeep
  | levels + 1 => nested (Grammar.typePhrase (kind levels) (type levels))

/-- A term. -/
def term : (levels : Nat) → Routine Term
  | 0 => ofParser Parser.tooDeep
  | levels + 1 =>
    nested (Grammar.termPhrase (constant levels) (kind levels) (type levels) (term levels))

/-- A program. -/
def program (levels : Nat) : Routine Program :=
  Grammar.programPhrase (term levels)

end Routine

/-! ## Rule expressions -/

namespace Rule

mutual

/-- The routine that a rule expression describes, with phrases unfolded `levels` deep. -/
def routine (levels : Nat) : Rule → Routine Value
  | .term => return .tree (.term (← Routine.term levels))
  | .type => return .tree (.type (← Routine.type levels))
  | .kind => return .tree (.kind (← Routine.kind levels))
  | .program => return .tree (.program (← Routine.program levels))
  | .constant => return .constant (← Routine.constant levels)
  | .preceded k rule => do
    let _ ← Parser.expect k
    routine levels rule
  | .followed rule k => do
    let value ← routine levels rule
    let _ ← Parser.expect k
    return value
  | .seq rules => return .list (← routineAll levels rules)
  | .choice rules => Routine.choice (routineEach levels rules)
  | .attempt rule => Routine.attempt (routine levels rule)
  | .enforce rule => Routine.enforce (routine levels rule)
  | .nested rule => Routine.nested (routine levels rule)
  | .many rule => return .list (← Routine.many (routine levels rule))
  | .atLeastOne rule => return .list (← Routine.atLeastOne (routine levels rule))
  | .between opening closing rule => do
    let (value, span) ← Routine.between opening closing (routine levels rule)
    return .spanned value span
  | rule => Routine.ofParser (rule.run 0)

/-- The rules in order, up to the first that fails. -/
def routineAll (levels : Nat) : List Rule → Routine (List Value)
  | [] => return []
  | rule :: rules => return (← routine levels rule) :: (← routineAll levels rules)

/-- The routine of each rule. -/
def routineEach (levels : Nat) : List Rule → List (Routine Value)
  | [] => []
  | rule :: rules => routine levels rule :: routineEach levels rules

end

end Rule

namespace Machine

/-- Runs one rule. After a failure the machine stands where the rule failed. -/
def run (m : Machine) (rule : Rule) : Except ParseError Value × Machine :=
  rule.routine (m.context.maxDepth + 1) m

/-- Runs rules one after the other, whether they fail or not: each answer with the machine after
    it. -/
def runAll (m : Machine) : List Rule → List (Except ParseError Value × Machine)
  | [] => []
  | rule :: rules =>
    let out := m.run rule
    out :: runAll out.2 rules

/-- The machine after rules run one after the other. -/
def after (m : Machine) (rules : List Rule) : Machine :=
  rules.foldl (fun m rule => (m.run rule).2) m

end Machine

end FOmega
