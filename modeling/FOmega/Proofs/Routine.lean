import FOmega.Machine
import FOmega.Proofs.Combinator
import Mathlib.Data.List.Forall2

/-!
# Routines do what parsers do and close their levels

A parser is told how many levels its phrases may open, and a routine counts the open ones in the
machine. Where the machine leaves that much room the two give the same answer and leave the same
tokens, hint and names, and the machine is otherwise as before: a level that was entered is left again
on every way out, so the levels that are open around a rule are open after it. The rules of single
tokens do not touch the levels, each combinator restores them if its rules do, and a nested rule
restores what it entered; so it holds of every phrase by induction on the levels, and of every rule
expression by induction.
-/

namespace FOmega

namespace Routine

open FOmega.Parser (Context State)

variable {α β : Type}

/-- A repetition goes on after an item that was read. -/
theorem many_of_ok {r : Routine α} {m m' : Machine} {a : α} (h : enforce r m = (.ok a, m')) :
    many r m = match many r m' with
      | (.ok as, m'') => (.ok (a :: as), m'')
      | (.error e, m'') => (.error e, m'') := by
  rw [many]
  split
  · next h' =>
    cases h.symm.trans h'
    rfl
  · next h' => cases h.symm.trans h'

/-- A repetition ends at an item that fails, well if the item read nothing and is not too deep. -/
theorem many_of_error {r : Routine α} {m m' : Machine} {e : ParseError}
    (h : enforce r m = (.error e, m')) :
    many r m = if m'.state.rest.length = m.state.rest.length ∧ ¬ e.isTooDeep then
        let hint := m'.state.hint.elim e (·.merge e)
        (.ok [], { m' with state := { m'.state with hint := some hint } })
      else (.error e, m') := by
  rw [many]
  split
  · next h' => cases h.symm.trans h'
  · next h' =>
    cases h.symm.trans h'
    rfl

/-- On machines with the given context and levels, the routine does what the parser does and changes
    nothing that a parser does not change. -/
def Follows (c : Context) (depth : Nat) (r : Routine α) (p : Parser α) : Prop :=
  ∀ s : State, r ⟨c, depth, s⟩ = Machine.settle ⟨c, depth, s⟩ (p c s)

namespace Follows

variable {c : Context} {depth levels room : Nat} {r : Routine α} {p : Parser α}

theorem of_ok (h : Follows c depth r p) {s s' : State} {a : α} (hp : p c s = .ok a s') :
    r ⟨c, depth, s⟩ = (.ok a, ⟨c, depth, s'⟩) := by
  rw [h s, hp]
  rfl

theorem of_error (h : Follows c depth r p) {s s' : State} {e : ParseError}
    (hp : p c s = .error e s') : r ⟨c, depth, s⟩ = (.error e, ⟨c, depth, s'⟩) := by
  rw [h s, hp]
  rfl

/-! ## Sequence -/

theorem pure (a : α) : Follows c depth (Pure.pure a) (Pure.pure a) :=
  fun _ => rfl

theorem ofParser (p : Parser α) : Follows c depth (Routine.ofParser p) p :=
  fun _ => rfl

theorem bind {f : α → Routine β} {g : α → Parser β} (hr : Follows c depth r p)
    (hf : ∀ a, Follows c depth (f a) (g a)) : Follows c depth (r >>= f) (p >>= g) := by
  intro s
  cases hp : p c s with
  | ok a s' =>
    rw [Parser.bind_run, hp]
    simp only [Bind.bind, hr.of_ok hp]
    exact hf a s'
  | error e s' =>
    rw [Parser.bind_run, hp]
    simp only [Bind.bind, hr.of_error hp]
    rfl

/-! ## Alternatives -/

theorem attempt (h : Follows c depth r p) :
    Follows c depth (Routine.attempt r) (Parser.attempt p) := by
  intro s
  cases hp : p c s with
  | ok a s' =>
    simp only [Routine.attempt, Parser.attempt, h.of_ok hp, hp]
    rfl
  | error e s' =>
    simp only [Routine.attempt, Parser.attempt, h.of_error hp, hp]
    rfl

theorem choiceAfter {rs : List (Routine α)} {ps : List (Parser α)}
    (h : List.Forall₂ (Follows c depth) rs ps) (best : ParseError) :
    Follows c depth (Routine.choiceAfter best rs) (Parser.choiceAfter best ps) := by
  induction h generalizing best with
  | nil => exact fun _ => rfl
  | @cons r p rs ps hr _ ih =>
    intro s
    cases hp : Parser.attempt p c s with
    | ok a s' =>
      simp only [Routine.choiceAfter, Parser.choiceAfter, hr.attempt.of_ok hp, hp]
      rfl
    | error e s' =>
      simp only [Routine.choiceAfter, Parser.choiceAfter, hr.attempt.of_error hp, hp]
      exact ih _ s'

theorem choice {rs : List (Routine α)} {ps : List (Parser α)}
    (h : List.Forall₂ (Follows c depth) rs ps) :
    Follows c depth (Routine.choice rs) (Parser.choice ps) := by
  cases h with
  | nil => exact ofParser _
  | @cons r p rs ps hr hrs =>
    intro s
    cases hp : Parser.attempt p c s with
    | ok a s' =>
      simp only [Routine.choice, Parser.choice, hr.attempt.of_ok hp, hp]
      rfl
    | error e s' =>
      simp only [Routine.choice, Parser.choice, hr.attempt.of_error hp, hp]
      exact choiceAfter hrs e s'

/-! ## Repetition -/

theorem enforce (h : Follows c depth r p) :
    Follows c depth (Routine.enforce r) (Parser.enforce p) := by
  intro s
  cases hp : p c s with
  | ok a s' =>
    simp only [Routine.enforce, Parser.enforce, h.of_ok hp, hp]
    split <;> rfl
  | error e s' =>
    simp only [Routine.enforce, Parser.enforce, h.of_error hp, hp]
    rfl

theorem many (h : Follows c depth r p) : Follows c depth (Routine.many r) (Parser.many p) := by
  intro s
  cases hp : Parser.enforce p c s with
  | ok a s' =>
    -- The items after this one are read from fewer tokens.
    have hlt := Parser.enforce_rest_lt hp
    have hrest := many h s'
    rw [Routine.many_of_ok (h.enforce.of_ok hp), Parser.many_of_ok hp, hrest]
    cases Parser.many p c s' <;> rfl
  | error e s' =>
    rw [Routine.many_of_error (h.enforce.of_error hp), Parser.many_of_error hp]
    split <;> rfl
termination_by s => s.rest.length

theorem atLeastOne (h : Follows c depth r p) :
    Follows c depth (Routine.atLeastOne r) (Parser.atLeastOne p) :=
  h.enforce.bind fun _ => h.many.bind fun _ => pure _

/-! ## Brackets and nesting -/

theorem between (opening closing : TokenKind) (h : Follows c depth r p) :
    Follows c depth (Routine.between opening closing r) (Parser.between opening closing p) :=
  (ofParser _).bind fun _ => h.bind fun _ => (ofParser _).bind fun _ => pure _

/-- A nested routine closes the level that it opened. At the limit it opens none. -/
theorem nested {p : Nat → Parser α} (hroom : c.maxDepth - depth = room)
    (hlimit : p 0 = Parser.tooDeep)
    (hbelow : ∀ k, room = k + 1 → Follows c (depth + 1) r (p (k + 1))) :
    Follows c depth (Routine.nested r) (p room) := by
  intro s
  cases room with
  | zero =>
    have hdepth : c.maxDepth ≤ depth := Nat.le_of_sub_eq_zero hroom
    rw [Routine.nested, if_pos hdepth, hlimit]
    rfl
  | succ k =>
    have hdepth : ¬ c.maxDepth ≤ depth := by omega
    have hrun := hbelow k rfl s
    simp only [Routine.nested, if_neg hdepth, Machine.enter, hrun]
    rfl

/-! ## Phrases -/

theorem constantPhrase {r : Routine Constant} {p : Parser Constant} (h : Follows c depth r p) :
    Follows c depth (Grammar.constantPhrase r) (Grammar.constantPhrase p) := by
  refine (ofParser _).bind fun here => ?_
  cases here with
  | true => exact (h.between _ _).bind fun _ => pure _
  | false => exact ofParser _

theorem kindBody {r : Routine Kind} {p : Parser Kind} (h : Follows c depth r p) :
    Follows c depth (Grammar.kindBody r) (Grammar.kindBody p) := by
  unfold Grammar.kindBody
  rw [Routine.choice_eq, Parser.choice_eq]
  refine choice (.cons ?_ (.cons ?_ .nil)) <;> refine (ofParser _).bind fun _ => ?_
  · exact pure _
  · exact h.bind fun _ => h.bind fun _ => pure _

theorem kindPhrase {r : Routine Kind} {p : Parser Kind} (h : Follows c depth r p) :
    Follows c depth (Grammar.kindPhrase r) (Grammar.kindPhrase p) :=
  (h.kindBody.between _ _).bind fun _ => pure _

theorem application {head : Routine α} {arg : Routine β} {headParser : Parser α}
    {argParser : Parser β} (hhead : Follows c depth head headParser)
    (harg : Follows c depth arg argParser) :
    Follows c depth (Grammar.application head arg) (Grammar.application headParser argParser) :=
  hhead.bind fun _ => harg.atLeastOne.bind fun _ => pure _

section

variable {constant : Routine Constant} {constantParser : Parser Constant} {kind : Routine Kind}
  {kindParser : Parser Kind} {type : Routine Ty} {typeParser : Parser Ty} {term : Routine Term}
  {termParser : Parser Term} (hconstant : Follows c depth constant constantParser)
  (hkind : Follows c depth kind kindParser) (htype : Follows c depth type typeParser)
  (hterm : Follows c depth term termParser)

include hkind htype in
theorem typeBody :
    Follows c depth (Grammar.typeBody kind type) (Grammar.typeBody kindParser typeParser) := by
  unfold Grammar.typeBody
  rw [Routine.choice_eq, Parser.choice_eq]
  refine choice (.cons ?_ (.cons ?_ (.cons ?_ (.cons ?_ (.cons ?_ (.cons ?_ .nil)))))) <;>
    refine (ofParser _).bind fun _ => ?_
  · exact (ofParser _).bind fun _ => hkind.bind fun _ => htype.bind fun _ => pure _
  · exact (ofParser _).bind fun _ => hkind.bind fun _ => htype.bind fun _ => pure _
  · exact htype.bind fun _ => htype.bind fun _ => pure _
  · exact htype.bind fun _ => htype.bind fun _ => pure _
  · exact (ofParser _).bind fun _ => pure _
  · exact htype.many.bind fun _ => pure _

include hkind htype in
theorem typePhrase :
    Follows c depth (Grammar.typePhrase kind type) (Grammar.typePhrase kindParser typeParser) := by
  refine (ofParser _).bind fun atParen => ?_
  cases atParen with
  | true => exact ((typeBody hkind htype).between _ _).bind fun _ => pure _
  | false =>
    refine (ofParser _).bind fun atBracket => ?_
    cases atBracket with
    | true => exact ((application htype htype).between _ _).bind fun _ => pure _
    | false =>
      refine (ofParser _).bind fun atIdent => ?_
      cases atIdent with
      | true => exact (ofParser _).bind fun _ => pure _
      | false => exact ofParser _

include hconstant hkind htype hterm in
theorem termBody : Follows c depth (Grammar.termBody constant kind type term)
    (Grammar.termBody constantParser kindParser typeParser termParser) := by
  unfold Grammar.termBody
  rw [Routine.choice_eq, Parser.choice_eq]
  refine choice (.cons ?_ (.cons ?_ (.cons ?_ (.cons ?_ (.cons ?_ (.cons ?_ (.cons ?_ (.cons ?_
    (.cons ?_ .nil))))))))) <;> refine (ofParser _).bind fun _ => ?_
  · exact (ofParser _).bind fun _ => htype.bind fun _ => hterm.bind fun _ => pure _
  · exact (ofParser _).bind fun _ => hkind.bind fun _ => hterm.bind fun _ => pure _
  · exact htype.bind fun _ => htype.bind fun _ => hterm.bind fun _ => pure _
  · exact hterm.bind fun _ => pure _
  · exact htype.bind fun _ => pure _
  · exact hconstant.bind fun _ => pure _
  · exact (ofParser _).bind fun _ => pure _
  · exact hterm.many.bind fun _ => pure _
  · exact (ofParser _).bind fun _ => hterm.bind fun _ => pure _

include hconstant hkind htype hterm in
theorem termPhrase : Follows c depth (Grammar.termPhrase constant kind type term)
    (Grammar.termPhrase constantParser kindParser typeParser termParser) := by
  refine (ofParser _).bind fun atParen => ?_
  cases atParen with
  | true =>
    exact ((termBody hconstant hkind htype hterm).between _ _).bind fun _ => pure _
  | false =>
    refine (ofParser _).bind fun atBracket => ?_
    cases atBracket with
    | true => exact ((application hterm hterm).between _ _).bind fun _ => pure _
    | false =>
      refine (ofParser _).bind fun atBrace => ?_
      cases atBrace with
      | true => exact ((application hterm htype).between _ _).bind fun _ => pure _
      | false =>
        refine (ofParser _).bind fun atIdent => ?_
        cases atIdent with
        | true => exact (ofParser _).bind fun _ => pure _
        | false => exact ofParser _

include hterm in
theorem programPhrase :
    Follows c depth (Grammar.programPhrase term) (Grammar.programPhrase termParser) := by
  refine Follows.bind (between _ _ ?_) fun _ => pure _
  exact (ofParser _).bind fun _ => (ofParser _).bind fun _ => hterm.bind fun _ => pure _

end

/-! ## Phrases at their levels

A phrase that is unfolded as deep as there is room is the parser's phrase. Its parts are unfolded one
level less, and on a machine with one level less to open. -/

theorem constant (hroom : c.maxDepth - depth = room) (hlevels : room ≤ levels) :
    Follows c depth (Routine.constant levels) (Grammar.constant room) := by
  induction levels generalizing depth room with
  | zero =>
    obtain rfl := Nat.le_zero.mp hlevels
    exact ofParser _
  | succ levels ih =>
    refine nested hroom rfl fun k hk => constantPhrase (ih ?_ ?_) <;> omega

theorem kind (hroom : c.maxDepth - depth = room) (hlevels : room ≤ levels) :
    Follows c depth (Routine.kind levels) (Grammar.kind room) := by
  induction levels generalizing depth room with
  | zero =>
    obtain rfl := Nat.le_zero.mp hlevels
    exact ofParser _
  | succ levels ih =>
    refine nested hroom rfl fun k hk => kindPhrase (ih ?_ ?_) <;> omega

theorem type (hroom : c.maxDepth - depth = room) (hlevels : room ≤ levels) :
    Follows c depth (Routine.type levels) (Grammar.type room) := by
  induction levels generalizing depth room with
  | zero =>
    obtain rfl := Nat.le_zero.mp hlevels
    exact ofParser _
  | succ levels ih =>
    refine nested hroom rfl fun k hk => typePhrase (kind ?_ ?_) (ih ?_ ?_) <;> omega

theorem term (hroom : c.maxDepth - depth = room) (hlevels : room ≤ levels) :
    Follows c depth (Routine.term levels) (Grammar.term room) := by
  induction levels generalizing depth room with
  | zero =>
    obtain rfl := Nat.le_zero.mp hlevels
    exact ofParser _
  | succ levels ih =>
    refine nested hroom rfl fun k hk =>
      termPhrase (constant ?_ ?_) (kind ?_ ?_) (type ?_ ?_) (ih ?_ ?_) <;> omega

/-! ## Rule expressions -/

mutual

theorem rule : ∀ (rule : Rule) {depth room : Nat}, c.maxDepth - depth = room → room ≤ levels →
    Follows c depth (rule.routine levels) (rule.run room)
  | .term, _, _, hroom, hlevels => (term hroom hlevels).bind fun _ => pure _
  | .type, _, _, hroom, hlevels => (type hroom hlevels).bind fun _ => pure _
  | .kind, _, _, hroom, hlevels => (kind hroom hlevels).bind fun _ => pure _
  | .program, _, _, hroom, hlevels => (programPhrase (term hroom hlevels)).bind fun _ => pure _
  | .constant, _, _, hroom, hlevels => (constant hroom hlevels).bind fun _ => pure _
  | .preceded _ r, _, _, hroom, hlevels => (ofParser _).bind fun _ => rule r hroom hlevels
  | .followed r _, _, _, hroom, hlevels =>
    (rule r hroom hlevels).bind fun _ => (ofParser _).bind fun _ => pure _
  | .seq rs, _, _, hroom, hlevels => (ruleAll rs hroom hlevels).bind fun _ => pure _
  | .choice rs, _, _, hroom, hlevels => choice (ruleEach rs hroom hlevels)
  | .attempt r, _, _, hroom, hlevels => (rule r hroom hlevels).attempt
  | .enforce r, _, _, hroom, hlevels => (rule r hroom hlevels).enforce
  | .nested r, depth, room, hroom, hlevels => by
    have hinside : ∀ k, room = k + 1 → Follows c (depth + 1) (r.routine levels) (r.run k) := by
      intro k hk
      refine rule r ?_ ?_ <;> omega
    exact nested (p := fun room => (Rule.nested r).run room) hroom rfl hinside
  | .many r, _, _, hroom, hlevels => (rule r hroom hlevels).many.bind fun _ => pure _
  | .atLeastOne r, _, _, hroom, hlevels => (rule r hroom hlevels).atLeastOne.bind fun _ => pure _
  | .between _ _ r, _, _, hroom, hlevels =>
    ((rule r hroom hlevels).between _ _).bind fun _ => pure _
  | .version, _, _, _, _ | .builtinFunction, _, _, _, _ | .builtinType, _, _, _, _
  | .name, _, _, _, _ | .typeName, _, _, _, _ | .spannedName, _, _, _, _
  | .spannedTypeName, _, _, _, _ | .natural _, _, _, _, _ | .endOfInput, _, _, _, _
  | .empty, _, _, _, _ | .position, _, _, _, _ | .atEnd, _, _, _, _ | .here, _, _, _, _
  | .peek, _, _, _, _ | .isAt _, _, _, _, _ | .expect _, _, _, _, _ | .keyword _, _, _, _, _
  | .identifier _, _, _, _, _ | .unexpected _, _, _, _, _ => ofParser _

theorem ruleAll : ∀ (rules : List Rule) {depth room : Nat}, c.maxDepth - depth = room →
    room ≤ levels → Follows c depth (Rule.routineAll levels rules) (Rule.runAll room rules)
  | [], _, _, _, _ => pure _
  | r :: rs, _, _, hroom, hlevels =>
    (rule r hroom hlevels).bind fun _ => (ruleAll rs hroom hlevels).bind fun _ => pure _

theorem ruleEach : ∀ (rules : List Rule) {depth room : Nat}, c.maxDepth - depth = room →
    room ≤ levels →
    List.Forall₂ (Follows c depth) (Rule.routineEach levels rules) (Rule.runEach room rules)
  | [], _, _, _, _ => .nil
  | r :: rs, _, _, hroom, hlevels => .cons (rule r hroom hlevels) (ruleEach rs hroom hlevels)

end

end Follows

end Routine

/-! ## Runs of a machine -/

namespace Machine

/-- A rule is run on a machine as a parser that may open the levels for which there is room, and
    changes only what parsers change: the levels that were open are open again. -/
theorem run_eq (m : Machine) (rule : Rule) :
    m.run rule = m.settle (rule.run m.room m.context m.state) :=
  Routine.Follows.rule rule rfl (Nat.le_succ_of_le (Nat.sub_le _ _)) m.state

theorem context_run (m : Machine) (rule : Rule) : (m.run rule).2.context = m.context := by
  rw [run_eq]
  rfl

theorem depth_run (m : Machine) (rule : Rule) : (m.run rule).2.depth = m.depth := by
  rw [run_eq]
  rfl

theorem state_run (m : Machine) (rule : Rule) :
    (m.run rule).2.state = (rule.run m.room m.context m.state).state := by
  rw [run_eq]
  rfl

theorem answer_run (m : Machine) (rule : Rule) :
    (m.run rule).1 = (rule.run m.room m.context m.state).toExcept := by
  rw [run_eq]
  rfl

end Machine

end FOmega
