import FOmega.Proofs.Freshness
import FOmega.Proofs.Routine

/-!
# Machines between rules

Whatever rules a machine runs, it stays sound: its cursor stands among its tokens and moves forward,
the levels that were open around a rule are open after it, and spellings keep their uniques. An
attempt or a choice that fails leaves the cursor and the hint as they were; what it interned stays.

A rule is run inside of others with more levels open around it. So the machines that can come about
are those that a fresh machine turns into by running rules, entering a level if the limit allows
another one, and leaving a level.
-/

namespace FOmega

open FOmega.Parser

/-! ## Spellings keep their uniques -/

namespace Interner

variable {i i' : Interner} {text : String} {u : Nat}

theorem Extends.lookup_kept (h : i.Extends i') (hlookup : i.lookup? text = some u) :
    i'.lookup? text = some u := by
  rcases h.entries_eq with ⟨new, hentries, -⟩
  unfold lookup? at hlookup ⊢
  rw [hentries, List.lookup_append, hlookup, Option.some_or]

theorem Extends.lookup_new (h : i.Extends i') (hlookup : i.lookup? text = none)
    (hlookup' : i'.lookup? text = some u) : i.supply.issued ≤ u := by
  rcases h.entries_eq with ⟨new, hentries, hnew⟩
  unfold lookup? at hlookup hlookup'
  rw [hentries, List.lookup_append, hlookup, Option.none_or] at hlookup'
  rcases List.lookup_eq_some_iff.mp hlookup' with ⟨before, after, rfl, -⟩
  exact (hnew (text, u) (by simp)).1

end Interner

/-! ## An answer and the state it leaves -/

namespace Parser.Reply

variable {α : Type} {reply : Reply α} {a : α} {e : ParseError}

theorem eq_ok (h : reply.toExcept = .ok a) : reply = .ok a reply.state := by
  cases reply with
  | ok b s =>
    cases h
    rfl
  | error e s => cases h

theorem eq_error (h : reply.toExcept = .error e) : reply = .error e reply.state := by
  cases reply with
  | ok a s => cases h
  | error e' s =>
    cases h
    rfl

end Parser.Reply

/-! ## Going back -/

namespace Parser

variable {α : Type} {p : Parser α} {ps : List (Parser α)} {c : Context} {s s' : State}
  {e best : ParseError}

/-- A failed attempt changes nothing but the names seen. -/
theorem attempt_restores (h : attempt p c s = .error e s') :
    s' = { s with interner := s'.interner } := by
  unfold attempt at h
  cases hrun : p c s with
  | ok a s₁ =>
    rw [hrun] at h
    cases h
  | error e₁ s₁ =>
    rw [hrun] at h
    cases h
    rfl

theorem choiceAfter_restores (h : choiceAfter best ps c s = .error e s') :
    s' = { s with interner := s'.interner } := by
  induction ps generalizing best s with
  | nil =>
    cases h
    rfl
  | cons p ps ih =>
    simp only [choiceAfter] at h
    cases hrun : attempt p c s with
    | ok a s₁ =>
      rw [hrun] at h
      cases h
    | error e₁ s₁ =>
      rw [hrun] at h
      rw [ih h, attempt_restores hrun]

/-- A failed choice changes nothing but the names seen, if it had something to choose from. Without
    alternatives it is a refusal, which uses up the hint. -/
theorem choice_restores (h : choice (p :: ps) c s = .error e s') :
    s' = { s with interner := s'.interner } := by
  simp only [choice] at h
  cases hrun : attempt p c s with
  | ok a s₁ =>
    rw [hrun] at h
    cases h
  | error e₁ s₁ =>
    rw [hrun] at h
    rw [choiceAfter_restores h, attempt_restores hrun]

end Parser

/-- The rules that go back if they fail. -/
inductive Rule.GoesBack : Rule → Prop where
  | attempt (rule : Rule) : GoesBack (.attempt rule)
  | choice (rule : Rule) (rules : List Rule) : GoesBack (.choice (rule :: rules))

theorem Rule.GoesBack.restores {rule : Rule} (h : rule.GoesBack) {room : Nat} {c : Context}
    {s s' : State} {e : ParseError} (hrun : rule.run room c s = .error e s') :
    s' = { s with interner := s'.interner } := by
  cases h with
  | attempt rule => exact attempt_restores hrun
  | choice rule rules => exact choice_restores hrun

namespace Machine

variable {m : Machine} {rule : Rule}

/-! ## What a run changes -/

theorem run_eq_ok {value : Value} (h : (m.run rule).1 = .ok value) :
    rule.run m.room m.context m.state = .ok value (m.run rule).2.state := by
  rw [answer_run] at h
  rw [state_run]
  exact Reply.eq_ok h

theorem run_eq_error {e : ParseError} (h : (m.run rule).1 = .error e) :
    rule.run m.room m.context m.state = .error e (m.run rule).2.state := by
  rw [answer_run] at h
  rw [state_run]
  exact Reply.eq_error h

/-- What every step keeps, the run of a rule keeps. -/
theorem run_keeps {R : State → State → Prop} (hR : StepRelation R) (m : Machine) (rule : Rule) :
    R m.state (m.run rule).2.state := by
  rw [state_run]
  exact Keeps.rule hR m.room rule m.context m.state

/-- What a run of any rule keeps, and what it only adds to. -/
structure Advances (m m' : Machine) : Prop where
  context_eq : m'.context = m.context
  depth_eq : m'.depth = m.depth
  position_le : m.position ≤ m'.position
  issued_le : m.state.interner.supply.issued ≤ m'.state.interner.supply.issued
  lookup_kept : ∀ {text u}, m.state.interner.lookup? text = some u →
    m'.state.interner.lookup? text = some u
  lookup_new : ∀ {text u}, m.state.interner.lookup? text = none →
    m'.state.interner.lookup? text = some u → m.state.interner.supply.issued ≤ u

theorem run_advances (m : Machine) (rule : Rule) : m.Advances (m.run rule).2 := by
  have hleaves : Leaves m.state (m.run rule).2.state := run_keeps leaves_stepRelation m rule
  have hgrows : m.state.interner.Extends (m.run rule).2.state.interner :=
    run_keeps grows_stepRelation m rule
  have hposition : m.position ≤ (m.run rule).2.position := by
    rw [position, position, context_run]
    exact Nat.sub_le_sub_left hleaves.length_le _
  exact {
    context_eq := context_run m rule
    depth_eq := depth_run m rule
    position_le := hposition
    issued_le := hgrows.issued_le
    lookup_kept := hgrows.lookup_kept
    lookup_new := hgrows.lookup_new }

/-! ## Levels -/

/-- A nested rule enters a level, runs and leaves the level again, whether it succeeds or fails. -/
theorem run_nested (hdepth : m.depth < m.context.maxDepth) (rule : Rule) :
    m.run (.nested rule) = ((m.enter.run rule).1, (m.enter.run rule).2.leave) := by
  rw [run, Rule.routine, Routine.nested, if_neg (Nat.not_le_of_lt hdepth)]
  rfl

/-- At the limit a nested rule fails and changes nothing. -/
theorem run_nested_limit (hdepth : m.context.maxDepth ≤ m.depth) (rule : Rule) :
    m.run (.nested rule) =
      (.error ⟨m.state.here m.context, .tooDeep m.context.maxDepth⟩, m) := by
  rw [run, Rule.routine, Routine.nested, if_pos hdepth]
  rfl

/-! ## Machines that can come about -/

/-- The cursor stands among the tokens, and no more levels are open than are allowed. -/
structure Sound (m : Machine) : Prop where
  depth_le : m.depth ≤ m.context.maxDepth
  rest_eq : m.state.rest = m.context.tokens.drop m.position
  position_le : m.position ≤ m.context.tokens.length

/-- The machines that come about from fresh ones. -/
inductive Reachable : Machine → Prop where
  | start (tokens : List Token) (inputLen : Nat) (interner : Interner) (maxDepth : Nat) :
    Reachable (start tokens inputLen interner maxDepth)
  | run {m : Machine} (rule : Rule) : Reachable m → Reachable (m.run rule).2
  | enter {m : Machine} : Reachable m → m.depth < m.context.maxDepth → Reachable m.enter
  | leave {m : Machine} : Reachable m → Reachable m.leave

theorem sound_start (tokens : List Token) (inputLen : Nat) (interner : Interner) (maxDepth : Nat) :
    Sound (start tokens inputLen interner maxDepth) := by
  have hposition : (start tokens inputLen interner maxDepth).position = 0 := Nat.sub_self _
  refine ⟨Nat.zero_le _, ?_, ?_⟩
  · rw [hposition]
    rfl
  · rw [hposition]
    exact Nat.zero_le _

/-- What a run leaves is an end of the tokens, so its place says which one. -/
theorem Sound.run (h : m.Sound) (rule : Rule) : (m.run rule).2.Sound := by
  have hleaves : Leaves m.state (m.run rule).2.state := run_keeps leaves_stepRelation m rule
  have hsuffix : (m.run rule).2.state.rest <:+ m.context.tokens := by
    refine hleaves.trans ?_
    rw [h.rest_eq]
    exact List.drop_suffix _ _
  refine ⟨?_, ?_, Nat.sub_le _ _⟩
  · rw [depth_run, context_run]
    exact h.depth_le
  · rw [position, context_run]
    exact List.suffix_iff_eq_drop.mp hsuffix

theorem Reachable.sound (h : m.Reachable) : m.Sound := by
  induction h with
  | start tokens inputLen interner maxDepth => exact sound_start tokens inputLen interner maxDepth
  | run rule _ ih => exact ih.run rule
  | enter _ hdepth ih => exact ⟨hdepth, ih.rest_eq, ih.position_le⟩
  | leave _ ih => exact ⟨Nat.le_trans (Nat.sub_le _ _) ih.depth_le, ih.rest_eq, ih.position_le⟩

theorem Sound.enforce_lt (h : m.Sound) {value : Value}
    (hrun : (m.run (.enforce rule)).1 = .ok value) :
    m.position < (m.run (.enforce rule)).2.position := by
  have hlength : m.state.rest.length ≤ m.context.tokens.length := by
    rw [h.rest_eq, List.length_drop]
    exact Nat.sub_le _ _
  have hless := enforce_rest_lt (run_eq_ok hrun)
  rw [position, position, State.position, State.position, context_run]
  omega

theorem goesBack (hback : rule.GoesBack) {e : ParseError} (hrun : (m.run rule).1 = .error e) :
    (m.run rule).2.position = m.position ∧ (m.run rule).2.state.hint = m.state.hint := by
  have hrestored := hback.restores (run_eq_error hrun)
  rw [position, position, State.position, State.position, context_run, hrestored]
  exact ⟨rfl, rfl⟩

/-- A machine that can come about stays sound under every rule, whether the rule succeeds or fails.
    The tokens, the length of the input, the limit and the open levels are as before; the cursor has
    not moved backwards; every spelling that had a unique has it still, and every other one that has
    one now got it from the supply. A nested rule is its part run one level deeper. A failed attempt,
    or a failed choice between alternatives, leaves the cursor and the hint as they were; an enforced
    rule that succeeds has moved the cursor. -/
theorem Reachable.run_sound (h : m.Reachable) (rule : Rule) :
    let out := m.run rule
    m.Advances out.2 ∧ out.2.Sound ∧
      (∀ part, rule = .nested part →
        out = if m.depth < m.context.maxDepth then
            ((m.enter.run part).1, (m.enter.run part).2.leave)
          else (.error ⟨m.state.here m.context, .tooDeep m.context.maxDepth⟩, m)) ∧
      (∀ e, rule.GoesBack → out.1 = .error e →
        out.2.position = m.position ∧ out.2.state.hint = m.state.hint) ∧
      ∀ part value, rule = .enforce part → out.1 = .ok value → m.position < out.2.position := by
  have hsound := h.sound
  refine ⟨m.run_advances rule, hsound.run rule, ?_, fun e hback => goesBack hback, ?_⟩
  · rintro part rfl
    split
    · next hdepth => exact run_nested hdepth part
    · next hdepth =>
      exact run_nested_limit (Nat.le_of_not_lt hdepth) part
  · rintro part value rfl hrun
    exact hsound.enforce_lt hrun

/-- An attempt at a name in parentheses fails on `(x`. The machine is back at the first token, with
    `x` among its names. -/
theorem attempt_run_sound :
    let m := start (lexSkippingComments "(x").tokens 2 (.ofSupply .empty) 1
    let out := m.run (.attempt (.between .lparen .rparen .name))
    m.Reachable ∧ out.1.isOk = false ∧ out.2.position = m.position ∧
      out.2.state.hint = m.state.hint ∧ out.2.depth = 0 ∧
      out.2.state.interner.lookup? "x" = some 0 := by
  intro m out
  have hreachable : m.Reachable := .start _ _ _ _
  have hfails : out.1.isOk = false := by decide +kernel
  rcases hreachable.run_sound (.attempt (.between .lparen .rparen .name)) with
    ⟨hadvances, -, -, hback, -⟩
  cases herror : out.1 with
  | ok value =>
    rw [herror] at hfails
    cases hfails
  | error e =>
    have hrestored := hback e (.attempt _) herror
    exact ⟨hreachable, rfl, hrestored.1, hrestored.2, hadvances.depth_eq, by decide +kernel⟩

end Machine

end FOmega
