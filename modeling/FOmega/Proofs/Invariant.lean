import FOmega.Parse

/-!
# Relations that every run keeps

A run of a rule is made of few primitive steps: it reads a token, changes the hint, interns a
spelling, or goes back to where it started with the names seen so far. A relation between the states
before and after that holds of each such step, and of steps in a row, holds of every run of every
rule, whether it succeeds or fails. The main instance is that what a run leaves is the end of what
it was given.
-/

namespace FOmega

namespace Parser

variable {α β : Type}

/-- A relation of states that holds of the primitive steps of a run and of steps in a row. -/
structure StepRelation (R : State → State → Prop) : Prop where
  refl : ∀ s, R s s
  trans : ∀ {s₁ s₂ s₃}, R s₁ s₂ → R s₂ s₃ → R s₁ s₃
  advance : ∀ s : State, R s s.advance
  hint : ∀ s h, R s { s with hint := h }
  intern : ∀ s text, R s { s with interner := (s.interner.intern text).2 }
  rewind : ∀ {s s'}, R s s' → R s { s with interner := s'.interner }

/-- Every run of the rule goes from a state to one that is related to it. -/
def Keeps (R : State → State → Prop) (p : Parser α) : Prop :=
  ∀ c s, R s (p c s).state

namespace Keeps

variable {R : State → State → Prop}

theorem of_ok {p : Parser α} (hp : Keeps R p) {c : Context} {s s' : State} {a : α}
    (hrun : p c s = .ok a s') : R s s' := by
  have hs := hp c s
  rw [hrun] at hs
  exact hs

theorem of_error {p : Parser α} (hp : Keeps R p) {c : Context} {s s' : State} {e : ParseError}
    (hrun : p c s = .error e s') : R s s' := by
  have hs := hp c s
  rw [hrun] at hs
  exact hs

theorem pure (hR : StepRelation R) (a : α) : Keeps R (Pure.pure a : Parser α) :=
  fun _ s => hR.refl s

theorem bind (hR : StepRelation R) {p : Parser α} {f : α → Parser β} (hp : Keeps R p)
    (hf : ∀ a, Keeps R (f a)) : Keeps R (p >>= f) := by
  intro c s
  cases h : p c s with
  | ok a s' =>
    have hrun : (p >>= f) c s = f a c s' := by simp only [Bind.bind, h]
    rw [hrun]
    exact hR.trans (hp.of_ok h) (hf a c s')
  | error e s' =>
    have hrun : (p >>= f) c s = .error e s' := by simp only [Bind.bind, h]
    rw [hrun]
    exact hp.of_error h

theorem intern (hR : StepRelation R) (text : String) : Keeps R (Parser.intern text) :=
  fun _ s => hR.intern s text

theorem isAt (hR : StepRelation R) (kind : TokenKind) : Keeps R (Parser.isAt kind) :=
  fun _ s => hR.refl s

theorem tooDeep (hR : StepRelation R) : Keeps R (Parser.tooDeep : Parser α) :=
  fun _ s => hR.refl s

theorem fail (hR : StepRelation R) (e : ParseError) : Keeps R (Parser.fail e : Parser α) :=
  fun _ s => hR.refl s

theorem unexpected (hR : StepRelation R) (expected : List String) :
    Keeps R (Parser.unexpected expected : Parser α) :=
  fun _ s => hR.hint s none

theorem accept (hR : StepRelation R) (f : Token → Option α) (expected : List String) :
    Keeps R (Parser.accept f expected) := by
  intro c s
  unfold Parser.accept
  split
  · exact hR.advance s
  · exact unexpected hR expected c s

theorem natural (hR : StepRelation R) (bound : Nat) : Keeps R (Grammar.natural bound) := by
  intro c s
  unfold Grammar.natural
  split
  · split
    · exact hR.advance s
    · exact hR.refl s
  · exact unexpected hR _ c s

theorem attempt (hR : StepRelation R) {p : Parser α} (hp : Keeps R p) :
    Keeps R (Parser.attempt p) := by
  intro c s
  unfold Parser.attempt
  cases h : p c s with
  | ok a s' => exact hp.of_ok h
  | error e s' => exact hR.rewind (hp.of_error h)

theorem choiceAfter (hR : StepRelation R) {ps : List (Parser α)} (hps : ∀ p ∈ ps, Keeps R p)
    (best : ParseError) : Keeps R (Parser.choiceAfter best ps) := by
  induction ps generalizing best with
  | nil => exact fail hR best
  | cons p ps ih =>
    intro c s
    have hfirst := attempt hR (hps p List.mem_cons_self)
    unfold Parser.choiceAfter
    cases h : Parser.attempt p c s with
    | ok a s' => exact hfirst.of_ok h
    | error e s' =>
      exact hR.trans (hfirst.of_error h) (ih (fun q hq => hps q (List.mem_cons_of_mem p hq)) _ c s')

theorem choice (hR : StepRelation R) {ps : List (Parser α)} (hps : ∀ p ∈ ps, Keeps R p) :
    Keeps R (Parser.choice ps) := by
  cases ps with
  | nil => exact unexpected hR []
  | cons p ps =>
    intro c s
    have hfirst := attempt hR (hps p List.mem_cons_self)
    simp only [Parser.choice]
    cases h : Parser.attempt p c s with
    | ok a s' => exact hfirst.of_ok h
    | error e s' =>
      exact hR.trans (hfirst.of_error h)
        (choiceAfter hR (fun q hq => hps q (List.mem_cons_of_mem p hq)) e c s')

theorem enforce {p : Parser α} (hp : Keeps R p) : Keeps R (Parser.enforce p) := by
  intro c s
  unfold Parser.enforce
  cases h : p c s with
  | ok a s' =>
    simp only
    split <;> exact hp.of_ok h
  | error e s' => exact hp.of_error h

theorem many (hR : StepRelation R) {p : Parser α} (hp : Keeps R p) : Keeps R (Parser.many p) := by
  intro c s
  have hitem := enforce hp
  rw [Parser.many]
  split
  · next a s' he =>
    have hlt := enforce_rest_lt he
    have hrest := many hR hp c s'
    cases hm : Parser.many p c s' with
    | ok as s'' =>
      rw [hm] at hrest
      exact hR.trans (hitem.of_ok he) hrest
    | error e s'' =>
      rw [hm] at hrest
      exact hR.trans (hitem.of_ok he) hrest
  · next e s' he =>
    split
    · exact hR.trans (hitem.of_error he) (hR.hint s' _)
    · exact hitem.of_error he
termination_by _ s => s.rest.length

theorem atLeastOne (hR : StepRelation R) {p : Parser α} (hp : Keeps R p) :
    Keeps R (Parser.atLeastOne p) :=
  bind hR (enforce hp) fun _ => bind hR (many hR hp) fun _ => pure hR _

theorem between (hR : StepRelation R) (opening closing : TokenKind) {p : Parser α}
    (hp : Keeps R p) : Keeps R (Parser.between opening closing p) :=
  bind hR (accept hR _ _) fun _ => bind hR hp fun _ => bind hR (accept hR _ _) fun _ => pure hR _

/-! ## The rules of the grammar -/

theorem spannedName (hR : StepRelation R) : Keeps R Grammar.spannedName :=
  bind hR (accept hR _ _) fun _ => bind hR (intern hR _) fun _ => pure hR _

theorem spannedTypeName (hR : StepRelation R) : Keeps R Grammar.spannedTypeName :=
  bind hR (accept hR _ _) fun _ => bind hR (intern hR _) fun _ => pure hR _

theorem name (hR : StepRelation R) : Keeps R Grammar.name :=
  bind hR (spannedName hR) fun _ => pure hR _

theorem typeName (hR : StepRelation R) : Keeps R Grammar.typeName :=
  bind hR (spannedTypeName hR) fun _ => pure hR _

theorem constant (hR : StepRelation R) (room : Nat) : Keeps R (Grammar.constant room) := by
  induction room with
  | zero => exact tooDeep hR
  | succ room ih =>
    refine bind hR (isAt hR .lparen) fun here => ?_
    cases here with
    | true => exact bind hR (between hR _ _ ih) fun _ => pure hR _
    | false => exact accept hR _ _

theorem kind (hR : StepRelation R) (room : Nat) : Keeps R (Grammar.kind room) := by
  induction room with
  | zero => exact tooDeep hR
  | succ room ih =>
    refine bind hR (between hR _ _ ?_) fun _ => pure hR _
    rw [Grammar.kindBody, Parser.choice_eq]
    refine choice hR ?_
    simp only [List.forall_mem_cons, List.not_mem_nil, false_implies, implies_true, and_true]
    exact ⟨bind hR (accept hR _ _) fun _ => pure hR _,
      bind hR (accept hR _ _) fun _ => bind hR ih fun _ => bind hR ih fun _ => pure hR _⟩

theorem typeBody (hR : StepRelation R) {kind : Parser Kind} {type : Parser Ty}
    (hkind : Keeps R kind) (htype : Keeps R type) : Keeps R (Grammar.typeBody kind type) := by
  rw [Grammar.typeBody, Parser.choice_eq]
  refine choice hR ?_
  simp only [List.forall_mem_cons, List.not_mem_nil, false_implies, implies_true, and_true]
  refine ⟨?_, ?_, ?_, ?_, ?_, ?_⟩ <;> refine bind hR (accept hR _ _) fun _ => ?_
  · exact bind hR (typeName hR) fun _ => bind hR hkind fun _ => bind hR htype fun _ => pure hR _
  · exact bind hR (typeName hR) fun _ => bind hR hkind fun _ => bind hR htype fun _ => pure hR _
  · exact bind hR htype fun _ => bind hR htype fun _ => pure hR _
  · exact bind hR htype fun _ => bind hR htype fun _ => pure hR _
  · exact bind hR (accept hR _ _) fun _ => pure hR _
  · exact bind hR (many hR htype) fun _ => pure hR _

theorem application (hR : StepRelation R) {head : Parser α} {arg : Parser β} (hhead : Keeps R head)
    (harg : Keeps R arg) : Keeps R (Grammar.application head arg) :=
  bind hR hhead fun _ => bind hR (atLeastOne hR harg) fun _ => pure hR _

theorem type (hR : StepRelation R) (room : Nat) : Keeps R (Grammar.type room) := by
  induction room with
  | zero => exact tooDeep hR
  | succ room ih =>
    refine bind hR (isAt hR .lparen) fun atParen => ?_
    cases atParen with
    | true => exact bind hR (between hR _ _ (typeBody hR (kind hR room) ih)) fun _ => pure hR _
    | false =>
      refine bind hR (isAt hR .lbracket) fun atBracket => ?_
      cases atBracket with
      | true => exact bind hR (between hR _ _ (application hR ih ih)) fun _ => pure hR _
      | false =>
        refine bind hR (isAt hR .ident) fun atIdent => ?_
        cases atIdent with
        | true => exact bind hR (spannedTypeName hR) fun _ => pure hR _
        | false => exact unexpected hR _

theorem termBody (hR : StepRelation R) {constant : Parser Constant} {kind : Parser Kind}
    {type : Parser Ty} {term : Parser Term} (hconstant : Keeps R constant) (hkind : Keeps R kind)
    (htype : Keeps R type) (hterm : Keeps R term) :
    Keeps R (Grammar.termBody constant kind type term) := by
  rw [Grammar.termBody, Parser.choice_eq]
  refine choice hR ?_
  simp only [List.forall_mem_cons, List.not_mem_nil, false_implies, implies_true, and_true]
  refine ⟨?_, ?_, ?_, ?_, ?_, ?_, ?_, ?_, ?_⟩ <;> refine bind hR (accept hR _ _) fun _ => ?_
  · exact bind hR (name hR) fun _ => bind hR htype fun _ => bind hR hterm fun _ => pure hR _
  · exact bind hR (typeName hR) fun _ => bind hR hkind fun _ => bind hR hterm fun _ => pure hR _
  · exact bind hR htype fun _ => bind hR htype fun _ => bind hR hterm fun _ => pure hR _
  · exact bind hR hterm fun _ => pure hR _
  · exact bind hR htype fun _ => pure hR _
  · exact bind hR hconstant fun _ => pure hR _
  · exact bind hR (accept hR _ _) fun _ => pure hR _
  · exact bind hR (many hR hterm) fun _ => pure hR _
  · exact bind hR (natural hR _) fun _ => bind hR hterm fun _ => pure hR _

theorem term (hR : StepRelation R) (room : Nat) : Keeps R (Grammar.term room) := by
  induction room with
  | zero => exact tooDeep hR
  | succ room ih =>
    have htype := type hR room
    refine bind hR (isAt hR .lparen) fun atParen => ?_
    cases atParen with
    | true =>
      exact bind hR (between hR _ _ (termBody hR (constant hR room) (kind hR room) htype ih))
        fun _ => pure hR _
    | false =>
      refine bind hR (isAt hR .lbracket) fun atBracket => ?_
      cases atBracket with
      | true => exact bind hR (between hR _ _ (application hR ih ih)) fun _ => pure hR _
      | false =>
        refine bind hR (isAt hR .lbrace) fun atBrace => ?_
        cases atBrace with
        | true => exact bind hR (between hR _ _ (application hR ih htype)) fun _ => pure hR _
        | false =>
          refine bind hR (isAt hR .ident) fun atIdent => ?_
          cases atIdent with
          | true => exact bind hR (spannedName hR) fun _ => pure hR _
          | false => exact unexpected hR _

theorem version (hR : StepRelation R) : Keeps R Grammar.version :=
  bind hR (natural hR _) fun _ => bind hR (accept hR _ _) fun _ => bind hR (natural hR _) fun _ =>
    bind hR (accept hR _ _) fun _ => bind hR (natural hR _) fun _ => pure hR _

theorem program (hR : StepRelation R) (room : Nat) : Keeps R (Grammar.program room) := by
  have hinside : Keeps R (do
      let _ ← Parser.keyword "program"
      return (← Grammar.version, ← Grammar.term room) : Parser (Version × Term)) :=
    bind hR (accept hR _ _) fun _ => bind hR (version hR) fun _ => bind hR (term hR room) fun _ =>
      pure hR _
  exact bind hR (between hR _ _ hinside) fun _ => pure hR _

theorem endOfInput (hR : StepRelation R) : Keeps R Parser.endOfInput := by
  intro c s
  unfold Parser.endOfInput
  split
  · exact hR.refl s
  · exact unexpected hR _ c s

theorem whole (hR : StepRelation R) {p : Parser α} (hp : Keeps R p) : Keeps R p.whole :=
  bind hR hp fun _ => bind hR (endOfInput hR) fun _ => pure hR _

/-! ## Rule expressions -/

mutual

theorem rule (hR : StepRelation R) (room : Nat) : ∀ r : Rule, Keeps R (r.run room)
  | .term => bind hR (term hR room) fun _ => pure hR _
  | .type => bind hR (type hR room) fun _ => pure hR _
  | .kind => bind hR (kind hR room) fun _ => pure hR _
  | .program => bind hR (program hR room) fun _ => pure hR _
  | .version => bind hR (version hR) fun _ => pure hR _
  | .constant => bind hR (constant hR room) fun _ => pure hR _
  | .builtinFunction => bind hR (accept hR _ _) fun _ => pure hR _
  | .builtinType => bind hR (accept hR _ _) fun _ => pure hR _
  | .name => bind hR (name hR) fun _ => pure hR _
  | .typeName => bind hR (typeName hR) fun _ => pure hR _
  | .spannedName => bind hR (spannedName hR) fun _ => pure hR _
  | .spannedTypeName => bind hR (spannedTypeName hR) fun _ => pure hR _
  | .natural _ => bind hR (natural hR _) fun _ => pure hR _
  | .endOfInput => bind hR (endOfInput hR) fun _ => pure hR _
  | .empty => pure hR _
  | .position => bind hR (fun _ s => hR.refl s) fun _ => pure hR _
  | .atEnd => bind hR (fun _ s => hR.refl s) fun _ => pure hR _
  | .here => bind hR (fun _ s => hR.refl s) fun _ => pure hR _
  | .peek => bind hR (fun _ s => hR.refl s) fun _ => pure hR _
  | .isAt _ => bind hR (isAt hR _) fun _ => pure hR _
  | .expect _ => bind hR (accept hR _ _) fun _ => pure hR _
  | .keyword _ => bind hR (accept hR _ _) fun _ => pure hR _
  | .identifier _ => bind hR (accept hR _ _) fun _ => pure hR _
  | .unexpected _ => unexpected hR _
  | .preceded _ r => bind hR (accept hR _ _) fun _ => rule hR room r
  | .followed r _ => bind hR (rule hR room r) fun _ => bind hR (accept hR _ _) fun _ => pure hR _
  | .seq rs => bind hR (ruleAll hR room rs) fun _ => pure hR _
  | .choice rs => choice hR (ruleEach hR room rs)
  | .attempt r => attempt hR (rule hR room r)
  | .enforce r => enforce (rule hR room r)
  | .nested r =>
    match room with
    | 0 => tooDeep hR
    | room + 1 => rule hR room r
  | .many r => bind hR (many hR (rule hR room r)) fun _ => pure hR _
  | .atLeastOne r => bind hR (atLeastOne hR (rule hR room r)) fun _ => pure hR _
  | .between _ _ r => bind hR (between hR _ _ (rule hR room r)) fun _ => pure hR _

theorem ruleAll (hR : StepRelation R) (room : Nat) : ∀ rs : List Rule, Keeps R (Rule.runAll room rs)
  | [] => pure hR _
  | r :: rs => bind hR (rule hR room r) fun _ => bind hR (ruleAll hR room rs) fun _ => pure hR _

theorem ruleEach (hR : StepRelation R) (room : Nat) :
    ∀ rs : List Rule, ∀ p ∈ Rule.runEach room rs, Keeps R p
  | [] => List.forall_mem_nil _
  | r :: rs => List.forall_mem_cons.mpr ⟨rule hR room r, ruleEach hR room rs⟩

end

end Keeps

/-! ## What is left -/

/-- What a run leaves is the end of what it was given. -/
def Leaves (s s' : State) : Prop :=
  s'.rest <:+ s.rest

theorem leaves_stepRelation : StepRelation Leaves where
  refl s := List.suffix_rfl
  trans h h' := h'.trans h
  advance s := by
    obtain ⟨_ | ⟨t, rest⟩, hint, i⟩ := s
    · exact List.suffix_rfl
    · exact List.suffix_cons t rest
  hint s h := List.suffix_rfl
  intern s text := List.suffix_rfl
  rewind _ := List.suffix_rfl

end Parser

end FOmega
