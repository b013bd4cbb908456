import FOmega.Proofs.Expectation
import FOmega.Proofs.Sentence

/-!
# The errors that a run can raise

Whatever rule is run, the error that it fails with takes its words from three places: the tokens of
the source, the texts of the grammar, and the texts of the rule expression itself. It refuses a
token or the end of the input and lists texts as expected, names an integer of the source as out of
range, or is the limit on nesting or a repetition without progress. A hint is an error that was
raised before, and merging makes nothing new of two such errors, so a run that starts with such a
hint leaves such a hint.
-/

namespace FOmega

/-- The names of all kinds and classes of tokens and of the end of the input, which are what the
    rules of the grammar list as expected. -/
def grammarTexts : List String :=
  ["comment", "identifier", "end of input"] ++ wordClasses ++ markClasses

theorem Expected.union_subset {a b texts : List String} (ha : a ⊆ texts) (hb : b ⊆ texts) :
    union a b ⊆ texts := by
  intro x hx
  rcases mem_union.mp hx with hx | hx
  · exact ha hx
  · exact hb hx

namespace Rule

mutual

/-- The texts that a rule expression lists as expected besides those of the grammar. -/
def texts : Rule → List String
  | .keyword word => ["`" ++ word ++ "`"]
  | .identifier what => [what]
  | .unexpected expected => expected
  | .preceded _ rule => texts rule
  | .followed rule _ => texts rule
  | .seq rules => allTexts rules
  | .choice rules => allTexts rules
  | .attempt rule => texts rule
  | .enforce rule => texts rule
  | .nested rule => texts rule
  | .many rule => texts rule
  | .atLeastOne rule => texts rule
  | .between _ _ rule => texts rule
  | _ => []

/-- The texts that rules in a row list as expected besides those of the grammar. -/
def allTexts : List Rule → List String
  | [] => []
  | rule :: rules => texts rule ++ allTexts rules

end

end Rule

namespace Parser

/-- The errors that rules with the given texts can raise. -/
inductive Raised (c : Context) (texts : List String) : ParseError → Prop where
  | refused {t : Token} {expected : List String} (mem : t ∈ c.tokens)
    (listed : expected ⊆ grammarTexts ++ texts) :
    Raised c texts ⟨t.span, .unexpected t.describe expected⟩
  | ended {span : Span} {expected : List String} (listed : expected ⊆ grammarTexts ++ texts) :
    Raised c texts ⟨span, .unexpectedEnd expected⟩
  | zeroWidth {span : Span} : Raised c texts ⟨span, .zeroWidth⟩
  | tooDeep {span : Span} : Raised c texts ⟨span, .tooDeep c.maxDepth⟩
  | outOfRange {t : Token} {n : Int} (mem : t ∈ c.tokens) (kind : t.kind = .int n) :
    Raised c texts ⟨t.span, .outOfRange t.text⟩

/-- The state stands among the tokens, and its hint is an error that was raised. -/
structure Within (c : Context) (texts : List String) (s : State) : Prop where
  rest : s.rest <:+ c.tokens
  hint : ∀ e ∈ s.hint, Raised c texts e

/-- The run ends in such a state, and if it fails, with such an error. -/
inductive Ends {α : Type} (c : Context) (texts : List String) : Reply α → Prop where
  | ok {a : α} {s : State} (within : Within c texts s) : Ends c texts (.ok a s)
  | error {e : ParseError} {s : State} (raised : Raised c texts e) (within : Within c texts s) :
    Ends c texts (.error e s)

/-- Every run of the rule raises only errors with the given texts. -/
def Raises {α : Type} (texts : List String) (p : Parser α) : Prop :=
  ∀ c s, Within c texts s → Ends c texts (p c s)

variable {α β : Type} {c : Context} {texts expected : List String} {s s' : State}
  {e e' : ParseError} {p : Parser α}

/-! ## Errors and states -/

theorem Raised.merge (he : Raised c texts e) (he' : Raised c texts e') :
    Raised c texts (e.merge e') := by
  unfold ParseError.merge
  split
  · exact he
  · split
    · exact he'
    -- Of two errors at one place, only the lists of what is expected are put together.
    · cases he with
      | refused hmem hlisted =>
        cases he' with
        | refused _ hlisted' => exact .refused hmem (Expected.union_subset hlisted hlisted')
        | tooDeep => exact .tooDeep
        | ended | zeroWidth | outOfRange => exact .refused hmem hlisted
      | ended hlisted =>
        cases he' with
        | ended hlisted' => exact .ended (Expected.union_subset hlisted hlisted')
        | tooDeep => exact .tooDeep
        | refused | zeroWidth | outOfRange => exact .ended hlisted
      | zeroWidth => cases he' <;> first | exact .tooDeep | exact .zeroWidth
      | tooDeep => cases he' <;> exact .tooDeep
      | outOfRange hmem hkind => cases he' <;> first | exact .tooDeep | exact .outOfRange hmem hkind

namespace Within

theorem withHint (h : Within c texts s) {hint : Option ParseError}
    (hhint : ∀ e ∈ hint, Raised c texts e) : Within c texts { s with hint := hint } :=
  ⟨h.rest, hhint⟩

theorem withInterner (h : Within c texts s) (i : Interner) :
    Within c texts { s with interner := i } :=
  ⟨h.rest, h.hint⟩

theorem advance (h : Within c texts s) : Within c texts s.advance := by
  rcases s with ⟨_ | ⟨t, rest⟩, hint, i⟩
  · exact h
  · exact ⟨(List.suffix_cons t rest).trans h.rest, by simp [State.advance]⟩

theorem mem (h : Within c texts s) {t : Token} {rest : List Token} (hrest : s.rest = t :: rest) :
    t ∈ c.tokens := by
  have hsuffix := h.rest
  rw [hrest] at hsuffix
  exact hsuffix.mem List.mem_cons_self

theorem unexpected (h : Within c texts s) (hlisted : expected ⊆ grammarTexts ++ texts) :
    Raised c texts (s.unexpected c expected) := by
  unfold State.unexpected
  split
  · next hrest => exact .refused (h.mem hrest) hlisted
  · exact .ended hlisted

end Within

namespace Raises

/-! ## Sequence and single tokens -/

theorem pure (a : α) : Raises texts (Pure.pure a : Parser α) :=
  fun _ _ hs => .ok hs

theorem bind {f : α → Parser β} (hp : Raises texts p) (hf : ∀ a, Raises texts (f a)) :
    Raises texts (p >>= f) := by
  intro c s hs
  have hends := hp c s hs
  rw [bind_run]
  generalize p c s = r at hends
  cases hends with
  | ok hwithin => exact hf _ c _ hwithin
  | error hraised hwithin => exact .error hraised hwithin

theorem intern (text : String) : Raises texts (Parser.intern text) :=
  fun _ _ hs => .ok (hs.withInterner _)

theorem isAt (kind : TokenKind) : Raises texts (Parser.isAt kind) :=
  fun _ _ hs => .ok hs

theorem tooDeep : Raises texts (Parser.tooDeep : Parser α) :=
  fun _ _ hs => .error .tooDeep hs

theorem unexpected (hlisted : expected ⊆ grammarTexts ++ texts) :
    Raises texts (Parser.unexpected expected : Parser α) := by
  intro c s hs
  have herror := hs.unexpected hlisted
  refine .error ?_ (hs.withHint (by simp))
  cases hhint : s.hint with
  | none => exact herror
  | some e => exact herror.merge (hs.hint e hhint)

theorem accept (f : Token → Option α) (hlisted : expected ⊆ grammarTexts ++ texts) :
    Raises texts (Parser.accept f expected) := by
  intro c s hs
  unfold Parser.accept
  split
  · exact .ok hs.advance
  · exact unexpected hlisted c s hs

/-- A refusal that lists only texts of the grammar. -/
theorem refusal (hlisted : expected ⊆ grammarTexts) :
    Raises texts (Parser.unexpected expected : Parser α) :=
  unexpected (List.subset_append_of_subset_left texts hlisted)

/-- A rule for one token that lists only texts of the grammar. -/
theorem terminal (f : Token → Option α) (hlisted : expected ⊆ grammarTexts) :
    Raises texts (Parser.accept f expected) :=
  accept f (List.subset_append_of_subset_left texts hlisted)

theorem expect (kind : TokenKind) : Raises texts (Parser.expect kind) := by
  refine terminal _ (List.cons_subset.mpr ⟨?_, List.nil_subset _⟩)
  cases kind <;> simp [TokenKind.describe, grammarTexts, markClasses, delimiters]

theorem natural (bound : Nat) : Raises texts (Grammar.natural bound) := by
  intro c s hs
  unfold Grammar.natural
  split
  · next n span text rest hrest =>
    split
    · exact .ok hs.advance
    · exact .error (.outOfRange (t := ⟨.int n, span, text⟩) (hs.mem hrest) rfl) hs
  · exact refusal (by decide) c s hs

theorem endOfInput : Raises texts Parser.endOfInput := by
  intro c s hs
  unfold Parser.endOfInput
  split
  · exact .ok hs
  · exact refusal (by decide) c s hs

/-! ## Alternatives and repetition -/

theorem attempt (hp : Raises texts p) : Raises texts (Parser.attempt p) := by
  intro c s hs
  have hends := hp c s hs
  unfold Parser.attempt
  generalize p c s = r at hends
  cases hends with
  | ok hwithin => exact .ok hwithin
  | error hraised _ => exact .error hraised (hs.withInterner _)

/-- A rule that is attempted, and what is done after it failed. -/
theorem orElse {q : ParseError → Parser α} (hp : Raises texts p) (hs : Within c texts s)
    (hq : ∀ e s', Raised c texts e → Within c texts s' → Ends c texts (q e c s')) :
    Ends c texts (match Parser.attempt p c s with
      | .ok a s' => .ok a s'
      | .error e s' => q e c s') := by
  have hends := attempt hp c s hs
  generalize Parser.attempt p c s = r at hends
  cases hends with
  | ok hwithin => exact .ok hwithin
  | error hraised hwithin => exact hq _ _ hraised hwithin

theorem choiceAfter {ps : List (Parser α)} (hps : ∀ p ∈ ps, Raises texts p)
    (he : Raised c texts e) (hs : Within c texts s) :
    Ends c texts (Parser.choiceAfter e ps c s) := by
  induction ps generalizing e s with
  | nil => exact .error he hs
  | cons p ps ih =>
    obtain ⟨hp, hps⟩ := List.forall_mem_cons.mp hps
    refine orElse hp hs ?_
    intro e' s' he' hs'
    exact ih hps (he.merge he') hs'

theorem choice {ps : List (Parser α)} (hps : ∀ p ∈ ps, Raises texts p) :
    Raises texts (Parser.choice ps) := by
  intro c s hs
  cases ps with
  | nil => exact unexpected (List.nil_subset _) c s hs
  | cons p ps =>
    obtain ⟨hp, hps⟩ := List.forall_mem_cons.mp hps
    exact orElse hp hs fun _ _ he hs' => choiceAfter hps he hs'

theorem enforce (hp : Raises texts p) : Raises texts (Parser.enforce p) := by
  intro c s hs
  have hends := hp c s hs
  unfold Parser.enforce
  generalize p c s = r at hends
  cases hends with
  | ok hwithin =>
    simp only
    split
    · exact .ok hwithin
    · exact .error .zeroWidth hwithin
  | error hraised hwithin => exact .error hraised hwithin

theorem many (hp : Raises texts p) : Raises texts (Parser.many p) := by
  intro c s hs
  have hends := enforce hp c s hs
  cases hrun : Parser.enforce p c s with
  | ok a s₁ =>
    have hfewer := enforce_rest_lt hrun
    rw [hrun] at hends
    cases hends with
    | ok hwithin =>
      have hmore := many hp c s₁ hwithin
      rw [many_of_ok hrun]
      generalize Parser.many p c s₁ = r at hmore
      cases hmore with
      | ok hwithin' => exact .ok hwithin'
      | error hraised hwithin' => exact .error hraised hwithin'
  | error e s₁ =>
    rw [hrun] at hends
    cases hends with
    | error hraised hwithin =>
      rw [many_of_error hrun]
      split
      · refine .ok (hwithin.withHint ?_)
        rintro e' ⟨⟩
        cases hhint : s₁.hint with
        | none => exact hraised
        | some e' => exact (hwithin.hint e' hhint).merge hraised
      · exact .error hraised hwithin
termination_by _ s => s.rest.length

theorem atLeastOne (hp : Raises texts p) : Raises texts (Parser.atLeastOne p) :=
  bind (enforce hp) fun _ => bind (many hp) fun _ => pure _

theorem between (opening closing : TokenKind) (hp : Raises texts p) :
    Raises texts (Parser.between opening closing p) :=
  bind (expect opening) fun _ => bind hp fun _ => bind (expect closing) fun _ => pure _

theorem whole (hp : Raises texts p) : Raises texts p.whole :=
  bind hp fun _ => bind endOfInput fun _ => pure _

/-- A choice by the kind of the next token. -/
theorem branch (kind : TokenKind) {q : Parser α} (hp : Raises texts p) (hq : Raises texts q) :
    Raises texts (Parser.isAt kind >>= fun here => if here = true then p else q) := by
  refine bind (isAt kind) fun here => ?_
  cases here with
  | true => exact hp
  | false => exact hq

/-! ## The rules of the grammar -/

theorem spannedName : Raises texts Grammar.spannedName :=
  bind (terminal _ (by decide)) fun _ => bind (intern _) fun _ => pure _

theorem spannedTypeName : Raises texts Grammar.spannedTypeName :=
  bind (terminal _ (by decide)) fun _ => bind (intern _) fun _ => pure _

theorem name : Raises texts Grammar.name :=
  bind spannedName fun _ => pure _

theorem typeName : Raises texts Grammar.typeName :=
  bind spannedTypeName fun _ => pure _

theorem version : Raises texts Grammar.version :=
  bind (natural _) fun _ => bind (expect .dot) fun _ => bind (natural _) fun _ =>
    bind (expect .dot) fun _ => bind (natural _) fun _ => pure _

theorem constant (room : Nat) : Raises texts (Grammar.constant room) := by
  induction room with
  | zero => exact tooDeep
  | succ room ih =>
    exact branch .lparen (bind (between _ _ ih) fun _ => pure _) (terminal _ (by decide))

theorem kind (room : Nat) : Raises texts (Grammar.kind room) := by
  induction room with
  | zero => exact tooDeep
  | succ room ih =>
    refine bind (between _ _ ?_) fun _ => pure _
    rw [Grammar.kindBody, Parser.choice_eq]
    refine choice ?_
    simp only [List.forall_mem_cons, List.not_mem_nil, false_implies, implies_true, and_true]
    exact ⟨bind (terminal _ (by decide)) fun _ => pure _,
      bind (terminal _ (by decide)) fun _ => bind ih fun _ => bind ih fun _ => pure _⟩

theorem application {head : Parser α} {arg : Parser β} (hhead : Raises texts head)
    (harg : Raises texts arg) : Raises texts (Grammar.application head arg) :=
  bind hhead fun _ => bind (atLeastOne harg) fun _ => pure _

theorem typeBody {kind : Parser Kind} {type : Parser Ty} (hkind : Raises texts kind)
    (htype : Raises texts type) : Raises texts (Grammar.typeBody kind type) := by
  rw [Grammar.typeBody, Parser.choice_eq]
  refine choice ?_
  simp only [List.forall_mem_cons, List.not_mem_nil, false_implies, implies_true, and_true]
  refine ⟨?_, ?_, ?_, ?_, ?_, ?_⟩ <;> refine bind (terminal _ (by decide)) fun _ => ?_
  · exact bind typeName fun _ => bind hkind fun _ => bind htype fun _ => pure _
  · exact bind typeName fun _ => bind hkind fun _ => bind htype fun _ => pure _
  · exact bind htype fun _ => bind htype fun _ => pure _
  · exact bind htype fun _ => bind htype fun _ => pure _
  · exact bind (terminal _ (by decide)) fun _ => pure _
  · exact bind (many htype) fun _ => pure _

theorem type (room : Nat) : Raises texts (Grammar.type room) := by
  induction room with
  | zero => exact tooDeep
  | succ room ih =>
    refine branch .lparen (bind (between _ _ (typeBody (kind room) ih)) fun _ => pure _) ?_
    refine branch .lbracket (bind (between _ _ (application ih ih)) fun _ => pure _) ?_
    refine branch .ident (bind spannedTypeName fun _ => pure _) ?_
    exact refusal (by decide)

theorem termBody {constant : Parser Constant} {kind : Parser Kind} {type : Parser Ty}
    {term : Parser Term} (hconstant : Raises texts constant) (hkind : Raises texts kind)
    (htype : Raises texts type) (hterm : Raises texts term) :
    Raises texts (Grammar.termBody constant kind type term) := by
  rw [Grammar.termBody, Parser.choice_eq]
  refine choice ?_
  simp only [List.forall_mem_cons, List.not_mem_nil, false_implies, implies_true, and_true]
  refine ⟨?_, ?_, ?_, ?_, ?_, ?_, ?_, ?_, ?_⟩ <;> refine bind (terminal _ (by decide)) fun _ => ?_
  · exact bind name fun _ => bind htype fun _ => bind hterm fun _ => pure _
  · exact bind typeName fun _ => bind hkind fun _ => bind hterm fun _ => pure _
  · exact bind htype fun _ => bind htype fun _ => bind hterm fun _ => pure _
  · exact bind hterm fun _ => pure _
  · exact bind htype fun _ => pure _
  · exact bind hconstant fun _ => pure _
  · exact bind (terminal _ (by decide)) fun _ => pure _
  · exact bind (many hterm) fun _ => pure _
  · exact bind (natural _) fun _ => bind hterm fun _ => pure _

theorem term (room : Nat) : Raises texts (Grammar.term room) := by
  induction room with
  | zero => exact tooDeep
  | succ room ih =>
    have hbody := termBody (constant room) (kind room) (type room) ih
    refine branch .lparen (bind (between _ _ hbody) fun _ => pure _) ?_
    refine branch .lbracket (bind (between _ _ (application ih ih)) fun _ => pure _) ?_
    refine branch .lbrace (bind (between _ _ (application ih (type room))) fun _ => pure _) ?_
    refine branch .ident (bind spannedName fun _ => pure _) ?_
    exact refusal (by decide)

theorem program (room : Nat) : Raises texts (Grammar.program room) := by
  have hinside : Raises texts (do
      let _ ← Parser.keyword "program"
      return (← Grammar.version, ← Grammar.term room) : Parser (Version × Term)) :=
    bind (terminal _ (by decide)) fun _ => bind version fun _ => bind (term room) fun _ => pure _
  exact bind (between _ _ hinside) fun _ => pure _

/-! ## Rule expressions -/

/-- A rule that looks at the state and does not change it. -/
theorem look (f : Context → State → α) : Raises texts fun c s => .ok (f c s) s :=
  fun _ _ hs => .ok hs

mutual

theorem rule (room : Nat) : ∀ r : Rule, r.texts ⊆ texts → Raises texts (r.run room)
  | .term, _ => bind (term room) fun _ => pure _
  | .type, _ => bind (type room) fun _ => pure _
  | .kind, _ => bind (kind room) fun _ => pure _
  | .program, _ => bind (program room) fun _ => pure _
  | .version, _ => bind version fun _ => pure _
  | .constant, _ => bind (constant room) fun _ => pure _
  | .builtinFunction, _ => bind (terminal _ (by decide)) fun _ => pure _
  | .builtinType, _ => bind (terminal _ (by decide)) fun _ => pure _
  | .name, _ => bind name fun _ => pure _
  | .typeName, _ => bind typeName fun _ => pure _
  | .spannedName, _ => bind spannedName fun _ => pure _
  | .spannedTypeName, _ => bind spannedTypeName fun _ => pure _
  | .natural _, _ => bind (natural _) fun _ => pure _
  | .endOfInput, _ => bind endOfInput fun _ => pure _
  | .empty, _ => pure _
  | .position, _ => bind (look _) fun _ => pure _
  | .atEnd, _ => bind (look _) fun _ => pure _
  | .here, _ => bind (look _) fun _ => pure _
  | .peek, _ => bind (look _) fun _ => pure _
  | .isAt k, _ => bind (isAt k) fun _ => pure _
  | .expect k, _ => bind (expect k) fun _ => pure _
  | .keyword _, h => bind (accept _ (List.subset_append_of_subset_right _ h)) fun _ => pure _
  | .identifier _, h => bind (accept _ (List.subset_append_of_subset_right _ h)) fun _ => pure _
  | .unexpected _, h => unexpected (List.subset_append_of_subset_right _ h)
  | .preceded k r, h => bind (expect k) fun _ => rule room r h
  | .followed r k, h => bind (rule room r h) fun _ => bind (expect k) fun _ => pure _
  | .seq rs, h => bind (ruleAll room rs h) fun _ => pure _
  | .choice rs, h => choice (ruleEach room rs h)
  | .attempt r, h => attempt (rule room r h)
  | .enforce r, h => enforce (rule room r h)
  | .nested r, h =>
    match room with
    | 0 => tooDeep
    | room + 1 => rule room r h
  | .many r, h => bind (many (rule room r h)) fun _ => pure _
  | .atLeastOne r, h => bind (atLeastOne (rule room r h)) fun _ => pure _
  | .between _ _ r, h => bind (between _ _ (rule room r h)) fun _ => pure _

theorem ruleAll (room : Nat) :
    ∀ rs : List Rule, Rule.allTexts rs ⊆ texts → Raises texts (Rule.runAll room rs)
  | [], _ => pure _
  | r :: rs, h =>
    have h' := List.append_subset.mp h
    bind (rule room r h'.1) fun _ => bind (ruleAll room rs h'.2) fun _ => pure _

theorem ruleEach (room : Nat) :
    ∀ rs : List Rule, Rule.allTexts rs ⊆ texts → ∀ p ∈ Rule.runEach room rs, Raises texts p
  | [], _ => List.forall_mem_nil _
  | r :: rs, h =>
    have h' := List.append_subset.mp h
    List.forall_mem_cons.mpr ⟨rule room r h'.1, ruleEach room rs h'.2⟩

end

end Raises

end Parser

open FOmega.Parser

/-! ## Failed parses -/

/-- A failed parse of a source without lexical errors reports one error that its rule can raise. -/
theorem raised_of_error {maxDepth : Nat} {supply : Supply} {r : Rule} {label src : String}
    {report : Report} (hlex : (lexSkippingComments src).errors = [])
    (h : (parseWith maxDepth supply (fun room => r.run room) label src).result = .error report) :
    ∃ e, report = .single label src e ∧ Raised (sourceContext maxDepth src) r.texts e := by
  have hraises := (Raises.rule maxDepth r (List.Subset.refl r.texts)).whole
  have hstart : Within (sourceContext maxDepth src) r.texts
      (.start (sourceContext maxDepth src) (.ofSupply supply)) :=
    ⟨List.suffix_rfl, by simp [State.start]⟩
  have hends := hraises _ _ hstart
  cases hreply : (r.run maxDepth).whole (sourceContext maxDepth src)
      (.start (sourceContext maxDepth src) (.ofSupply supply)) with
  | ok a s =>
    rw [parseWith_of_ok hlex hreply] at h
    cases h
  | error e s =>
    rw [parseWith_of_error hlex hreply] at h
    rw [hreply] at hends
    cases h
    cases hends with
    | error hraised _ => exact ⟨e, rfl, hraised⟩

end FOmega
