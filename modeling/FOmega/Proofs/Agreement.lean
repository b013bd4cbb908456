import FOmega.Proofs.Diagnosis

/-!
# Two runs on the same tokens

Two parsers run a rule side by side on the same tokens. They may have seen different names, and the
left one may have the lower limit on nesting. At every moment both are at the same token with the
same hint. They end alike: with answers that are equal in what is compared of their names, or with
the same error. Only a left parser with the lower limit may end otherwise, and then at that limit:
no repetition takes it for the end of its items, and no choice reports another error instead.
-/

namespace FOmega

open FOmega.Parser

/-! ## Two parsers -/

/-- Two parsers on the same tokens, the second with a limit of its own. What their interners have in
    common is left open, as long as interning a spelling in both keeps it so and gives names that
    show the same. -/
structure Companions where
  left : Context
  otherDepth : Nat
  Interners : Interner → Interner → Prop
  shown : Name → Name
  intern_shown : ∀ {i i'} text, Interners i i' →
    shown ⟨text, (i.intern text).1⟩ = shown ⟨text, (i'.intern text).1⟩
  intern_interners : ∀ {i i'} text, Interners i i' →
    Interners (i.intern text).2 (i'.intern text).2
  /-- Whether the first may stop at its limit where the second goes on. -/
  Lower : Prop

namespace Companions

variable (C : Companions) {α β : Type}

/-- What stays fixed while the second parser runs. -/
def right : Context :=
  { C.left with maxDepth := C.otherDepth }

/-- Two states at the same token with the same hint. Where the tokens stand matters only if an error
    at the lower limit has to outdo others. -/
structure States (s s' : State) : Prop where
  rest : s'.rest = s.rest
  hint : s'.hint = s.hint
  interners : C.Interners s.interner s'.interner
  ordered : C.Lower → Ordered C.left s.rest

/-- Two ends of runs: with related answers, with the same error, or the first at its limit. -/
inductive Replies (R : α → α → Prop) : Reply α → Reply α → Prop where
  | ok {a a' : α} {s s' : State} (value : R a a') (states : C.States s s') :
    Replies R (.ok a s) (.ok a' s')
  | error {e : ParseError} {s s' : State} (states : C.States s s') :
    Replies R (.error e s) (.error e s')
  | stopped {e : ParseError} {s : State} {r : Reply α} (lower : C.Lower)
    (cause : e.cause = .tooDeep C.left.maxDepth) : Replies R (.error e s) r

/-- Run from the same token on, the two rules end alike. -/
def Agrees (R : α → α → Prop) (p p' : Parser α) : Prop :=
  ∀ s s', C.States s s' → C.Replies R (p C.left s) (p' C.right s')

/-- Run right after a token, where there is no hint, the two rules end alike. -/
def AgreesAfter (R : α → α → Prop) (p p' : Parser α) : Prop :=
  ∀ s s', C.States s s' → s.hint = none → C.Replies R (p C.left s) (p' C.right s')

/-- The levels that the two rules may open: the same under one limit, or fewer on the left. -/
def Rooms (room room' : Nat) : Prop :=
  (C.Lower ∧ room ≤ room') ∨ (room = room' ∧ C.left.maxDepth = C.otherDepth)

variable {C} {R : α → α → Prop} {s s' : State} {room room' : Nat}

namespace States

theorem withHint (h : C.States s s') (hint : Option ParseError) :
    C.States { s with hint := hint } { s' with hint := hint } :=
  ⟨h.rest, rfl, h.interners, h.ordered⟩

theorem withInterner (h : C.States s s') {i i' : Interner} (hi : C.Interners i i') :
    C.States { s with interner := i } { s' with interner := i' } :=
  ⟨h.rest, h.hint, hi, h.ordered⟩

theorem advance (h : C.States s s') : C.States s.advance s'.advance := by
  rcases s with ⟨_ | ⟨t, rest⟩, hint, i⟩ <;> rcases s' with ⟨rest', hint', i'⟩ <;>
    cases h.rest <;> cases h.hint
  · exact h
  · exact ⟨rfl, rfl, h.interners, fun hlower => Ordered.of_append (u := [t]) (h.ordered hlower)⟩

theorem here (h : C.States s s') : s'.here C.right = s.here C.left := by
  unfold State.here
  rw [h.rest]
  rfl

theorem unexpected (h : C.States s s') (expected : List String) :
    s'.unexpected C.right expected = s.unexpected C.left expected := by
  unfold State.unexpected
  rw [h.rest]
  rfl

end States

theorem Rooms.refl (h : C.left.maxDepth = C.otherDepth) : C.Rooms room room :=
  .inr ⟨rfl, h⟩

theorem Rooms.succ (h : C.Rooms (room + 1) room') : ∃ n, room' = n + 1 ∧ C.Rooms room n := by
  rcases h with ⟨hlower, hle⟩ | ⟨rfl, hdepth⟩
  · exact ⟨room' - 1, by omega, .inl ⟨hlower, by omega⟩⟩
  · exact ⟨room, rfl, .inr ⟨rfl, hdepth⟩⟩

variable {p p' : Parser α} {q q' : α → Parser β} {Q : β → β → Prop}

/-- After runs that ended alike, rules that agree end alike. -/
theorem Replies.bind (h : C.Replies R (p C.left s) (p' C.right s'))
    (hq : ∀ a a', R a a' → C.Agrees Q (q a) (q' a')) :
    C.Replies Q ((p >>= q) C.left s) ((p' >>= q') C.right s') := by
  rw [bind_run, bind_run]
  generalize p C.left s = r, p' C.right s' = r' at h
  cases h with
  | ok hvalue hstates => exact hq _ _ hvalue _ _ hstates
  | error hstates => exact .error hstates
  | stopped hlower hcause => exact .stopped hlower hcause

namespace Agrees

/-! ## Sequence and single tokens -/

theorem after (hp : C.Agrees R p p') : C.AgreesAfter R p p' :=
  fun s s' hs _ => hp s s' hs

theorem pure {a a' : α} (h : R a a') : C.Agrees R (Pure.pure a) (Pure.pure a') :=
  fun _ _ hs => .ok h hs

theorem bind (hp : C.Agrees R p p') (hq : ∀ a a', R a a' → C.Agrees Q (q a) (q' a')) :
    C.Agrees Q (p >>= q) (p' >>= q') :=
  fun s s' hs => (hp s s' hs).bind hq

theorem fail (e : ParseError) : C.Agrees R (Parser.fail e) (Parser.fail e) :=
  fun _ _ hs => .error hs

theorem unexpected (expected : List String) :
    C.Agrees R (Parser.unexpected expected) (Parser.unexpected expected) := by
  intro s s' hs
  unfold Parser.unexpected
  rw [hs.unexpected, hs.hint]
  exact .error (hs.withHint none)

theorem tooDeep_self (h : C.left.maxDepth = C.otherDepth) :
    C.Agrees R Parser.tooDeep Parser.tooDeep := by
  intro s s' hs
  unfold Parser.tooDeep
  rw [hs.here, right, ← h]
  exact .error hs

/-- Without room left, the rule on the left stops; the other one does so too, or has the higher
    limit. -/
theorem tooDeep {rule : Nat → Parser α} (hrule : rule 0 = Parser.tooDeep) (h : C.Rooms 0 room') :
    C.Agrees R Parser.tooDeep (rule room') := by
  rcases h with ⟨hlower, -⟩ | ⟨rfl, hdepth⟩
  · exact fun _ _ _ => .stopped hlower rfl
  · rw [hrule]
    exact tooDeep_self hdepth

theorem accept (f : Token → Option α) (expected : List String) :
    C.Agrees Eq (Parser.accept f expected) (Parser.accept f expected) := by
  intro s s' hs
  unfold Parser.accept
  rw [hs.rest]
  cases s.rest.head?.bind f with
  | none => exact unexpected expected s s' hs
  | some a => exact .ok rfl hs.advance

/-- After a token there is no hint, so the rule for what follows may rely on that. -/
theorem accept_bind (f : Token → Option α) (expected : List String)
    (hq : ∀ a, C.AgreesAfter Q (q a) (q' a)) :
    C.Agrees Q (Parser.accept f expected >>= q) (Parser.accept f expected >>= q') := by
  intro s s' hs
  rw [bind_run, bind_run]
  unfold Parser.accept
  rw [hs.rest]
  cases hread : s.rest.head?.bind f with
  | none =>
    have hreplies := unexpected (R := Q) expected s s' hs
    exact hreplies
  | some a =>
    refine hq a _ _ hs.advance ?_
    rcases s with ⟨_ | ⟨t, rest⟩, hint, i⟩
    · cases hread
    · rfl

/-- A choice by the kind of the next token, which is not read. -/
theorem branch (kind : TokenKind) {q q' : Parser α} (hp : C.Agrees R p p')
    (hq : C.Agrees R q q') :
    C.Agrees R (isAt kind >>= fun here => if here = true then p else q)
      (isAt kind >>= fun here => if here = true then p' else q') := by
  intro s s' hs
  have hsame : s'.isAt kind = s.isAt kind := by
    unfold State.isAt
    rw [hs.rest]
  simp only [bind_run, isAt, hsame]
  split
  · exact hp s s' hs
  · exact hq s s' hs

theorem intern (text : String) :
    C.Agrees (fun x x' => C.shown x = C.shown x') (Parser.intern text) (Parser.intern text) :=
  fun _ _ hs => .ok (C.intern_shown text hs.interners)
    (hs.withInterner (C.intern_interners text hs.interners))

theorem natural (bound : Nat) :
    C.Agrees Eq (Grammar.natural bound) (Grammar.natural bound) := by
  intro s s' hs
  have hunexpected := unexpected (R := Eq) (α := Nat × Span) ["natural number"] s s' hs
  unfold Grammar.natural
  rw [hs.rest]
  split
  · split
    · exact .ok rfl hs.advance
    · exact .error hs
  · exact hunexpected

theorem endOfInput : C.Agrees Eq Parser.endOfInput Parser.endOfInput := by
  intro s s' hs
  unfold Parser.endOfInput
  rw [hs.rest]
  split
  · exact .ok rfl hs
  · exact unexpected _ s s' hs

theorem whole (hp : C.Agrees R p p') : C.Agrees R p.whole p'.whole :=
  bind hp fun _ _ ha => bind endOfInput fun _ _ _ => pure ha

/-! ## Alternatives -/

theorem attempt (hp : C.Agrees R p p') : C.Agrees R (Parser.attempt p) (Parser.attempt p') := by
  intro s s' hs
  have hreplies := hp s s' hs
  unfold Parser.attempt
  generalize p C.left s = r, p' C.right s' = r' at hreplies
  cases hreplies with
  | ok hvalue hstates => exact .ok hvalue hstates
  | error hstates => exact .error (hs.withInterner hstates.interners)
  | stopped hlower hcause => exact .stopped hlower hcause

/-- A rule and what is done after it failed. If the limit stopped it, something else could be done
    instead; so neither parser may be stopped here. -/
theorem orElse (hlower : ¬ C.Lower) {q q' : ParseError → Parser α} (hp : C.Agrees R p p')
    (hq : ∀ e, C.Agrees R (q e) (q' e)) :
    C.Agrees R
      (fun c s => match Parser.attempt p c s with
        | .ok a s₁ => .ok a s₁
        | .error e s₁ => q e c s₁)
      (fun c s => match Parser.attempt p' c s with
        | .ok a s₁ => .ok a s₁
        | .error e s₁ => q' e c s₁) := by
  intro s s' hs
  have hreplies := hp.attempt s s' hs
  simp only
  generalize Parser.attempt p C.left s = r, Parser.attempt p' C.right s' = r' at hreplies
  cases hreplies with
  | ok hvalue hstates => exact .ok hvalue hstates
  | error hstates => exact hq _ _ _ hstates
  | stopped h _ => exact absurd h hlower

theorem choiceAfter (hlower : ¬ C.Lower) {ps ps' : List (Parser α)}
    (hps : List.Forall₂ (C.Agrees R) ps ps') (e : ParseError) :
    C.Agrees R (Parser.choiceAfter e ps) (Parser.choiceAfter e ps') := by
  induction hps generalizing e with
  | nil => exact fail e
  | cons hp _ ih => exact orElse hlower hp fun _ => ih _

theorem choice (hlower : ¬ C.Lower) {ps ps' : List (Parser α)}
    (hps : List.Forall₂ (C.Agrees R) ps ps') :
    C.Agrees R (Parser.choice ps) (Parser.choice ps') := by
  cases hps with
  | nil => exact unexpected []
  | cons hp hps => exact orElse hlower hp (choiceAfter hlower hps)

end Agrees

/-! ## Forms told apart by their first word -/

section Forms

variable {forms forms' : List (String × Parser α)}

/-- Two forms with the same word that agree on what follows it. -/
def Forms (C : Companions) (R : α → α → Prop) (form form' : String × Parser α) : Prop :=
  form.1 = form'.1 ∧ C.Agrees R form.2 form'.2

theorem Forms.map_fst (h : List.Forall₂ (C.Forms R) forms forms') :
    forms'.map Prod.fst = forms.map Prod.fst := by
  induction h with
  | nil => rfl
  | cons hform _ ih => rw [List.map_cons, List.map_cons, ih, hform.1]

theorem Forms.formRule {form form' : String × Parser α} (h : C.Forms R form form') :
    C.Agrees R (formRule form) (formRule form') := by
  unfold Parser.formRule keyword
  rw [h.1]
  exact .bind (.accept _ _) fun _ _ _ => h.2

theorem ordered_right {ts : List Token} (h : Ordered C.left ts) : Ordered C.right ts :=
  ⟨h.increasing, h.inside⟩

/-- Before the word of the first form, the forms end as this one does. -/
theorem choiceAfter_first {first first' : String × Parser α} {t : Token} {rest : List Token}
    {i i' : Interner} {best : ParseError} (hnodup : ((first :: forms).map Prod.fst).Nodup)
    (hforms : List.Forall₂ (C.Forms R) (first :: forms) (first' :: forms'))
    (hfails : FailsAfter first.2) (hfails' : FailsAfter first'.2)
    (hordered : Ordered C.left (t :: rest)) (hi : C.Interners i i') (hword : IsWord first.1 t)
    (hbest : best.span = t.span) :
    C.Replies R
      (Parser.choiceAfter best ((first :: forms).map Parser.formRule) C.left ⟨t :: rest, none, i⟩)
      (Parser.choiceAfter best ((first' :: forms').map Parser.formRule) C.right
        ⟨t :: rest, none, i'⟩) := by
  have hnodup' : ((first' :: forms').map Prod.fst).Nodup := Forms.map_fst hforms ▸ hnodup
  have hform := (List.forall₂_cons.mp hforms).1
  have hword' : IsWord first'.1 t := hform.1 ▸ hword
  have hreplies := hform.2 ⟨rest, none, i⟩ ⟨rest, none, i'⟩
    ⟨rfl, rfl, hi, fun _ => Ordered.of_append (u := [t]) hordered⟩
  generalize hrun : first.2 C.left ⟨rest, none, i⟩ = r,
    hrun' : first'.2 C.right ⟨rest, none, i'⟩ = r' at hreplies
  cases hreplies with
  | ok hvalue hstates =>
    rw [choiceAfter_forms hnodup List.mem_cons_self ⟨t, hword.1, hword.2⟩ hrun,
      choiceAfter_forms hnodup' List.mem_cons_self ⟨t, hword'.1, hword'.2⟩ hrun']
    exact .ok hvalue hstates
  | error hstates =>
    rw [choiceAfter_fails hnodup List.mem_cons_self hword hrun (hfails hordered hrun) hbest,
      choiceAfter_fails hnodup' List.mem_cons_self hword' hrun'
        (hfails' (ordered_right hordered) hrun') hbest]
    exact .error ⟨rfl, rfl, hstates.interners, fun _ => hordered⟩
  | stopped hlower hcause =>
    -- The limit was reached after the word, and so further on than the others fail.
    rw [choiceAfter_fails hnodup List.mem_cons_self hword hrun (hfails hordered hrun) hbest]
    exact .stopped hlower hcause

theorem choiceAfter_agrees (hnodup : (forms.map Prod.fst).Nodup)
    (hforms : List.Forall₂ (C.Forms R) forms forms') (hfails : ∀ form ∈ forms, FailsAfter form.2)
    (hfails' : ∀ form ∈ forms', FailsAfter form.2) (hs : C.States s s') (hhint : s.hint = none)
    (hordered : Ordered C.left s.rest) {best : ParseError} (hbest : best.span = s.here C.left) :
    C.Replies R (Parser.choiceAfter best (forms.map Parser.formRule) C.left s)
      (Parser.choiceAfter best (forms'.map Parser.formRule) C.right s') := by
  induction hforms generalizing best with
  | nil => exact .error hs
  | @cons first first' forms forms' hform hforms ih =>
    by_cases hword : ∃ t ∈ s.rest.head?, IsWord first.1 t
    · rcases hword with ⟨t, ht, hword⟩
      rcases s with ⟨_ | ⟨t', rest⟩, hint, i⟩
      · cases ht
      rcases s' with ⟨rest', hint', i'⟩
      cases ht
      cases hhint
      cases hs.rest
      cases hs.hint
      exact choiceAfter_first hnodup (.cons hform hforms) (hfails first List.mem_cons_self)
        (hfails' first' List.mem_cons_self) hordered hs.interners hword hbest
    · have hother : ∀ t ∈ s.rest.head?, ¬ IsWord first.1 t := fun t ht hw => hword ⟨t, ht, hw⟩
      have hother' : ∀ t ∈ s'.rest.head?, ¬ IsWord first'.1 t := by
        rw [hs.rest, ← hform.1]
        exact hother
      simp only [List.map_cons, Parser.choiceAfter, attempt_form_other hhint hother,
        attempt_form_other (hs.hint.trans hhint) hother', hs.unexpected, ← hform.1]
      refine ih (List.nodup_cons.mp hnodup).2
        (fun form h => hfails form (List.mem_cons_of_mem _ h))
        (fun form h => hfails' form (List.mem_cons_of_mem _ h)) ?_
      simp [ParseError.merge, span_unexpected, hbest]

/-- Right after a token, forms with different words end alike if they agree pairwise. -/
theorem AgreesAfter.choice_forms (hnodup : (forms.map Prod.fst).Nodup)
    (hforms : List.Forall₂ (C.Forms R) forms forms') (hfails : ∀ form ∈ forms, FailsAfter form.2)
    (hfails' : ∀ form ∈ forms', FailsAfter form.2) :
    C.AgreesAfter R (Parser.choice (forms.map Parser.formRule))
      (Parser.choice (forms'.map Parser.formRule)) := by
  intro s s' hs hhint
  by_cases hlower : C.Lower
  · have hordered := hs.ordered hlower
    have hordered' : Ordered C.right s'.rest := hs.rest ▸ ordered_right hordered
    rw [choice_eq_choiceAfter hhint fun form hform e s₁ hrun =>
        merge_attempt_form (hfails form hform) hhint hordered hrun,
      choice_eq_choiceAfter (hs.hint.trans hhint) fun form hform e s₁ hrun =>
        merge_attempt_form (hfails' form hform) (hs.hint.trans hhint) hordered' hrun,
      hs.unexpected]
    exact choiceAfter_agrees hnodup hforms hfails hfails' hs hhint hordered span_unexpected
  · refine Agrees.choice hlower ?_ s s' hs
    rw [List.forall₂_map_left_iff, List.forall₂_map_right_iff]
    exact hforms.imp fun _ _ hform => hform.formRule

end Forms

/-! ## Repetition and brackets -/

namespace Agrees

variable {p p' : Parser α}

theorem enforce (hp : C.Agrees R p p') : C.Agrees R (Parser.enforce p) (Parser.enforce p') := by
  intro s s' hs
  have hreplies := hp s s' hs
  unfold Parser.enforce
  generalize p C.left s = r, p' C.right s' = r' at hreplies
  cases hreplies with
  | ok hvalue hstates =>
    simp only [hs.rest, hstates.rest, hs.here]
    split
    · exact .ok hvalue hstates
    · exact .error hstates
  | error hstates => exact .error hstates
  | stopped hlower hcause => exact .stopped hlower hcause

/-- A repetition takes the same number of items. It does not end at an item that is too deep, but
    fails there. -/
theorem many (hp : C.Agrees R p p') :
    C.Agrees (List.Forall₂ R) (Parser.many p) (Parser.many p') := by
  intro s s' hs
  have hreplies := hp.enforce s s' hs
  generalize hrun : Parser.enforce p C.left s = r, hrun' : Parser.enforce p' C.right s' = r'
    at hreplies
  cases hreplies with
  | @ok a a' s₁ s₁' hvalue hstates =>
    have hless := enforce_rest_lt hrun
    have hmore := many hp s₁ s₁' hstates
    rw [many_of_ok hrun, many_of_ok hrun']
    generalize Parser.many p C.left s₁ = r, Parser.many p' C.right s₁' = r' at hmore
    cases hmore with
    | ok hvalues hstates' => exact .ok (.cons hvalue hvalues) hstates'
    | error hstates' => exact .error hstates'
    | stopped hlower hcause => exact .stopped hlower hcause
  | error hstates =>
    rw [many_of_error hrun, many_of_error hrun', hs.rest, hstates.rest, hstates.hint]
    split
    · exact .ok .nil ⟨rfl, rfl, hstates.interners, hstates.ordered⟩
    · exact .error hstates
  | @stopped e s₁ _ hlower hcause =>
    have hdeep : e.isTooDeep = true := by
      rw [ParseError.isTooDeep, hcause]
      rfl
    rw [many_of_error hrun, if_neg fun h => h.2 hdeep]
    exact .stopped hlower hcause
termination_by s => s.rest.length

theorem atLeastOne (hp : C.Agrees R p p') :
    C.Agrees (List.Forall₂ R) (Parser.atLeastOne p) (Parser.atLeastOne p') :=
  bind hp.enforce fun _ _ ha => bind hp.many fun _ _ has => pure (.cons ha has)

/-- Between brackets a rule runs right after a token. -/
theorem between (opening closing : TokenKind) (hp : C.AgreesAfter R p p') :
    C.Agrees (fun x x' => R x.1 x'.1 ∧ x.2 = x'.2) (Parser.between opening closing p)
      (Parser.between opening closing p') := by
  refine accept_bind _ _ fun first s s' hs hhint => ?_
  refine (hp s s' hs hhint).bind fun a a' ha => ?_
  refine bind (accept _ _) fun last last' hlast => pure ⟨ha, ?_⟩
  rw [hlast]

end Agrees

end Companions

end FOmega
