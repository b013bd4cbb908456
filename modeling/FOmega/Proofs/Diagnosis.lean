import FOmega.Proofs.Combinator
import FOmega.Proofs.Expectation

/-!
# What a failed run says

A rule diagnoses a language if each of its runs ends in one of three ways. It reads a sentence that
the next token does not continue, and leaves as its hint what would have continued it. It reaches
the limit on nesting. Or it gives up after a beginning of a sentence, at a token that continues it to
no sentence, and reports there exactly the tokens that would. Every combinator builds such rules out
of such rules, so only the grammar decides what a rule reports.
-/

namespace FOmega

open Terminal
open scoped Computability

namespace Parser

variable {α β : Type} {L M : Language Token} {c : Context} {s s' s₁ : State} {u : List Token}
  {e : ParseError} {expected others : List String}

/-! ## Places -/

/-- The tokens stand in the order of their offsets, and before the end of the input. -/
structure Ordered (c : Context) (ts : List Token) : Prop where
  increasing : ts.Pairwise fun t t' => t.span.offset < t'.span.offset
  inside : ∀ t ∈ ts, t.span.offset < c.inputLen

theorem Ordered.of_append {ts : List Token} (h : Ordered c (u ++ ts)) : Ordered c ts where
  increasing := (List.pairwise_append.mp h.increasing).2.1
  inside t ht := h.inside t (List.mem_append_right u ht)

theorem unexpected_of_rest (h : s.rest = s'.rest) :
    s.unexpected c expected = s'.unexpected c expected := by
  unfold State.unexpected
  rw [h]

theorem span_unexpected : (s.unexpected c expected).span = s.here c := by
  unfold State.unexpected State.here
  split <;> rfl

/-- A place further on has a larger offset. -/
theorem Ordered.here_lt {t : Token} (h : Ordered c s.rest) (hrest : s.rest = t :: u ++ s₁.rest) :
    (s.here c).offset < (s₁.here c).offset := by
  have hhere : s.here c = t.span := by
    unfold State.here
    rw [hrest]
    rfl
  rw [hrest] at h
  rw [hhere]
  unfold State.here
  split
  · next t' w ht' =>
    have hmem : t' ∈ u ++ s₁.rest := by simp [ht']
    exact (List.pairwise_cons.mp h.increasing).1 t' hmem
  · exact h.inside t (by simp)

/-- Nothing stands between two states at the same place. -/
theorem Ordered.eq_nil_of_here (h : Ordered c s.rest) (hrest : s.rest = u ++ s₁.rest)
    (hhere : s.here c = s₁.here c) : u = [] := by
  cases u with
  | nil => rfl
  | cons t u =>
    have hlt := h.here_lt hrest
    rw [hhere] at hlt
    exact absurd hlt (Nat.lt_irrefl _)

/-! ## Refusals in sum -/

theorem merge_unexpected :
    (s.unexpected c expected).merge (s.unexpected c others) =
      s.unexpected c (Expected.union expected others) := by
  unfold State.unexpected
  split <;> simp [ParseError.merge, Cause.join]

theorem merge_of_lt {a b : ParseError} (h : a.span.offset < b.span.offset) : a.merge b = b := by
  have hnot : ¬ b.span.offset < a.span.offset := by omega
  rw [ParseError.merge, if_neg hnot, if_pos h]

theorem merge_of_gt {a b : ParseError} (h : b.span.offset < a.span.offset) : a.merge b = a := by
  rw [ParseError.merge, if_pos h]

theorem isTooDeep_unexpected : (s.unexpected c expected).isTooDeep = false := by
  unfold State.unexpected
  split <;> rfl

theorem unexpected_ne_outOfRange {text : String} :
    (s.unexpected c expected).cause ≠ .outOfRange text := by
  unfold State.unexpected
  split <;> simp

/-- Without a hint, a refusal lists what it is given. -/
theorem unexpected_run (hhint : s.hint = none) :
    (unexpected expected : Parser α) c s = .error (s.unexpected c expected) s := by
  rcases s with ⟨rest, hint, i⟩
  cases hhint
  rfl

theorem expect_refuse {kind : TokenKind} (h : ∀ t ∈ s.rest.head?, t.kind ≠ kind) :
    expect kind c s = unexpected [kind.describe] c s := by
  refine accept_refuse _ ?_ c
  cases hhead : s.rest.head? with
  | none => rfl
  | some t => exact if_neg (h t hhead)

/-! ## Runs of a rule for a language -/

/-- The hint of a state holds the tokens of the given set, and is there if the set has any. -/
def Offers (S : Token → Prop) (c : Context) (s : State) : Prop :=
  (s.hint = none ∧ ∀ t, ¬ S t) ∨
    (∃ t, S t) ∧ ∃ expected, s.hint = some (s.unexpected c expected) ∧ Exact expected S

/-- The error blames the state `s₁` for standing after the beginning `u` of a sentence and before a
    token that cannot follow there, and lists those that could. A number out of range is named
    instead. -/
structure Blames (L : Language Token) (c : Context) (u : List Token) (s₁ : State) (e : ParseError) :
    Prop where
  incomplete : u ∉ L
  continues : ∃ t, Next L u t
  refused : ∀ t ∈ s₁.rest.head?, ¬ Next L u t
  cause : (∃ text, e.cause = .outOfRange text) ∨
    ∃ expected, e = s₁.unexpected c expected ∧ Exact expected (Next L u)

/-- The end of a run from the state `s` that is right for a rule for the language `L`. -/
inductive Meets (L : Language Token) (c : Context) (s : State) : Reply α → Prop where
  | ok {a : α} {u : List Token} {s' : State} (mem : u ∈ L) (rest : s.rest = u ++ s'.rest)
    (offers : Offers (Next L u) c s') (maximal : ∀ t ∈ s'.rest.head?, ¬ Next L u t) :
    Meets L c s (.ok a s')
  | error {e : ParseError} {u : List Token} {s₁ s' : State} (hint : s'.hint = none)
    (rest : s.rest = u ++ s₁.rest) (left : s₁.rest <:+ s'.rest) (place : e.span = s₁.here c)
    (cause : e.cause = .tooDeep c.maxDepth ∨ Blames L c u s₁ e) : Meets L c s (.error e s')

/-- Every run of the rule, if it starts without a hint, is right for the language. -/
structure Diagnoses (p : Parser α) (L : Language Token) : Prop where
  sentence : ∃ u, u ∈ L
  meets : ∀ c s, s.hint = none → Ordered c s.rest → Meets L c s (p c s)

/-- A run that fails without moving fails right there, by a refusal or at the limit on nesting. -/
def Commits (p : Parser α) : Prop :=
  ∀ c s e s', s.hint = none → p c s = .error e s' → s'.rest.length = s.rest.length →
    e.isTooDeep = true ∨ ∃ expected, e = s.unexpected c expected

theorem Offers.congr {S S' : Token → Prop} (h : Offers S c s) (hS : ∀ t, S' t ↔ S t) :
    Offers S' c s := by
  rcases h with ⟨hhint, hno⟩ | ⟨⟨t, ht⟩, expected, hhint, hexact⟩
  · exact .inl ⟨hhint, fun t ht => hno t ((hS t).mp ht)⟩
  · exact .inr ⟨⟨t, (hS t).mpr ht⟩, expected, hhint, hexact.congr hS⟩

/-- What cannot be continued leaves no hint. -/
theorem Offers.hint_eq_none {S : Token → Prop} (h : Offers S c s) (hS : ∀ t, ¬ S t) :
    s.hint = none := by
  rcases h with ⟨hhint, -⟩ | ⟨⟨t, ht⟩, -⟩
  · exact hhint
  · exact absurd ht (hS t)

/-- A refusal lists what it is given and what the hint holds. -/
theorem Offers.unexpected_run {S Q : Token → Prop} (h : Offers S c s) (hexact : Exact expected Q) :
    ∃ all, (unexpected expected : Parser α) c s =
        .error (s.unexpected c all) { s with hint := none } ∧
      Exact all fun t => Q t ∨ S t := by
  rcases h with ⟨hhint, hno⟩ | ⟨-, others, hhint, hothers⟩
  · refine ⟨expected, ?_, hexact.congr fun t => or_iff_left (hno t)⟩
    simp only [unexpected, hhint, Option.elim_none]
  · refine ⟨Expected.union expected others, ?_, hexact.union hothers⟩
    simp only [unexpected, hhint, Option.elim_some, merge_unexpected]

/-- An error that blames a state for one language does so for another in which the beginning goes on
    in the same ways. -/
theorem Blames.lift {u' : List Token} (h : Blames L c u s₁ e) (hmem : u' ∉ M)
    (hnext : ∀ t, Next M u' t ↔ Next L u t) : Blames M c u' s₁ e := by
  rcases h.continues with ⟨t, ht⟩
  refine ⟨hmem, ⟨t, (hnext t).mpr ht⟩, ?_, ?_⟩
  · intro t ht hcontinues
    exact h.refused t ht ((hnext t).mp hcontinues)
  · rcases h.cause with hrange | ⟨expected, he, hexact⟩
    · exact .inl hrange
    · exact .inr ⟨expected, he, hexact.congr hnext⟩

theorem Blames.isTooDeep (h : Blames L c u s₁ e) : e.isTooDeep = false := by
  rcases h.cause with ⟨text, he⟩ | ⟨expected, rfl, -⟩
  · rw [ParseError.isTooDeep, he]
    rfl
  · exact isTooDeep_unexpected

theorem Meets.ok_of_prefixFree {a : α} (hL : PrefixFree L) (hmem : u ∈ L)
    (hrest : s.rest = u ++ s'.rest) (hhint : s'.hint = none) : Meets L c s (.ok a s') :=
  .ok hmem hrest (.inl ⟨hhint, hL u hmem⟩) fun t _ => hL u hmem t

theorem Meets.refuse (hhint : s.hint = none) (hnil : [] ∉ L) (hfirst : ∃ t, Next L [] t)
    (hrefused : ∀ t ∈ s.rest.head?, ¬ Next L [] t) (hexact : Exact expected (Next L [])) :
    Meets L c s (.error (s.unexpected c expected) s : Reply α) :=
  .error hhint rfl List.suffix_rfl span_unexpected
    (.inr ⟨hnil, hfirst, hrefused, .inr ⟨expected, rfl, hexact⟩⟩)

theorem Meets.withValue {a : α} (h : Meets L c s (.ok a s')) (b : β) :
    Meets L c s (.ok b s') := by
  rcases h with @⟨_, u, _, hu, hrest, hoffers, hmaximal⟩ | _
  exact .ok hu hrest hoffers hmaximal

theorem Meets.withError (h : Meets L c s (.error e s' : Reply α)) :
    Meets L c s (.error e s' : Reply β) := by
  rcases h with _ | @⟨_, u, s₁, _, hhint, hrest, hleft, hplace, hcause⟩
  exact .error hhint hrest hleft hplace hcause

/-- A run that is right for what follows a beginning is right after that beginning. -/
theorem Meets.after {x : List Token} {r : Reply α} (h : Meets L c s₁ r)
    (hrest : s.rest = x ++ s₁.rest) (hmem : ∀ v, x ++ v ∈ M ↔ v ∈ L) : Meets M c s r := by
  have hnext : ∀ v t, Next M (x ++ v) t ↔ Next L v t := fun v t => next_append hmem
  cases h with
  | @ok a v s' hv hrest₁ hoffers hmaximal =>
    refine .ok ((hmem v).mpr hv) ?_ (hoffers.congr (hnext v)) ?_
    · rw [hrest, hrest₁, List.append_assoc]
    · intro t ht hcontinues
      exact hmaximal t ht ((hnext v t).mp hcontinues)
  | @error e v s₂ s' hhint hrest₁ hleft hplace hcause =>
    refine .error (u := x ++ v) hhint ?_ hleft hplace (hcause.imp_right fun hblames => ?_)
    · rw [hrest, hrest₁, List.append_assoc]
    · exact hblames.lift (fun hx => hblames.incomplete ((hmem v).mp hx)) (hnext v)

/-- A run on a list whose first token begins a sentence is right for every language that has the same
    sentences with that token. -/
theorem Meets.of_first {t : Token} {w : List Token} {r : Reply α} (h : Meets L c s r)
    (hrest : s.rest = t :: w) (hfirst : Next L [] t)
    (hagree : ∀ ts, t :: ts ∈ M ↔ t :: ts ∈ L) : Meets M c s r := by
  have hnext : ∀ v t', Next M (t :: v) t' ↔ Next L (t :: v) t' := by
    intro v t'
    simp only [Next, List.cons_append, hagree]
  have hhead : s.rest.head? = some t := by rw [hrest]; rfl
  cases h with
  | @ok a u s' hu hrest₁ hoffers hmaximal =>
    rcases u with _ | ⟨t', v⟩
    · rw [List.nil_append] at hrest₁
      exact absurd hfirst (hmaximal t (hrest₁ ▸ hhead))
    · obtain rfl : t = t' := by
        rw [hrest] at hrest₁
        cases hrest₁
        rfl
      refine .ok ((hagree v).mpr hu) hrest₁ (hoffers.congr (hnext v)) ?_
      intro t' ht' hcontinues
      exact hmaximal t' ht' ((hnext v t').mp hcontinues)
  | @error e u s₁ s' hhint hrest₁ hleft hplace hcause =>
    refine .error hhint hrest₁ hleft hplace (hcause.imp_right fun hblames => ?_)
    rcases u with _ | ⟨t', v⟩
    · rw [List.nil_append] at hrest₁
      exact absurd hfirst (hblames.refused t (hrest₁ ▸ hhead))
    · obtain rfl : t = t' := by
        rw [hrest] at hrest₁
        cases hrest₁
        rfl
      exact hblames.lift (fun hmem => hblames.incomplete ((hagree v).mp hmem)) (hnext v)

/-! ## Forms told apart by their first word -/

section Forms

variable {forms : List (String × Parser α)}

/-- An attempt at a form whose word is not next refuses the next token and changes nothing. -/
theorem attempt_form_other {form : String × Parser α} (hhint : s.hint = none)
    (h : ∀ t ∈ s.rest.head?, ¬ IsWord form.1 t) :
    attempt (formRule form) c s = .error (s.unexpected c ["`" ++ form.1 ++ "`"]) s := by
  have hword : keyword form.1 c s = unexpected ["`" ++ form.1 ++ "`"] c s := by
    refine accept_refuse _ ?_ c
    cases hhead : s.rest.head? with
    | none => rfl
    | some t => exact if_neg (h t hhead)
  rw [unexpected_run hhint] at hword
  simp only [attempt, formRule, bind_run, hword]

/-- Before none of their words, forms fail together and refuse what is next. -/
theorem choiceAfter_others {S : Token → Prop} (hhint : s.hint = none)
    (hother : ∀ form ∈ forms, ∀ t ∈ s.rest.head?, ¬ IsWord form.1 t)
    (hwords : ∀ form ∈ forms, form.1 ∈ keywords) (hexact : Exact expected S) :
    ∃ all, choiceAfter (s.unexpected c expected) (forms.map formRule) c s =
        .error (s.unexpected c all) s ∧
      Exact all fun t => S t ∨ ∃ form ∈ forms, IsWord form.1 t := by
  induction forms generalizing expected S with
  | nil => exact ⟨expected, rfl, hexact.congr fun t => by simp⟩
  | cons form forms ih =>
    have hfirst := attempt_form_other (c := c) hhint (hother form List.mem_cons_self)
    have hunion := hexact.union (Exact.keyword form.1 (hwords form List.mem_cons_self))
    rcases ih (fun form hform => hother form (List.mem_cons_of_mem _ hform))
      (fun form hform => hwords form (List.mem_cons_of_mem _ hform)) hunion with ⟨all, hrun, hall⟩
    refine ⟨all, ?_, hall.congr fun t => ?_⟩
    · simp only [List.map_cons, choiceAfter, hfirst, merge_unexpected, hrun]
    · simp only [List.exists_mem_cons_iff, or_assoc]

/-- An error that got further outlives the forms that refuse the next token. -/
theorem choiceAfter_passed {best : ParseError} (hhint : s.hint = none)
    (hother : ∀ form ∈ forms, ∀ t ∈ s.rest.head?, ¬ IsWord form.1 t)
    (hbest : (s.here c).offset < best.span.offset) :
    choiceAfter best (forms.map formRule) c s = .error best s := by
  induction forms with
  | nil => rfl
  | cons form forms ih =>
    have hfirst := attempt_form_other (c := c) hhint (hother form List.mem_cons_self)
    have hmerge : best.merge (s.unexpected c ["`" ++ form.1 ++ "`"]) = best :=
      merge_of_gt (by rwa [span_unexpected])
    have hrest := ih fun form hform => hother form (List.mem_cons_of_mem _ hform)
    simp only [List.map_cons, choiceAfter, hfirst, hmerge, hrest]

theorem attempt_form_error {form : String × Parser α} {t : Token} {rest : List Token} {i : Interner}
    (hword : IsWord form.1 t) (h : form.2 c ⟨rest, none, i⟩ = .error e s') :
    attempt (formRule form) c ⟨t :: rest, none, i⟩ = .error e ⟨t :: rest, none, s'.interner⟩ := by
  have hkeyword := keyword_cons ⟨t, hword.1, hword.2⟩ c rest none i
  simp only [attempt, formRule, bind_run, hkeyword, h]

/-- Before the word of a form that fails further on, the forms fail as this one does. -/
theorem choiceAfter_fails (hnodup : (forms.map Prod.fst).Nodup) {form : String × Parser α}
    (hform : form ∈ forms) {t : Token} {rest : List Token} {i : Interner} (hword : IsWord form.1 t)
    (h : form.2 c ⟨rest, none, i⟩ = .error e s') (hlt : t.span.offset < e.span.offset)
    {best : ParseError} (hbest : best.span = t.span) :
    choiceAfter best (forms.map formRule) c ⟨t :: rest, none, i⟩ =
      .error e ⟨t :: rest, none, s'.interner⟩ := by
  induction forms generalizing best with
  | nil => cases hform
  | cons first forms ih =>
    have hfirst := List.nodup_cons.mp hnodup
    simp only [List.map_cons, choiceAfter]
    rcases List.mem_cons.mp hform with rfl | hform
    · have hmerge : best.merge e = e := merge_of_lt (by rwa [hbest])
      rw [attempt_form_error hword h]
      simp only [hmerge]
      refine choiceAfter_passed rfl ?_ hlt
      rintro other hother t' ht' hword'
      cases ht'
      exact text_ne_of_mem hfirst.1 hother ⟨t, hword'.1, hword'.2⟩ hword.2
    · have hother : ∀ t' ∈ (t :: rest).head?, ¬ IsWord first.1 t' := by
        rintro t' ht' hword'
        cases ht'
        exact text_ne_of_mem hfirst.1 hform ⟨t, hword.1, hword.2⟩ hword'.2
      rw [attempt_form_other (s := ⟨t :: rest, none, i⟩) rfl hother]
      refine ih hfirst.2 hform ?_
      simp [ParseError.merge, State.unexpected, hbest]

/-- The first of some alternatives counts as an alternative after a refusal that lists nothing. -/
theorem choice_eq_choiceAfter (hhint : s.hint = none)
    (hfirst : ∀ form ∈ forms, ∀ e s', attempt (formRule form) c s = .error e s' →
      (s.unexpected c []).merge e = e) :
    choice (forms.map formRule) c s =
      choiceAfter (s.unexpected c []) (forms.map formRule) c s := by
  cases forms with
  | nil => exact unexpected_run hhint
  | cons form forms =>
    simp only [List.map_cons, choice, choiceAfter]
    cases hrun : attempt (formRule form) c s with
    | ok a s' => rfl
    | error e s' => simp only [hfirst form List.mem_cons_self e s' hrun]

/-- What fails after a token fails at a larger offset. -/
theorem Meets.offset_lt {t : Token} {rest : List Token} {i : Interner}
    (h : Meets L c ⟨rest, none, i⟩ (.error e s' : Reply α)) (hordered : Ordered c (t :: rest)) :
    t.span.offset < e.span.offset := by
  rcases h with _ | @⟨_, u, s₁, _, -, hrest, -, hplace, -⟩
  rw [hplace]
  exact Ordered.here_lt (s := ⟨t :: rest, none, i⟩) hordered (congrArg (t :: ·) hrest)

/-- Right after a token, the rule fails only at places after that token. -/
def FailsAfter (p : Parser α) : Prop :=
  ∀ {c t rest i e s'}, Ordered c (t :: rest) → p c ⟨rest, none, i⟩ = .error e s' →
    t.span.offset < e.span.offset

theorem Diagnoses.failsAfter {p : Parser α} (hp : Diagnoses p L) : FailsAfter p := by
  intro c t rest i e s' hordered h
  have hmeets := hp.meets c ⟨rest, none, i⟩ rfl (Ordered.of_append (u := [t]) hordered)
  rw [h] at hmeets
  exact hmeets.offset_lt hordered

theorem merge_attempt_form {form : String × Parser α} (hp : FailsAfter form.2)
    (hhint : s.hint = none) (hordered : Ordered c s.rest)
    (h : attempt (formRule form) c s = .error e s') : (s.unexpected c []).merge e = e := by
  by_cases hword : ∃ t ∈ s.rest.head?, IsWord form.1 t
  · rcases s with ⟨_ | ⟨t, rest⟩, hint, i⟩
    · rcases hword with ⟨t, ht, -⟩
      cases ht
    cases hhint
    rcases hword with ⟨t', ht', hword⟩
    cases ht'
    cases hrun : form.2 c ⟨rest, none, i⟩ with
    | ok a s₁ =>
      rw [attempt_form_cons ⟨t, hword.1, hword.2⟩ hrun] at h
      cases h
    | error e₁ s₁ =>
      rw [attempt_form_error hword hrun] at h
      cases h
      exact merge_of_lt (hp hordered hrun)
  · have hother : ∀ t ∈ s.rest.head?, ¬ IsWord form.1 t := fun t ht hw => hword ⟨t, ht, hw⟩
    rw [attempt_form_other hhint hother] at h
    cases h
    exact merge_unexpected

/-- Before the word of a form, the forms are right for what follows it if this one is. -/
theorem choiceAfter_meets {body : String → Language Token} (hnodup : (forms.map Prod.fst).Nodup)
    {form : String × Parser α} (hform : form ∈ forms) (hp : Diagnoses form.2 (body form.1))
    {t : Token} {rest : List Token} {i : Interner} (hword : IsWord form.1 t)
    (hordered : Ordered c (t :: rest)) {best : ParseError} (hbest : best.span = t.span) :
    Meets (formsOf (forms.map Prod.fst) body) c ⟨t :: rest, none, i⟩
      (choiceAfter best (forms.map formRule) c ⟨t :: rest, none, i⟩) := by
  have hmem : ∀ v, [t] ++ v ∈ formsOf (forms.map Prod.fst) body ↔ v ∈ body form.1 := by
    intro v
    have hlisted : t.text ∈ forms.map Prod.fst := hword.2 ▸ List.mem_map_of_mem hform
    rw [List.singleton_append, cons_mem_formsOf, and_iff_right ⟨hword.1, hlisted⟩, hword.2]
  have hmeets := hp.meets c ⟨rest, none, i⟩ rfl (Ordered.of_append (u := [t]) hordered)
  cases hrun : form.2 c ⟨rest, none, i⟩ with
  | ok a s' =>
    rw [choiceAfter_forms hnodup hform ⟨t, hword.1, hword.2⟩ hrun]
    rw [hrun] at hmeets
    exact hmeets.after rfl hmem
  | error e s' =>
    rw [hrun] at hmeets
    rw [choiceAfter_fails hnodup hform hword hrun (hmeets.offset_lt hordered) hbest]
    -- The forms fail as this one does, but go back to before its word.
    have hwhole : Meets _ c ⟨t :: rest, none, i⟩ (.error e s' : Reply α) := hmeets.after rfl hmem
    rcases hwhole with _ | @⟨_, u, s₁, _, -, hrest, -, hplace, hcause⟩
    exact .error rfl hrest ⟨u, hrest.symm⟩ hplace hcause

theorem Diagnoses.choice {body : String → Language Token} (hne : forms ≠ [])
    (hnodup : (forms.map Prod.fst).Nodup) (hwords : ∀ form ∈ forms, form.1 ∈ keywords)
    (hforms : ∀ form ∈ forms, Diagnoses form.2 (body form.1)) :
    Diagnoses (choice (forms.map formRule)) (formsOf (forms.map Prod.fst) body) := by
  have hbody : ∀ word ∈ forms.map Prod.fst, ∃ u, u ∈ body word := by
    intro word hword
    rcases List.mem_map.mp hword with ⟨form, hform, rfl⟩
    exact (hforms form hform).sentence
  have hnext : ∀ t, Next (formsOf (forms.map Prod.fst) body) [] t ↔
      False ∨ ∃ form ∈ forms, IsWord form.1 t := by
    intro t
    rw [next_formsOf_nil hbody, false_or]
    simp only [IsWord, List.mem_map]
    constructor
    · rintro ⟨hkind, form, hform, htext⟩
      exact ⟨form, hform, hkind, htext.symm⟩
    · rintro ⟨form, hform, hkind, htext⟩
      exact ⟨hkind, form, hform, htext.symm⟩
  rcases List.exists_mem_of_ne_nil forms hne with ⟨form₀, hform₀⟩
  have hfirst : ∃ t, Next (formsOf (forms.map Prod.fst) body) [] t :=
    ⟨⟨.ident, ⟨0, 0⟩, form₀.1⟩, (hnext _).mpr (.inr ⟨form₀, hform₀, rfl, rfl⟩)⟩
  refine ⟨?_, ?_⟩
  · rcases hfirst with ⟨t, w, hw⟩
    exact ⟨t :: w, hw⟩
  intro c s hhint hordered
  rw [choice_eq_choiceAfter hhint fun form hform e s' hrun =>
    merge_attempt_form (hforms form hform).failsAfter hhint hordered hrun]
  by_cases hword : ∃ form ∈ forms, ∃ t ∈ s.rest.head?, IsWord form.1 t
  · rcases hword with ⟨form, hform, t, ht, hword⟩
    rcases s with ⟨_ | ⟨t', rest⟩, hint, i⟩
    · cases ht
    · cases ht
      cases hhint
      exact choiceAfter_meets hnodup hform (hforms form hform) hword hordered span_unexpected
  · have hother : ∀ form ∈ forms, ∀ t ∈ s.rest.head?, ¬ IsWord form.1 t :=
      fun form hform t ht hw => hword ⟨form, hform, t, ht, hw⟩
    rcases choiceAfter_others (c := c) hhint hother hwords Exact.nil with ⟨all, hrun, hall⟩
    rw [hrun]
    refine .refuse hhint nil_not_mem_formsOf hfirst ?_ (hall.congr hnext)
    intro t ht hcontinues
    rcases (hnext t).mp hcontinues with hfalse | ⟨form, hform, hw⟩
    · exact hfalse
    · exact hother form hform t ht hw

end Forms

/-! ## Single tokens -/

theorem accept_meets {f : Token → Option α} (hL : PrefixFree L) (hnil : [] ∉ L)
    (hfirst : ∃ t, Next L [] t) (hexact : Exact expected (Next L []))
    (hsome : ∀ t a, f t = some a → [t] ∈ L)
    (hnone : ∀ t ∈ s.rest.head?, f t = none → ¬ Next L [] t) (hhint : s.hint = none) :
    Meets L c s (accept f expected c s) := by
  cases hread : s.rest.head?.bind f with
  | none =>
    rw [accept_refuse expected hread, unexpected_run hhint]
    refine .refuse hhint hnil hfirst ?_ hexact
    intro t ht
    rw [Option.mem_def.mp ht] at hread
    exact hnone t ht hread
  | some a =>
    rcases s with ⟨_ | ⟨t, rest⟩, hint, i⟩
    · cases hread
    · rw [accept_cons expected hread]
      exact .ok_of_prefixFree hL (hsome t a hread) rfl rfl

namespace Diagnoses

theorem accept {f : Token → Option α} {P : Token → Prop} (hf : ∀ t, (f t).isSome ↔ P t)
    (hexact : Exact expected P) (hP : ∃ t, P t) : Diagnoses (accept f expected) (single P) := by
  rcases hP with ⟨t₀, ht₀⟩
  refine ⟨⟨[t₀], singleton_mem ht₀⟩, ?_⟩
  intro c s hhint _
  refine accept_meets prefixFree_single ?_ ⟨t₀, next_single.mpr ⟨rfl, ht₀⟩⟩ (hexact.congr ?_)
    ?_ ?_ hhint
  · rintro ⟨t, -, hnil⟩
    cases hnil
  · intro t
    simp [next_single]
  · intro t a ht
    exact singleton_mem ((hf t).mp (by rw [ht]; rfl))
  · intro t _ ht hnext
    have hsome := (hf t).mpr (next_single.mp hnext).2
    rw [ht] at hsome
    cases hsome

theorem expect {kind : TokenKind} (hkind : kind ∈ delimiters) :
    Diagnoses (expect kind) (single (IsKind kind)) := by
  refine accept ?_ (Exact.delimiter kind hkind) ⟨⟨kind, ⟨0, 0⟩, ""⟩, rfl⟩
  intro t
  by_cases h : t.kind = kind <;> simp [IsKind, h]

theorem keyword {word : String} (hword : word ∈ keywords) :
    Diagnoses (keyword word) (single (IsWord word)) := by
  refine accept ?_ (Exact.keyword word hword) ⟨⟨.ident, ⟨0, 0⟩, word⟩, rfl, rfl⟩
  intro t
  by_cases h : t.kind = .ident ∧ t.text = word <;> simp [IsWord, h]

theorem identifier {what : String} (hwhat : what ∈ identifierClasses) :
    Diagnoses (identifier what) (single (IsKind .ident)) := by
  refine accept ?_ (Exact.identifier what hwhat) ⟨⟨.ident, ⟨0, 0⟩, ""⟩, rfl⟩
  intro t
  by_cases h : t.kind = .ident <;> simp [IsKind, h]

theorem tooDeep (hL : ∃ u, u ∈ L) : Diagnoses (tooDeep : Parser α) L := by
  refine ⟨hL, ?_⟩
  intro c s hhint _
  exact .error (u := []) hhint rfl List.suffix_rfl rfl (.inl rfl)

/-! ## Sequence -/

theorem pure (a : α) : Diagnoses (pure a : Parser α) 1 := by
  refine ⟨⟨[], rfl⟩, ?_⟩
  intro c s hhint _
  exact .ok_of_prefixFree (u := []) prefixFree_one rfl rfl hhint

/-- After a sentence that nothing continues, the second rule takes over; until then the first rule
    reports for both. -/
theorem bind {p : Parser α} {f : α → Parser β} (hp : Diagnoses p L) (hL : PrefixFree L)
    (hf : ∀ a, Diagnoses (f a) M) (hM : ∃ u, u ∈ M) : Diagnoses (p >>= f) (L * M) := by
  refine ⟨exists_mem_mul hp.sentence hM, ?_⟩
  intro c s hhint hordered
  have hfirst := hp.meets c s hhint hordered
  rw [bind_run]
  cases hrun : p c s with
  | ok a s₁ =>
    rw [hrun] at hfirst
    rcases hfirst with @⟨_, u, _, hu, hrest, hoffers, -⟩ | _
    have hhint₁ := hoffers.hint_eq_none (hL u hu)
    have hsecond := (hf a).meets c s₁ hhint₁ (Ordered.of_append (hrest ▸ hordered))
    exact hsecond.after hrest fun v => append_mem_mul_iff hL hu
  | error e s₁ =>
    rw [hrun] at hfirst
    rcases hfirst with _ | @⟨_, u, s₂, _, hhint₁, hrest, hleft, hplace, hcause⟩
    refine .error hhint₁ hrest hleft hplace (hcause.imp_right fun hblames => ?_)
    rcases hblames.continues with ⟨t, ht⟩
    exact hblames.lift (not_mem_mul_of_next hL ht) fun _ => next_mul_of_next hL ht hM

/-- A rule that only looks at the names seen goes unnoticed. -/
theorem follow {p : Parser α} {f : α → Parser β} (hp : Diagnoses p L)
    (hf : ∀ a c s, ∃ b i, f a c s = .ok b { s with interner := i }) : Diagnoses (p >>= f) L := by
  refine ⟨hp.sentence, ?_⟩
  intro c s hhint hordered
  have hfirst := hp.meets c s hhint hordered
  rw [bind_run]
  cases hrun : p c s with
  | ok a s₁ =>
    rw [hrun] at hfirst
    rcases hfirst with @⟨_, u, _, hu, hrest, hoffers, hmaximal⟩ | _
    rcases hf a c s₁ with ⟨b, i, hb⟩
    simp only [hb]
    exact .ok hu hrest hoffers hmaximal
  | error e s₁ =>
    rw [hrun] at hfirst
    exact hfirst.withError

theorem map {p : Parser α} (hp : Diagnoses p L) (g : α → β) :
    Diagnoses (p >>= fun a => Pure.pure (g a)) L :=
  hp.follow fun a _ s => ⟨g a, s.interner, rfl⟩

theorem pair {γ : Type} {p : Parser α} {q : Parser β} (hp : Diagnoses p L) (hL : PrefixFree L)
    (hq : Diagnoses q M) (g : α → β → γ) :
    Diagnoses (p >>= fun a => q >>= fun b => Pure.pure (g a b)) (L * M) :=
  hp.bind hL (fun a => hq.map (g a)) hq.sentence

theorem triple {γ δ : Type} {N : Language Token} {p : Parser α} {q : Parser β} {r : Parser γ}
    (hp : Diagnoses p L) (hL : PrefixFree L) (hq : Diagnoses q M) (hM : PrefixFree M)
    (hr : Diagnoses r N) (g : α → β → γ → δ) :
    Diagnoses (p >>= fun a => q >>= fun b => r >>= fun d => Pure.pure (g a b d)) (L * (M * N)) :=
  hp.bind hL (fun a => hq.pair hM hr (g a)) (exists_mem_mul hq.sentence hr.sentence)

/-! ## Brackets -/

/-- Before a closing bracket the hint of the rule joins in. -/
theorem close {p : Parser α} (hp : Diagnoses p L) {kind : TokenKind} (hkind : kind ∈ delimiters)
    (hL : EndsBefore (IsKind kind) L) (g : α → Span → β) :
    Diagnoses (p >>= fun a => Parser.expect kind >>= fun last => Pure.pure (g a last))
      (L * single (IsKind kind)) := by
  have hQ : ∃ t, IsKind kind t := ⟨⟨kind, ⟨0, 0⟩, ""⟩, rfl⟩
  have hclosed : PrefixFree (L * single (IsKind kind)) := hL.mul_single hQ
  rcases hQ with ⟨q, hq⟩
  refine ⟨exists_mem_closed kind hp.sentence, ?_⟩
  intro c s hhint hordered
  have hfirst := hp.meets c s hhint hordered
  rw [bind_run]
  cases hrun : p c s with
  | ok a s₁ =>
    rw [hrun] at hfirst
    rcases hfirst with @⟨_, u, _, hu, hrest, hoffers, hmaximal⟩ | _
    have hnext : ∀ t, Next (L * single (IsKind kind)) u t ↔ IsKind kind t ∨ Next L u t := by
      intro t
      rw [next_mul_single ⟨q, hq⟩, or_comm, and_iff_right hu]
    simp only [bind_run]
    by_cases hat : ∃ t ∈ s₁.rest.head?, t.kind = kind
    · rcases s₁ with ⟨_ | ⟨t, w⟩, hint, i⟩
      · rcases hat with ⟨t, ht, -⟩
        cases ht
      · have ht : t.kind = kind := by
          rcases hat with ⟨t', ht', hkind'⟩
          cases ht'
          exact hkind'
        rw [expect_cons ⟨t, ht⟩]
        refine .ok_of_prefixFree hclosed (append_mem_mul hu (singleton_mem ht)) ?_ rfl
        rw [hrest, List.append_assoc]
        rfl
    · -- The refused token is neither the bracket nor what the rule would have gone on with.
      have hnot : ∀ t ∈ s₁.rest.head?, t.kind ≠ kind := fun t ht heq => hat ⟨t, ht, heq⟩
      rcases hoffers.unexpected_run (Exact.delimiter kind hkind) with ⟨all, hrefuse, hall⟩
      rw [expect_refuse hnot, hrefuse]
      refine .error rfl hrest List.suffix_rfl span_unexpected (.inr ⟨?_, ?_, ?_, ?_⟩)
      · exact not_mem_mul_single_of_mem hL hu
      · exact ⟨q, (hnext q).mpr (.inl hq)⟩
      · intro t ht hcontinues
        rcases (hnext t).mp hcontinues with heq | hcontinues
        · exact hnot t ht heq
        · exact hmaximal t ht hcontinues
      · exact .inr ⟨all, rfl, hall.congr hnext⟩
  | error e s₁ =>
    rw [hrun] at hfirst
    rcases hfirst with _ | @⟨_, u, s₂, _, hhint₁, hrest, hleft, hplace, hcause⟩
    refine .error hhint₁ hrest hleft hplace (hcause.imp_right fun hblames => ?_)
    rcases hblames.continues with ⟨t, ht⟩
    refine hblames.lift (not_mem_mul_single_of_next hL ht) fun t => ?_
    rw [next_mul_single ⟨q, hq⟩, or_iff_left]
    exact fun h => hblames.incomplete h.1

theorem between {p : Parser α} (hp : Diagnoses p L) {opening closing : TokenKind}
    (hopening : opening ∈ delimiters) (hclosing : closing ∈ delimiters)
    (hL : EndsBefore (IsKind closing) L) :
    Diagnoses (between opening closing p) (bracketed opening closing L) := by
  have hinside : ∀ first : Span, Diagnoses (p >>= fun a => Parser.expect closing >>= fun last =>
      Pure.pure (a, first.through last)) (L * single (IsKind closing)) :=
    fun first => hp.close hclosing hL fun a last => (a, first.through last)
  exact bind (expect hopening) prefixFree_single hinside (hinside ⟨0, 0⟩).sentence

/-- A rule speaks for every language that, after the first token of the rule, has the sentences of the
    rule. -/
theorem branch {p : Parser α} {P : Token → Prop} (hp : Diagnoses p (single P * M))
    (hhint : s.hint = none) (hordered : Ordered c s.rest) {t : Token} {w : List Token}
    (hrest : s.rest = t :: w) (ht : P t) (hagree : ∀ ts, t :: ts ∈ L ↔ ts ∈ M) :
    Meets L c s (p c s) := by
  rcases hp.sentence with ⟨u, hu⟩
  rcases Language.mem_mul.mp hu with ⟨_, -, m, hm, -⟩
  refine (hp.meets c s hhint hordered).of_first hrest ((next_single_mul ⟨m, hm⟩).mpr ht) ?_
  intro ts
  rw [hagree, cons_mem_single_mul, and_iff_right ht]

/-! ## Repetition -/

/-- A rule without an empty sentence always reads something. -/
theorem enforce_run {p : Parser α} (hp : Diagnoses p L) (hnil : [] ∉ L) (hhint : s.hint = none)
    (hordered : Ordered c s.rest) : enforce p c s = p c s := by
  have hmeets := hp.meets c s hhint hordered
  cases hrun : p c s with
  | ok a s₁ =>
    rw [hrun] at hmeets
    rcases hmeets with @⟨_, u, _, hu, hrest, -, -⟩ | _
    have hpos : 0 < u.length := List.length_pos_iff.mpr fun h => hnil (h ▸ hu)
    refine enforce_of_lt hrun ?_
    rw [hrest, List.length_append]
    omega
  | error e s₁ => exact enforce_of_error hrun

theorem enforce {p : Parser α} (hp : Diagnoses p L) (hnil : [] ∉ L) : Diagnoses (enforce p) L := by
  refine ⟨hp.sentence, ?_⟩
  intro c s hhint hordered
  rw [hp.enforce_run hnil hhint hordered]
  exact hp.meets c s hhint hordered

/-- An item that fails without moving ends the repetition, and what the item refused becomes the
    hint. -/
theorem many_meets_of_stop {p : Parser α} (hp : Diagnoses p L) (hL : PrefixFree L)
    (hcommits : Commits p) (hhint : s.hint = none) (hordered : Ordered c s.rest)
    (hrun : p c s = .error e s') (hlength : s'.rest.length = s.rest.length)
    (hdeep : e.isTooDeep = false) :
    Meets L∗ c s (.ok [] { s' with hint := some (s'.hint.elim e (·.merge e)) } : Reply (List α)) := by
  have hmeets := hp.meets c s hhint hordered
  rw [hrun] at hmeets
  rcases hmeets with _ | @⟨_, u, s₁, _, hhint', hrest, hleft, hplace, hcause⟩
  -- The error stands at the first token, so nothing of an item was read.
  have hu : u = [] := by
    rcases hcommits c s e s' hhint hrun hlength with htoo | ⟨expected, rfl⟩
    · rw [hdeep] at htoo
      cases htoo
    · exact hordered.eq_nil_of_here hrest (span_unexpected.symm.trans hplace)
  subst hu
  have hrest' : s'.rest = s₁.rest := by
    refine (hleft.eq_of_length ?_).symm
    rw [hlength, hrest, List.nil_append]
  have hblames : Blames L c [] s₁ e := by
    rcases hcause with hcause | hblames
    · rw [ParseError.isTooDeep, hcause] at hdeep
      cases hdeep
    · exact hblames
  rcases hblames.continues with ⟨t, ht⟩
  have hnext : ∀ t, Next L∗ [] t ↔ Next L [] t := fun t => next_kstar_of_next hL ht
  refine .ok (Language.nil_mem_kstar L) ?_ ?_ ?_
  · rw [List.nil_append, hrest, List.nil_append, hrest']
  · refine .inr ⟨⟨t, (hnext t).mpr ht⟩, ?_⟩
    rcases hblames.cause with ⟨text, htext⟩ | ⟨expected, he, hexact⟩
    · rcases hcommits c s e s' hhint hrun hlength with htoo | ⟨expected, rfl⟩
      · rw [hdeep] at htoo
        cases htoo
      · exact absurd htext unexpected_ne_outOfRange
    · refine ⟨expected, ?_, hexact.congr hnext⟩
      simp only [hhint', Option.elim_none, he]
      exact congrArg some (unexpected_of_rest hrest'.symm)
  · intro t ht hcontinues
    simp only [hrest'] at ht
    exact hblames.refused t ht ((hnext t).mp hcontinues)

theorem many_meets {p : Parser α} (hp : Diagnoses p L) (hL : PrefixFree L) (hnil : [] ∉ L)
    (hleaves : Keeps Leaves p) (hcommits : Commits p) (c : Context) (s : State)
    (hhint : s.hint = none) (hordered : Ordered c s.rest) : Meets L∗ c s (many p c s) := by
  have hmeets := hp.meets c s hhint hordered
  rw [many]
  split
  · next a s₁ he =>
    have hlt := enforce_rest_lt he
    rw [enforce_eq_ok he] at hmeets
    rcases hmeets with @⟨_, u, _, hu, hrest, hoffers, -⟩ | _
    have hhint₁ := hoffers.hint_eq_none (hL u hu)
    have hothers := many_meets hp hL hnil hleaves hcommits c s₁ hhint₁
      (Ordered.of_append (hrest ▸ hordered))
    cases hrun : many p c s₁ with
    | ok as s₂ =>
      rw [hrun] at hothers
      have hother : Meets L∗ c s₁ (.ok (a :: as) s₂) := hothers.withValue (a :: as)
      exact hother.after hrest fun v => append_mem_kstar_iff hL hu
    | error e s₂ =>
      rw [hrun] at hothers
      exact hothers.withError.after hrest fun v => append_mem_kstar_iff hL hu
  · next e s' he =>
    rw [hp.enforce_run hnil hhint hordered] at he
    have hsuffix : s'.rest <:+ s.rest := by
      have hkept := hleaves c s
      rw [he] at hkept
      exact hkept
    rw [he] at hmeets
    split
    · next hstop =>
      exact hp.many_meets_of_stop hL hcommits hhint hordered he hstop.1 (by simpa using hstop.2)
    · next hstop =>
      rcases hmeets with _ | @⟨_, u, s₁, _, hhint', hrest, hleft, hplace, hcause⟩
      refine .error hhint' hrest hleft hplace (hcause.imp_right fun hblames => ?_)
      -- It moved before it failed, so it failed inside of an item.
      have hmoved : s'.rest.length ≠ s.rest.length := by
        intro hlength
        exact hstop ⟨hlength, by simp [hblames.isTooDeep]⟩
      have hne : u ≠ [] := by
        rintro rfl
        rw [hrest] at hmoved hsuffix
        exact hmoved (Nat.le_antisymm hsuffix.length_le hleft.length_le)
      rcases hblames.continues with ⟨t, ht⟩
      exact hblames.lift (not_mem_kstar_of_next hL ht hne) fun _ => next_kstar_of_next hL ht
termination_by s.rest.length

theorem many {p : Parser α} (hp : Diagnoses p L) (hL : PrefixFree L) (hnil : [] ∉ L)
    (hleaves : Keeps Leaves p) (hcommits : Commits p) : Diagnoses (many p) L∗ :=
  ⟨⟨[], Language.nil_mem_kstar L⟩, hp.many_meets hL hnil hleaves hcommits⟩

theorem atLeastOne {p : Parser α} (hp : Diagnoses p L) (hL : PrefixFree L) (hnil : [] ∉ L)
    (hleaves : Keeps Leaves p) (hcommits : Commits p) : Diagnoses (atLeastOne p) (L * L∗) := by
  have hmany := hp.many hL hnil hleaves hcommits
  exact (hp.enforce hnil).pair hL hmany fun a as => a :: as

end Diagnoses

/-- A phrase in brackets that fails after its opening bracket has moved. -/
theorem between_error_lt {p : Parser α} (hp : Keeps Leaves p) {opening closing : TokenKind}
    (hat : s.isAt opening = true) (h : between opening closing p c s = .error e s') :
    s'.rest.length < s.rest.length := by
  rcases s with ⟨_ | ⟨t, rest⟩, hint, i⟩
  · cases hat
  have hkind : t.kind = opening := beq_iff_eq.mp hat
  have hinside : Keeps Leaves (do
      let a ← p
      let last ← expect closing
      return (a, t.span.through last) : Parser (α × Span)) :=
    .bind leaves_stepRelation hp fun _ => .bind leaves_stepRelation
      (.accept leaves_stepRelation _ _) fun _ => .pure leaves_stepRelation _
  have hsuffix := hinside c ⟨rest, none, i⟩
  unfold between at h
  rw [bind_run, expect_cons ⟨t, hkind⟩] at h
  simp only at h
  rw [h] at hsuffix
  exact Nat.lt_succ_of_le hsuffix.length_le

end Parser

end FOmega
