import FOmega.Proofs.Derivation
import FOmega.Proofs.Invariant

/-!
# What the combinators accept

For each combinator two facts: what it answers on tokens that it accepts, and which tokens it must
have been given if it accepts. A rule for one token accepts a terminal and nothing else; a choice
between forms that start with different keywords accepts what the form of the next keyword accepts;
a repetition accepts a run of items and stops before something that starts none.
-/

namespace FOmega

open Terminal

namespace Parser

variable {α β δ : Type}

/-! ## Sequence -/

theorem pure_run (a : α) (c : Context) (s : State) : (pure a : Parser α) c s = .ok a s := rfl

theorem bind_run (p : Parser α) (f : α → Parser β) (c : Context) (s : State) :
    (p >>= f) c s = match p c s with
      | .ok a s' => f a c s'
      | .error e s' => .error e s' := rfl

theorem bind_eq_ok {p : Parser α} {f : α → Parser β} {c : Context} {s s' : State} {b : β}
    (h : (p >>= f) c s = .ok b s') : ∃ a s₁, p c s = .ok a s₁ ∧ f a c s₁ = .ok b s' := by
  rw [bind_run] at h
  split at h
  · next a s₁ hp => exact ⟨a, s₁, hp, h⟩
  · cases h

theorem pure_eq_ok {a b : α} {c : Context} {s s' : State}
    (h : (pure a : Parser α) c s = .ok b s') : b = a ∧ s' = s := by
  rw [pure_run] at h
  cases h
  exact ⟨rfl, rfl⟩

/-! ## Single tokens -/

theorem accept_cons {f : Token → Option α} {t : Token} {a : α} (expected : List String)
    (h : f t = some a) (c : Context) (rest : List Token) (hint : Option ParseError) (i : Interner) :
    accept f expected c ⟨t :: rest, hint, i⟩ = .ok a ⟨rest, none, i⟩ := by
  simp [accept, h, State.advance]

theorem accept_refuse {f : Token → Option α} {s : State} (expected : List String)
    (h : s.rest.head?.bind f = none) (c : Context) :
    accept f expected c s = unexpected expected c s := by
  simp [accept, h]

/-- Without a hint, a refusal is not about nesting, and it stays where it is. -/
theorem unexpected_cons (expected : List String) (c : Context) (t : Token) (rest : List Token)
    (i : Interner) :
    ∃ e hint, (unexpected expected : Parser α) c ⟨t :: rest, none, i⟩ =
      .error e ⟨t :: rest, hint, i⟩ ∧ e.isTooDeep = false :=
  ⟨_, _, rfl, rfl⟩

/-- A rule for one token reads a token that it accepts. -/
theorem accept_eq_ok {f : Token → Option α} {expected : List String} {c : Context} {s s' : State}
    {a : α} (h : accept f expected c s = .ok a s') :
    ∃ t, f t = some a ∧ s.rest = t :: s'.rest ∧ s'.interner = s.interner := by
  obtain ⟨rest, hint, i⟩ := s
  cases hf : rest.head?.bind f with
  | none =>
    rw [accept_refuse expected hf] at h
    cases h
  | some b =>
    cases rest with
    | nil => cases hf
    | cons t rest =>
      rw [accept_cons expected hf] at h
      cases h
      exact ⟨t, hf, rfl, rfl⟩

theorem expect_cons {kind : TokenKind} (o : Delimiter kind) (c : Context) (rest : List Token)
    (hint : Option ParseError) (i : Interner) :
    expect kind c ⟨o.token :: rest, hint, i⟩ = .ok o.token.span ⟨rest, none, i⟩ :=
  accept_cons _ (if_pos o.kind_eq) c rest hint i

theorem expect_eq_ok {kind : TokenKind} {c : Context} {s s' : State} {span : Span}
    (h : expect kind c s = .ok span s') :
    ∃ o : Delimiter kind, s.rest = o.token :: s'.rest := by
  obtain ⟨t, ht, hrest, -⟩ := accept_eq_ok h
  by_cases hk : t.kind = kind
  · exact ⟨⟨t, hk⟩, hrest⟩
  · simp [hk] at ht

theorem keyword_cons {word : String} (w : Keyword word) (c : Context) (rest : List Token)
    (hint : Option ParseError) (i : Interner) :
    keyword word c ⟨w.token :: rest, hint, i⟩ = .ok w.token.span ⟨rest, none, i⟩ :=
  accept_cons _ (if_pos ⟨w.kind_eq, w.text_eq⟩) c rest hint i

theorem keyword_eq_ok {word : String} {c : Context} {s s' : State} {span : Span}
    (h : keyword word c s = .ok span s') :
    ∃ w : Keyword word, s.rest = w.token :: s'.rest := by
  obtain ⟨t, ht, hrest, -⟩ := accept_eq_ok h
  by_cases hw : t.kind = .ident ∧ t.text = word
  · exact ⟨⟨t, hw.1, hw.2⟩, hrest⟩
  · simp [hw] at ht

/-- A keyword is refused before any other token. -/
theorem keyword_refuse {word : String} {t : Token} (h : t.text ≠ word) (c : Context)
    (rest : List Token) (hint : Option ParseError) (i : Interner) :
    ∃ e, keyword word c ⟨t :: rest, hint, i⟩ = .error e ⟨t :: rest, none, i⟩ := by
  have hnone : ¬ (t.kind = .ident ∧ t.text = word) := fun hw => h hw.2
  refine ⟨_, accept_refuse _ ?_ c⟩
  simp [hnone]

theorem identifier_cons (x : Identifier) (what : String) (c : Context) (rest : List Token)
    (hint : Option ParseError) (i : Interner) :
    identifier what c ⟨x.token :: rest, hint, i⟩ =
      .ok (x.token.text, x.token.span) ⟨rest, none, i⟩ :=
  accept_cons _ (if_pos x.kind_eq) c rest hint i

theorem identifier_eq_ok {what : String} {c : Context} {s s' : State} {found : String × Span}
    (h : identifier what c s = .ok found s') : ∃ x : Identifier, s.rest = x.token :: s'.rest := by
  obtain ⟨t, ht, hrest, -⟩ := accept_eq_ok h
  by_cases hk : t.kind = .ident
  · exact ⟨⟨t, hk⟩, hrest⟩
  · simp [hk] at ht

theorem isAt_cons (t : Token) (kind : TokenKind) (c : Context) (rest : List Token)
    (hint : Option ParseError) (i : Interner) :
    isAt kind c ⟨t :: rest, hint, i⟩ = .ok (t.kind == kind) ⟨t :: rest, hint, i⟩ := rfl

theorem isAt_branch {kind : TokenKind} {p q : Parser α} {c : Context} {s s' : State} {a : α}
    (h : (isAt kind >>= fun here => if here = true then p else q) c s = .ok a s') :
    p c s = .ok a s' ∨ q c s = .ok a s' := by
  obtain ⟨here, s₁, hat, h⟩ := bind_eq_ok h
  cases hat
  split at h
  · exact .inl h
  · exact .inr h

/-! ## Forms that start with a keyword -/

/-- The rule of a form: its keyword, and then what the form has after it. -/
def formRule (form : String × Parser α) : Parser α := do
  let _ ← keyword form.1
  form.2

/-- Of forms with different keywords, the keyword of a later one is not that of the first. -/
theorem text_ne_of_mem {first form : String × Parser α} {forms : List (String × Parser α)}
    (hfirst : first.1 ∉ forms.map Prod.fst) (hform : form ∈ forms) (w : Keyword form.1) :
    w.token.text ≠ first.1 := by
  intro heq
  apply hfirst
  rw [← heq, w.text_eq]
  exact List.mem_map_of_mem hform

/-- An attempt at the form of another keyword changes nothing. -/
theorem attempt_form_refuse {form : String × Parser α} {t : Token} (h : t.text ≠ form.1)
    (c : Context) (rest : List Token) (hint : Option ParseError) (i : Interner) :
    ∃ e, attempt (formRule form) c ⟨t :: rest, hint, i⟩ = .error e ⟨t :: rest, hint, i⟩ := by
  obtain ⟨e, he⟩ := keyword_refuse h c rest hint i
  refine ⟨e, ?_⟩
  simp only [attempt, formRule, bind_run, he]

theorem attempt_form_cons {form : String × Parser α} (w : Keyword form.1) {c : Context}
    {rest : List Token} {i : Interner} {a : α} {s' : State}
    (h : form.2 c ⟨rest, none, i⟩ = .ok a s') (hint : Option ParseError) :
    attempt (formRule form) c ⟨w.token :: rest, hint, i⟩ = .ok a s' := by
  simp only [attempt, formRule, bind_run, keyword_cons w, h]

/-- Before the keyword of a form, the alternatives after a first failure answer as the form does. -/
theorem choiceAfter_forms {forms : List (String × Parser α)} (hnodup : (forms.map Prod.fst).Nodup)
    {form : String × Parser α} (hform : form ∈ forms) (w : Keyword form.1) {c : Context}
    {rest : List Token} {i : Interner} {a : α} {s' : State}
    (h : form.2 c ⟨rest, none, i⟩ = .ok a s') (hint : Option ParseError) (best : ParseError) :
    choiceAfter best (forms.map formRule) c ⟨w.token :: rest, hint, i⟩ = .ok a s' := by
  induction forms generalizing best with
  | nil => cases hform
  | cons first forms ih =>
    have hfirst := List.nodup_cons.mp hnodup
    simp only [List.map_cons, choiceAfter]
    rcases List.mem_cons.mp hform with rfl | hform
    · rw [attempt_form_cons w h hint]
    · -- The keywords differ, so the first form gives way without a trace.
      have hne := text_ne_of_mem hfirst.1 hform w
      obtain ⟨e, he⟩ := attempt_form_refuse hne c rest hint i
      simp only [he]
      exact ih hfirst.2 hform _

/-- Before the keyword of its `k`-th form, a choice of forms answers as that form does. -/
theorem choice_forms {forms : List (String × Parser α)} (hnodup : (forms.map Prod.fst).Nodup)
    {word : String} {p : Parser α} (k : Nat) (hk : forms[k]? = some (word, p)) (w : Keyword word)
    {c : Context} {rest : List Token} {i : Interner} {a : α} {s' : State}
    (h : p c ⟨rest, none, i⟩ = .ok a s') (hint : Option ParseError) :
    choice (forms.map formRule) c ⟨w.token :: rest, hint, i⟩ = .ok a s' := by
  have hform : (word, p) ∈ forms := List.mem_of_getElem? hk
  change Keyword (word, p).1 at w
  clear hk
  cases forms with
  | nil => cases hform
  | cons first forms =>
    have hfirst := List.nodup_cons.mp hnodup
    simp only [List.map_cons, choice]
    rcases List.mem_cons.mp hform with rfl | hform
    · rw [attempt_form_cons w h hint]
    · have hne := text_ne_of_mem hfirst.1 hform w
      obtain ⟨e, he⟩ := attempt_form_refuse hne c rest hint i
      simp only [he]
      exact choiceAfter_forms hfirst.2 hform w h hint e

theorem attempt_eq_ok {p : Parser α} {c : Context} {s s' : State} {a : α}
    (h : attempt p c s = .ok a s') : p c s = .ok a s' := by
  unfold attempt at h
  cases hp : p c s with
  | ok b s₁ =>
    rw [hp] at h
    exact h
  | error e s₁ =>
    rw [hp] at h
    cases h

theorem attempt_eq_error {p : Parser α} {c : Context} {s s' : State} {e : ParseError}
    (h : attempt p c s = .error e s') : s'.rest = s.rest := by
  unfold attempt at h
  cases hp : p c s with
  | ok b s₁ =>
    rw [hp] at h
    cases h
  | error e₁ s₁ =>
    rw [hp] at h
    cases h
    rfl

/-- What a choice accepts, one of its alternatives accepts at the same place, if with other names
    seen before it. -/
theorem choiceAfter_eq_ok {ps : List (Parser α)} {best : ParseError} {c : Context} {s s' : State}
    {a : α} (h : choiceAfter best ps c s = .ok a s') :
    ∃ p ∈ ps, ∃ s₁, s₁.rest = s.rest ∧ p c s₁ = .ok a s' := by
  induction ps generalizing best s with
  | nil => cases h
  | cons p ps ih =>
    simp only [choiceAfter] at h
    cases hp : attempt p c s with
    | ok b s₁ =>
      rw [hp] at h
      cases h
      exact ⟨p, List.mem_cons_self, s, rfl, attempt_eq_ok hp⟩
    | error e s₁ =>
      rw [hp] at h
      obtain ⟨q, hq, s₂, hrest, hok⟩ := ih h
      exact ⟨q, List.mem_cons_of_mem p hq, s₂, hrest.trans (attempt_eq_error hp), hok⟩

theorem choice_eq_ok {ps : List (Parser α)} {c : Context} {s s' : State} {a : α}
    (h : choice ps c s = .ok a s') : ∃ p ∈ ps, ∃ s₁, s₁.rest = s.rest ∧ p c s₁ = .ok a s' := by
  cases ps with
  | nil => cases h
  | cons p ps =>
    simp only [choice] at h
    cases hp : attempt p c s with
    | ok b s₁ =>
      rw [hp] at h
      cases h
      exact ⟨p, List.mem_cons_self, s, rfl, attempt_eq_ok hp⟩
    | error e s₁ =>
      rw [hp] at h
      obtain ⟨q, hq, s₂, hrest, hok⟩ := choiceAfter_eq_ok h
      exact ⟨q, List.mem_cons_of_mem p hq, s₂, hrest.trans (attempt_eq_error hp), hok⟩

/-- A choice of forms that accepts has read the keyword of one of them, and that form accepts what
    follows. -/
theorem choice_forms_eq_ok {forms : List (String × Parser α)} {c : Context} {s s' : State} {a : α}
    (h : choice (forms.map formRule) c s = .ok a s') :
    ∃ form ∈ forms, ∃ (w : Keyword form.1) (s₁ : State),
      s.rest = w.token :: s₁.rest ∧ form.2 c s₁ = .ok a s' := by
  obtain ⟨p, hp, s₀, hrest, hok⟩ := choice_eq_ok h
  obtain ⟨form, hform, rfl⟩ := List.mem_map.mp hp
  obtain ⟨span, s₁, hword, hbody⟩ := bind_eq_ok hok
  obtain ⟨w, hw⟩ := keyword_eq_ok hword
  exact ⟨form, hform, w, s₁, hrest.symm.trans hw, hbody⟩

/-! ## Brackets -/

/-- A phrase between its brackets is read as a whole when its inside is read up to the closing
    bracket. -/
theorem between_cons {opening closing : TokenKind} (o : Delimiter opening) (cl : Delimiter closing)
    (ts : List Token) {p : Parser α} {c : Context} {rest : List Token} {hint : Option ParseError}
    {i i' : Interner} {a : α}
    (h : p c ⟨ts ++ cl.token :: rest, none, i⟩ = .ok a ⟨cl.token :: rest, hint, i'⟩)
    (hint₀ : Option ParseError) :
    between opening closing p c ⟨o.token :: (ts ++ [cl.token]) ++ rest, hint₀, i⟩ =
      .ok (a, o.token.span.through cl.token.span) ⟨rest, none, i'⟩ := by
  have hts : o.token :: (ts ++ [cl.token]) ++ rest = o.token :: (ts ++ cl.token :: rest) := by simp
  simp only [between, bind_run, hts, expect_cons o, h, expect_cons cl, pure_run]

/-- A form between parentheses is read when what it has after its keyword is read up to the closing
    parenthesis. -/
theorem between_form {forms : List (String × Parser α)} (hnodup : (forms.map Prod.fst).Nodup)
    {word : String} {p : Parser α} (k : Nat) (hk : forms[k]? = some (word, p))
    (o : Delimiter .lparen) (w : Keyword word) (cl : Delimiter .rparen) (ts : List Token)
    {c : Context} {rest : List Token} {hint : Option ParseError} {i i' : Interner} {a : α}
    (h : p c ⟨ts ++ cl.token :: rest, none, i⟩ = .ok a ⟨cl.token :: rest, hint, i'⟩)
    (hint₀ : Option ParseError) :
    between .lparen .rparen (choice (forms.map formRule)) c
        ⟨o.token :: w.token :: (ts ++ [cl.token]) ++ rest, hint₀, i⟩ =
      .ok (a, o.token.span.through cl.token.span) ⟨rest, none, i'⟩ :=
  between_cons o cl (w.token :: ts) (choice_forms hnodup k hk w h none) hint₀

theorem between_eq_ok {opening closing : TokenKind} {p : Parser α} {c : Context} {s s' : State}
    {a : α} {span : Span} (h : between opening closing p c s = .ok (a, span) s') :
    ∃ (o : Delimiter opening) (cl : Delimiter closing) (s₁ s₂ : State),
      s.rest = o.token :: s₁.rest ∧ p c s₁ = .ok a s₂ ∧ s₂.rest = cl.token :: s'.rest := by
  obtain ⟨first, s₁, hopen, h⟩ := bind_eq_ok h
  obtain ⟨b, s₂, hp, h⟩ := bind_eq_ok h
  obtain ⟨last, s₃, hclose, h⟩ := bind_eq_ok h
  obtain ⟨heq, rfl⟩ := pure_eq_ok h
  cases heq
  obtain ⟨o, ho⟩ := expect_eq_ok hopen
  obtain ⟨cl, hcl⟩ := expect_eq_ok hclose
  exact ⟨o, cl, s₁, s₂, ho, hp, hcl⟩

/-! ## Repetition -/

theorem enforce_eq_ok {p : Parser α} {c : Context} {s s' : State} {a : α}
    (h : enforce p c s = .ok a s') : p c s = .ok a s' := by
  unfold enforce at h
  cases hp : p c s with
  | ok b s₁ =>
    simp only [hp] at h
    split at h
    · exact h
    · cases h
  | error e s₁ =>
    simp only [hp] at h
    cases h

theorem enforce_of_lt {p : Parser α} {c : Context} {s s' : State} {a : α}
    (h : p c s = .ok a s') (hlt : s'.rest.length < s.rest.length) :
    enforce p c s = .ok a s' := by
  simp only [enforce, h, hlt, if_true]

theorem enforce_of_error {p : Parser α} {c : Context} {s s' : State} {e : ParseError}
    (h : p c s = .error e s') : enforce p c s = .error e s' := by
  simp only [enforce, h]

/-- A repetition goes on after an item that was read. -/
theorem many_of_ok {p : Parser α} {c : Context} {s s₁ : State} {a : α}
    (h : enforce p c s = .ok a s₁) :
    many p c s = match many p c s₁ with
      | .ok as s₂ => .ok (a :: as) s₂
      | .error e s₂ => .error e s₂ := by
  rw [many]
  split
  · next h' =>
    cases h.symm.trans h'
    rfl
  · next h' => cases h.symm.trans h'

/-- A repetition ends at an item that fails, well if the item read nothing and is not too deep. -/
theorem many_of_error {p : Parser α} {c : Context} {s s₁ : State} {e : ParseError}
    (h : enforce p c s = .error e s₁) :
    many p c s = if s₁.rest.length = s.rest.length ∧ ¬ e.isTooDeep then
        .ok [] { s₁ with hint := some (s₁.hint.elim e (·.merge e)) }
      else .error e s₁ := by
  rw [many]
  split
  · next h' => cases h.symm.trans h'
  · next h' =>
    cases h.symm.trans h'
    rfl

theorem many_step {p : Parser α} {c : Context} {s s₁ s₂ : State} {a : α} {as : List α}
    (h : enforce p c s = .ok a s₁) (hrest : many p c s₁ = .ok as s₂) :
    many p c s = .ok (a :: as) s₂ := by
  rw [many_of_ok h, hrest]

theorem many_stop {p : Parser α} {c : Context} {s s₁ : State} {e : ParseError}
    (h : enforce p c s = .error e s₁) (hlen : s₁.rest.length = s.rest.length)
    (hdeep : e.isTooDeep = false) : ∃ hint, many p c s = .ok [] { s₁ with hint := hint } := by
  rw [many_of_error h, if_pos ⟨hlen, by simp [hdeep]⟩]
  exact ⟨_, rfl⟩

/-- A repetition does not stop at the nesting limit, but fails there. -/
theorem many_tooDeep (c : Context) (s : State) :
    many (tooDeep : Parser α) c s = .error ⟨s.here c, .tooDeep c.maxDepth⟩ s := by
  rw [many]
  simp [enforce, tooDeep, ParseError.isTooDeep, Cause.isTooDeep]

/-- Before something that starts no item, a repetition reads exactly the items before it. -/
theorem many_items {p : Parser α} {c : Context} {t : Token} {rest : List Token}
    (hstop : ∀ i, ∃ e hint, p c ⟨t :: rest, none, i⟩ = .error e ⟨t :: rest, hint, i⟩ ∧
      e.isTooDeep = false)
    {tokens : δ → List Token} {read : δ → StateM Interner α} {ds : List δ}
    (hne : ∀ d ∈ ds, tokens d ≠ [])
    (hread : ∀ d ∈ ds, ∀ rest hint i,
      p c ⟨tokens d ++ rest, hint, i⟩ = .ok (read d i).1 ⟨rest, none, (read d i).2⟩)
    (i : Interner) :
    ∃ hint, many p c ⟨ds.flatMap tokens ++ t :: rest, none, i⟩ =
      .ok (ds.mapM' read i).1 ⟨t :: rest, hint, (ds.mapM' read i).2⟩ := by
  induction ds generalizing i with
  | nil =>
    obtain ⟨e, hint, he, hdeep⟩ := hstop i
    obtain ⟨hint', h⟩ := many_stop (enforce_of_error he) rfl hdeep
    exact ⟨hint', h⟩
  | cons d ds ih =>
    have hd := hread d List.mem_cons_self (ds.flatMap tokens ++ t :: rest) none i
    have hpos : 0 < (tokens d).length := List.length_pos_iff.mpr (hne d List.mem_cons_self)
    obtain ⟨hint, h⟩ := ih (fun d hd => hne d (List.mem_cons_of_mem _ hd))
      (fun d hd => hread d (List.mem_cons_of_mem _ hd)) (read d i).2
    refine ⟨hint, ?_⟩
    rw [List.flatMap_cons, List.append_assoc]
    refine many_step (enforce_of_lt hd ?_) h
    simp only [List.length_append]
    omega

theorem atLeastOne_cons {p : Parser α} {c : Context} {ts rest : List Token}
    {hint hint₁ : Option ParseError} {i i₁ : Interner} {a : α} {as : List α} {s' : State}
    (hne : ts ≠ []) (h : p c ⟨ts ++ rest, hint, i⟩ = .ok a ⟨rest, hint₁, i₁⟩)
    (hmany : many p c ⟨rest, hint₁, i₁⟩ = .ok as s') :
    atLeastOne p c ⟨ts ++ rest, hint, i⟩ = .ok (a :: as) s' := by
  have hpos : 0 < ts.length := List.length_pos_iff.mpr hne
  have hlt : rest.length < (ts ++ rest).length := by
    rw [List.length_append]
    omega
  simp only [atLeastOne, bind_run, enforce_of_lt h hlt, hmany, pure_run]

/-- A repetition that accepts has read items in a row. -/
theorem many_eq_ok {p : Parser α} {c : Context} {tokens : δ → List Token} {fits : δ → Prop}
    (hkeeps : Keeps Leaves p)
    (hp : ∀ {s s' a}, p c s = .ok a s' → ∃ d, fits d ∧ s.rest = tokens d ++ s'.rest)
    {s s' : State} {as : List α} (h : many p c s = .ok as s') :
    ∃ ds : List δ, (∀ d ∈ ds, fits d) ∧ s.rest = ds.flatMap tokens ++ s'.rest := by
  rw [many] at h
  split at h
  · next a s₁ he =>
    have hlt := enforce_rest_lt he
    obtain ⟨d, hfit, hd⟩ := hp (enforce_eq_ok he)
    cases hm : many p c s₁ with
    | error e s₂ =>
      simp only [hm] at h
      cases h
    | ok bs s₂ =>
      simp only [hm] at h
      cases h
      obtain ⟨ds, hfits, hds⟩ := many_eq_ok hkeeps hp hm
      refine ⟨d :: ds, List.forall_mem_cons.mpr ⟨hfit, hfits⟩, ?_⟩
      rw [hd, hds, List.flatMap_cons, List.append_assoc]
  · next e s₁ he =>
    -- The item that failed here read nothing, and what it left is an end of what it was given.
    have hsuffix := (Keeps.enforce hkeeps).of_error he
    split at h
    · next hstop =>
      cases h
      exact ⟨[], by simp, (hsuffix.eq_of_length hstop.1).symm⟩
    · cases h
termination_by s.rest.length

end Parser

end FOmega
