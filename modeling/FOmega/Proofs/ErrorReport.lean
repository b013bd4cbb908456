import FOmega.Proofs.RuleDiagnosis
import FOmega.Proofs.Coverage

/-!
# The report of a failed parse

A source without lexical errors that is not read is reported with one error. Unless that error is the
limit on nesting, it stands at the first token that no sentence has there: what comes before it is
the beginning of a sentence, and with it no longer is. What the error lists as expected are exactly
the classes of tokens that could have stood there, and the end of the input if it could have ended
there.
-/

namespace FOmega

open FOmega.Parser

/-! ## Offsets of tokens -/

theorem sourceContext_ordered (maxDepth : Nat) (src : String) :
    Ordered (sourceContext maxDepth src) (sourceContext maxDepth src).tokens := by
  have hstart : ∀ t ∈ (lex src).tokens, t.span.offset < t.span.stop :=
    fun t ht => Nat.lt_add_of_pos_right (token_bounds ht).1
  have hincreasing : (lex src).tokens.Pairwise fun t t' => t.span.offset < t'.span.offset := by
    refine (tokens_apart src).imp_of_mem ?_
    intro t t' ht _ hle
    exact Nat.lt_of_lt_of_le (hstart t ht) hle
  refine ⟨hincreasing.filter _, ?_⟩
  intro t ht
  have hmem := (List.mem_filter.mp ht).1
  exact Nat.lt_of_lt_of_le (hstart t hmem) (token_bounds hmem).2

/-! ## Tokens at an offset -/

/-- The index of the token at an offset, or the number of tokens if none is there. -/
def tokenIndex (tokens : List Token) (offset : Nat) : Nat :=
  tokens.findIdx fun t => t.span.offset == offset

theorem tokenIndex_here {c : Context} {u : List Token} {s : State} (h : Ordered c (u ++ s.rest)) :
    tokenIndex (u ++ s.rest) (s.here c).offset = u.length := by
  induction u with
  | nil =>
    unfold tokenIndex State.here
    cases hrest : s.rest with
    | nil => rfl
    | cons t w => simp [List.findIdx_cons]
  | cons t u ih =>
    have hordered : Ordered c (u ++ s.rest) := Ordered.of_append (u := [t]) h
    have hlt : t.span.offset < (s.here c).offset :=
      Ordered.here_lt (s := ⟨t :: (u ++ s.rest), none, s.interner⟩) h rfl
    have hne : (t.span.offset == (s.here c).offset) = false := beq_eq_false_iff_ne.mpr (by omega)
    unfold tokenIndex at ih ⊢
    rw [List.cons_append, List.findIdx_cons, hne, ih hordered, List.length_cons]
    rfl

/-! ## Where a parse fails -/

/-- What a cause lists as expected. -/
def Cause.expected? : Cause → Option (List String)
  | unexpected _ expected => some expected
  | unexpectedEnd expected => some expected
  | _ => none

theorem Cause.expected?_of_isTooDeep {cause : Cause} (h : cause.isTooDeep = true) :
    cause.expected? = none := by
  cases cause <;> simp [isTooDeep] at h
  rfl

theorem expected?_unexpected {c : Context} {s : State} {expected : List String} :
    (s.unexpected c expected).cause.expected? = some expected := by
  unfold State.unexpected
  split <;> rfl

theorem Report.single_inj {label src : String} {e e' : ParseError}
    (h : Report.single label src e = Report.single label src e') : e = e' := by
  simp only [Report.single, LocatedError.ofError, Report.mk.injEq, List.cons.injEq,
    LocatedError.mk.injEq, and_true, true_and] at h
  exact h.1

namespace Phrase

variable {p : Phrase}

/-- Why the reading of a whole token list as a sentence ends after `u` in the state `s₁`: the limit on
    nesting, a token that cannot follow, or a sentence with more after it. -/
def Explains (p : Phrase) (c : Context) (u : List Token) (s₁ : State) (e : ParseError) : Prop :=
  e.isTooDeep = true ∨ Blames p.sentences c u s₁ e ∨
    (u ∈ p.sentences ∧ s₁.rest ≠ [] ∧ e = s₁.unexpected c ["end of input"])

theorem whole_fails {room : Nat} {c : Context} {s s' : State} {e : ParseError}
    (hhint : s.hint = none) (hordered : Ordered c s.rest)
    (h : (p.rule room).whole c s = .error e s') :
    ∃ u s₁, s.rest = u ++ s₁.rest ∧ e.span = s₁.here c ∧ p.Explains c u s₁ e := by
  have hmeets := (p.rule_diagnoses room).meets c s hhint hordered
  unfold whole at h
  rw [bind_run] at h
  cases hrun : p.rule room c s with
  | ok a s₁ =>
    rw [hrun] at h hmeets
    rcases hmeets with @⟨_, u, _, hu, hrest, hoffers, -⟩ | _
    have hhint₁ := hoffers.hint_eq_none (p.prefixFree_sentences u hu)
    simp only [bind_run, endOfInput, unexpected_run hhint₁] at h
    by_cases hend : s₁.rest.isEmpty = true
    · simp only [hend, if_true] at h
      cases h
    · simp only [hend] at h
      cases h
      refine ⟨u, s', hrest, span_unexpected, .inr (.inr ⟨hu, ?_, rfl⟩)⟩
      exact fun hnil => hend (List.isEmpty_iff.mpr hnil)
  | error e₁ s₁ =>
    rw [hrun] at h hmeets
    cases h
    rcases hmeets with _ | @⟨_, u, s₂, _, -, hrest, -, hplace, hcause⟩
    refine ⟨u, s₂, hrest, hplace, ?_⟩
    rcases hcause with hdeep | hblames
    · left
      rw [ParseError.isTooDeep, hdeep]
      rfl
    · exact .inr (.inl hblames)

/-- A failed parse of a source without lexical errors reports one error, which explains why the
    reading ends at the token with its offset. -/
theorem parse_fails {maxDepth : Nat} {supply : Supply} {label src : String} {report : Report}
    (hlex : (lexSkippingComments src).errors = [])
    (h : (parseWith maxDepth supply p.rule label src).result = .error report) :
    ∃ e u s₁, report = .single label src e ∧ (lexSkippingComments src).tokens = u ++ s₁.rest ∧
      e.span = s₁.here (sourceContext maxDepth src) ∧
      tokenIndex (u ++ s₁.rest) e.span.offset = u.length ∧
      p.Explains (sourceContext maxDepth src) u s₁ e := by
  have hordered := sourceContext_ordered maxDepth src
  cases hreply : (p.rule maxDepth).whole (sourceContext maxDepth src)
      (.start (sourceContext maxDepth src) (.ofSupply supply)) with
  | ok a s =>
    rw [parseWith_of_ok hlex hreply] at h
    cases h
  | error e s =>
    rw [parseWith_of_error hlex hreply] at h
    cases h
    rcases whole_fails rfl hordered hreply with ⟨u, s₁, hrest, hplace, hexplains⟩
    have htokens : (lexSkippingComments src).tokens = u ++ s₁.rest := hrest
    refine ⟨e, u, s₁, rfl, htokens, hplace, ?_, hexplains⟩
    rw [hplace]
    exact tokenIndex_here (hrest ▸ hordered)

theorem next_sentences_iff {u : List Token} {t : Token} :
    Next p.sentences u t ↔ ∃ d : p.Derivation, u ++ [t] <+: p.tokens d := by
  constructor
  · rintro ⟨w, d, hd⟩
    exact ⟨d, w, by rw [hd, List.append_assoc, List.singleton_append]⟩
  · rintro ⟨d, w, hd⟩
    exact ⟨w, d, by rw [← hd, List.append_assoc, List.singleton_append]⟩

/-- The report of a failed parse is all there is to its result. -/
theorem eq_error_of_report {α : Type} {result : Except Report α} {report : Report}
    (h : (match result with | .error r => some r | .ok _ => none) = some report) :
    result = .error report := by
  cases result with
  | ok a => cases h
  | error r =>
    cases h
    rfl

/-! ## The place of the error -/

/-- Below the limit on nesting, a reading ends after the beginning of a sentence, at a token that does
    not continue it to one, or at the end of no sentence. -/
theorem Explains.stuck {c : Context} {u : List Token} {s₁ : State} {e : ParseError}
    (h : p.Explains c u s₁ e) (hdeep : e.isTooDeep = false) :
    (∃ d : p.Derivation, u <+: p.tokens d) ∧
      (∀ t ∈ s₁.rest.head?, ¬ ∃ d : p.Derivation, u ++ [t] <+: p.tokens d) ∧
      (s₁.rest = [] → u ∉ p.sentences) := by
  rcases h with htoo | hblames | ⟨⟨d, hd⟩, hrest, -⟩
  · rw [htoo] at hdeep
    cases hdeep
  · rcases hblames.continues with ⟨t, ht⟩
    rcases next_sentences_iff.mp ht with ⟨d, hd⟩
    refine ⟨⟨d, (List.prefix_append u [t]).trans hd⟩, ?_, fun _ => hblames.incomplete⟩
    intro t ht hprefix
    exact hblames.refused t ht (next_sentences_iff.mpr hprefix)
  · refine ⟨⟨d, hd ▸ List.prefix_rfl⟩, ?_, fun hnil => absurd hnil hrest⟩
    intro t _ hprefix
    exact p.prefixFree_sentences u ⟨d, hd⟩ t (next_sentences_iff.mpr hprefix)

/-- A source without lexical errors that is not read as a sentence of a sort is reported with one
    error. Unless it is the limit on nesting, the tokens before it are the beginning of a sentence,
    and no sentence starts with these and the token at the error; at the end of the input, the
    tokens are no sentence. -/
theorem error_at_first_impossible_token (p : Phrase) (maxDepth : Nat) (supply : Supply)
    (label src : String) (report : Report) (hlex : (lexSkippingComments src).errors = [])
    (h : (parseWith maxDepth supply p.rule label src).result = .error report) :
    ∃ e : ParseError, report = .single label src e ∧ (e.isTooDeep = false →
      let tokens := (lexSkippingComments src).tokens
      let i := tokenIndex tokens e.span.offset
      (i = tokens.length ↔ e.span.offset = byteLength src.toList) ∧
      (∃ d : p.Derivation, tokens.take i <+: p.tokens d) ∧
      (i < tokens.length → ¬ ∃ d : p.Derivation, tokens.take (i + 1) <+: p.tokens d) ∧
      (i = tokens.length → ¬ ∃ d : p.Derivation, p.tokens d = tokens)) := by
  rcases parse_fails hlex h with ⟨e, u, s₁, hreport, htokens, hplace, hindex, hexplains⟩
  refine ⟨e, hreport, ?_⟩
  intro hdeep
  rcases hexplains.stuck hdeep with ⟨hbegins, hrefused, hincomplete⟩
  simp only [htokens, hindex, List.take_left, List.length_append]
  refine ⟨?_, hbegins, ?_, ?_⟩
  · have hend : u.length = u.length + s₁.rest.length ↔ s₁.rest = [] := by
      rw [← List.length_eq_zero_iff]
      omega
    rw [hend, hplace]
    constructor
    · intro hnil
      rw [State.here, hnil]
      rfl
    · intro hoffset
      cases hrest : s₁.rest with
      | nil => rfl
      | cons t w =>
        have hmem : t ∈ (sourceContext maxDepth src).tokens := by
          have hsplit : (sourceContext maxDepth src).tokens = u ++ s₁.rest := htokens
          simp [hsplit, hrest]
        have hinside := (sourceContext_ordered maxDepth src).inside t hmem
        rw [State.here, hrest] at hoffset
        exact absurd hoffset (Nat.ne_of_lt hinside)
  · intro hlt
    cases hrest : s₁.rest with
    | nil =>
      rw [hrest] at hlt
      exact absurd hlt (Nat.lt_irrefl _)
    | cons t w =>
      have htake : (u ++ t :: w).take (u.length + 1) = u ++ [t] := by
        rw [List.take_append]
        simp
      rw [htake]
      exact hrefused t (by rw [hrest]; rfl)
  · rintro hend ⟨d, hd⟩
    have hnil : s₁.rest = [] := List.length_eq_zero_iff.mp (by omega)
    rw [hnil, List.append_nil] at hd
    exact hincomplete hnil ⟨d, hd⟩

/-- In `(fun (type))` a kind is missing after the fifth of the six tokens. -/
theorem error_at_missing_kind :
    let src := "(fun (type))"
    let e : ParseError := ⟨⟨11, 1⟩, .unexpected "`)`" ["`(`"]⟩
    (parseWith 2 .empty kind.rule "k" src).result = .error (.single "k" src e) ∧
      (∃ d : KindDerivation, (lexSkippingComments src).tokens.take 5 <+: d.tokens) ∧
      ¬ ∃ d : KindDerivation, (lexSkippingComments src).tokens.take 6 <+: d.tokens := by
  intro src e
  have hlex : (lexSkippingComments src).errors = [] := by decide +kernel
  have hlength : (lexSkippingComments src).tokens.length = 6 := by decide +kernel
  have hindex : tokenIndex (lexSkippingComments src).tokens e.span.offset = 5 := by decide +kernel
  have hfails : (parseWith 2 .empty Grammar.kind "k" src).result = .error (.single "k" src e) := by
    decide +kernel
  rcases error_at_first_impossible_token kind 2 .empty "k" src _ hlex hfails with
    ⟨e', hreport, hplace⟩
  rcases Report.single_inj hreport with rfl
  simp only [hindex, hlength] at hplace
  rcases hplace rfl with ⟨-, hbegins, himpossible, -⟩
  exact ⟨hfails, hbegins, himpossible (by decide)⟩

/-! ## The expectations -/

/-- The expectations of the error of a failed parse have no repeats and name nothing but classes of
    tokens and the end of the input. A token is of one of these classes exactly if some sentence
    starts with the tokens before the error and then has this token, and the end of the input is
    among them exactly if the tokens before the error are a sentence. -/
theorem expectations_exact (p : Phrase) (maxDepth : Nat) (supply : Supply) (label src : String)
    (report : Report) (hlex : (lexSkippingComments src).errors = [])
    (h : (parseWith maxDepth supply p.rule label src).result = .error report) :
    ∃ e : ParseError, report = .single label src e ∧
      ∀ expected, e.cause.expected? = some expected →
        let tokens := (lexSkippingComments src).tokens
        let i := tokenIndex tokens e.span.offset
        expected.Nodup ∧
        (∀ x ∈ expected, x = "end of input" ∨ ∃ t : Token, x ∈ t.classes) ∧
        (∀ t, (∃ d : p.Derivation, tokens.take i ++ [t] <+: p.tokens d) ↔
          ∃ x ∈ expected, x ∈ t.classes) ∧
        ("end of input" ∈ expected ↔ ∃ d : p.Derivation, p.tokens d = tokens.take i) := by
  rcases parse_fails hlex h with ⟨e, u, s₁, hreport, htokens, hplace, hindex, hexplains⟩
  refine ⟨e, hreport, ?_⟩
  intro expected hexpected
  simp only [htokens, hindex, List.take_left, ← next_sentences_iff]
  rcases hexplains with hdeep | hblames | ⟨hu, -, rfl⟩
  · rw [Cause.expected?_of_isTooDeep hdeep] at hexpected
    cases hexpected
  · rcases hblames.cause with ⟨text, htext⟩ | ⟨others, rfl, hexact⟩
    · rw [htext] at hexpected
      cases hexpected
    · rw [expected?_unexpected] at hexpected
      cases hexpected
      refine ⟨hexact.nodup, fun x hx => .inr (hexact.named x hx), hexact.classes, ?_⟩
      exact ⟨fun hmem => absurd hmem hexact.endOfInput_not_mem,
        fun hmem => absurd hmem hblames.incomplete⟩
  · -- After a sentence only the end of the input can follow, which is no token.
    rw [expected?_unexpected] at hexpected
    cases hexpected
    refine ⟨by decide, by simp, ?_, fun _ => hu, fun _ => List.mem_cons_self⟩
    intro t
    simp only [List.mem_singleton, exists_eq_left]
    exact ⟨fun hnext => absurd hnext (p.prefixFree_sentences u hu t),
      fun hmem => absurd hmem Token.endOfInput_not_mem_classes⟩

/-- After `[f x` a further argument or the closing bracket can follow. -/
theorem argument_or_bracket_expected :
    let src := "[f x"
    let e : ParseError := ⟨⟨4, 0⟩, .unexpectedEnd ["`(`", "`[`", "`]`", "type variable"]⟩
    (parseWith 2 .empty type.rule "t" src).result = .error (.single "t" src e) ∧
      ∀ t, (∃ d : TypeDerivation, (lexSkippingComments src).tokens ++ [t] <+: d.tokens) ↔
        ∃ x ∈ ["`(`", "`[`", "`]`", "type variable"], x ∈ t.classes := by
  intro src e
  have hlex : (lexSkippingComments src).errors = [] := by decide +kernel
  have hlength : (lexSkippingComments src).tokens.length = 3 := by decide +kernel
  have hindex : tokenIndex (lexSkippingComments src).tokens e.span.offset = 3 := by decide +kernel
  have hfails : (parseWith 2 .empty type.rule "t" src).result = .error (.single "t" src e) := by
    apply eq_error_of_report
    decide +kernel
  rcases expectations_exact type 2 .empty "t" src _ hlex hfails with ⟨e', hreport, hexpected⟩
  rcases Report.single_inj hreport with rfl
  rcases hexpected _ rfl with ⟨-, -, hclasses, -⟩
  simp only [hindex, ← hlength, List.take_length] at hclasses
  exact ⟨hfails, hclasses⟩

end Phrase

end FOmega
