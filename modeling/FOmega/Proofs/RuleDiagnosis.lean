import FOmega.Proofs.Production

/-!
# What the rules of the grammar report

The rule of each sort diagnoses the sentences of the sort, whatever room it has. The sentences with a
given first token are those of one production, so the branch that a rule takes at that token speaks
for the whole sort; and where no production starts with the next token, the rule lists the tokens
with which one does.
-/

namespace FOmega

open Terminal FOmega.Parser
open scoped Computability

namespace Grammar

variable {α : Type} {c : Context} {s s' : State} {e : ParseError} {t : Token} {room : Nat}

/-! ## Looking at the next token -/

theorem isAt_run {kind : TokenKind} {p q : Parser α} :
    (isAt kind >>= fun here => if here = true then p else q) c s =
      if s.isAt kind = true then p c s else q c s := by
  simp only [bind_run, isAt]
  split <;> rfl

theorem exists_cons_of_isAt {kind : TokenKind} (h : s.isAt kind = true) :
    ∃ t w, s.rest = t :: w ∧ t.kind = kind := by
  unfold State.isAt at h
  split at h
  · next t w hrest => exact ⟨t, w, hrest, beq_iff_eq.mp h⟩
  · cases h

theorem kind_ne_of_isAt {kind : TokenKind} (h : ¬ s.isAt kind = true) :
    ∀ t ∈ s.rest.head?, t.kind ≠ kind := by
  intro t ht hkind
  apply h
  unfold State.isAt
  split
  · next t' w hrest =>
    rw [hrest] at ht
    cases ht
    exact beq_iff_eq.mpr hkind
  · next hrest =>
    rw [hrest] at ht
    cases ht

theorem map_eq_error {β : Type} {p : Parser α} {g : α → β}
    (h : (p >>= fun a => pure (g a)) c s = .error e s') : p c s = .error e s' := by
  rw [bind_run] at h
  cases hrun : p c s with
  | ok a s₁ =>
    rw [hrun] at h
    cases h
  | error e₁ s₁ =>
    rw [hrun] at h
    cases h
    rfl

/-! ## Names, numbers and built-ins -/

theorem spannedName_diagnoses : Diagnoses spannedName (single (IsKind .ident)) :=
  (Diagnoses.identifier (by decide)).follow fun _ _ _ => ⟨_, _, rfl⟩

theorem spannedTypeName_diagnoses : Diagnoses spannedTypeName (single (IsKind .ident)) :=
  (Diagnoses.identifier (by decide)).follow fun _ _ _ => ⟨_, _, rfl⟩

theorem name_diagnoses : Diagnoses name (single (IsKind .ident)) :=
  spannedName_diagnoses.map Prod.fst

theorem typeName_diagnoses : Diagnoses typeName (single (IsKind .ident)) :=
  spannedTypeName_diagnoses.map Prod.fst

theorem builtinFunction_diagnoses : Diagnoses builtinFunction (single IsBuiltinFunction) := by
  refine .accept ?_ .builtinFunction ⟨⟨.ident, ⟨0, 0⟩, "trace"⟩, rfl, by decide⟩
  intro t
  by_cases h : t.kind = .ident <;> simp [IsBuiltinFunction, h]

theorem builtinType_diagnoses : Diagnoses builtinType (single IsBuiltinType) := by
  refine .accept ?_ .builtinType ⟨⟨.ident, ⟨0, 0⟩, "unit"⟩, rfl, by decide⟩
  intro t
  by_cases h : t.kind = .ident <;> simp [IsBuiltinType, h]

/-- A number out of range is blamed for itself. -/
theorem natural_diagnoses : Diagnoses (natural wordBound) (single IsNatural) := by
  have hsome : IsNatural ⟨.int 0, ⟨0, 0⟩, ""⟩ := ⟨0, rfl, by decide⟩
  have hfirst : ∃ t, Next (single IsNatural) [] t := ⟨_, next_single.mpr ⟨rfl, hsome⟩⟩
  have hnil : [] ∉ single IsNatural := by
    rintro ⟨t, -, hnil⟩
    cases hnil
  refine ⟨⟨_, singleton_mem hsome⟩, ?_⟩
  intro c s hhint _
  unfold natural
  split
  · next n span text rest hrest =>
    split
    · next hrange =>
      refine .ok_of_prefixFree (u := [⟨.int n, span, text⟩]) prefixFree_single
        (singleton_mem ⟨n, rfl, hrange⟩) ?_ ?_
      · simp [State.advance, hrest]
      · simp [State.advance, hrest]
    · next hrange =>
      refine .error (u := []) hhint rfl List.suffix_rfl ?_ (.inr ⟨hnil, hfirst, ?_, ?_⟩)
      · simp [State.here, hrest]
      · intro t ht hnext
        rw [hrest] at ht
        cases ht
        rcases (next_single.mp hnext).2 with ⟨m, hm, hrange'⟩
        cases hm
        exact hrange hrange'
      · exact .inl ⟨text, rfl⟩
  · next hother =>
    rw [unexpected_run hhint]
    refine .refuse hhint hnil hfirst ?_ (Exact.natural.congr fun t => by simp [next_single])
    intro t ht hnext
    rcases (next_single.mp hnext).2 with ⟨n, hkind, -⟩
    rcases t with ⟨kind, span, text⟩
    cases hkind
    cases hrest : s.rest with
    | nil =>
      rw [hrest] at ht
      cases ht
    | cons t' rest =>
      rw [hrest] at ht
      cases ht
      exact hother n span text rest hrest

/-! ## Constants -/

theorem isLiteral_iff :
    Phrase.IsLiteral t ↔ (∃ n, t.kind = .int n) ∨ (∃ x, t.kind = .char x) ∨
      (∃ x, t.kind = .string x) ∨ IsWord "unit" t ∨ IsWord "True" t ∨ IsWord "False" t := by
  constructor
  · rintro ⟨k, hk⟩
    cases hk with
    | integer h => exact .inl ⟨_, h⟩
    | char h => exact .inr (.inl ⟨_, h⟩)
    | string h => exact .inr (.inr (.inl ⟨_, h⟩))
    | unit h htext => exact .inr (.inr (.inr (.inl ⟨h, htext⟩)))
    | true h htext => exact .inr (.inr (.inr (.inr (.inl ⟨h, htext⟩))))
    | false h htext => exact .inr (.inr (.inr (.inr (.inr ⟨h, htext⟩))))
  · rintro (⟨n, h⟩ | ⟨x, h⟩ | ⟨x, h⟩ | ⟨h, htext⟩ | ⟨h, htext⟩ | ⟨h, htext⟩)
    · exact ⟨_, .integer h⟩
    · exact ⟨_, .char h⟩
    · exact ⟨_, .string h⟩
    · exact ⟨_, .unit h htext⟩
    · exact ⟨_, .true h htext⟩
    · exact ⟨_, .false h htext⟩

theorem next_constant :
    Next Phrase.constant.sentences [] t ↔ Phrase.IsLiteral t ∨ t.kind = .lparen := by
  constructor
  · rintro ⟨w, hw⟩
    exact (Phrase.cons_mem_constants.mp hw).imp And.left And.left
  · rintro (hliteral | hparen)
    · exact ⟨[], Phrase.cons_mem_constants.mpr (.inl ⟨hliteral, rfl⟩)⟩
    · rcases exists_mem_closed .rparen Phrase.constant_sentence with ⟨w, hw⟩
      exact ⟨w, Phrase.cons_mem_constants.mpr (.inr ⟨hparen, hw⟩)⟩

theorem exact_constant :
    Exact ["integer", "character", "string", "`unit`", "`True`", "`False`", "`(`"]
      (Next Phrase.constant.sentences []) := by
  have hparen := Exact.delimiter .lparen (by decide)
  have hfalse := (Exact.keyword "False" (by decide)).cons hparen (by decide)
  have htrue := (Exact.keyword "True" (by decide)).cons hfalse (by decide)
  have hunit := (Exact.keyword "unit" (by decide)).cons htrue (by decide)
  have hstring := Exact.string.cons hunit (by decide)
  have hcharacter := Exact.character.cons hstring (by decide)
  refine (Exact.integer.cons hcharacter (by decide)).congr fun t => ?_
  rw [next_constant, isLiteral_iff]
  simp only [IsKind, or_assoc]

theorem constant_diagnoses (room : Nat) : Diagnoses (constant room) Phrase.constant.sentences := by
  have hprefixFree := Phrase.prefixFree_sentences .constant
  have hfirst : Next Phrase.constant.sentences [] ⟨.lparen, ⟨0, 0⟩, ""⟩ := next_constant.mpr (.inr rfl)
  induction room with
  | zero => exact .tooDeep Phrase.constant_sentence
  | succ room ih =>
    refine ⟨Phrase.constant_sentence, ?_⟩
    intro c s hhint hordered
    simp only [constant, constantPhrase, liftM_eq, between_eq]
    rw [isAt_run]
    by_cases hparen : s.isAt .lparen = true
    · rcases exists_cons_of_isAt hparen with ⟨t, w, hrest, hkind⟩
      have hinside : Diagnoses (between .lparen .rparen (constant room)) _ :=
        ih.between (by decide) (by decide) hprefixFree.endsBefore
      rw [if_pos hparen]
      refine (hinside.map Prod.fst).branch hhint hordered hrest hkind fun ts => ?_
      have hliteral : ¬ Phrase.IsLiteral t := by
        rintro ⟨k, hk⟩
        exact hk.kind_ne_lparen hkind
      simp only [Phrase.cons_mem_constants, hliteral, hkind, false_and, false_or, true_and]
    · rw [if_neg hparen]
      refine accept_meets hprefixFree (hprefixFree.not_mem_of_next hfirst) ⟨_, hfirst⟩
        exact_constant ?_ ?_ hhint
      · intro t k ht
        exact ⟨.literal ⟨t, k, literal?_eq_some_iff.mp ht⟩, rfl⟩
      · intro t ht hnone hnext
        rcases next_constant.mp hnext with ⟨k, hk⟩ | hkind
        · rw [literal?_eq_some_iff.mpr hk] at hnone
          cases hnone
        · exact kind_ne_of_isAt hparen t ht hkind

/-! ## Kinds -/

theorem kindForms_diagnose {kind : Parser Kind} (hkind : Diagnoses kind Phrase.kind.sentences) :
    ∀ form ∈ kindForms kind, Diagnoses form.2 (Phrase.kindBodies form.1) := by
  have hprefixFree := Phrase.prefixFree_sentences .kind
  simp only [kindForms, List.forall_mem_cons, List.not_mem_nil, false_implies, implies_true,
    and_true]
  exact ⟨.pure _, hkind.pair hprefixFree hkind _⟩

theorem kindBodies_endBefore {Q : Token → Prop} :
    EndsBefore Q (formsOf Phrase.kindWords Phrase.kindBodies) := by
  have hprefixFree := Phrase.prefixFree_sentences .kind
  apply endsBefore_formsOf
  simp only [Phrase.kindWords, List.forall_mem_cons, List.not_mem_nil, false_implies, implies_true,
    and_true]
  exact ⟨prefixFree_one.endsBefore, (hprefixFree.mul hprefixFree).endsBefore⟩

theorem kind_diagnoses (room : Nat) : Diagnoses (kind room) Phrase.kind.sentences := by
  induction room with
  | zero => exact .tooDeep Phrase.kind_sentence
  | succ room ih =>
    have hforms : Diagnoses (kindBody (kind room)) (formsOf Phrase.kindWords Phrase.kindBodies) :=
      .choice (by simp [kindForms]) (kindForms_nodup _) (by simp [kindForms, keywords])
        (kindForms_diagnose ih)
    rw [Phrase.kind_production]
    exact (hforms.between (by decide) (by decide) kindBodies_endBefore).map _

/-! ## Types -/

theorem next_type :
    Next Phrase.type.sentences [] t ↔ t.kind = .lparen ∨ t.kind = .lbracket ∨ t.kind = .ident := by
  constructor
  · rintro ⟨w, hw⟩
    rcases Phrase.cons_mem_types.mp hw with (⟨h, -⟩ | ⟨h, -⟩) | ⟨h, -⟩
    · exact .inr (.inr h)
    · exact .inl h
    · exact .inr (.inl h)
  · rintro (h | h | h)
    · rcases exists_mem_closed .rparen Phrase.typeForm_sentence with ⟨w, hw⟩
      exact ⟨w, Phrase.cons_mem_types.mpr (.inl (.inr ⟨h, hw⟩))⟩
    · rcases exists_mem_closed .rbracket
        (exists_mem_items Phrase.type_sentence Phrase.type_sentence) with ⟨w, hw⟩
      exact ⟨w, Phrase.cons_mem_types.mpr (.inr ⟨h, hw⟩)⟩
    · exact ⟨[], Phrase.cons_mem_types.mpr (.inl (.inl ⟨h, rfl⟩))⟩

theorem exact_type :
    Exact ["`(`", "`[`", "type variable"] (Next Phrase.type.sentences []) := by
  have hident := Exact.identifier "type variable" (by decide)
  have hbracket := (Exact.delimiter .lbracket (by decide)).cons hident (by decide)
  exact ((Exact.delimiter .lparen (by decide)).cons hbracket (by decide)).congr fun t => next_type

theorem nil_not_mem_types : [] ∉ Phrase.type.sentences :=
  (Phrase.prefixFree_sentences .type).not_mem_of_next (next_type.mpr (.inr (.inr rfl)) :
    Next _ [] ⟨.ident, ⟨0, 0⟩, ""⟩)

theorem types_endBefore {kind : TokenKind} (hkind : kind ∈ [.rparen, .rbracket, .rbrace]) :
    EndsBefore (IsKind kind) Phrase.type.sentences∗ := by
  refine endsBefore_kstar (Phrase.prefixFree_sentences .type)
    ⟨⟨.ident, ⟨0, 0⟩, ""⟩, next_type.mpr (.inr (.inr rfl))⟩ ?_
  rintro t rfl hnext
  rw [next_type] at hnext
  simp only [List.mem_cons, List.not_mem_nil, or_false] at hkind
  rcases hkind with h | h | h <;> simp [h] at hnext

theorem type_commits (room : Nat) : Commits (type room) := by
  intro c s e s' hhint h hlength
  cases room with
  | zero =>
    cases h
    exact .inl rfl
  | succ room =>
    have hleaves := Keeps.type leaves_stepRelation room
    simp only [type, typePhrase, liftM_eq, between_eq] at h
    rw [isAt_run] at h
    by_cases hparen : s.isAt .lparen = true
    · rw [if_pos hparen] at h
      have hlt := between_error_lt (.typeBody leaves_stepRelation
        (.kind leaves_stepRelation room) hleaves) hparen (map_eq_error h)
      omega
    rw [if_neg hparen, isAt_run] at h
    by_cases hbracket : s.isAt .lbracket = true
    · rw [if_pos hbracket] at h
      have hlt := between_error_lt (.application leaves_stepRelation hleaves hleaves) hbracket
        (map_eq_error h)
      omega
    rw [if_neg hbracket, isAt_run] at h
    by_cases hident : s.isAt .ident = true
    · rw [if_pos hident] at h
      have hname := map_eq_error h
      rcases s with ⟨rest, hint, i⟩
      rcases exists_cons_of_isAt hident with ⟨t, w, rfl, hkind⟩
      rw [spannedTypeName_cons c w hint i ⟨t, hkind⟩] at hname
      cases hname
    · rw [if_neg hident, unexpected_run hhint] at h
      cases h
      exact .inr ⟨_, rfl⟩

theorem typeForms_diagnose {room : Nat} (htype : Diagnoses (type room) Phrase.type.sentences) :
    ∀ form ∈ typeForms (kind room) (type room), Diagnoses form.2 (Phrase.typeBodies form.1) := by
  have hname := typeName_diagnoses
  have hkind := kind_diagnoses room
  have hkindFree := Phrase.prefixFree_sentences .kind
  have htypeFree := Phrase.prefixFree_sentences .type
  simp only [typeForms, List.forall_mem_cons, List.not_mem_nil, false_implies, implies_true,
    and_true]
  refine ⟨?_, ?_, ?_, ?_, ?_, ?_⟩
  · exact hname.triple prefixFree_single hkind hkindFree htype _
  · exact hname.triple prefixFree_single hkind hkindFree htype _
  · exact htype.pair htypeFree htype _
  · exact htype.pair htypeFree htype _
  · exact builtinType_diagnoses.map _
  · exact (htype.many htypeFree nil_not_mem_types (.type leaves_stepRelation room)
      (type_commits room)).map _

theorem typeBody_diagnoses {room : Nat} (htype : Diagnoses (type room) Phrase.type.sentences) :
    Diagnoses (typeBody (kind room) (type room)) (formsOf Phrase.typeWords Phrase.typeBodies) :=
  .choice (by simp [typeForms]) (typeForms_nodup _ _) (by simp [typeForms, keywords])
    (typeForms_diagnose htype)

theorem typeBodies_endBefore :
    EndsBefore (IsKind .rparen) (formsOf Phrase.typeWords Phrase.typeBodies) := by
  have hkind := Phrase.prefixFree_sentences .kind
  have htype := Phrase.prefixFree_sentences .type
  have hbinder : EndsBefore (IsKind .rparen)
      (single (IsKind .ident) * (Phrase.kind.sentences * Phrase.type.sentences)) :=
    (prefixFree_single.mul (hkind.mul htype)).endsBefore
  have hpair : EndsBefore (IsKind .rparen) (Phrase.type.sentences * Phrase.type.sentences) :=
    (htype.mul htype).endsBefore
  apply endsBefore_formsOf
  simp only [Phrase.typeWords, List.forall_mem_cons, List.not_mem_nil, false_implies, implies_true,
    and_true]
  exact ⟨hbinder, hbinder, hpair, hpair, prefixFree_single.endsBefore, types_endBefore (by decide)⟩

/-- A head and its arguments. -/
theorem application_diagnoses {β : Type} {head : Parser α} {arg : Parser β} {L M : Language Token}
    (hhead : Diagnoses head L) (hL : PrefixFree L) (harg : Diagnoses arg M) (hM : PrefixFree M)
    (hnil : [] ∉ M) (hleaves : Keeps Leaves arg) (hcommits : Commits arg) :
    Diagnoses (application head arg) (L * (M * M∗)) := by
  have hargs := harg.atLeastOne hM hnil hleaves hcommits
  exact hhead.pair hL hargs Prod.mk

theorem type_diagnoses (room : Nat) : Diagnoses (type room) Phrase.type.sentences := by
  have hprefixFree := Phrase.prefixFree_sentences .type
  induction room with
  | zero => exact .tooDeep Phrase.type_sentence
  | succ room ih =>
    refine ⟨Phrase.type_sentence, ?_⟩
    intro c s hhint hordered
    simp only [type, typePhrase, liftM_eq, between_eq]
    rw [isAt_run]
    by_cases hparen : s.isAt .lparen = true
    · rcases exists_cons_of_isAt hparen with ⟨t, w, hrest, hkind⟩
      have hinside : Diagnoses (between .lparen .rparen (typeBody (kind room) (type room))) _ :=
        (typeBody_diagnoses ih).between (by decide) (by decide) typeBodies_endBefore
      rw [if_pos hparen]
      refine (hinside.map _).branch hhint hordered hrest hkind fun ts => ?_
      simp [Phrase.cons_mem_types, hkind]
    rw [if_neg hparen, isAt_run]
    by_cases hbracket : s.isAt .lbracket = true
    · rcases exists_cons_of_isAt hbracket with ⟨t, w, hrest, hkind⟩
      have happ : Diagnoses (application (type room) (type room)) _ :=
        application_diagnoses ih hprefixFree ih hprefixFree nil_not_mem_types
          (.type leaves_stepRelation room) (type_commits room)
      have hinside : Diagnoses
          (between .lbracket .rbracket (application (type room) (type room))) _ :=
        happ.between (by decide) (by decide)
          (.mul hprefixFree (.mul hprefixFree (types_endBefore (by decide))))
      rw [if_pos hbracket]
      refine (hinside.map _).branch hhint hordered hrest hkind fun ts => ?_
      simp [Phrase.cons_mem_types, hkind]
    rw [if_neg hbracket, isAt_run]
    by_cases hident : s.isAt .ident = true
    · rcases exists_cons_of_isAt hident with ⟨t, w, hrest, hkind⟩
      rw [if_pos hident]
      refine ((spannedTypeName_diagnoses.map _).meets c s hhint hordered).of_first hrest
        (next_single.mpr ⟨rfl, hkind⟩) fun ts => ?_
      simp [Phrase.cons_mem_types, cons_mem_single, IsKind, hkind]
    · rw [if_neg hident, unexpected_run hhint]
      refine .refuse hhint nil_not_mem_types
        ⟨⟨.ident, ⟨0, 0⟩, ""⟩, next_type.mpr (.inr (.inr rfl))⟩ ?_ exact_type
      intro t ht hnext
      rcases next_type.mp hnext with h | h | h
      · exact kind_ne_of_isAt hparen t ht h
      · exact kind_ne_of_isAt hbracket t ht h
      · exact kind_ne_of_isAt hident t ht h

/-! ## Terms -/

theorem next_term :
    Next Phrase.term.sentences [] t ↔
      t.kind = .lparen ∨ t.kind = .lbracket ∨ t.kind = .lbrace ∨ t.kind = .ident := by
  constructor
  · rintro ⟨w, hw⟩
    rcases Phrase.cons_mem_terms.mp hw with ((⟨h, -⟩ | ⟨h, -⟩) | ⟨h, -⟩) | ⟨h, -⟩
    · exact .inr (.inr (.inr h))
    · exact .inl h
    · exact .inr (.inl h)
    · exact .inr (.inr (.inl h))
  · rintro (h | h | h | h)
    · rcases exists_mem_closed .rparen Phrase.termForm_sentence with ⟨w, hw⟩
      exact ⟨w, Phrase.cons_mem_terms.mpr (.inl (.inl (.inr ⟨h, hw⟩)))⟩
    · rcases exists_mem_closed .rbracket
        (exists_mem_items Phrase.term_sentence Phrase.term_sentence) with ⟨w, hw⟩
      exact ⟨w, Phrase.cons_mem_terms.mpr (.inl (.inr ⟨h, hw⟩))⟩
    · rcases exists_mem_closed .rbrace
        (exists_mem_items Phrase.term_sentence Phrase.type_sentence) with ⟨w, hw⟩
      exact ⟨w, Phrase.cons_mem_terms.mpr (.inr ⟨h, hw⟩)⟩
    · exact ⟨[], Phrase.cons_mem_terms.mpr (.inl (.inl (.inl ⟨h, rfl⟩)))⟩

theorem exact_term :
    Exact ["`(`", "`[`", "`\x7b`", "variable"] (Next Phrase.term.sentences []) := by
  have hident := Exact.identifier "variable" (by decide)
  have hbrace := (Exact.delimiter .lbrace (by decide)).cons hident (by decide)
  have hbracket := (Exact.delimiter .lbracket (by decide)).cons hbrace (by decide)
  exact ((Exact.delimiter .lparen (by decide)).cons hbracket (by decide)).congr fun t => next_term

theorem nil_not_mem_terms : [] ∉ Phrase.term.sentences :=
  (Phrase.prefixFree_sentences .term).not_mem_of_next (next_term.mpr (.inl rfl) :
    Next _ [] ⟨.lparen, ⟨0, 0⟩, ""⟩)

theorem terms_endBefore {kind : TokenKind} (hkind : kind ∈ [.rparen, .rbracket]) :
    EndsBefore (IsKind kind) Phrase.term.sentences∗ := by
  refine endsBefore_kstar (Phrase.prefixFree_sentences .term)
    ⟨⟨.lparen, ⟨0, 0⟩, ""⟩, next_term.mpr (.inl rfl)⟩ ?_
  rintro t rfl hnext
  rw [next_term] at hnext
  simp only [List.mem_cons, List.not_mem_nil, or_false] at hkind
  rcases hkind with h | h <;> simp [h] at hnext

theorem term_commits (room : Nat) : Commits (term room) := by
  intro c s e s' hhint h hlength
  cases room with
  | zero =>
    cases h
    exact .inl rfl
  | succ room =>
    have htype := Keeps.type leaves_stepRelation room
    have hterm := Keeps.term leaves_stepRelation room
    simp only [term, termPhrase, liftM_eq, between_eq] at h
    rw [isAt_run] at h
    by_cases hparen : s.isAt .lparen = true
    · rw [if_pos hparen] at h
      have hlt := between_error_lt (.termBody leaves_stepRelation
        (.constant leaves_stepRelation room) (.kind leaves_stepRelation room) htype hterm) hparen
        (map_eq_error h)
      omega
    rw [if_neg hparen, isAt_run] at h
    by_cases hbracket : s.isAt .lbracket = true
    · rw [if_pos hbracket] at h
      have hlt := between_error_lt (.application leaves_stepRelation hterm hterm) hbracket
        (map_eq_error h)
      omega
    rw [if_neg hbracket, isAt_run] at h
    by_cases hbrace : s.isAt .lbrace = true
    · rw [if_pos hbrace] at h
      have hlt := between_error_lt (.application leaves_stepRelation hterm htype) hbrace
        (map_eq_error h)
      omega
    rw [if_neg hbrace, isAt_run] at h
    by_cases hident : s.isAt .ident = true
    · rw [if_pos hident] at h
      have hname := map_eq_error h
      rcases s with ⟨rest, hint, i⟩
      rcases exists_cons_of_isAt hident with ⟨t, w, rfl, hkind⟩
      rw [spannedName_cons c w hint i ⟨t, hkind⟩] at hname
      cases hname
    · rw [if_neg hident, unexpected_run hhint] at h
      cases h
      exact .inr ⟨_, rfl⟩

theorem termForms_diagnose {room : Nat} (hterm : Diagnoses (term room) Phrase.term.sentences) :
    ∀ form ∈ termForms (constant room) (kind room) (type room) (term room),
      Diagnoses form.2 (Phrase.termBodies form.1) := by
  have htype := type_diagnoses room
  have hkind := kind_diagnoses room
  have hkindFree := Phrase.prefixFree_sentences .kind
  have htypeFree := Phrase.prefixFree_sentences .type
  have htermFree := Phrase.prefixFree_sentences .term
  simp only [termForms, List.forall_mem_cons, List.not_mem_nil, false_implies, implies_true,
    and_true]
  refine ⟨?_, ?_, ?_, ?_, ?_, ?_, ?_, ?_, ?_⟩
  · exact name_diagnoses.triple prefixFree_single htype htypeFree hterm _
  · exact typeName_diagnoses.triple prefixFree_single hkind hkindFree hterm _
  · exact htype.triple htypeFree htype htypeFree hterm _
  · exact hterm.map _
  · exact htype.map _
  · exact (constant_diagnoses room).map _
  · exact builtinFunction_diagnoses.map _
  · exact (hterm.many htermFree nil_not_mem_terms (.term leaves_stepRelation room)
      (term_commits room)).map _
  · exact natural_diagnoses.pair prefixFree_single hterm _

theorem termBody_diagnoses {room : Nat} (hterm : Diagnoses (term room) Phrase.term.sentences) :
    Diagnoses (termBody (constant room) (kind room) (type room) (term room))
      (formsOf Phrase.termWords Phrase.termBodies) :=
  .choice (by simp [termForms]) (termForms_nodup _ _ _ _) (by simp [termForms, keywords])
    (termForms_diagnose hterm)

theorem termBodies_endBefore :
    EndsBefore (IsKind .rparen) (formsOf Phrase.termWords Phrase.termBodies) := by
  have hconstant := Phrase.prefixFree_sentences .constant
  have hkind := Phrase.prefixFree_sentences .kind
  have htype := Phrase.prefixFree_sentences .type
  have hterm := Phrase.prefixFree_sentences .term
  apply endsBefore_formsOf
  simp only [Phrase.termWords, List.forall_mem_cons, List.not_mem_nil, false_implies, implies_true,
    and_true]
  exact ⟨(prefixFree_single.mul (htype.mul hterm)).endsBefore,
    (prefixFree_single.mul (hkind.mul hterm)).endsBefore,
    (htype.mul (htype.mul hterm)).endsBefore, hterm.endsBefore, htype.endsBefore,
    hconstant.endsBefore, prefixFree_single.endsBefore, terms_endBefore (by decide),
    (prefixFree_single.mul hterm).endsBefore⟩

theorem term_diagnoses (room : Nat) : Diagnoses (term room) Phrase.term.sentences := by
  have htypeFree := Phrase.prefixFree_sentences .type
  have htermFree := Phrase.prefixFree_sentences .term
  induction room with
  | zero => exact .tooDeep Phrase.term_sentence
  | succ room ih =>
    refine ⟨Phrase.term_sentence, ?_⟩
    intro c s hhint hordered
    simp only [term, termPhrase, liftM_eq, between_eq]
    rw [isAt_run]
    by_cases hparen : s.isAt .lparen = true
    · rcases exists_cons_of_isAt hparen with ⟨t, w, hrest, hkind⟩
      have hinside : Diagnoses (between .lparen .rparen
          (termBody (constant room) (kind room) (type room) (term room))) _ :=
        (termBody_diagnoses ih).between (by decide) (by decide) termBodies_endBefore
      rw [if_pos hparen]
      refine (hinside.map _).branch hhint hordered hrest hkind fun ts => ?_
      simp [Phrase.cons_mem_terms, hkind]
    rw [if_neg hparen, isAt_run]
    by_cases hbracket : s.isAt .lbracket = true
    · rcases exists_cons_of_isAt hbracket with ⟨t, w, hrest, hkind⟩
      have happ : Diagnoses (application (term room) (term room)) _ :=
        application_diagnoses ih htermFree ih htermFree nil_not_mem_terms
          (.term leaves_stepRelation room) (term_commits room)
      have hinside : Diagnoses
          (between .lbracket .rbracket (application (term room) (term room))) _ :=
        happ.between (by decide) (by decide)
          (.mul htermFree (.mul htermFree (terms_endBefore (by decide))))
      rw [if_pos hbracket]
      refine (hinside.map _).branch hhint hordered hrest hkind fun ts => ?_
      simp [Phrase.cons_mem_terms, hkind]
    rw [if_neg hbracket, isAt_run]
    by_cases hbrace : s.isAt .lbrace = true
    · rcases exists_cons_of_isAt hbrace with ⟨t, w, hrest, hkind⟩
      have happ : Diagnoses (application (term room) (type room)) _ :=
        application_diagnoses ih htermFree (type_diagnoses room) htypeFree nil_not_mem_types
          (.type leaves_stepRelation room) (type_commits room)
      have hinside : Diagnoses
          (between .lbrace .rbrace (application (term room) (type room))) _ :=
        happ.between (by decide) (by decide)
          (.mul htermFree (.mul htypeFree (types_endBefore (by decide))))
      rw [if_pos hbrace]
      refine (hinside.map _).branch hhint hordered hrest hkind fun ts => ?_
      simp [Phrase.cons_mem_terms, hkind]
    rw [if_neg hbrace, isAt_run]
    by_cases hident : s.isAt .ident = true
    · rcases exists_cons_of_isAt hident with ⟨t, w, hrest, hkind⟩
      rw [if_pos hident]
      refine ((spannedName_diagnoses.map _).meets c s hhint hordered).of_first hrest
        (next_single.mpr ⟨rfl, hkind⟩) fun ts => ?_
      simp [Phrase.cons_mem_terms, cons_mem_single, IsKind, hkind]
    · rw [if_neg hident, unexpected_run hhint]
      refine .refuse hhint nil_not_mem_terms
        ⟨⟨.lparen, ⟨0, 0⟩, ""⟩, next_term.mpr (.inl rfl)⟩ ?_ exact_term
      intro t ht hnext
      rcases next_term.mp hnext with h | h | h | h
      · exact kind_ne_of_isAt hparen t ht h
      · exact kind_ne_of_isAt hbracket t ht h
      · exact kind_ne_of_isAt hbrace t ht h
      · exact kind_ne_of_isAt hident t ht h

/-! ## Programs -/

theorem version_diagnoses : Diagnoses version Phrase.versions := by
  have hdot : Diagnoses (expect .dot) (single (IsKind .dot)) := .expect (by decide)
  have hpatch := natural_diagnoses.sentence
  have hminor := exists_mem_mul hpatch (exists_mem_mul hdot.sentence hpatch)
  refine .bind natural_diagnoses prefixFree_single (fun _ => ?_)
    (exists_mem_mul hdot.sentence hminor)
  refine .bind hdot prefixFree_single (fun _ => ?_) hminor
  refine .bind natural_diagnoses prefixFree_single (fun _ => ?_)
    (exists_mem_mul hdot.sentence hpatch)
  refine .bind hdot prefixFree_single (fun _ => ?_) hpatch
  exact natural_diagnoses.map _

theorem versions_prefixFree : PrefixFree Phrase.versions :=
  prefixFree_single.mul (prefixFree_single.mul (prefixFree_single.mul
    (prefixFree_single.mul prefixFree_single)))

theorem program_diagnoses (room : Nat) : Diagnoses (program room) Phrase.program.sentences := by
  have hterm := term_diagnoses room
  have htermFree := Phrase.prefixFree_sentences .term
  have hrest : Diagnoses (do return (← version, ← term room) : Parser (Version × Term))
      (Phrase.versions * Phrase.term.sentences) :=
    version_diagnoses.pair versions_prefixFree hterm Prod.mk
  have hinside : Diagnoses (do
      let _ ← keyword "program"
      return (← version, ← term room) : Parser (Version × Term))
      (single (IsWord "program") * (Phrase.versions * Phrase.term.sentences)) :=
    .bind (.keyword (by decide)) prefixFree_single (fun _ => hrest) hrest.sentence
  have hfree : PrefixFree
      (single (IsWord "program") * (Phrase.versions * Phrase.term.sentences)) :=
    prefixFree_single.mul (versions_prefixFree.mul htermFree)
  rw [Phrase.program_production]
  exact (hinside.between (by decide) (by decide) hfree.endsBefore).map _

end Grammar

/-- The rule of a sort diagnoses the sentences of the sort, whatever room it has. -/
theorem Phrase.rule_diagnoses (p : Phrase) (room : Nat) : Diagnoses (p.rule room) p.sentences := by
  cases p with
  | program => exact Grammar.program_diagnoses room
  | term => exact Grammar.term_diagnoses room
  | type => exact Grammar.type_diagnoses room
  | kind => exact Grammar.kind_diagnoses room
  | constant => exact Grammar.constant_diagnoses room

end FOmega
