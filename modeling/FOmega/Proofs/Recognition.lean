import FOmega.Proofs.Reading

/-!
# Only derivations are read

What a rule accepts is the token list of a derivation that is no deeper than the rule may nest. Each
proof takes the rule apart at the point where it branches: the bracket that opens the phrase, and
then the keyword after it, name the production.
-/

namespace FOmega

open Terminal FOmega.Parser

namespace Grammar

variable {c : Context} {s s' : State}

/-! ## Single tokens -/

theorem spannedTypeName_eq_ok {found : Name × Span} (h : spannedTypeName c s = .ok found s') :
    ∃ x : Identifier, s.rest = x.token :: s'.rest := by
  rcases bind_eq_ok h with ⟨⟨text, span⟩, s₁, hident, h⟩
  rcases bind_eq_ok h with ⟨n, s₂, hintern, h⟩
  rcases pure_eq_ok h with ⟨-, rfl⟩
  cases hintern
  rcases identifier_eq_ok hident with ⟨x, hx⟩
  exact ⟨x, hx⟩

theorem typeName_eq_ok {n : Name} (h : typeName c s = .ok n s') :
    ∃ x : Identifier, s.rest = x.token :: s'.rest := by
  rcases bind_eq_ok h with ⟨found, s₁, hname, h⟩
  rcases pure_eq_ok h with ⟨-, rfl⟩
  exact spannedTypeName_eq_ok hname

theorem spannedName_eq_ok {found : Name × Span} (h : spannedName c s = .ok found s') :
    ∃ x : Identifier, s.rest = x.token :: s'.rest := by
  rcases bind_eq_ok h with ⟨⟨text, span⟩, s₁, hident, h⟩
  rcases bind_eq_ok h with ⟨n, s₂, hintern, h⟩
  rcases pure_eq_ok h with ⟨-, rfl⟩
  cases hintern
  rcases identifier_eq_ok hident with ⟨x, hx⟩
  exact ⟨x, hx⟩

theorem name_eq_ok {n : Name} (h : name c s = .ok n s') :
    ∃ x : Identifier, s.rest = x.token :: s'.rest := by
  rcases bind_eq_ok h with ⟨found, s₁, hname, h⟩
  rcases pure_eq_ok h with ⟨-, rfl⟩
  exact spannedName_eq_ok hname

theorem natural_eq_ok {found : Nat × Span} (h : natural wordBound c s = .ok found s') :
    ∃ n : Natural, s.rest = n.token :: s'.rest := by
  rcases s with ⟨rest, hint, i⟩
  unfold natural at h
  split at h
  · next n span text rest' hrest =>
    split at h
    · next hrange =>
      cases h
      have hbound : wordBound = 18446744073709551616 := rfl
      refine ⟨⟨⟨.int n, span, text⟩, n.toNat, by omega, ?_⟩, ?_⟩
      · rw [Int.toNat_of_nonneg hrange.1]
      · simp only at hrest
        subst hrest
        rfl
    · cases h
  · cases h

theorem builtinType_eq_ok {b : BuiltinType} (h : builtinType c s = .ok b s') :
    ∃ n : BuiltinTypeName, s.rest = n.token :: s'.rest := by
  rcases accept_eq_ok h with ⟨t, ht, hrest, -⟩
  by_cases hkind : t.kind = .ident
  · rw [if_pos hkind] at ht
    exact ⟨⟨t, b, hkind, BuiltinType.ofText?_eq_some_iff.mp ht⟩, hrest⟩
  · rw [if_neg hkind] at ht
    cases ht

theorem builtinFunction_eq_ok {b : BuiltinFunction} (h : builtinFunction c s = .ok b s') :
    ∃ n : BuiltinFunctionName, s.rest = n.token :: s'.rest := by
  rcases accept_eq_ok h with ⟨t, ht, hrest, -⟩
  by_cases hkind : t.kind = .ident
  · rw [if_pos hkind] at ht
    exact ⟨⟨t, b, hkind, BuiltinFunction.ofText?_eq_some_iff.mp ht⟩, hrest⟩
  · rw [if_neg hkind] at ht
    cases ht

theorem version_derives {v : Version} (h : version c s = .ok v s') :
    ∃ d : VersionDerivation, s.rest = d.tokens ++ s'.rest := by
  rcases bind_eq_ok h with ⟨⟨major, first⟩, s₁, hmajor, h⟩
  rcases bind_eq_ok h with ⟨_, s₂, hdot, h⟩
  rcases bind_eq_ok h with ⟨⟨minor, _⟩, s₃, hminor, h⟩
  rcases bind_eq_ok h with ⟨_, s₄, hdot', h⟩
  rcases bind_eq_ok h with ⟨⟨patch, last⟩, s₅, hpatch, h⟩
  rcases pure_eq_ok h with ⟨-, rfl⟩
  rcases natural_eq_ok hmajor with ⟨n₁, h₁⟩
  rcases expect_eq_ok hdot with ⟨d₁, h₂⟩
  rcases natural_eq_ok hminor with ⟨n₂, h₃⟩
  rcases expect_eq_ok hdot' with ⟨d₂, h₄⟩
  rcases natural_eq_ok hpatch with ⟨n₃, h₅⟩
  refine ⟨⟨n₁, d₁, n₂, d₂, n₃⟩, ?_⟩
  rw [h₁, h₂, h₃, h₄, h₅]
  rfl

/-! ## Constants and kinds -/

theorem constant_derives {room : Nat} {k : Constant} (h : constant room c s = .ok k s') :
    ∃ d : ConstantDerivation, d.depth ≤ room ∧ s.rest = d.tokens ++ s'.rest := by
  induction room generalizing s s' k with
  | zero => cases h
  | succ room ih =>
    rcases isAt_branch h with h | h
    · rcases bind_eq_ok h with ⟨⟨inner, span⟩, s₁, hbetween, h⟩
      rcases pure_eq_ok h with ⟨-, rfl⟩
      rcases between_eq_ok hbetween with ⟨o, cl, s₂, s₃, ho, hinner, hcl⟩
      rcases ih hinner with ⟨d, hd, htokens⟩
      refine ⟨.parens o d cl, Nat.succ_le_succ hd, ?_⟩
      rw [ho, htokens, hcl]
      simp [ConstantDerivation.tokens]
    · rcases accept_eq_ok h with ⟨t, ht, hrest, -⟩
      refine ⟨.literal ⟨t, k, literal?_eq_some_iff.mp ht⟩, ?_, hrest⟩
      simp [ConstantDerivation.depth]

theorem kind_derives {room : Nat} {k : Kind} (h : kind room c s = .ok k s') :
    ∃ d : KindDerivation, d.depth ≤ room ∧ s.rest = d.tokens ++ s'.rest := by
  induction room generalizing s s' k with
  | zero => cases h
  | succ room ih =>
    rcases bind_eq_ok h with ⟨⟨build, span⟩, s₁, hbetween, h⟩
    rcases pure_eq_ok h with ⟨-, rfl⟩
    rcases between_eq_ok hbetween with ⟨o, cl, s₂, s₃, ho, hbody, hcl⟩
    rcases choice_forms_eq_ok (kindBody_eq _ ▸ hbody) with ⟨form, hform, w, s₄, hw, hp⟩
    simp only [kindForms, List.mem_cons, List.not_mem_nil, or_false] at hform
    rcases hform with rfl | rfl
    · rcases pure_eq_ok hp with ⟨-, rfl⟩
      refine ⟨.type o w cl, Nat.succ_le_succ (Nat.zero_le _), ?_⟩
      rw [ho, hw, hcl]
      rfl
    · rcases bind_eq_ok hp with ⟨_, s₅, hdomain, hp⟩
      rcases bind_eq_ok hp with ⟨_, s₆, hcodomain, hp⟩
      rcases pure_eq_ok hp with ⟨-, rfl⟩
      rcases ih hdomain with ⟨d, hd, hdt⟩
      rcases ih hcodomain with ⟨e, he, het⟩
      refine ⟨.arrow o w d e cl, Nat.succ_le_succ (Nat.max_le.mpr ⟨hd, he⟩), ?_⟩
      rw [ho, hw, hdt, het, hcl]
      simp [KindDerivation.tokens]

/-! ## Types -/

/-- A head with arguments that is accepted has a head, a first argument and further ones. -/
theorem application_eq_ok {α β : Type} {head : Parser α} {arg : Parser β} {found : α × List β}
    (h : application head arg c s = .ok found s') :
    ∃ a b bs s₁ s₂, head c s = .ok a s₁ ∧ arg c s₁ = .ok b s₂ ∧ many arg c s₂ = .ok bs s' := by
  rcases bind_eq_ok h with ⟨a, s₁, hhead, h⟩
  rcases bind_eq_ok h with ⟨as, s₂, hargs, h⟩
  rcases pure_eq_ok h with ⟨-, rfl⟩
  rcases bind_eq_ok hargs with ⟨b, s₃, harg, hargs⟩
  rcases bind_eq_ok hargs with ⟨bs, s₄, hmany, hargs⟩
  rcases pure_eq_ok hargs with ⟨-, rfl⟩
  exact ⟨a, b, bs, s₁, s₃, hhead, enforce_eq_ok harg, hmany⟩

/-- A repetition looks for an item at its end, so it needs a level for one. -/
theorem room_pos_of_many {α : Type} {p : Nat → Parser α} (hzero : p 0 = tooDeep) {room : Nat}
    {as : List α} (h : many (p room) c s = .ok as s') : 0 < room := by
  cases room with
  | succ room => exact Nat.succ_pos room
  | zero =>
    rw [hzero, many_tooDeep] at h
    cases h

/-- The forms that a type accepts between its brackets. -/
theorem typePhrase_eq_ok {kind : Parser Kind} {type : Parser Ty} {t : Ty}
    (h : typePhrase kind type c s = .ok t s') :
    (∃ found, between .lparen .rparen (typeBody kind type) c s = .ok found s') ∨
      (∃ found, between .lbracket .rbracket (application type type) c s = .ok found s') ∨
      ∃ found, spannedTypeName c s = .ok found s' := by
  rcases isAt_branch h with h | h
  · rcases bind_eq_ok h with ⟨found, s₁, hbetween, h⟩
    rcases pure_eq_ok h with ⟨-, rfl⟩
    exact .inl ⟨found, hbetween⟩
  rcases isAt_branch h with h | h
  · rcases bind_eq_ok h with ⟨found, s₁, hbetween, h⟩
    rcases pure_eq_ok h with ⟨-, rfl⟩
    exact .inr (.inl ⟨found, hbetween⟩)
  rcases isAt_branch h with h | h
  · rcases bind_eq_ok h with ⟨found, s₁, hname, h⟩
    rcases pure_eq_ok h with ⟨-, rfl⟩
    exact .inr (.inr ⟨found, hname⟩)
  · cases h

theorem many_type_derives {room : Nat} {n : Nat}
    (htype : ∀ {s s' : State} {t : Ty}, type room c s = .ok t s' →
      ∃ d : TypeDerivation, d.depth ≤ n ∧ s.rest = d.tokens ++ s'.rest) {ts : List Ty}
    (h : many (type room) c s = .ok ts s') :
    ∃ ds : List TypeDerivation, TypeDerivation.maxDepth ds ≤ n ∧
      s.rest = TypeDerivation.allTokens ds ++ s'.rest := by
  rcases many_eq_ok (Keeps.type leaves_stepRelation room) htype h with ⟨ds, hds, hrest⟩
  refine ⟨ds, TypeDerivation.maxDepth_le_iff.mpr hds, ?_⟩
  rw [TypeDerivation.allTokens_eq_flatMap]
  exact hrest

theorem type_derives {room : Nat} {t : Ty} (h : type room c s = .ok t s') :
    ∃ d : TypeDerivation, d.depth ≤ room ∧ s.rest = d.tokens ++ s'.rest := by
  induction room generalizing s s' t with
  | zero => cases h
  | succ room ih =>
    rcases typePhrase_eq_ok h with ⟨⟨build, span⟩, hparen⟩ | ⟨⟨found, span⟩, hbracket⟩ | ⟨found, hname⟩
    · rcases between_eq_ok hparen with ⟨o, cl, s₁, s₂, ho, hbody, hcl⟩
      rcases choice_forms_eq_ok (typeBody_eq _ _ ▸ hbody) with ⟨form, hform, w, s₃, hw, hp⟩
      simp only [typeForms, List.mem_cons, List.not_mem_nil, or_false] at hform
      rcases hform with rfl | rfl | rfl | rfl | rfl | rfl
      · rcases bind_eq_ok hp with ⟨_, s₄, hbinder, hp⟩
        rcases bind_eq_ok hp with ⟨_, s₅, hkind, hp⟩
        rcases bind_eq_ok hp with ⟨_, s₆, hbody, hp⟩
        rcases pure_eq_ok hp with ⟨-, rfl⟩
        rcases typeName_eq_ok hbinder with ⟨x, hx⟩
        rcases kind_derives hkind with ⟨k, hk, hkt⟩
        rcases ih hbody with ⟨d, hd, hdt⟩
        refine ⟨.lam o w x k d cl, Nat.succ_le_succ (Nat.max_le.mpr ⟨hk, hd⟩), ?_⟩
        rw [ho, hw, hx, hkt, hdt, hcl]
        simp [TypeDerivation.tokens]
      · rcases bind_eq_ok hp with ⟨_, s₄, hbinder, hp⟩
        rcases bind_eq_ok hp with ⟨_, s₅, hkind, hp⟩
        rcases bind_eq_ok hp with ⟨_, s₆, hbody, hp⟩
        rcases pure_eq_ok hp with ⟨-, rfl⟩
        rcases typeName_eq_ok hbinder with ⟨x, hx⟩
        rcases kind_derives hkind with ⟨k, hk, hkt⟩
        rcases ih hbody with ⟨d, hd, hdt⟩
        refine ⟨.all o w x k d cl, Nat.succ_le_succ (Nat.max_le.mpr ⟨hk, hd⟩), ?_⟩
        rw [ho, hw, hx, hkt, hdt, hcl]
        simp [TypeDerivation.tokens]
      · rcases bind_eq_ok hp with ⟨_, s₄, hpattern, hp⟩
        rcases bind_eq_ok hp with ⟨_, s₅, harg, hp⟩
        rcases pure_eq_ok hp with ⟨-, rfl⟩
        rcases ih hpattern with ⟨d, hd, hdt⟩
        rcases ih harg with ⟨e, he, het⟩
        refine ⟨.ifix o w d e cl, Nat.succ_le_succ (Nat.max_le.mpr ⟨hd, he⟩), ?_⟩
        rw [ho, hw, hdt, het, hcl]
        simp [TypeDerivation.tokens]
      · rcases bind_eq_ok hp with ⟨_, s₄, hdomain, hp⟩
        rcases bind_eq_ok hp with ⟨_, s₅, hcodomain, hp⟩
        rcases pure_eq_ok hp with ⟨-, rfl⟩
        rcases ih hdomain with ⟨d, hd, hdt⟩
        rcases ih hcodomain with ⟨e, he, het⟩
        refine ⟨.fn o w d e cl, Nat.succ_le_succ (Nat.max_le.mpr ⟨hd, he⟩), ?_⟩
        rw [ho, hw, hdt, het, hcl]
        simp [TypeDerivation.tokens]
      · rcases bind_eq_ok hp with ⟨_, s₄, hbuiltin, hp⟩
        rcases pure_eq_ok hp with ⟨-, rfl⟩
        rcases builtinType_eq_ok hbuiltin with ⟨b, hb⟩
        refine ⟨.con o w b cl, Nat.succ_le_succ (Nat.zero_le _), ?_⟩
        rw [ho, hw, hb, hcl]
        rfl
      · rcases bind_eq_ok hp with ⟨_, s₄, hitems, hp⟩
        rcases pure_eq_ok hp with ⟨-, rfl⟩
        have hroom : 0 < room := room_pos_of_many rfl hitems
        rcases many_type_derives ih hitems with ⟨ds, hds, hdst⟩
        refine ⟨.prod o w ds cl, Nat.succ_le_succ (Nat.max_le.mpr ⟨hroom, hds⟩), ?_⟩
        rw [ho, hw, hdst, hcl]
        simp [TypeDerivation.tokens]
    · rcases between_eq_ok hbracket with ⟨o, cl, s₁, s₂, ho, happ, hcl⟩
      rcases application_eq_ok happ with ⟨_, _, _, s₃, s₄, hhead, harg, hargs⟩
      rcases ih hhead with ⟨d, hd, hdt⟩
      rcases ih harg with ⟨e, he, het⟩
      rcases many_type_derives ih hargs with ⟨es, hes, hest⟩
      refine ⟨.app o d e es cl,
        Nat.succ_le_succ (Nat.max_le.mpr ⟨hd, Nat.max_le.mpr ⟨he, hes⟩⟩), ?_⟩
      rw [ho, hdt, het, hest, hcl]
      simp [TypeDerivation.tokens]
    · rcases spannedTypeName_eq_ok hname with ⟨x, hx⟩
      exact ⟨.var x, Nat.succ_le_succ (Nat.zero_le _), hx⟩

/-! ## Terms and programs -/

/-- The forms that a term accepts between its brackets. -/
theorem termPhrase_eq_ok {constant : Parser Constant} {kind : Parser Kind} {type : Parser Ty}
    {term : Parser Term} {t : Term} (h : termPhrase constant kind type term c s = .ok t s') :
    (∃ found, between .lparen .rparen (termBody constant kind type term) c s = .ok found s') ∨
      (∃ found, between .lbracket .rbracket (application term term) c s = .ok found s') ∨
      (∃ found, between .lbrace .rbrace (application term type) c s = .ok found s') ∨
      ∃ found, spannedName c s = .ok found s' := by
  rcases isAt_branch h with h | h
  · rcases bind_eq_ok h with ⟨found, s₁, hbetween, h⟩
    rcases pure_eq_ok h with ⟨-, rfl⟩
    exact .inl ⟨found, hbetween⟩
  rcases isAt_branch h with h | h
  · rcases bind_eq_ok h with ⟨found, s₁, hbetween, h⟩
    rcases pure_eq_ok h with ⟨-, rfl⟩
    exact .inr (.inl ⟨found, hbetween⟩)
  rcases isAt_branch h with h | h
  · rcases bind_eq_ok h with ⟨found, s₁, hbetween, h⟩
    rcases pure_eq_ok h with ⟨-, rfl⟩
    exact .inr (.inr (.inl ⟨found, hbetween⟩))
  rcases isAt_branch h with h | h
  · rcases bind_eq_ok h with ⟨found, s₁, hname, h⟩
    rcases pure_eq_ok h with ⟨-, rfl⟩
    exact .inr (.inr (.inr ⟨found, hname⟩))
  · cases h

theorem many_term_derives {room : Nat} {n : Nat}
    (hterm : ∀ {s s' : State} {t : Term}, term room c s = .ok t s' →
      ∃ d : TermDerivation, d.depth ≤ n ∧ s.rest = d.tokens ++ s'.rest) {ts : List Term}
    (h : many (term room) c s = .ok ts s') :
    ∃ ds : List TermDerivation, TermDerivation.maxDepth ds ≤ n ∧
      s.rest = TermDerivation.allTokens ds ++ s'.rest := by
  rcases many_eq_ok (Keeps.term leaves_stepRelation room) hterm h with ⟨ds, hds, hrest⟩
  refine ⟨ds, TermDerivation.maxDepth_le_iff.mpr hds, ?_⟩
  rw [TermDerivation.allTokens_eq_flatMap]
  exact hrest

theorem term_derives {room : Nat} {t : Term} (h : term room c s = .ok t s') :
    ∃ d : TermDerivation, d.depth ≤ room ∧ s.rest = d.tokens ++ s'.rest := by
  induction room generalizing s s' t with
  | zero => cases h
  | succ room ih =>
    rcases termPhrase_eq_ok h with ⟨⟨build, span⟩, hparen⟩ | ⟨⟨found, span⟩, hbracket⟩ |
      ⟨⟨found, span⟩, hbrace⟩ | ⟨found, hname⟩
    · rcases between_eq_ok hparen with ⟨o, cl, s₁, s₂, ho, hbody, hcl⟩
      rcases choice_forms_eq_ok (termBody_eq _ _ _ _ ▸ hbody) with ⟨form, hform, w, s₃, hw, hp⟩
      simp only [termForms, List.mem_cons, List.not_mem_nil, or_false] at hform
      rcases hform with rfl | rfl | rfl | rfl | rfl | rfl | rfl | rfl | rfl
      · rcases bind_eq_ok hp with ⟨_, s₄, hbinder, hp⟩
        rcases bind_eq_ok hp with ⟨_, s₅, htype, hp⟩
        rcases bind_eq_ok hp with ⟨_, s₆, hbody, hp⟩
        rcases pure_eq_ok hp with ⟨-, rfl⟩
        rcases name_eq_ok hbinder with ⟨x, hx⟩
        rcases type_derives htype with ⟨t, ht, htt⟩
        rcases ih hbody with ⟨d, hd, hdt⟩
        refine ⟨.lam o w x t d cl, Nat.succ_le_succ (Nat.max_le.mpr ⟨ht, hd⟩), ?_⟩
        rw [ho, hw, hx, htt, hdt, hcl]
        simp [TermDerivation.tokens]
      · rcases bind_eq_ok hp with ⟨_, s₄, hbinder, hp⟩
        rcases bind_eq_ok hp with ⟨_, s₅, hkind, hp⟩
        rcases bind_eq_ok hp with ⟨_, s₆, hbody, hp⟩
        rcases pure_eq_ok hp with ⟨-, rfl⟩
        rcases typeName_eq_ok hbinder with ⟨x, hx⟩
        rcases kind_derives hkind with ⟨k, hk, hkt⟩
        rcases ih hbody with ⟨d, hd, hdt⟩
        refine ⟨.abs o w x k d cl, Nat.succ_le_succ (Nat.max_le.mpr ⟨hk, hd⟩), ?_⟩
        rw [ho, hw, hx, hkt, hdt, hcl]
        simp [TermDerivation.tokens]
      · rcases bind_eq_ok hp with ⟨_, s₄, hpattern, hp⟩
        rcases bind_eq_ok hp with ⟨_, s₅, harg, hp⟩
        rcases bind_eq_ok hp with ⟨_, s₆, hterm, hp⟩
        rcases pure_eq_ok hp with ⟨-, rfl⟩
        rcases type_derives hpattern with ⟨t, ht, htt⟩
        rcases type_derives harg with ⟨u, hu, hut⟩
        rcases ih hterm with ⟨d, hd, hdt⟩
        refine ⟨.iwrap o w t u d cl,
          Nat.succ_le_succ (Nat.max_le.mpr ⟨ht, Nat.max_le.mpr ⟨hu, hd⟩⟩), ?_⟩
        rw [ho, hw, htt, hut, hdt, hcl]
        simp [TermDerivation.tokens]
      · rcases bind_eq_ok hp with ⟨_, s₄, hterm, hp⟩
        rcases pure_eq_ok hp with ⟨-, rfl⟩
        rcases ih hterm with ⟨d, hd, hdt⟩
        refine ⟨.unwrap o w d cl, Nat.succ_le_succ hd, ?_⟩
        rw [ho, hw, hdt, hcl]
        simp [TermDerivation.tokens]
      · rcases bind_eq_ok hp with ⟨_, s₄, htype, hp⟩
        rcases pure_eq_ok hp with ⟨-, rfl⟩
        rcases type_derives htype with ⟨t, ht, htt⟩
        refine ⟨.error o w t cl, Nat.succ_le_succ ht, ?_⟩
        rw [ho, hw, htt, hcl]
        simp [TermDerivation.tokens]
      · rcases bind_eq_ok hp with ⟨_, s₄, hconstant, hp⟩
        rcases pure_eq_ok hp with ⟨-, rfl⟩
        rcases constant_derives hconstant with ⟨k, hk, hkt⟩
        refine ⟨.con o w k cl, Nat.succ_le_succ hk, ?_⟩
        rw [ho, hw, hkt, hcl]
        simp [TermDerivation.tokens]
      · rcases bind_eq_ok hp with ⟨_, s₄, hbuiltin, hp⟩
        rcases pure_eq_ok hp with ⟨-, rfl⟩
        rcases builtinFunction_eq_ok hbuiltin with ⟨b, hb⟩
        refine ⟨.builtin o w b cl, Nat.succ_le_succ (Nat.zero_le _), ?_⟩
        rw [ho, hw, hb, hcl]
        rfl
      · rcases bind_eq_ok hp with ⟨_, s₄, hitems, hp⟩
        rcases pure_eq_ok hp with ⟨-, rfl⟩
        have hroom : 0 < room := room_pos_of_many rfl hitems
        rcases many_term_derives ih hitems with ⟨ds, hds, hdst⟩
        refine ⟨.prod o w ds cl, Nat.succ_le_succ (Nat.max_le.mpr ⟨hroom, hds⟩), ?_⟩
        rw [ho, hw, hdst, hcl]
        simp [TermDerivation.tokens]
      · rcases bind_eq_ok hp with ⟨_, s₄, hindex, hp⟩
        rcases bind_eq_ok hp with ⟨_, s₅, hterm, hp⟩
        rcases pure_eq_ok hp with ⟨-, rfl⟩
        rcases natural_eq_ok hindex with ⟨n, hn⟩
        rcases ih hterm with ⟨d, hd, hdt⟩
        refine ⟨.proj o w n d cl, Nat.succ_le_succ hd, ?_⟩
        rw [ho, hw, hn, hdt, hcl]
        simp [TermDerivation.tokens]
    · rcases between_eq_ok hbracket with ⟨o, cl, s₁, s₂, ho, happ, hcl⟩
      rcases application_eq_ok happ with ⟨_, _, _, s₃, s₄, hhead, harg, hargs⟩
      rcases ih hhead with ⟨d, hd, hdt⟩
      rcases ih harg with ⟨e, he, het⟩
      rcases many_term_derives ih hargs with ⟨es, hes, hest⟩
      refine ⟨.apply o d e es cl,
        Nat.succ_le_succ (Nat.max_le.mpr ⟨hd, Nat.max_le.mpr ⟨he, hes⟩⟩), ?_⟩
      rw [ho, hdt, het, hest, hcl]
      simp [TermDerivation.tokens]
    · rcases between_eq_ok hbrace with ⟨o, cl, s₁, s₂, ho, happ, hcl⟩
      rcases application_eq_ok happ with ⟨_, _, _, s₃, s₄, hhead, harg, hargs⟩
      rcases ih hhead with ⟨d, hd, hdt⟩
      rcases type_derives harg with ⟨t, ht, htt⟩
      rcases many_type_derives type_derives hargs with ⟨ts, hts, htst⟩
      refine ⟨.inst o d t ts cl,
        Nat.succ_le_succ (Nat.max_le.mpr ⟨hd, Nat.max_le.mpr ⟨ht, hts⟩⟩), ?_⟩
      rw [ho, hdt, htt, htst, hcl]
      simp [TermDerivation.tokens]
    · rcases spannedName_eq_ok hname with ⟨x, hx⟩
      exact ⟨.var x, Nat.succ_le_succ (Nat.zero_le _), hx⟩

theorem program_derives {room : Nat} {p : Program} (h : program room c s = .ok p s') :
    ∃ d : ProgramDerivation, d.depth ≤ room ∧ s.rest = d.tokens ++ s'.rest := by
  rcases bind_eq_ok h with ⟨⟨found, span⟩, s₁, hbetween, h⟩
  rcases pure_eq_ok h with ⟨-, rfl⟩
  rcases between_eq_ok hbetween with ⟨o, cl, s₂, s₃, ho, hinside, hcl⟩
  rcases bind_eq_ok hinside with ⟨_, s₄, hword, hinside⟩
  rcases bind_eq_ok hinside with ⟨_, s₅, hversion, hinside⟩
  rcases bind_eq_ok hinside with ⟨_, s₆, hterm, hinside⟩
  rcases pure_eq_ok hinside with ⟨-, rfl⟩
  rcases keyword_eq_ok hword with ⟨w, hw⟩
  rcases version_derives hversion with ⟨v, hv⟩
  rcases term_derives hterm with ⟨d, hd, hdt⟩
  refine ⟨⟨o, w, v, d, cl⟩, hd, ?_⟩
  rw [ho, hw, hv, hdt, hcl]
  simp [ProgramDerivation.tokens]

end Grammar

end FOmega
