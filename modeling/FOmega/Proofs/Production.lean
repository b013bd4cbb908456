import FOmega.Proofs.Diagnosis
import FOmega.Proofs.Sentence

/-!
# The sentences of each sort, production by production

The token lists of the derivations of a sort are a language. It satisfies the equation that the
productions of the sort write down, with the languages of the parts on the right-hand side, and none
of its sentences is the beginning of another.
-/

namespace FOmega

open Terminal FOmega.Parser Grammar
open scoped Computability

/-! ## Terminals in languages -/

theorem mem_bracketed {opening closing : TokenKind} {L : Language Token} {ts : List Token} :
    ts ∈ bracketed opening closing L ↔ ∃ (o : Delimiter opening) (c : Delimiter closing),
      ∃ u ∈ L, ts = o.token :: (u ++ [c.token]) := by
  constructor
  · intro h
    rcases Language.mem_mul.mp h with ⟨_, ⟨o, ho, rfl⟩, _, hinside, rfl⟩
    rcases Language.mem_mul.mp hinside with ⟨u, hu, _, ⟨c, hc, rfl⟩, rfl⟩
    exact ⟨⟨o, ho⟩, ⟨c, hc⟩, u, hu, rfl⟩
  · rintro ⟨o, c, u, hu, rfl⟩
    exact append_mem_mul (singleton_mem o.kind_eq) (append_mem_mul hu (singleton_mem c.kind_eq))

theorem mem_formsOf {words : List String} {body : String → Language Token} {ts : List Token} :
    ts ∈ formsOf words body ↔
      ∃ word ∈ words, ∃ w : Keyword word, ∃ u ∈ body word, ts = w.token :: u := by
  constructor
  · rintro ⟨t, u, ⟨hkind, htext⟩, hu, rfl⟩
    exact ⟨t.text, htext, ⟨t, hkind, rfl⟩, u, hu, rfl⟩
  · rintro ⟨word, hword, ⟨t, hkind, rfl⟩, u, hu, rfl⟩
    exact cons_mem_formsOf.mpr ⟨⟨hkind, hword⟩, hu⟩

/-- A form in parentheses. -/
theorem form_mem {words : List String} {body : String → Language Token} {word : String}
    (o : Delimiter .lparen) (w : Keyword word) (c : Delimiter .rparen) (hword : word ∈ words)
    {u : List Token} (hu : u ∈ body word) :
    o.token :: w.token :: (u ++ [c.token]) ∈ bracketed .lparen .rparen (formsOf words body) :=
  mem_bracketed.mpr ⟨o, c, w.token :: u, mem_formsOf.mpr ⟨word, hword, w, u, hu, rfl⟩, rfl⟩

theorem isBuiltinType_iff {t : Token} :
    IsBuiltinType t ↔ ∃ b : BuiltinTypeName, b.token = t := by
  constructor
  · rintro ⟨hkind, hsome⟩
    rcases Option.isSome_iff_exists.mp hsome with ⟨b, hb⟩
    exact ⟨⟨t, b, hkind, BuiltinType.ofText?_eq_some_iff.mp hb⟩, rfl⟩
  · rintro ⟨b, rfl⟩
    refine ⟨b.kind_eq, ?_⟩
    rw [BuiltinType.ofText?_eq_some_iff.mpr b.text_eq]
    rfl

theorem isBuiltinFunction_iff {t : Token} :
    IsBuiltinFunction t ↔ ∃ b : BuiltinFunctionName, b.token = t := by
  constructor
  · rintro ⟨hkind, hsome⟩
    rcases Option.isSome_iff_exists.mp hsome with ⟨b, hb⟩
    exact ⟨⟨t, b, hkind, BuiltinFunction.ofText?_eq_some_iff.mp hb⟩, rfl⟩
  · rintro ⟨b, rfl⟩
    refine ⟨b.kind_eq, ?_⟩
    rw [BuiltinFunction.ofText?_eq_some_iff.mpr b.text_eq]
    rfl

theorem isNatural_iff {t : Token} : IsNatural t ↔ ∃ n : Natural, n.token = t := by
  have hbound : wordBound = 18446744073709551616 := rfl
  constructor
  · rintro ⟨n, hkind, hnonneg, hlt⟩
    refine ⟨⟨t, n.toNat, by omega, ?_⟩, rfl⟩
    rw [hkind, Int.toNat_of_nonneg hnonneg]
  · rintro ⟨⟨t, value, hlt, hkind⟩, rfl⟩
    exact ⟨value, hkind, by omega, by omega⟩

namespace Phrase

variable {p : Phrase} {ts : List Token}

/-- The sentences of a sort. -/
def sentences (p : Phrase) : Language Token :=
  {ts | ∃ d, p.tokens d = ts}

/-- The rule of a sort stops after a sentence, so it never reads a longer one. -/
theorem prefixFree_sentences (p : Phrase) : PrefixFree p.sentences := by
  rintro u ⟨d, rfl⟩ t ⟨w, d', hd'⟩
  let room := max (p.depth d) (p.depth d')
  let c : Context := ⟨[], 0, room⟩
  obtain ⟨a, i, hread, -⟩ := rule_read d (Nat.le_max_left _ _ : _ ≤ room) c (t :: w) none
    (.ofSupply .empty)
  obtain ⟨b, j, hread', -⟩ := rule_read d' (Nat.le_max_right _ _ : _ ≤ room) c [] none
    (.ofSupply .empty)
  rw [hd', List.append_nil, hread] at hread'
  cases hread'

theorem mem_kstar_sentences :
    ts ∈ p.sentences∗ ↔ ∃ ds : List p.Derivation, ts = ds.flatMap p.tokens := by
  rw [Language.mem_kstar]
  constructor
  · rintro ⟨items, rfl, hitems⟩
    induction items with
    | nil => exact ⟨[], rfl⟩
    | cons item items ih =>
      rcases List.forall_mem_cons.mp hitems with ⟨⟨d, rfl⟩, hothers⟩
      rcases ih hothers with ⟨ds, hds⟩
      exact ⟨d :: ds, by rw [List.flatten_cons, hds, List.flatMap_cons]⟩
  · rintro ⟨ds, rfl⟩
    refine ⟨ds.map p.tokens, List.flatMap_def, ?_⟩
    intro ts hts
    rcases List.mem_map.mp hts with ⟨d, -, rfl⟩
    exact ⟨d, rfl⟩

/-! ## Constants and kinds -/

/-- The tokens that denote a constant. -/
def IsLiteral (t : Token) : Prop :=
  ∃ k, Denotes t k

theorem constant_production :
    constant.sentences = single IsLiteral + bracketed .lparen .rparen constant.sentences := by
  ext ts
  constructor
  · rintro ⟨d, rfl⟩
    cases d with
    | literal l => exact .inl ⟨l.token, ⟨l.value, l.denotes⟩, rfl⟩
    | parens o d c => exact .inr (mem_bracketed.mpr ⟨o, c, d.tokens, ⟨d, rfl⟩, rfl⟩)
  · rintro (⟨t, ⟨k, hk⟩, rfl⟩ | h)
    · exact ⟨.literal ⟨t, k, hk⟩, rfl⟩
    · rcases mem_bracketed.mp h with ⟨o, c, _, ⟨d, rfl⟩, rfl⟩
      exact ⟨.parens o d c, rfl⟩

theorem constant_sentence : ∃ u, u ∈ constant.sentences :=
  ⟨_, .literal ⟨⟨.int 0, ⟨0, 0⟩, ""⟩, .integer 0, .integer rfl⟩, rfl⟩

theorem cons_mem_constants {t : Token} :
    t :: ts ∈ constant.sentences ↔ (IsLiteral t ∧ ts = []) ∨
      (t.kind = .lparen ∧ ts ∈ constant.sentences * single (IsKind .rparen)) := by
  conv_lhs => rw [constant_production]
  exact or_congr cons_mem_single cons_mem_single_mul

/-- The words that tell the forms of a kind apart. -/
def kindWords : List String :=
  ["type", "fun"]

/-- What follows each word in a kind. -/
def kindBodies : String → Language Token
  | "type" => 1
  | "fun" => kind.sentences * kind.sentences
  | _ => 0

theorem kind_production :
    kind.sentences = bracketed .lparen .rparen (formsOf kindWords kindBodies) := by
  ext ts
  constructor
  · rintro ⟨d, rfl⟩
    cases d with
    | type o w c => exact form_mem (u := []) o w c (by decide) rfl
    | arrow o w d e c =>
      exact form_mem o w c (by decide) (append_mem_mul ⟨d, rfl⟩ ⟨e, rfl⟩)
  · intro h
    rcases mem_bracketed.mp h with ⟨o, c, _, hform, rfl⟩
    rcases mem_formsOf.mp hform with ⟨word, hword, w, u, hu, rfl⟩
    simp only [kindWords, List.mem_cons, List.not_mem_nil, or_false] at hword
    rcases hword with rfl | rfl
    · obtain rfl : u = [] := hu
      exact ⟨.type o w c, rfl⟩
    · rcases Language.mem_mul.mp hu with ⟨_, ⟨d, rfl⟩, _, ⟨e, rfl⟩, rfl⟩
      exact ⟨.arrow o w d e c, rfl⟩

theorem kind_sentence : ∃ u, u ∈ kind.sentences :=
  ⟨_, .type ⟨⟨.lparen, ⟨0, 0⟩, ""⟩, rfl⟩ ⟨⟨.ident, ⟨0, 0⟩, "type"⟩, rfl, rfl⟩
    ⟨⟨.rparen, ⟨0, 0⟩, ""⟩, rfl⟩, rfl⟩

/-! ## Types -/

/-- The words that tell the forms of a type apart. -/
def typeWords : List String :=
  ["lam", "all", "ifix", "fun", "con", "prod"]

/-- What follows each word in a type. -/
def typeBodies : String → Language Token
  | "lam" => single (IsKind .ident) * (kind.sentences * type.sentences)
  | "all" => single (IsKind .ident) * (kind.sentences * type.sentences)
  | "ifix" => type.sentences * type.sentences
  | "fun" => type.sentences * type.sentences
  | "con" => single IsBuiltinType
  | "prod" => type.sentences∗
  | _ => 0

theorem mem_types_kstar :
    ts ∈ type.sentences∗ ↔ ∃ ds : List TypeDerivation, ts = TypeDerivation.allTokens ds := by
  simp only [TypeDerivation.allTokens_eq_flatMap]
  exact mem_kstar_sentences

theorem type_production :
    type.sentences = single (IsKind .ident) + bracketed .lparen .rparen (formsOf typeWords typeBodies)
      + bracketed .lbracket .rbracket (type.sentences * (type.sentences * type.sentences∗)) := by
  ext ts
  constructor
  · rintro ⟨d, rfl⟩
    cases d with
    | var x => exact .inl (.inl ⟨x.token, x.kind_eq, rfl⟩)
    | lam o w x k d c | all o w x k d c =>
      refine .inl (.inr (form_mem (u := x.token :: (k.tokens ++ d.tokens)) o w c (by decide) ?_))
      exact cons_mem_single_mul.mpr ⟨x.kind_eq, append_mem_mul ⟨k, rfl⟩ ⟨d, rfl⟩⟩
    | ifix o w d e c | fn o w d e c =>
      refine .inl (.inr (form_mem o w c (by decide) ?_))
      exact append_mem_mul ⟨d, rfl⟩ ⟨e, rfl⟩
    | con o w b c =>
      refine .inl (.inr (form_mem (u := [b.token]) o w c (by decide) ?_))
      exact singleton_mem (isBuiltinType_iff.mpr ⟨b, rfl⟩)
    | prod o w ds c =>
      refine .inl (.inr (form_mem o w c (by decide) ?_))
      exact mem_types_kstar.mpr ⟨ds, rfl⟩
    | app o d e es c =>
      refine .inr (mem_bracketed.mpr ⟨o, c, d.tokens ++ (e.tokens ++ TypeDerivation.allTokens es),
        append_mem_mul ⟨d, rfl⟩ (append_mem_mul ⟨e, rfl⟩ (mem_types_kstar.mpr ⟨es, rfl⟩)), ?_⟩)
      rw [← List.append_assoc]
      rfl
  · rintro ((⟨t, ht, rfl⟩ | h) | h)
    · exact ⟨.var ⟨t, ht⟩, rfl⟩
    · rcases mem_bracketed.mp h with ⟨o, c, _, hform, rfl⟩
      rcases mem_formsOf.mp hform with ⟨word, hword, w, u, hu, rfl⟩
      simp only [typeWords, List.mem_cons, List.not_mem_nil, or_false] at hword
      rcases hword with rfl | rfl | rfl | rfl | rfl | rfl
      · rcases Language.mem_mul.mp hu with ⟨_, ⟨x, hx, rfl⟩, _, hrest, rfl⟩
        rcases Language.mem_mul.mp hrest with ⟨_, ⟨k, rfl⟩, _, ⟨d, rfl⟩, rfl⟩
        exact ⟨.lam o w ⟨x, hx⟩ k d c, rfl⟩
      · rcases Language.mem_mul.mp hu with ⟨_, ⟨x, hx, rfl⟩, _, hrest, rfl⟩
        rcases Language.mem_mul.mp hrest with ⟨_, ⟨k, rfl⟩, _, ⟨d, rfl⟩, rfl⟩
        exact ⟨.all o w ⟨x, hx⟩ k d c, rfl⟩
      · rcases Language.mem_mul.mp hu with ⟨_, ⟨d, rfl⟩, _, ⟨e, rfl⟩, rfl⟩
        exact ⟨.ifix o w d e c, rfl⟩
      · rcases Language.mem_mul.mp hu with ⟨_, ⟨d, rfl⟩, _, ⟨e, rfl⟩, rfl⟩
        exact ⟨.fn o w d e c, rfl⟩
      · rcases hu with ⟨t, ht, rfl⟩
        rcases isBuiltinType_iff.mp ht with ⟨b, rfl⟩
        exact ⟨.con o w b c, rfl⟩
      · rcases mem_types_kstar.mp hu with ⟨ds, rfl⟩
        exact ⟨.prod o w ds c, rfl⟩
    · rcases mem_bracketed.mp h with ⟨o, c, _, happ, rfl⟩
      rcases Language.mem_mul.mp happ with ⟨_, ⟨d, rfl⟩, _, hargs, rfl⟩
      rcases Language.mem_mul.mp hargs with ⟨_, ⟨e, rfl⟩, _, hmore, rfl⟩
      rcases mem_types_kstar.mp hmore with ⟨es, rfl⟩
      refine ⟨.app o d e es c, ?_⟩
      rw [← List.append_assoc]
      rfl

theorem type_sentence : ∃ u, u ∈ type.sentences :=
  ⟨_, .var ⟨⟨.ident, ⟨0, 0⟩, ""⟩, rfl⟩, rfl⟩

theorem typeForm_sentence : ∃ u, u ∈ formsOf typeWords typeBodies :=
  ⟨[⟨.ident, ⟨0, 0⟩, "prod"⟩],
    cons_mem_formsOf.mpr ⟨⟨rfl, by decide⟩, Language.nil_mem_kstar type.sentences⟩⟩

theorem cons_mem_types {t : Token} :
    t :: ts ∈ type.sentences ↔ ((t.kind = .ident ∧ ts = []) ∨
      (t.kind = .lparen ∧ ts ∈ formsOf typeWords typeBodies * single (IsKind .rparen))) ∨
      (t.kind = .lbracket ∧
        ts ∈ type.sentences * (type.sentences * type.sentences∗) * single (IsKind .rbracket)) := by
  conv_lhs => rw [type_production]
  exact or_congr (or_congr cons_mem_single cons_mem_single_mul) cons_mem_single_mul

/-! ## Terms -/

/-- The words that tell the forms of a term apart. -/
def termWords : List String :=
  ["lam", "abs", "iwrap", "unwrap", "error", "con", "builtin", "prod", "proj"]

/-- What follows each word in a term. -/
def termBodies : String → Language Token
  | "lam" => single (IsKind .ident) * (type.sentences * term.sentences)
  | "abs" => single (IsKind .ident) * (kind.sentences * term.sentences)
  | "iwrap" => type.sentences * (type.sentences * term.sentences)
  | "unwrap" => term.sentences
  | "error" => type.sentences
  | "con" => constant.sentences
  | "builtin" => single IsBuiltinFunction
  | "prod" => term.sentences∗
  | "proj" => single IsNatural * term.sentences
  | _ => 0

theorem mem_terms_kstar :
    ts ∈ term.sentences∗ ↔ ∃ ds : List TermDerivation, ts = TermDerivation.allTokens ds := by
  simp only [TermDerivation.allTokens_eq_flatMap]
  exact mem_kstar_sentences

theorem term_production :
    term.sentences = single (IsKind .ident) + bracketed .lparen .rparen (formsOf termWords termBodies)
      + bracketed .lbracket .rbracket (term.sentences * (term.sentences * term.sentences∗))
      + bracketed .lbrace .rbrace (term.sentences * (type.sentences * type.sentences∗)) := by
  ext ts
  constructor
  · rintro ⟨d, rfl⟩
    cases d with
    | var x => exact .inl (.inl (.inl ⟨x.token, x.kind_eq, rfl⟩))
    | lam o w x t d c =>
      refine .inl (.inl (.inr
        (form_mem (u := x.token :: (t.tokens ++ d.tokens)) o w c (by decide) ?_)))
      exact cons_mem_single_mul.mpr ⟨x.kind_eq, append_mem_mul ⟨t, rfl⟩ ⟨d, rfl⟩⟩
    | abs o w x k d c =>
      refine .inl (.inl (.inr
        (form_mem (u := x.token :: (k.tokens ++ d.tokens)) o w c (by decide) ?_)))
      exact cons_mem_single_mul.mpr ⟨x.kind_eq, append_mem_mul ⟨k, rfl⟩ ⟨d, rfl⟩⟩
    | iwrap o w t t' d c =>
      refine .inl (.inl (.inr (form_mem o w c (by decide) ?_)))
      rw [List.append_assoc]
      exact append_mem_mul ⟨t, rfl⟩ (append_mem_mul ⟨t', rfl⟩ ⟨d, rfl⟩)
    | unwrap o w d c => exact .inl (.inl (.inr (form_mem o w c (by decide) ⟨d, rfl⟩)))
    | error o w t c => exact .inl (.inl (.inr (form_mem o w c (by decide) ⟨t, rfl⟩)))
    | con o w k c => exact .inl (.inl (.inr (form_mem o w c (by decide) ⟨k, rfl⟩)))
    | builtin o w b c =>
      refine .inl (.inl (.inr (form_mem (u := [b.token]) o w c (by decide) ?_)))
      exact singleton_mem (isBuiltinFunction_iff.mpr ⟨b, rfl⟩)
    | prod o w ds c =>
      refine .inl (.inl (.inr (form_mem o w c (by decide) ?_)))
      exact mem_terms_kstar.mpr ⟨ds, rfl⟩
    | proj o w n d c =>
      refine .inl (.inl (.inr (form_mem (u := n.token :: d.tokens) o w c (by decide) ?_)))
      exact cons_mem_single_mul.mpr ⟨isNatural_iff.mpr ⟨n, rfl⟩, d, rfl⟩
    | apply o d e es c =>
      refine .inl (.inr (mem_bracketed.mpr
        ⟨o, c, d.tokens ++ (e.tokens ++ TermDerivation.allTokens es),
          append_mem_mul ⟨d, rfl⟩ (append_mem_mul ⟨e, rfl⟩ (mem_terms_kstar.mpr ⟨es, rfl⟩)), ?_⟩))
      rw [← List.append_assoc]
      rfl
    | inst o d t ts c =>
      refine .inr (mem_bracketed.mpr ⟨o, c, d.tokens ++ (t.tokens ++ TypeDerivation.allTokens ts),
        append_mem_mul ⟨d, rfl⟩ (append_mem_mul ⟨t, rfl⟩ (mem_types_kstar.mpr ⟨ts, rfl⟩)), ?_⟩)
      rw [← List.append_assoc]
      rfl
  · rintro (((⟨t, ht, rfl⟩ | h) | h) | h)
    · exact ⟨.var ⟨t, ht⟩, rfl⟩
    · rcases mem_bracketed.mp h with ⟨o, c, _, hform, rfl⟩
      rcases mem_formsOf.mp hform with ⟨word, hword, w, u, hu, rfl⟩
      simp only [termWords, List.mem_cons, List.not_mem_nil, or_false] at hword
      rcases hword with rfl | rfl | rfl | rfl | rfl | rfl | rfl | rfl | rfl
      · rcases Language.mem_mul.mp hu with ⟨_, ⟨x, hx, rfl⟩, _, hrest, rfl⟩
        rcases Language.mem_mul.mp hrest with ⟨_, ⟨t, rfl⟩, _, ⟨d, rfl⟩, rfl⟩
        exact ⟨.lam o w ⟨x, hx⟩ t d c, rfl⟩
      · rcases Language.mem_mul.mp hu with ⟨_, ⟨x, hx, rfl⟩, _, hrest, rfl⟩
        rcases Language.mem_mul.mp hrest with ⟨_, ⟨k, rfl⟩, _, ⟨d, rfl⟩, rfl⟩
        exact ⟨.abs o w ⟨x, hx⟩ k d c, rfl⟩
      · rcases Language.mem_mul.mp hu with ⟨_, ⟨t, rfl⟩, _, hrest, rfl⟩
        rcases Language.mem_mul.mp hrest with ⟨_, ⟨t', rfl⟩, _, ⟨d, rfl⟩, rfl⟩
        refine ⟨.iwrap o w t t' d c, ?_⟩
        rw [← List.append_assoc]
        rfl
      · rcases hu with ⟨d, rfl⟩
        exact ⟨.unwrap o w d c, rfl⟩
      · rcases hu with ⟨t, rfl⟩
        exact ⟨.error o w t c, rfl⟩
      · rcases hu with ⟨k, rfl⟩
        exact ⟨.con o w k c, rfl⟩
      · rcases hu with ⟨t, ht, rfl⟩
        rcases isBuiltinFunction_iff.mp ht with ⟨b, rfl⟩
        exact ⟨.builtin o w b c, rfl⟩
      · rcases mem_terms_kstar.mp hu with ⟨ds, rfl⟩
        exact ⟨.prod o w ds c, rfl⟩
      · rcases Language.mem_mul.mp hu with ⟨_, ⟨t, ht, rfl⟩, _, ⟨d, rfl⟩, rfl⟩
        rcases isNatural_iff.mp ht with ⟨n, rfl⟩
        exact ⟨.proj o w n d c, rfl⟩
    · rcases mem_bracketed.mp h with ⟨o, c, _, happ, rfl⟩
      rcases Language.mem_mul.mp happ with ⟨_, ⟨d, rfl⟩, _, hargs, rfl⟩
      rcases Language.mem_mul.mp hargs with ⟨_, ⟨e, rfl⟩, _, hmore, rfl⟩
      rcases mem_terms_kstar.mp hmore with ⟨es, rfl⟩
      refine ⟨.apply o d e es c, ?_⟩
      rw [← List.append_assoc]
      rfl
    · rcases mem_bracketed.mp h with ⟨o, c, _, happ, rfl⟩
      rcases Language.mem_mul.mp happ with ⟨_, ⟨d, rfl⟩, _, hargs, rfl⟩
      rcases Language.mem_mul.mp hargs with ⟨_, ⟨t, rfl⟩, _, hmore, rfl⟩
      rcases mem_types_kstar.mp hmore with ⟨ts, rfl⟩
      refine ⟨.inst o d t ts c, ?_⟩
      rw [← List.append_assoc]
      rfl

theorem term_sentence : ∃ u, u ∈ term.sentences :=
  ⟨_, .var ⟨⟨.ident, ⟨0, 0⟩, ""⟩, rfl⟩, rfl⟩

theorem termForm_sentence : ∃ u, u ∈ formsOf termWords termBodies :=
  ⟨[⟨.ident, ⟨0, 0⟩, "prod"⟩],
    cons_mem_formsOf.mpr ⟨⟨rfl, by decide⟩, Language.nil_mem_kstar term.sentences⟩⟩

theorem cons_mem_terms {t : Token} :
    t :: ts ∈ term.sentences ↔ (((t.kind = .ident ∧ ts = []) ∨
      (t.kind = .lparen ∧ ts ∈ formsOf termWords termBodies * single (IsKind .rparen))) ∨
      (t.kind = .lbracket ∧
        ts ∈ term.sentences * (term.sentences * term.sentences∗) * single (IsKind .rbracket))) ∨
      (t.kind = .lbrace ∧
        ts ∈ term.sentences * (type.sentences * type.sentences∗) * single (IsKind .rbrace)) := by
  conv_lhs => rw [term_production]
  exact or_congr (or_congr (or_congr cons_mem_single cons_mem_single_mul) cons_mem_single_mul)
    cons_mem_single_mul

/-! ## Programs -/

/-- Three numbers with dots between. -/
def versions : Language Token :=
  single IsNatural * (single (IsKind .dot) * (single IsNatural * (single (IsKind .dot) *
    single IsNatural)))

theorem mem_versions : ts ∈ versions ↔ ∃ d : VersionDerivation, d.tokens = ts := by
  constructor
  · intro h
    rcases Language.mem_mul.mp h with ⟨_, ⟨t₁, h₁, rfl⟩, _, hdot, rfl⟩
    rcases Language.mem_mul.mp hdot with ⟨_, ⟨t₂, h₂, rfl⟩, _, hminor, rfl⟩
    rcases Language.mem_mul.mp hminor with ⟨_, ⟨t₃, h₃, rfl⟩, _, hdot', rfl⟩
    rcases Language.mem_mul.mp hdot' with ⟨_, ⟨t₄, h₄, rfl⟩, _, ⟨t₅, h₅, rfl⟩, rfl⟩
    rcases isNatural_iff.mp h₁ with ⟨major, rfl⟩
    rcases isNatural_iff.mp h₃ with ⟨minor, rfl⟩
    rcases isNatural_iff.mp h₅ with ⟨patch, rfl⟩
    exact ⟨⟨major, ⟨t₂, h₂⟩, minor, ⟨t₄, h₄⟩, patch⟩, rfl⟩
  · rintro ⟨d, rfl⟩
    refine cons_mem_single_mul.mpr ⟨isNatural_iff.mpr ⟨_, rfl⟩, ?_⟩
    refine cons_mem_single_mul.mpr ⟨d.firstDot.kind_eq, ?_⟩
    refine cons_mem_single_mul.mpr ⟨isNatural_iff.mpr ⟨_, rfl⟩, ?_⟩
    refine cons_mem_single_mul.mpr ⟨d.secondDot.kind_eq, ?_⟩
    exact singleton_mem (isNatural_iff.mpr ⟨_, rfl⟩)

theorem program_production :
    program.sentences = bracketed .lparen .rparen
      (single (IsWord "program") * (versions * term.sentences)) := by
  ext ts
  constructor
  · rintro ⟨⟨o, w, v, d, c⟩, rfl⟩
    refine mem_bracketed.mpr ⟨o, c, w.token :: (v.tokens ++ d.tokens), ?_, rfl⟩
    refine cons_mem_single_mul.mpr ⟨⟨w.kind_eq, w.text_eq⟩, ?_⟩
    exact append_mem_mul (mem_versions.mpr ⟨v, rfl⟩) ⟨d, rfl⟩
  · intro h
    rcases mem_bracketed.mp h with ⟨o, c, _, hinside, rfl⟩
    rcases Language.mem_mul.mp hinside with ⟨_, ⟨t, ⟨hkind, htext⟩, rfl⟩, _, hrest, rfl⟩
    rcases Language.mem_mul.mp hrest with ⟨_, hversion, _, ⟨d, rfl⟩, rfl⟩
    rcases mem_versions.mp hversion with ⟨v, rfl⟩
    exact ⟨⟨o, ⟨t, hkind, htext⟩, v, d, c⟩, rfl⟩

end Phrase

end FOmega
