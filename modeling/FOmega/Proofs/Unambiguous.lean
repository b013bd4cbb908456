import FOmega.Proofs.Sentence

/-!
# The written grammar is unambiguous

A token list that starts with a phrase of some sort starts with one phrase of that sort only, and a
phrase has one derivation. The token that a phrase starts with, together with the word after an
opening parenthesis, tells its production; from there on each part is determined in turn. A row of
items ends where a closing bracket stands, since no phrase starts with one.
-/

namespace FOmega

open Terminal

/-! ## Terminals are told by their tokens -/

namespace Terminal

theorem Delimiter.eq_of_token {kind : TokenKind} {o o' : Delimiter kind}
    (h : o.token = o'.token) : o = o' := by
  cases o
  cases o'
  cases h
  rfl

theorem Keyword.eq_of_token {word : String} {w w' : Keyword word} (h : w.token = w'.token) :
    w = w' := by
  cases w
  cases w'
  cases h
  rfl

theorem Identifier.eq_of_token {x x' : Identifier} (h : x.token = x'.token) : x = x' := by
  cases x
  cases x'
  cases h
  rfl

theorem Natural.eq_of_token {n n' : Natural} (h : n.token = n'.token) : n = n' := by
  obtain ⟨t, value, hlt, hkind⟩ := n
  obtain ⟨t', value', hlt', hkind'⟩ := n'
  cases h
  rw [hkind, TokenKind.int.injEq, Int.natCast_inj] at hkind'
  cases hkind'
  rfl

theorem BuiltinTypeName.eq_of_token {b b' : BuiltinTypeName} (h : b.token = b'.token) :
    b = b' := by
  obtain ⟨t, type, hkind, htext⟩ := b
  obtain ⟨t', type', hkind', htext'⟩ := b'
  cases h
  have hfound := BuiltinType.ofText?_eq_some_iff.mpr htext
  rw [BuiltinType.ofText?_eq_some_iff.mpr htext'] at hfound
  cases hfound
  rfl

theorem BuiltinFunctionName.eq_of_token {b b' : BuiltinFunctionName} (h : b.token = b'.token) :
    b = b' := by
  obtain ⟨t, function, hkind, htext⟩ := b
  obtain ⟨t', function', hkind', htext'⟩ := b'
  cases h
  have hfound := BuiltinFunction.ofText?_eq_some_iff.mpr htext
  rw [BuiltinFunction.ofText?_eq_some_iff.mpr htext'] at hfound
  cases hfound
  rfl

theorem Literal.eq_of_token {l l' : Literal} (h : l.token = l'.token) : l = l' := by
  obtain ⟨t, value, hdenotes⟩ := l
  obtain ⟨t', value', hdenotes'⟩ := l'
  cases h
  have hread := literal?_eq_some_iff.mpr hdenotes
  rw [literal?_eq_some_iff.mpr hdenotes'] at hread
  cases hread
  rfl

end Terminal

/-! ## Phrases that are told by what a token list starts with -/

/-- No other phrase starts a token list that this one starts. -/
def Determined {α : Type} (tokens : α → List Token) (a : α) : Prop :=
  ∀ b u v, tokens a ++ u = tokens b ++ v → a = b ∧ u = v

/-- The kind of the first token and, after an opening parenthesis, the word that follows. -/
def leadOf : List Token → TokenKind × String
  | [] => (.dot, "")
  | t :: ts => (t.kind, if t.kind = .lparen then (ts.head?.map Token.text).getD "" else "")

/-- The kinds of token that close a bracket. -/
def closings : List TokenKind :=
  [.rparen, .rbracket, .rbrace]

theorem Determined.token {α : Type} {f : α → Token} (h : ∀ {a b}, f a = f b → a = b) (a : α) :
    Determined (fun a => [f a]) a := by
  intro b u v heq
  obtain ⟨hab, huv⟩ := List.cons.inj heq
  exact ⟨h hab, huv⟩

theorem Determined.pair {α β : Type} {f : α → List Token} {g : β → List Token} {a : α} {b : β}
    (ha : Determined f a) (hb : Determined g b) :
    Determined (fun p : α × β => f p.1 ++ g p.2) (a, b) := by
  rintro ⟨a', b'⟩ u v heq
  rw [List.append_assoc, List.append_assoc] at heq
  obtain ⟨rfl, hrest⟩ := ha a' _ _ heq
  obtain ⟨rfl, huv⟩ := hb b' _ _ hrest
  exact ⟨rfl, huv⟩

section

variable {kind : TokenKind} {word : String}

theorem Terminal.Delimiter.determined (o : Delimiter kind) :
    Determined (fun o : Delimiter kind => [o.token]) o :=
  .token Delimiter.eq_of_token o

theorem Terminal.Keyword.determined (w : Keyword word) :
    Determined (fun w : Keyword word => [w.token]) w :=
  .token Keyword.eq_of_token w

theorem Terminal.Identifier.determined (x : Identifier) :
    Determined (fun x : Identifier => [x.token]) x :=
  .token Identifier.eq_of_token x

theorem Terminal.Natural.determined (n : Natural) :
    Determined (fun n : Natural => [n.token]) n :=
  .token Natural.eq_of_token n

theorem Terminal.BuiltinTypeName.determined (b : BuiltinTypeName) :
    Determined (fun b : BuiltinTypeName => [b.token]) b :=
  .token BuiltinTypeName.eq_of_token b

theorem Terminal.BuiltinFunctionName.determined (b : BuiltinFunctionName) :
    Determined (fun b : BuiltinFunctionName => [b.token]) b :=
  .token BuiltinFunctionName.eq_of_token b

theorem Terminal.Literal.determined (l : Literal) :
    Determined (fun l : Literal => [l.token]) l :=
  .token Literal.eq_of_token l

end

theorem leadOf_delimiter {kind : TokenKind} (c : Delimiter kind) (ts : List Token) :
    (leadOf (c.token :: ts)).1 = kind :=
  c.kind_eq

/-- A row of determined phrases is determined together with the closing bracket after it. -/
theorem Determined.row {α : Type} {tokens : α → List Token} {kind : TokenKind}
    (hclosing : kind ∈ closings) (hlead : ∀ a u, (leadOf (tokens a ++ u)).1 ∉ closings)
    {as : List α} (h : ∀ a ∈ as, Determined tokens a) (c : Delimiter kind) :
    Determined (fun p : List α × Delimiter kind => p.1.flatMap tokens ++ [p.2.token]) (as, c) := by
  -- a phrase on one side only would start with the closing bracket of the other
  have hstart : ∀ (a : α) (c : Delimiter kind) (u v : List Token),
      c.token :: u ≠ tokens a ++ v := by
    intro a c u v hsame
    refine hlead a v ?_
    rw [← hsame, leadOf_delimiter]
    exact hclosing
  rintro ⟨bs, c'⟩ u v heq
  rw [List.append_assoc, List.append_assoc] at heq
  induction as generalizing bs with
  | nil =>
    cases bs with
    | nil =>
      obtain ⟨hc, huv⟩ := List.cons.inj heq
      obtain rfl : c = c' := Delimiter.eq_of_token hc
      exact ⟨rfl, huv⟩
    | cons b bs =>
      rw [List.flatMap_cons, List.append_assoc] at heq
      exact absurd heq (hstart b c u _)
  | cons a as ih =>
    cases bs with
    | nil =>
      rw [List.flatMap_cons, List.append_assoc] at heq
      exact absurd heq.symm (hstart a c' v _)
    | cons b bs =>
      rw [List.flatMap_cons, List.flatMap_cons, List.append_assoc, List.append_assoc] at heq
      obtain ⟨rfl, hrest⟩ := h a List.mem_cons_self b _ _ heq
      obtain ⟨hsame, huv⟩ := ih (fun x hx => h x (List.mem_cons_of_mem a hx)) bs hrest
      cases hsame
      exact ⟨rfl, huv⟩

/-! ## Constants and kinds -/

theorem ConstantDerivation.determined (d : ConstantDerivation) :
    Determined ConstantDerivation.tokens d := by
  induction d with
  | literal l =>
    intro e u v h
    cases e with
    | literal l' =>
      obtain ⟨rfl, huv⟩ := l.determined l' u v h
      exact ⟨rfl, huv⟩
    | parens o' d' c' =>
      have hl : l.token = o'.token := (List.cons.inj h).1
      exact absurd (hl ▸ o'.kind_eq) l.denotes.kind_ne_lparen
  | parens o d c ih =>
    intro e u v h
    cases e with
    | literal l' =>
      have hl : o.token = l'.token := (List.cons.inj h).1
      exact absurd (hl ▸ o.kind_eq) l'.denotes.kind_ne_lparen
    | parens o' d' c' =>
      have hparts := o.determined.pair (ih.pair c.determined)
      obtain ⟨heq, huv⟩ := hparts (o', d', c') u v h
      cases heq
      exact ⟨rfl, huv⟩

/-- The token that a kind starts with, and the word after it. -/
def KindDerivation.lead : KindDerivation → TokenKind × String
  | type _ _ _ => (.lparen, "type")
  | arrow _ _ _ _ _ => (.lparen, "fun")

theorem KindDerivation.leadOf_tokens (d : KindDerivation) (u : List Token) :
    leadOf (d.tokens ++ u) = d.lead := by
  cases d with
  | type o w c | arrow o w d e c => simp [tokens, leadOf, lead, o.kind_eq, w.text_eq]

theorem KindDerivation.lead_eq {d e : KindDerivation} {u v : List Token}
    (h : d.tokens ++ u = e.tokens ++ v) : d.lead = e.lead := by
  rw [← d.leadOf_tokens u, h, e.leadOf_tokens]

theorem KindDerivation.determined (d : KindDerivation) : Determined KindDerivation.tokens d := by
  induction d with
  | type o w c =>
    intro e u v h
    cases e with
    | type o' w' c' =>
      have hparts := o.determined.pair (w.determined.pair c.determined)
      obtain ⟨heq, huv⟩ := hparts (o', w', c') u v h
      cases heq
      exact ⟨rfl, huv⟩
    | _ => exact absurd (lead_eq h) (by simp [lead])
  | arrow o w d₁ d₂ c ih₁ ih₂ =>
    intro e u v h
    cases e with
    | arrow o' w' e₁ e₂ c' =>
      have hparts := o.determined.pair (w.determined.pair ((ih₁.pair ih₂).pair c.determined))
      obtain ⟨heq, huv⟩ := hparts (o', w', (e₁, e₂), c') u v h
      cases heq
      exact ⟨rfl, huv⟩
    | _ => exact absurd (lead_eq h) (by simp [lead])

/-! ## Types -/

namespace TypeDerivation

/-- The token that a type starts with, and the word after an opening parenthesis. -/
def lead : TypeDerivation → TokenKind × String
  | var _ => (.ident, "")
  | lam _ _ _ _ _ _ => (.lparen, "lam")
  | all _ _ _ _ _ _ => (.lparen, "all")
  | ifix _ _ _ _ _ => (.lparen, "ifix")
  | fn _ _ _ _ _ => (.lparen, "fun")
  | con _ _ _ _ => (.lparen, "con")
  | prod _ _ _ _ => (.lparen, "prod")
  | app _ _ _ _ _ => (.lbracket, "")

theorem leadOf_tokens (d : TypeDerivation) (u : List Token) :
    leadOf (d.tokens ++ u) = d.lead := by
  cases d with
  | var x => simp [tokens, leadOf, lead, x.kind_eq]
  | app o d e es c => simp [tokens, leadOf, lead, o.kind_eq]
  | lam o w | all o w | ifix o w | fn o w | con o w | prod o w =>
    simp [tokens, leadOf, lead, o.kind_eq, w.text_eq]

theorem lead_eq {d e : TypeDerivation} {u v : List Token}
    (h : d.tokens ++ u = e.tokens ++ v) : d.lead = e.lead := by
  rw [← d.leadOf_tokens u, h, e.leadOf_tokens]

theorem lead_not_closing (d : TypeDerivation) (u : List Token) :
    (leadOf (d.tokens ++ u)).1 ∉ closings := by
  rw [d.leadOf_tokens]
  cases d <;> simp [lead, closings]

/-- Types in a row are determined together with the bracket that closes them. -/
theorem row_determined {kind : TokenKind} (hclosing : kind ∈ closings) {ds : List TypeDerivation}
    (h : ∀ d ∈ ds, Determined tokens d) (c : Delimiter kind) :
    Determined (fun p : List TypeDerivation × Delimiter kind => allTokens p.1 ++ [p.2.token])
      (ds, c) := by
  simp only [allTokens_eq_flatMap]
  exact .row hclosing lead_not_closing h c

theorem determined (d : TypeDerivation) : Determined tokens d := by
  induction d with
  | var x =>
    intro e u v h
    cases e with
    | var x' =>
      obtain ⟨rfl, huv⟩ := x.determined x' u v h
      exact ⟨rfl, huv⟩
    | _ => exact absurd (lead_eq h) (by simp [lead])
  | lam o w x k d c ih =>
    intro e u v h
    cases e with
    | lam o' w' x' k' d' c' =>
      have hparts := o.determined.pair
        (w.determined.pair (x.determined.pair ((k.determined.pair ih).pair c.determined)))
      obtain ⟨heq, huv⟩ := hparts (o', w', x', (k', d'), c') u v h
      cases heq
      exact ⟨rfl, huv⟩
    | _ => exact absurd (lead_eq h) (by simp [lead])
  | all o w x k d c ih =>
    intro e u v h
    cases e with
    | all o' w' x' k' d' c' =>
      have hparts := o.determined.pair
        (w.determined.pair (x.determined.pair ((k.determined.pair ih).pair c.determined)))
      obtain ⟨heq, huv⟩ := hparts (o', w', x', (k', d'), c') u v h
      cases heq
      exact ⟨rfl, huv⟩
    | _ => exact absurd (lead_eq h) (by simp [lead])
  | ifix o w d e c ihd ihe =>
    intro f u v h
    cases f with
    | ifix o' w' d' e' c' =>
      have hparts := o.determined.pair (w.determined.pair ((ihd.pair ihe).pair c.determined))
      obtain ⟨heq, huv⟩ := hparts (o', w', (d', e'), c') u v h
      cases heq
      exact ⟨rfl, huv⟩
    | _ => exact absurd (lead_eq h) (by simp [lead])
  | fn o w d e c ihd ihe =>
    intro f u v h
    cases f with
    | fn o' w' d' e' c' =>
      have hparts := o.determined.pair (w.determined.pair ((ihd.pair ihe).pair c.determined))
      obtain ⟨heq, huv⟩ := hparts (o', w', (d', e'), c') u v h
      cases heq
      exact ⟨rfl, huv⟩
    | _ => exact absurd (lead_eq h) (by simp [lead])
  | con o w b c =>
    intro e u v h
    cases e with
    | con o' w' b' c' =>
      have hparts := o.determined.pair (w.determined.pair (b.determined.pair c.determined))
      obtain ⟨heq, huv⟩ := hparts (o', w', b', c') u v h
      cases heq
      exact ⟨rfl, huv⟩
    | _ => exact absurd (lead_eq h) (by simp [lead])
  | prod o w ds c ih =>
    intro e u v h
    cases e with
    | prod o' w' ds' c' =>
      have hparts := o.determined.pair (w.determined.pair (row_determined (by decide) ih c))
      obtain ⟨heq, huv⟩ := hparts (o', w', ds', c') u v h
      cases heq
      exact ⟨rfl, huv⟩
    | _ => exact absurd (lead_eq h) (by simp [lead])
  | app o d e es c ihd ihe ihes =>
    intro f u v h
    cases f with
    | app o' d' e' es' c' =>
      have hparts :=
        o.determined.pair ((ihd.pair ihe).pair (row_determined (by decide) ihes c))
      simp only [tokens, List.append_assoc (_ ++ _)] at h
      obtain ⟨heq, huv⟩ := hparts (o', (d', e'), es', c') u v h
      cases heq
      exact ⟨rfl, huv⟩
    | _ => exact absurd (lead_eq h) (by simp [lead])

end TypeDerivation

/-! ## Terms -/

namespace TermDerivation

/-- The token that a term starts with, and the word after an opening parenthesis. -/
def lead : TermDerivation → TokenKind × String
  | var _ => (.ident, "")
  | lam _ _ _ _ _ _ => (.lparen, "lam")
  | abs _ _ _ _ _ _ => (.lparen, "abs")
  | iwrap _ _ _ _ _ _ => (.lparen, "iwrap")
  | unwrap _ _ _ _ => (.lparen, "unwrap")
  | error _ _ _ _ => (.lparen, "error")
  | con _ _ _ _ => (.lparen, "con")
  | builtin _ _ _ _ => (.lparen, "builtin")
  | prod _ _ _ _ => (.lparen, "prod")
  | proj _ _ _ _ _ => (.lparen, "proj")
  | apply _ _ _ _ _ => (.lbracket, "")
  | inst _ _ _ _ _ => (.lbrace, "")

theorem leadOf_tokens (d : TermDerivation) (u : List Token) :
    leadOf (d.tokens ++ u) = d.lead := by
  cases d with
  | var x => simp [tokens, leadOf, lead, x.kind_eq]
  | apply o | inst o => simp [tokens, leadOf, lead, o.kind_eq]
  | lam o w | abs o w | iwrap o w | unwrap o w | error o w | con o w | builtin o w | prod o w
  | proj o w => simp [tokens, leadOf, lead, o.kind_eq, w.text_eq]

theorem lead_eq {d e : TermDerivation} {u v : List Token}
    (h : d.tokens ++ u = e.tokens ++ v) : d.lead = e.lead := by
  rw [← d.leadOf_tokens u, h, e.leadOf_tokens]

theorem lead_not_closing (d : TermDerivation) (u : List Token) :
    (leadOf (d.tokens ++ u)).1 ∉ closings := by
  rw [d.leadOf_tokens]
  cases d <;> simp [lead, closings]

/-- Terms in a row are determined together with the bracket that closes them. -/
theorem row_determined {kind : TokenKind} (hclosing : kind ∈ closings) {ds : List TermDerivation}
    (h : ∀ d ∈ ds, Determined tokens d) (c : Delimiter kind) :
    Determined (fun p : List TermDerivation × Delimiter kind => allTokens p.1 ++ [p.2.token])
      (ds, c) := by
  simp only [allTokens_eq_flatMap]
  exact .row hclosing lead_not_closing h c

theorem determined (d : TermDerivation) : Determined tokens d := by
  induction d with
  | var x =>
    intro e u v h
    cases e with
    | var x' =>
      obtain ⟨rfl, huv⟩ := x.determined x' u v h
      exact ⟨rfl, huv⟩
    | _ => exact absurd (lead_eq h) (by simp [lead])
  | lam o w x t d c ih =>
    intro e u v h
    cases e with
    | lam o' w' x' t' d' c' =>
      have hparts := o.determined.pair
        (w.determined.pair (x.determined.pair ((t.determined.pair ih).pair c.determined)))
      obtain ⟨heq, huv⟩ := hparts (o', w', x', (t', d'), c') u v h
      cases heq
      exact ⟨rfl, huv⟩
    | _ => exact absurd (lead_eq h) (by simp [lead])
  | abs o w x k d c ih =>
    intro e u v h
    cases e with
    | abs o' w' x' k' d' c' =>
      have hparts := o.determined.pair
        (w.determined.pair (x.determined.pair ((k.determined.pair ih).pair c.determined)))
      obtain ⟨heq, huv⟩ := hparts (o', w', x', (k', d'), c') u v h
      cases heq
      exact ⟨rfl, huv⟩
    | _ => exact absurd (lead_eq h) (by simp [lead])
  | iwrap o w t s d c ih =>
    intro e u v h
    cases e with
    | iwrap o' w' t' s' d' c' =>
      have hparts := o.determined.pair (w.determined.pair
        (((t.determined.pair s.determined).pair ih).pair c.determined))
      obtain ⟨heq, huv⟩ := hparts (o', w', ((t', s'), d'), c') u v h
      cases heq
      exact ⟨rfl, huv⟩
    | _ => exact absurd (lead_eq h) (by simp [lead])
  | unwrap o w d c ih =>
    intro e u v h
    cases e with
    | unwrap o' w' d' c' =>
      have hparts := o.determined.pair (w.determined.pair (ih.pair c.determined))
      obtain ⟨heq, huv⟩ := hparts (o', w', d', c') u v h
      cases heq
      exact ⟨rfl, huv⟩
    | _ => exact absurd (lead_eq h) (by simp [lead])
  | error o w t c =>
    intro e u v h
    cases e with
    | error o' w' t' c' =>
      have hparts := o.determined.pair (w.determined.pair (t.determined.pair c.determined))
      obtain ⟨heq, huv⟩ := hparts (o', w', t', c') u v h
      cases heq
      exact ⟨rfl, huv⟩
    | _ => exact absurd (lead_eq h) (by simp [lead])
  | con o w k c =>
    intro e u v h
    cases e with
    | con o' w' k' c' =>
      have hparts := o.determined.pair (w.determined.pair (k.determined.pair c.determined))
      obtain ⟨heq, huv⟩ := hparts (o', w', k', c') u v h
      cases heq
      exact ⟨rfl, huv⟩
    | _ => exact absurd (lead_eq h) (by simp [lead])
  | builtin o w b c =>
    intro e u v h
    cases e with
    | builtin o' w' b' c' =>
      have hparts := o.determined.pair (w.determined.pair (b.determined.pair c.determined))
      obtain ⟨heq, huv⟩ := hparts (o', w', b', c') u v h
      cases heq
      exact ⟨rfl, huv⟩
    | _ => exact absurd (lead_eq h) (by simp [lead])
  | prod o w ds c ih =>
    intro e u v h
    cases e with
    | prod o' w' ds' c' =>
      have hparts := o.determined.pair (w.determined.pair (row_determined (by decide) ih c))
      obtain ⟨heq, huv⟩ := hparts (o', w', ds', c') u v h
      cases heq
      exact ⟨rfl, huv⟩
    | _ => exact absurd (lead_eq h) (by simp [lead])
  | proj o w n d c ih =>
    intro e u v h
    cases e with
    | proj o' w' n' d' c' =>
      have hparts :=
        o.determined.pair (w.determined.pair (n.determined.pair (ih.pair c.determined)))
      obtain ⟨heq, huv⟩ := hparts (o', w', n', d', c') u v h
      cases heq
      exact ⟨rfl, huv⟩
    | _ => exact absurd (lead_eq h) (by simp [lead])
  | apply o d e es c ihd ihe ihes =>
    intro f u v h
    cases f with
    | apply o' d' e' es' c' =>
      have hparts :=
        o.determined.pair ((ihd.pair ihe).pair (row_determined (by decide) ihes c))
      simp only [tokens, List.append_assoc (_ ++ _)] at h
      obtain ⟨heq, huv⟩ := hparts (o', (d', e'), es', c') u v h
      cases heq
      exact ⟨rfl, huv⟩
    | _ => exact absurd (lead_eq h) (by simp [lead])
  | inst o d t ts c ih =>
    intro e u v h
    cases e with
    | inst o' d' t' ts' c' =>
      have hargs := TypeDerivation.row_determined (by decide)
        (fun t (_ : t ∈ ts) => t.determined) c
      have hparts := o.determined.pair ((ih.pair t.determined).pair hargs)
      simp only [tokens, List.append_assoc (_ ++ _)] at h
      obtain ⟨heq, huv⟩ := hparts (o', (d', t'), ts', c') u v h
      cases heq
      exact ⟨rfl, huv⟩
    | _ => exact absurd (lead_eq h) (by simp [lead])

end TermDerivation

/-! ## Programs -/

theorem VersionDerivation.determined (d : VersionDerivation) :
    Determined VersionDerivation.tokens d := by
  rintro ⟨major', dot', minor', dot₁', patch'⟩ u v h
  obtain ⟨major, dot, minor, dot₁, patch⟩ := d
  have hparts := major.determined.pair
    (dot.determined.pair (minor.determined.pair (dot₁.determined.pair patch.determined)))
  obtain ⟨heq, huv⟩ := hparts (major', dot', minor', dot₁', patch') u v h
  cases heq
  exact ⟨rfl, huv⟩

theorem ProgramDerivation.determined (d : ProgramDerivation) :
    Determined ProgramDerivation.tokens d := by
  rintro ⟨o', w', version', term', c'⟩ u v h
  obtain ⟨o, w, version, term, c⟩ := d
  have hparts := o.determined.pair
    (w.determined.pair ((version.determined.pair term.determined).pair c.determined))
  obtain ⟨heq, huv⟩ := hparts (o', w', (version', term'), c') u v h
  cases heq
  exact ⟨rfl, huv⟩

/-- A token list that starts with a phrase of a sort starts with no other phrase of that sort, and
    the phrase has one derivation. -/
theorem Phrase.derivation_determined {p : Phrase} (d : p.Derivation) :
    Determined p.tokens d := by
  cases p with
  | program => exact ProgramDerivation.determined d
  | term => exact TermDerivation.determined d
  | type => exact TypeDerivation.determined d
  | kind => exact KindDerivation.determined d
  | constant => exact ConstantDerivation.determined d

theorem Phrase.eq_of_tokens_eq {p : Phrase} {d e : p.Derivation} (h : p.tokens d = p.tokens e) :
    d = e :=
  (derivation_determined d e [] [] (congrArg (· ++ []) h)).1

end FOmega
