import FOmega.Proofs.Combinator

/-!
# Every derivation is read

A rule that may open as many levels as a derivation is deep reads the tokens of the derivation,
whatever follows them, and answers with the tree that can be read off the derivation: each node
marked with the span from its first through its last token, and the names interned from left to
right. What was interned before stays, and nothing else is interned on the way.
-/

namespace FOmega

open Terminal FOmega.Parser Grammar

/-! ## Trees read off derivations -/

/-- The span from an opening through a closing token. -/
def bracketSpan {opening closing : TokenKind} (o : Delimiter opening) (c : Delimiter closing) :
    Span :=
  o.token.span.through c.token.span

/-- The name that an identifier stands for. -/
def Terminal.Identifier.read (x : Identifier) : StateM Interner Name :=
  fun i => (⟨x.token.text, (i.intern x.token.text).1⟩, (i.intern x.token.text).2)

/-- The kind that is read off a derivation. -/
def KindDerivation.tree : KindDerivation → Kind
  | .type o _ c => .type (.position (bracketSpan o c))
  | .arrow o _ d e c => .arrow (.position (bracketSpan o c)) d.tree e.tree

mutual

/-- The type that is read off a derivation. -/
def TypeDerivation.read : TypeDerivation → StateM Interner Ty
  | .var x => return .var (.position x.token.span) (← x.read)
  | .lam o _ x k d c => return .lam (.position (bracketSpan o c)) (← x.read) k.tree (← d.read)
  | .all o _ x k d c => return .all (.position (bracketSpan o c)) (← x.read) k.tree (← d.read)
  | .ifix o _ d e c => return .ifix (.position (bracketSpan o c)) (← d.read) (← e.read)
  | .fn o _ d e c => return .fn (.position (bracketSpan o c)) (← d.read) (← e.read)
  | .con o _ b c => return .builtin (.position (bracketSpan o c)) b.type
  | .prod o _ ds c => return .prod (.position (bracketSpan o c)) (← TypeDerivation.readAll ds)
  | .app o d e es c => do
    let head ← d.read
    let arg ← e.read
    let args ← TypeDerivation.readAll es
    return nestLeft .app Ty.mark (bracketSpan o c) head (arg :: args)

/-- The types that are read off derivations in a row. -/
def TypeDerivation.readAll : List TypeDerivation → StateM Interner (List Ty)
  | [] => return []
  | d :: ds => return (← d.read) :: (← TypeDerivation.readAll ds)

end

mutual

/-- The term that is read off a derivation. -/
def TermDerivation.read : TermDerivation → StateM Interner Term
  | .var x => return .var (.position x.token.span) (← x.read)
  | .lam o _ x t d c => return .lam (.position (bracketSpan o c)) (← x.read) (← t.read) (← d.read)
  | .abs o _ x k d c => return .abs (.position (bracketSpan o c)) (← x.read) k.tree (← d.read)
  | .iwrap o _ t u d c =>
    return .iwrap (.position (bracketSpan o c)) (← t.read) (← u.read) (← d.read)
  | .unwrap o _ d c => return .unwrap (.position (bracketSpan o c)) (← d.read)
  | .error o _ t c => return .error (.position (bracketSpan o c)) (← t.read)
  | .con o _ k c => return .constant (.position (bracketSpan o c)) k.ast
  | .builtin o _ b c => return .builtin (.position (bracketSpan o c)) b.function
  | .prod o _ ds c => return .prod (.position (bracketSpan o c)) (← TermDerivation.readAll ds)
  | .proj o _ n d c => return .proj (.position (bracketSpan o c)) n.value (← d.read)
  | .apply o d e es c => do
    let head ← d.read
    let arg ← e.read
    let args ← TermDerivation.readAll es
    return nestLeft .apply Term.mark (bracketSpan o c) head (arg :: args)
  | .inst o d t ts c => do
    let head ← d.read
    let arg ← t.read
    let args ← TypeDerivation.readAll ts
    return nestLeft .inst Ty.mark (bracketSpan o c) head (arg :: args)

/-- The terms that are read off derivations in a row. -/
def TermDerivation.readAll : List TermDerivation → StateM Interner (List Term)
  | [] => return []
  | d :: ds => return (← d.read) :: (← TermDerivation.readAll ds)

end

/-- The version that is read off a derivation. -/
def VersionDerivation.tree (d : VersionDerivation) : Version :=
  ⟨.position (d.major.token.span.through d.patch.token.span), d.major.value, d.minor.value,
    d.patch.value⟩

/-- The program that is read off a derivation. -/
def ProgramDerivation.read (d : ProgramDerivation) : StateM Interner Program :=
  return ⟨.position (bracketSpan d.opening d.closing), d.version.tree, ← d.term.read⟩

theorem TypeDerivation.readAll_eq_mapM (ds : List TypeDerivation) :
    TypeDerivation.readAll ds = ds.mapM' TypeDerivation.read := by
  induction ds with
  | nil => rfl
  | cons d ds ih => rw [TypeDerivation.readAll, ih, List.mapM'_cons]

theorem TermDerivation.readAll_eq_mapM (ds : List TermDerivation) :
    TermDerivation.readAll ds = ds.mapM' TermDerivation.read := by
  induction ds with
  | nil => rfl
  | cons d ds ih => rw [TermDerivation.readAll, ih, List.mapM'_cons]

/-! ## Built-ins and literals -/

theorem BuiltinType.ofText?_eq_some_iff {text : String} {b : BuiltinType} :
    BuiltinType.ofText? text = some b ↔ text = b.text := by
  constructor
  · intro h
    have hfound := List.find?_some h
    exact (eq_of_beq hfound).symm
  · rintro rfl
    cases b <;> rfl

theorem BuiltinFunction.ofText?_eq_some_iff {text : String} {b : BuiltinFunction} :
    BuiltinFunction.ofText? text = some b ↔ text = b.text := by
  constructor
  · intro h
    have hfound := List.find?_some h
    exact (eq_of_beq hfound).symm
  · rintro rfl
    cases b <;> rfl

theorem Terminal.literal?_eq_some_iff {t : Token} {k : Constant} :
    literal? t = some k ↔ Denotes t k := by
  constructor
  · intro h
    unfold literal? at h
    cases hkind : t.kind with
    | int n =>
      rw [hkind] at h
      cases h
      exact .integer hkind
    | char x =>
      rw [hkind] at h
      cases h
      exact .char hkind
    | string x =>
      rw [hkind] at h
      cases h
      exact .string hkind
    | ident =>
      rw [hkind] at h
      by_cases hunit : t.text = "unit"
      · rw [if_pos hunit] at h
        cases h
        exact .unit hkind hunit
      rw [if_neg hunit] at h
      by_cases htrue : t.text = "True"
      · rw [if_pos htrue] at h
        cases h
        exact .true hkind htrue
      rw [if_neg htrue] at h
      by_cases hfalse : t.text = "False"
      · rw [if_pos hfalse] at h
        cases h
        exact .false hkind hfalse
      · rw [if_neg hfalse] at h
        cases h
    | _ =>
      rw [hkind] at h
      cases h
  · intro h
    cases h with
    | integer hkind => simp [literal?, hkind]
    | char hkind => simp [literal?, hkind]
    | string hkind => simp [literal?, hkind]
    | unit hkind htext => simp [literal?, hkind, htext]
    | true hkind htext => simp [literal?, hkind, htext]
    | false hkind htext => simp [literal?, hkind, htext]

theorem Terminal.Denotes.kind_ne_lparen {t : Token} {k : Constant} (h : Denotes t k) :
    t.kind ≠ .lparen := by
  cases h <;> simp [*]

namespace Grammar

variable (c : Context) (rest : List Token) (hint : Option ParseError) (i : Interner)

/-! ## Single tokens -/

theorem spannedTypeName_cons (x : Identifier) :
    spannedTypeName c ⟨x.token :: rest, hint, i⟩ =
      .ok ((x.read i).1, x.token.span) ⟨rest, none, (x.read i).2⟩ := by
  simp only [spannedTypeName, bind_run, identifier_cons x]
  rfl

theorem typeName_cons (x : Identifier) :
    typeName c ⟨x.token :: rest, hint, i⟩ = .ok (x.read i).1 ⟨rest, none, (x.read i).2⟩ := by
  simp only [typeName, bind_run, spannedTypeName_cons, pure_run]

theorem spannedName_cons (x : Identifier) :
    spannedName c ⟨x.token :: rest, hint, i⟩ =
      .ok ((x.read i).1, x.token.span) ⟨rest, none, (x.read i).2⟩ := by
  simp only [spannedName, bind_run, identifier_cons x]
  rfl

theorem name_cons (x : Identifier) :
    name c ⟨x.token :: rest, hint, i⟩ = .ok (x.read i).1 ⟨rest, none, (x.read i).2⟩ := by
  simp only [name, bind_run, spannedName_cons, pure_run]

theorem natural_cons (n : Natural) :
    natural wordBound c ⟨n.token :: rest, hint, i⟩ =
      .ok (n.value, n.token.span) ⟨rest, none, i⟩ := by
  obtain ⟨⟨kind, span, text⟩, value, hlt, hkind⟩ := n
  dsimp only at hkind ⊢
  subst hkind
  have hbound : wordBound = 18446744073709551616 := rfl
  have hrange : (0 : Int) ≤ value ∧ (value : Int) < wordBound := by omega
  simp only [natural, hrange, and_self, if_true, Int.toNat_natCast, State.advance]

theorem builtinType_cons (b : BuiltinTypeName) :
    builtinType c ⟨b.token :: rest, hint, i⟩ = .ok b.type ⟨rest, none, i⟩ := by
  refine accept_cons _ ?_ c rest hint i
  rw [if_pos b.kind_eq]
  exact BuiltinType.ofText?_eq_some_iff.mpr b.text_eq

theorem builtinFunction_cons (b : BuiltinFunctionName) :
    builtinFunction c ⟨b.token :: rest, hint, i⟩ = .ok b.function ⟨rest, none, i⟩ := by
  refine accept_cons _ ?_ c rest hint i
  rw [if_pos b.kind_eq]
  exact BuiltinFunction.ofText?_eq_some_iff.mpr b.text_eq

theorem version_read (d : VersionDerivation) :
    version c ⟨d.tokens ++ rest, hint, i⟩ = .ok d.tree ⟨rest, none, i⟩ := by
  simp only [version, VersionDerivation.tokens, List.cons_append, List.nil_append, bind_run,
    natural_cons, expect_cons, pure_run]
  rfl

/-! ## Constants and kinds -/

theorem constant_read (d : ConstantDerivation) {room : Nat} (hroom : d.depth ≤ room) :
    constant room c ⟨d.tokens ++ rest, hint, i⟩ = .ok d.ast ⟨rest, none, i⟩ := by
  induction room generalizing d rest hint with
  | zero => exact absurd hroom (by cases d <;> simp [ConstantDerivation.depth])
  | succ room ih =>
    cases d with
    | literal l =>
      have hparen : (l.token.kind == TokenKind.lparen) = false :=
        beq_eq_false_iff_ne.mpr l.denotes.kind_ne_lparen
      simp only [constant, constantPhrase, liftM_eq, ConstantDerivation.tokens, List.cons_append,
        List.nil_append, bind_run, isAt_cons, hparen]
      exact accept_cons _ (literal?_eq_some_iff.mpr l.denotes) c rest hint i
    | parens o d cl =>
      have hparen : (o.token.kind == TokenKind.lparen) = true := beq_iff_eq.mpr o.kind_eq
      have hinner := ih (cl.token :: rest) none d (Nat.le_of_succ_le_succ hroom)
      simp only [constant, constantPhrase, liftM_eq, between_eq, ConstantDerivation.tokens,
        List.cons_append, bind_run, isAt_cons, hparen, if_true]
      rw [← List.cons_append, between_cons o cl d.tokens hinner]
      rfl

/-- The forms of a kind. -/
def kindForms (kind : Parser Kind) : List (String × Parser (Mark → Kind)) :=
  [("type", return fun m => .type m),
    ("fun", do
      let domain ← kind
      let codomain ← kind
      return fun m => .arrow m domain codomain)]

theorem kindBody_eq (kind : Parser Kind) :
    kindBody kind = choice ((kindForms kind).map formRule) := rfl

theorem kindForms_nodup (kind : Parser Kind) : ((kindForms kind).map Prod.fst).Nodup := by
  simp [kindForms]

theorem kind_form {room : Nat} {word : String} {p : Parser (Mark → Kind)} (k : Nat)
    (hk : (kindForms (kind room))[k]? = some (word, p)) (o : Delimiter .lparen) (w : Keyword word)
    (ts : List Token) (cl : Delimiter .rparen) (build : Mark → Kind) {i' : Interner}
    (h : ∃ hint', p c ⟨ts ++ cl.token :: rest, none, i⟩ =
      .ok build ⟨cl.token :: rest, hint', i'⟩) :
    kind (room + 1) c ⟨o.token :: w.token :: (ts ++ [cl.token]) ++ rest, hint, i⟩ =
      .ok (build (.position (bracketSpan o cl))) ⟨rest, none, i'⟩ := by
  obtain ⟨hint', h⟩ := h
  have hbetween := between_form (kindForms_nodup (kind room)) k hk o w cl ts h hint
  rw [kind, kindPhrase, between_eq, bind_run, kindBody_eq, hbetween]
  rfl

theorem kind_read (d : KindDerivation) {room : Nat} (hroom : d.depth ≤ room) :
    kind room c ⟨d.tokens ++ rest, hint, i⟩ = .ok d.tree ⟨rest, none, i⟩ := by
  induction room generalizing d rest hint with
  | zero => exact absurd hroom (by cases d <;> simp [KindDerivation.depth])
  | succ room ih =>
    cases d with
    | type o w cl =>
      exact kind_form c rest hint i 0 rfl o w [] cl (fun m => .type m) ⟨none, rfl⟩
    | arrow o w d e cl =>
      simp only [KindDerivation.depth, Nat.add_le_add_iff_right, Nat.max_le] at hroom
      have hd := fun rest hint => ih rest hint d hroom.1
      have he := fun rest hint => ih rest hint e hroom.2
      refine kind_form c rest hint i 1 rfl o w (d.tokens ++ e.tokens) cl
        (fun m => .arrow m d.tree e.tree) ⟨none, ?_⟩
      simp only [bind_run, List.append_assoc, hd, he, pure_run]

/-! ## Types -/

/-- The forms of a type. -/
def typeForms (kind : Parser Kind) (type : Parser Ty) : List (String × Parser (Mark → Ty)) :=
  [("lam", do
      let binder ← typeName
      let kind ← kind
      let body ← type
      return fun m => .lam m binder kind body),
    ("all", do
      let binder ← typeName
      let kind ← kind
      let body ← type
      return fun m => .all m binder kind body),
    ("ifix", do
      let pattern ← type
      let arg ← type
      return fun m => .ifix m pattern arg),
    ("fun", do
      let domain ← type
      let codomain ← type
      return fun m => .fn m domain codomain),
    ("con", do
      let b ← builtinType
      return fun m => .builtin m b),
    ("prod", do
      let items ← many type
      return fun m => .prod m items)]

theorem typeBody_eq (kind : Parser Kind) (type : Parser Ty) :
    typeBody kind type = choice ((typeForms kind type).map formRule) := rfl

theorem typeForms_nodup (kind : Parser Kind) (type : Parser Ty) :
    ((typeForms kind type).map Prod.fst).Nodup := by
  simp [typeForms]

theorem type_form {room : Nat} {word : String} {p : Parser (Mark → Ty)} (k : Nat)
    (hk : (typeForms (kind room) (type room))[k]? = some (word, p)) (o : Delimiter .lparen)
    (w : Keyword word) (ts : List Token) (cl : Delimiter .rparen) (build : Mark → Ty)
    {i' : Interner}
    (h : ∃ hint', p c ⟨ts ++ cl.token :: rest, none, i⟩ =
      .ok build ⟨cl.token :: rest, hint', i'⟩) :
    type (room + 1) c ⟨o.token :: w.token :: (ts ++ [cl.token]) ++ rest, hint, i⟩ =
      .ok (build (.position (bracketSpan o cl))) ⟨rest, none, i'⟩ := by
  obtain ⟨hint', h⟩ := h
  have hbetween := between_form (typeForms_nodup (kind room) (type room)) k hk o w cl ts h hint
  rw [← typeBody_eq] at hbetween
  simp only [type, typePhrase, liftM_eq, between_eq, bind_run, List.cons_append, isAt_cons,
    o.kind_eq, beq_iff_eq, if_true] at hbetween ⊢
  rw [hbetween]
  rfl

/-- No type starts with a token that is neither an opening parenthesis, an opening bracket nor an
    identifier. -/
theorem type_refuse {k : TokenKind} (t : Delimiter k)
    (hk : k ≠ .lparen ∧ k ≠ .lbracket ∧ k ≠ .ident) (room : Nat) :
    ∃ e hint, type (room + 1) c ⟨t.token :: rest, none, i⟩ =
      .error e ⟨t.token :: rest, hint, i⟩ ∧ e.isTooDeep = false := by
  simp only [type, typePhrase, liftM_eq, bind_run, isAt_cons, t.kind_eq, beq_iff_eq, hk.1, hk.2.1,
    hk.2.2, if_false]
  exact unexpected_cons _ c t.token rest i

/-- Types in a row are read up to a token that starts none. -/
theorem many_type_read {k : TokenKind} (t : Delimiter k)
    (hk : k ≠ .lparen ∧ k ≠ .lbracket ∧ k ≠ .ident) {room : Nat} (hroom : 0 < room)
    {ds : List TypeDerivation}
    (hread : ∀ d ∈ ds, ∀ rest hint i, type room c ⟨d.tokens ++ rest, hint, i⟩ =
      .ok (d.read i).1 ⟨rest, none, (d.read i).2⟩) :
    ∃ hint, many (type room) c ⟨TypeDerivation.allTokens ds ++ t.token :: rest, none, i⟩ =
      .ok (TypeDerivation.readAll ds i).1
        ⟨t.token :: rest, hint, (TypeDerivation.readAll ds i).2⟩ := by
  obtain ⟨room, rfl⟩ := Nat.exists_eq_succ_of_ne_zero (Nat.ne_of_gt hroom)
  rw [TypeDerivation.allTokens_eq_flatMap, TypeDerivation.readAll_eq_mapM]
  exact many_items (fun i => type_refuse c rest i t hk room)
    (fun d _ => d.tokens_ne_nil) hread i

/-- A head and its arguments are read when each of them is. -/
theorem application_read {α β : Type} {head : Parser α} {arg : Parser β} {hs ts us : List Token}
    {t : Token} {i i₁ i₂ i₃ : Interner} {a : α} {b : β} {bs : List β}
    (hhead : head c ⟨hs ++ (ts ++ (us ++ t :: rest)), none, i⟩ =
      .ok a ⟨ts ++ (us ++ t :: rest), none, i₁⟩)
    (hne : ts ≠ [])
    (harg : arg c ⟨ts ++ (us ++ t :: rest), none, i₁⟩ = .ok b ⟨us ++ t :: rest, none, i₂⟩)
    (hargs : many arg c ⟨us ++ t :: rest, none, i₂⟩ = .ok bs ⟨t :: rest, hint, i₃⟩) :
    application head arg c ⟨hs ++ ts ++ us ++ t :: rest, none, i⟩ =
      .ok (a, b :: bs) ⟨t :: rest, hint, i₃⟩ := by
  simp only [application, atLeastOne_eq, bind_run, List.append_assoc, hhead,
    atLeastOne_cons hne harg hargs, pure_run]

theorem type_read (d : TypeDerivation) {room : Nat} (hroom : d.depth ≤ room) :
    type room c ⟨d.tokens ++ rest, hint, i⟩ =
      .ok (d.read i).1 ⟨rest, none, (d.read i).2⟩ := by
  induction room generalizing d rest hint i with
  | zero => exact absurd hroom (Nat.not_le_of_lt d.depth_pos)
  | succ room ih =>
    cases d with
    | var x =>
      simp only [type, typePhrase, liftM_eq, TypeDerivation.tokens, List.cons_append,
        List.nil_append, bind_run, isAt_cons, x.kind_eq, beq_iff_eq, reduceCtorEq, if_false,
        if_true, spannedTypeName_cons]
      rfl
    | lam o w x k d cl =>
      simp only [TypeDerivation.depth, Nat.add_le_add_iff_right, Nat.max_le] at hroom
      have hd := fun rest hint i => ih rest hint i d hroom.2
      refine type_form c rest hint i 0 rfl o w (x.token :: (k.tokens ++ d.tokens)) cl
        (fun m => .lam m (x.read i).1 k.tree (d.read (x.read i).2).1) ⟨none, ?_⟩
      simp only [bind_run, List.cons_append, List.append_assoc, typeName_cons,
        kind_read _ _ _ _ k hroom.1, hd, pure_run]
      rfl
    | all o w x k d cl =>
      simp only [TypeDerivation.depth, Nat.add_le_add_iff_right, Nat.max_le] at hroom
      have hd := fun rest hint i => ih rest hint i d hroom.2
      refine type_form c rest hint i 1 rfl o w (x.token :: (k.tokens ++ d.tokens)) cl
        (fun m => .all m (x.read i).1 k.tree (d.read (x.read i).2).1) ⟨none, ?_⟩
      simp only [bind_run, List.cons_append, List.append_assoc, typeName_cons,
        kind_read _ _ _ _ k hroom.1, hd, pure_run]
      rfl
    | ifix o w d e cl =>
      simp only [TypeDerivation.depth, Nat.add_le_add_iff_right, Nat.max_le] at hroom
      have hd := fun rest hint i => ih rest hint i d hroom.1
      have he := fun rest hint i => ih rest hint i e hroom.2
      refine type_form c rest hint i 2 rfl o w (d.tokens ++ e.tokens) cl
        (fun m => .ifix m (d.read i).1 (e.read (d.read i).2).1) ⟨none, ?_⟩
      simp only [bind_run, List.append_assoc, hd, he, pure_run]
      rfl
    | fn o w d e cl =>
      simp only [TypeDerivation.depth, Nat.add_le_add_iff_right, Nat.max_le] at hroom
      have hd := fun rest hint i => ih rest hint i d hroom.1
      have he := fun rest hint i => ih rest hint i e hroom.2
      refine type_form c rest hint i 3 rfl o w (d.tokens ++ e.tokens) cl
        (fun m => .fn m (d.read i).1 (e.read (d.read i).2).1) ⟨none, ?_⟩
      simp only [bind_run, List.append_assoc, hd, he, pure_run]
      rfl
    | con o w b cl =>
      refine type_form c rest hint i 4 rfl o w [b.token] cl (fun m => .builtin m b.type) ⟨none, ?_⟩
      simp only [bind_run, List.cons_append, List.nil_append, builtinType_cons, pure_run]
      rfl
    | prod o w ds cl =>
      simp only [TypeDerivation.depth, Nat.add_le_add_iff_right, Nat.max_le,
        TypeDerivation.maxDepth_le_iff] at hroom
      obtain ⟨hint', hitems⟩ := many_type_read c rest i cl (by decide) hroom.1
        (fun d hd rest hint i => ih rest hint i d (hroom.2 d hd))
      refine type_form c rest hint i 5 rfl o w (TypeDerivation.allTokens ds) cl
        (fun m => .prod m (TypeDerivation.readAll ds i).1) ⟨hint', ?_⟩
      simp only [bind_run, hitems, pure_run]
      rfl
    | app o d e es cl =>
      simp only [TypeDerivation.depth, Nat.add_le_add_iff_right, Nat.max_le,
        TypeDerivation.maxDepth_le_iff] at hroom
      have hpos : 0 < room := Nat.lt_of_lt_of_le d.depth_pos hroom.1
      obtain ⟨hint', hargs⟩ := many_type_read c rest (e.read (d.read i).2).2 cl (by decide) hpos
        (fun d hd rest hint i => ih rest hint i d (hroom.2.2 d hd))
      have happ := application_read c rest hint' (ih _ none i d hroom.1) e.tokens_ne_nil
        (ih _ none _ e hroom.2.1) hargs
      have hbetween := between_cons o cl _ happ hint
      simp only [type, typePhrase, liftM_eq, between_eq, TypeDerivation.tokens, bind_run,
        List.cons_append, isAt_cons, o.kind_eq, beq_iff_eq, reduceCtorEq, if_false,
        if_true] at hbetween ⊢
      rw [hbetween]
      rfl

/-! ## Terms -/

/-- The forms of a term. -/
def termForms (constant : Parser Constant) (kind : Parser Kind) (type : Parser Ty)
    (term : Parser Term) : List (String × Parser (Mark → Term)) :=
  [("lam", do
      let binder ← name
      let type ← type
      let body ← term
      return fun m => .lam m binder type body),
    ("abs", do
      let binder ← typeName
      let kind ← kind
      let body ← term
      return fun m => .abs m binder kind body),
    ("iwrap", do
      let pattern ← type
      let arg ← type
      let t ← term
      return fun m => .iwrap m pattern arg t),
    ("unwrap", do
      let t ← term
      return fun m => .unwrap m t),
    ("error", do
      let type ← type
      return fun m => .error m type),
    ("con", do
      let value ← constant
      return fun m => .constant m value),
    ("builtin", do
      let b ← builtinFunction
      return fun m => .builtin m b),
    ("prod", do
      let items ← many term
      return fun m => .prod m items),
    ("proj", do
      let (index, _) ← natural wordBound
      let t ← term
      return fun m => .proj m index t)]

theorem termBody_eq (constant : Parser Constant) (kind : Parser Kind) (type : Parser Ty)
    (term : Parser Term) :
    termBody constant kind type term =
      choice ((termForms constant kind type term).map formRule) := rfl

theorem termForms_nodup (constant : Parser Constant) (kind : Parser Kind) (type : Parser Ty)
    (term : Parser Term) : ((termForms constant kind type term).map Prod.fst).Nodup := by
  simp [termForms]

theorem term_form {room : Nat} {word : String} {p : Parser (Mark → Term)} (k : Nat)
    (hk : (termForms (constant room) (kind room) (type room) (term room))[k]? = some (word, p))
    (o : Delimiter .lparen) (w : Keyword word) (ts : List Token) (cl : Delimiter .rparen)
    (build : Mark → Term) {i' : Interner}
    (h : ∃ hint', p c ⟨ts ++ cl.token :: rest, none, i⟩ =
      .ok build ⟨cl.token :: rest, hint', i'⟩) :
    term (room + 1) c ⟨o.token :: w.token :: (ts ++ [cl.token]) ++ rest, hint, i⟩ =
      .ok (build (.position (bracketSpan o cl))) ⟨rest, none, i'⟩ := by
  obtain ⟨hint', h⟩ := h
  have hbetween := between_form (termForms_nodup (constant room) (kind room) (type room)
    (term room)) k hk o w cl ts h hint
  rw [← termBody_eq] at hbetween
  simp only [term, termPhrase, liftM_eq, between_eq, bind_run, List.cons_append, isAt_cons,
    o.kind_eq, beq_iff_eq, if_true] at hbetween ⊢
  rw [hbetween]
  rfl

/-- No term starts with a token that is neither an opening bracket of some sort nor an
    identifier. -/
theorem term_refuse {k : TokenKind} (t : Delimiter k)
    (hk : k ≠ .lparen ∧ k ≠ .lbracket ∧ k ≠ .lbrace ∧ k ≠ .ident) (room : Nat) :
    ∃ e hint, term (room + 1) c ⟨t.token :: rest, none, i⟩ =
      .error e ⟨t.token :: rest, hint, i⟩ ∧ e.isTooDeep = false := by
  simp only [term, termPhrase, liftM_eq, bind_run, isAt_cons, t.kind_eq, beq_iff_eq, hk.1, hk.2.1,
    hk.2.2.1, hk.2.2.2, if_false]
  exact unexpected_cons _ c t.token rest i

/-- Terms in a row are read up to a token that starts none. -/
theorem many_term_read {k : TokenKind} (t : Delimiter k)
    (hk : k ≠ .lparen ∧ k ≠ .lbracket ∧ k ≠ .lbrace ∧ k ≠ .ident) {room : Nat} (hroom : 0 < room)
    {ds : List TermDerivation}
    (hread : ∀ d ∈ ds, ∀ rest hint i, term room c ⟨d.tokens ++ rest, hint, i⟩ =
      .ok (d.read i).1 ⟨rest, none, (d.read i).2⟩) :
    ∃ hint, many (term room) c ⟨TermDerivation.allTokens ds ++ t.token :: rest, none, i⟩ =
      .ok (TermDerivation.readAll ds i).1
        ⟨t.token :: rest, hint, (TermDerivation.readAll ds i).2⟩ := by
  obtain ⟨room, rfl⟩ := Nat.exists_eq_succ_of_ne_zero (Nat.ne_of_gt hroom)
  rw [TermDerivation.allTokens_eq_flatMap, TermDerivation.readAll_eq_mapM]
  exact many_items (fun i => term_refuse c rest i t hk room)
    (fun d _ => d.tokens_ne_nil) hread i

theorem term_read (d : TermDerivation) {room : Nat} (hroom : d.depth ≤ room) :
    term room c ⟨d.tokens ++ rest, hint, i⟩ =
      .ok (d.read i).1 ⟨rest, none, (d.read i).2⟩ := by
  induction room generalizing d rest hint i with
  | zero => exact absurd hroom (Nat.not_le_of_lt d.depth_pos)
  | succ room ih =>
    cases d with
    | var x =>
      simp only [term, termPhrase, liftM_eq, TermDerivation.tokens, List.cons_append,
        List.nil_append, bind_run, isAt_cons, x.kind_eq, beq_iff_eq, reduceCtorEq, if_false,
        if_true, spannedName_cons]
      rfl
    | lam o w x t d cl =>
      simp only [TermDerivation.depth, Nat.add_le_add_iff_right, Nat.max_le] at hroom
      have hd := fun rest hint i => ih rest hint i d hroom.2
      refine term_form c rest hint i 0 rfl o w (x.token :: (t.tokens ++ d.tokens)) cl
        (fun m => .lam m (x.read i).1 (t.read (x.read i).2).1
          (d.read (t.read (x.read i).2).2).1) ⟨none, ?_⟩
      simp only [bind_run, List.cons_append, List.append_assoc, name_cons,
        type_read _ _ _ _ t hroom.1, hd, pure_run]
      rfl
    | abs o w x k d cl =>
      simp only [TermDerivation.depth, Nat.add_le_add_iff_right, Nat.max_le] at hroom
      have hd := fun rest hint i => ih rest hint i d hroom.2
      refine term_form c rest hint i 1 rfl o w (x.token :: (k.tokens ++ d.tokens)) cl
        (fun m => .abs m (x.read i).1 k.tree (d.read (x.read i).2).1) ⟨none, ?_⟩
      simp only [bind_run, List.cons_append, List.append_assoc, typeName_cons,
        kind_read _ _ _ _ k hroom.1, hd, pure_run]
      rfl
    | iwrap o w t u d cl =>
      simp only [TermDerivation.depth, Nat.add_le_add_iff_right, Nat.max_le] at hroom
      have hd := fun rest hint i => ih rest hint i d hroom.2.2
      refine term_form c rest hint i 2 rfl o w (t.tokens ++ u.tokens ++ d.tokens) cl
        (fun m => .iwrap m (t.read i).1 (u.read (t.read i).2).1
          (d.read (u.read (t.read i).2).2).1) ⟨none, ?_⟩
      simp only [bind_run, List.append_assoc, type_read _ _ _ _ t hroom.1,
        type_read _ _ _ _ u hroom.2.1, hd, pure_run]
      rfl
    | unwrap o w d cl =>
      simp only [TermDerivation.depth, Nat.add_le_add_iff_right] at hroom
      refine term_form c rest hint i 3 rfl o w d.tokens cl (fun m => .unwrap m (d.read i).1)
        ⟨none, ?_⟩
      simp only [bind_run, ih _ _ _ d hroom, pure_run]
      rfl
    | error o w t cl =>
      simp only [TermDerivation.depth, Nat.add_le_add_iff_right] at hroom
      refine term_form c rest hint i 4 rfl o w t.tokens cl (fun m => .error m (t.read i).1)
        ⟨none, ?_⟩
      simp only [bind_run, type_read _ _ _ _ t hroom, pure_run]
      rfl
    | con o w k cl =>
      simp only [TermDerivation.depth, Nat.add_le_add_iff_right] at hroom
      refine term_form c rest hint i 5 rfl o w k.tokens cl (fun m => .constant m k.ast) ⟨none, ?_⟩
      simp only [bind_run, constant_read _ _ _ _ k hroom, pure_run]
      rfl
    | builtin o w b cl =>
      refine term_form c rest hint i 6 rfl o w [b.token] cl (fun m => .builtin m b.function)
        ⟨none, ?_⟩
      simp only [bind_run, List.cons_append, List.nil_append, builtinFunction_cons, pure_run]
      rfl
    | prod o w ds cl =>
      simp only [TermDerivation.depth, Nat.add_le_add_iff_right, Nat.max_le,
        TermDerivation.maxDepth_le_iff] at hroom
      obtain ⟨hint', hitems⟩ := many_term_read c rest i cl (by decide) hroom.1
        (fun d hd rest hint i => ih rest hint i d (hroom.2 d hd))
      refine term_form c rest hint i 7 rfl o w (TermDerivation.allTokens ds) cl
        (fun m => .prod m (TermDerivation.readAll ds i).1) ⟨hint', ?_⟩
      simp only [bind_run, hitems, pure_run]
      rfl
    | proj o w n d cl =>
      simp only [TermDerivation.depth, Nat.add_le_add_iff_right] at hroom
      refine term_form c rest hint i 8 rfl o w (n.token :: d.tokens) cl
        (fun m => .proj m n.value (d.read i).1) ⟨none, ?_⟩
      simp only [bind_run, List.cons_append, natural_cons, ih _ _ _ d hroom, pure_run]
      rfl
    | apply o d e es cl =>
      simp only [TermDerivation.depth, Nat.add_le_add_iff_right, Nat.max_le,
        TermDerivation.maxDepth_le_iff] at hroom
      have hpos : 0 < room := Nat.lt_of_lt_of_le d.depth_pos hroom.1
      obtain ⟨hint', hargs⟩ := many_term_read c rest (e.read (d.read i).2).2 cl (by decide) hpos
        (fun d hd rest hint i => ih rest hint i d (hroom.2.2 d hd))
      have happ := application_read c rest hint' (ih _ none i d hroom.1) e.tokens_ne_nil
        (ih _ none _ e hroom.2.1) hargs
      have hbetween := between_cons o cl _ happ hint
      simp only [term, termPhrase, liftM_eq, between_eq, TermDerivation.tokens, bind_run,
        List.cons_append, isAt_cons, o.kind_eq, beq_iff_eq, reduceCtorEq, if_false,
        if_true] at hbetween ⊢
      rw [hbetween]
      rfl
    | inst o d t ts cl =>
      simp only [TermDerivation.depth, Nat.add_le_add_iff_right, Nat.max_le,
        TypeDerivation.maxDepth_le_iff] at hroom
      have hpos : 0 < room := Nat.lt_of_lt_of_le d.depth_pos hroom.1
      obtain ⟨hint', hargs⟩ := many_type_read c rest (t.read (d.read i).2).2 cl (by decide) hpos
        (fun d hd rest hint i => type_read c rest hint i d (hroom.2.2 d hd))
      have happ := application_read c rest hint' (ih _ none i d hroom.1) t.tokens_ne_nil
        (type_read c _ none _ t hroom.2.1) hargs
      have hbetween := between_cons o cl _ happ hint
      simp only [term, termPhrase, liftM_eq, between_eq, TermDerivation.tokens, bind_run,
        List.cons_append, isAt_cons, o.kind_eq, beq_iff_eq, reduceCtorEq, if_false,
        if_true] at hbetween ⊢
      rw [hbetween]
      rfl

/-! ## Programs -/

theorem program_read (d : ProgramDerivation) {room : Nat} (hroom : d.depth ≤ room) :
    program room c ⟨d.tokens ++ rest, hint, i⟩ =
      .ok (d.read i).1 ⟨rest, none, (d.read i).2⟩ := by
  have hterm := fun rest => term_read c rest none i d.term hroom
  have hinside : (do
      let _ ← keyword "program"
      return (← version, ← term room) : Parser (Version × Term)) c
        ⟨d.word.token :: (d.version.tokens ++ d.term.tokens) ++ d.closing.token :: rest, none, i⟩ =
      .ok (d.version.tree, (d.term.read i).1)
        ⟨d.closing.token :: rest, none, (d.term.read i).2⟩ := by
    simp only [bind_run, List.cons_append, List.append_assoc, keyword_cons, version_read, hterm,
      pure_run]
  have hbetween := between_cons d.opening d.closing _ hinside hint
  simp only [program, programPhrase, liftM_eq, between_eq, ProgramDerivation.tokens, bind_run,
    List.cons_append] at hbetween ⊢
  rw [hbetween]
  rfl

end Grammar

end FOmega
