import FOmega.Proofs.Agreement
import FOmega.Proofs.RuleDiagnosis
import FOmega.Proofs.Skeleton

/-!
# Two runs of a rule of the grammar

Two parsers on the same tokens read the same trees, up to what is compared of their names. The rules
of the grammar have alternatives only right after an opening parenthesis, and these are told apart
by their keywords, so they agree also where one parser has the lower limit on nesting. A rule
expression may put any rules side by side; there the limits have to be the same.
-/

namespace FOmega

open FOmega.Parser

/-! ## Trees with other names -/

mutual

/-- Changes the names of a type. -/
def Ty.mapNames (f : Name → Name) : Ty → Ty
  | .lam m x k body => .lam m (f x) k (body.mapNames f)
  | .all m x k body => .all m (f x) k (body.mapNames f)
  | .ifix m pattern arg => .ifix m (pattern.mapNames f) (arg.mapNames f)
  | .app m function arg => .app m (function.mapNames f) (arg.mapNames f)
  | .fn m domain codomain => .fn m (domain.mapNames f) (codomain.mapNames f)
  | .var m x => .var m (f x)
  | .builtin m b => .builtin m b
  | .prod m items => .prod m (Ty.mapNamesAll f items)

/-- Changes the names of the types of a list. -/
def Ty.mapNamesAll (f : Name → Name) : List Ty → List Ty
  | [] => []
  | t :: ts => t.mapNames f :: Ty.mapNamesAll f ts

end

mutual

/-- Changes the names of a term. -/
def Term.mapNames (f : Name → Name) : Term → Term
  | .lam m x type body => .lam m (f x) (type.mapNames f) (body.mapNames f)
  | .abs m x k body => .abs m (f x) k (body.mapNames f)
  | .iwrap m pattern arg t => .iwrap m (pattern.mapNames f) (arg.mapNames f) (t.mapNames f)
  | .unwrap m t => .unwrap m (t.mapNames f)
  | .apply m function arg => .apply m (function.mapNames f) (arg.mapNames f)
  | .inst m t type => .inst m (t.mapNames f) (type.mapNames f)
  | .error m type => .error m (type.mapNames f)
  | .var m x => .var m (f x)
  | .constant m c => .constant m c
  | .builtin m b => .builtin m b
  | .prod m items => .prod m (Term.mapNamesAll f items)
  | .proj m index t => .proj m index (t.mapNames f)

/-- Changes the names of the terms of a list. -/
def Term.mapNamesAll (f : Name → Name) : List Term → List Term
  | [] => []
  | t :: ts => t.mapNames f :: Term.mapNamesAll f ts

end

/-- Changes the names of a program. -/
def Program.mapNames (f : Name → Name) (p : Program) : Program :=
  { p with term := p.term.mapNames f }

/-- Changes the names of what a rule for a sort answers with. -/
def Phrase.mapNames (f : Name → Name) : (p : Phrase) → p.Answer → p.Answer
  | program => Program.mapNames f
  | term => Term.mapNames f
  | type => Ty.mapNames f
  | kind => id
  | constant => id

/-- Changes the names of a tree of any sort. -/
def Tree.mapNames (f : Name → Name) : Tree → Tree
  | .kind k => .kind k
  | .type t => .type (t.mapNames f)
  | .term t => .term (t.mapNames f)
  | .program p => .program (p.mapNames f)

mutual

/-- Changes the names in what a rule expression gives. -/
def Value.mapNames (f : Name → Name) : Value → Value
  | .name x => .name (f x)
  | .spannedName x place => .spannedName (f x) place
  | .tree t => .tree (t.mapNames f)
  | .list items => .list (Value.mapNamesAll f items)
  | .spanned value place => .spanned (value.mapNames f) place
  | value => value

/-- Changes the names in values in a row. -/
def Value.mapNamesAll (f : Name → Name) : List Value → List Value
  | [] => []
  | v :: vs => v.mapNames f :: Value.mapNamesAll f vs

end

@[simp] theorem Ty.mapNamesAll_eq_map (f : Name → Name) (ts : List Ty) :
    Ty.mapNamesAll f ts = ts.map (Ty.mapNames f) := by
  induction ts with
  | nil => rfl
  | cons t ts ih => rw [Ty.mapNamesAll, ih, List.map_cons]

@[simp] theorem Term.mapNamesAll_eq_map (f : Name → Name) (ts : List Term) :
    Term.mapNamesAll f ts = ts.map (Term.mapNames f) := by
  induction ts with
  | nil => rfl
  | cons t ts ih => rw [Term.mapNamesAll, ih, List.map_cons]

@[simp] theorem Value.mapNamesAll_eq_map (f : Name → Name) (vs : List Value) :
    Value.mapNamesAll f vs = vs.map (Value.mapNames f) := by
  induction vs with
  | nil => rfl
  | cons v vs ih => rw [Value.mapNamesAll, ih, List.map_cons]

theorem Ty.mark_mapNames (f : Name → Name) (t : Ty) : (t.mapNames f).mark = t.mark := by
  cases t <;> rfl

theorem Term.mark_mapNames (f : Name → Name) (t : Term) : (t.mapNames f).mark = t.mark := by
  cases t <;> rfl

/-- A function that maps nodes to nodes with the same mark maps a nest to a nest. -/
theorem Grammar.map_nestLeft {α β : Type} {node : Mark → α → β → α} {mark : β → Mark} {f : α → α}
    {g : β → β} (hnode : ∀ m a b, f (node m a b) = node m (f a) (g b))
    (hmark : ∀ b, mark (g b) = mark b) (whole : Span) (head : α) (args : List β) :
    f (nestLeft node mark whole head args) = nestLeft node mark whole (f head) (args.map g) := by
  fun_induction nestLeft node mark whole head args with
  | case1 head => rfl
  | case2 head arg => exact hnode _ head arg
  | case3 head arg args hne opening span ih =>
    cases args with
    | nil => exact absurd rfl hne
    | cons arg' args =>
      rw [ih, hnode]
      simp only [List.map_cons, nestLeft, hmark]
      rfl

/-! ## Trees that are alike -/

namespace Companions

variable {C : Companions} {α β : Type}

variable (C) in
/-- Two values that are equal when their names are changed into what is compared of them. -/
def Alike (map : (Name → Name) → α → α) (a a' : α) : Prop :=
  map C.shown a = map C.shown a'

theorem Alike.eq {map : (Name → Name) → α → α} {a a' : α} (h : C.Alike map a a') :
    map C.shown a = map C.shown a' := h

theorem Alike.of_forall₂ {map : (Name → Name) → α → α} {as as' : List α}
    (h : List.Forall₂ (C.Alike map) as as') : as.map (map C.shown) = as'.map (map C.shown) := by
  rw [← List.forall₂_eq_eq_eq, List.forall₂_map_left_iff, List.forall₂_map_right_iff]
  exact h

theorem Alike.list {vs vs' : List Value} (h : List.Forall₂ (C.Alike Value.mapNames) vs vs') :
    C.Alike Value.mapNames (.list vs) (.list vs') := by
  simp only [Alike, Value.mapNames, Value.mapNamesAll_eq_map, of_forall₂ h]

theorem Alike.nestLeft {node : Mark → α → β → α} {mark : β → Mark}
    {map : (Name → Name) → α → α} {mapArg : (Name → Name) → β → β}
    (hnode : ∀ f m a b, map f (node m a b) = node m (map f a) (mapArg f b))
    (hmark : ∀ f b, mark (mapArg f b) = mark b) (span : Span) {head head' : α}
    {args args' : List β} (hhead : C.Alike map head head')
    (hargs : List.Forall₂ (C.Alike mapArg) args args') :
    C.Alike map (Grammar.nestLeft node mark span head args)
      (Grammar.nestLeft node mark span head' args') := by
  have hmapped := Grammar.map_nestLeft (hnode C.shown) (hmark C.shown) span
  unfold Alike
  rw [hmapped, hmapped, hhead, Alike.of_forall₂ hargs]

namespace Agrees

variable {room room' : Nat} {p p' : Parser α}

/-! ## Names and leaves -/

/-- An identifier is interned under the same spelling. -/
theorem interned (what : String) :
    C.Agrees (fun x x' => C.shown x.1 = C.shown x'.1 ∧ x.2 = x'.2)
      (do
        let (text, span) ← Parser.identifier what
        return (← Parser.intern text, span))
      (do
        let (text, span) ← Parser.identifier what
        return (← Parser.intern text, span)) := by
  refine bind (accept _ _) ?_
  rintro ⟨text, span⟩ _ rfl
  exact bind (intern text) fun _ _ hname => pure ⟨hname, rfl⟩

theorem spannedName : C.Agrees (fun x x' => C.shown x.1 = C.shown x'.1 ∧ x.2 = x'.2)
    Grammar.spannedName Grammar.spannedName :=
  interned "name"

theorem spannedTypeName : C.Agrees (fun x x' => C.shown x.1 = C.shown x'.1 ∧ x.2 = x'.2)
    Grammar.spannedTypeName Grammar.spannedTypeName :=
  interned "type name"

theorem name :
    C.Agrees (fun x x' => C.shown x = C.shown x') Grammar.name Grammar.name :=
  bind spannedName fun _ _ hname => pure hname.1

theorem typeName :
    C.Agrees (fun x x' => C.shown x = C.shown x') Grammar.typeName Grammar.typeName :=
  bind spannedTypeName fun _ _ hname => pure hname.1

/-- A rule whose answer holds no names, and what is made of it. -/
theorem map_eq {p p' : Parser α} (hp : C.Agrees Eq p p') {Q : β → β → Prop} {f : α → β}
    (hf : ∀ a, Q (f a) (f a)) :
    C.Agrees Q (p >>= fun a => Pure.pure (f a)) (p' >>= fun a => Pure.pure (f a)) := by
  refine bind hp ?_
  rintro a _ rfl
  exact pure (hf a)

theorem version : C.Agrees Eq Grammar.version Grammar.version := by
  refine bind (natural _) ?_
  rintro ⟨major, first⟩ _ rfl
  refine bind (accept _ _) fun _ _ _ => bind (natural _) ?_
  rintro ⟨minor, _⟩ _ rfl
  exact bind (accept _ _) fun _ _ _ => map_eq (natural _) fun _ => rfl

theorem constant (h : C.Rooms room room') :
    C.Agrees Eq (Grammar.constant room) (Grammar.constant room') := by
  induction room generalizing room' with
  | zero => exact tooDeep rfl h
  | succ room ih =>
    rcases h.succ with ⟨room', rfl, hrooms⟩
    refine branch .lparen ?_ (accept _ _)
    exact bind (between _ _ (ih hrooms).after) fun _ _ hvalue => pure hvalue.1

/-! ## Kinds -/

theorem kindBody (hkind : C.Agrees Eq (Grammar.kind room) (Grammar.kind room')) :
    C.AgreesAfter Eq (Grammar.kindBody (Grammar.kind room))
      (Grammar.kindBody (Grammar.kind room')) := by
  rw [Grammar.kindBody_eq, Grammar.kindBody_eq]
  refine .choice_forms (Grammar.kindForms_nodup _) ?_
    (fun form hform => (Grammar.kindForms_diagnose (Grammar.kind_diagnoses room) form
      hform).failsAfter)
    (fun form hform => (Grammar.kindForms_diagnose (Grammar.kind_diagnoses room') form
      hform).failsAfter)
  refine .cons ⟨rfl, pure rfl⟩ (.cons ⟨rfl, ?_⟩ .nil)
  refine bind hkind ?_
  rintro domain _ rfl
  exact map_eq hkind fun _ => rfl

theorem kind (h : C.Rooms room room') :
    C.Agrees Eq (Grammar.kind room) (Grammar.kind room') := by
  induction room generalizing room' with
  | zero => exact tooDeep rfl h
  | succ room ih =>
    rcases h.succ with ⟨room', rfl, hrooms⟩
    refine bind (between _ _ (kindBody (ih hrooms))) ?_
    rintro ⟨build, span⟩ ⟨build', span'⟩ ⟨hbuild, hspan⟩
    cases hbuild
    cases hspan
    exact pure rfl

/-! ## Types -/

/-- A head with its arguments in brackets, nested to the left. -/
theorem nested {head head' : Parser α} {arg arg' : Parser β} {node : Mark → α → β → α}
    {mark : β → Mark} {map : (Name → Name) → α → α} {mapArg : (Name → Name) → β → β}
    (opening closing : TokenKind)
    (hnode : ∀ f m a b, map f (node m a b) = node m (map f a) (mapArg f b))
    (hmark : ∀ f b, mark (mapArg f b) = mark b) (hhead : C.Agrees (C.Alike map) head head')
    (harg : C.Agrees (C.Alike mapArg) arg arg') :
    C.Agrees (C.Alike map)
      (do
        let ((a, as), span) ← Parser.between opening closing (Grammar.application head arg)
        return Grammar.nestLeft node mark span a as)
      (do
        let ((a, as), span) ← Parser.between opening closing (Grammar.application head' arg')
        return Grammar.nestLeft node mark span a as) := by
  have happlication : C.Agrees
      (fun x x' => C.Alike map x.1 x'.1 ∧ List.Forall₂ (C.Alike mapArg) x.2 x'.2)
      (Grammar.application head arg) (Grammar.application head' arg') :=
    bind hhead fun _ _ ha => bind harg.atLeastOne fun _ _ has => pure ⟨ha, has⟩
  refine bind (between _ _ happlication.after) ?_
  rintro ⟨⟨a, as⟩, span⟩ ⟨⟨a', as'⟩, span'⟩ ⟨⟨ha, has⟩, hspan⟩
  cases hspan
  exact pure (Alike.nestLeft hnode hmark span ha has)

/-- What stands between parentheses, with the mark of the whole. -/
theorem marked {map : (Name → Name) → α → α} {body body' : Parser (Mark → α)}
    (hbody : C.AgreesAfter (fun b b' => ∀ m, C.Alike map (b m) (b' m)) body body') :
    C.Agrees (C.Alike map)
      (do
        let (build, span) ← Parser.between .lparen .rparen body
        return build (.position span))
      (do
        let (build, span) ← Parser.between .lparen .rparen body'
        return build (.position span)) := by
  refine bind (between _ _ hbody) ?_
  rintro ⟨build, span⟩ ⟨build', span'⟩ ⟨hbuild, hspan⟩
  cases hspan
  exact pure (hbuild _)

theorem typeBody (hkind : C.Agrees Eq (Grammar.kind room) (Grammar.kind room'))
    (htype : C.Agrees (C.Alike Ty.mapNames) (Grammar.type room) (Grammar.type room')) :
    C.AgreesAfter (fun b b' => ∀ m, C.Alike Ty.mapNames (b m) (b' m))
      (Grammar.typeBody (Grammar.kind room) (Grammar.type room))
      (Grammar.typeBody (Grammar.kind room') (Grammar.type room')) := by
  rw [Grammar.typeBody_eq, Grammar.typeBody_eq]
  refine .choice_forms (Grammar.typeForms_nodup _ _) ?_
    (fun form hform => (Grammar.typeForms_diagnose (Grammar.type_diagnoses room) form
      hform).failsAfter)
    (fun form hform => (Grammar.typeForms_diagnose (Grammar.type_diagnoses room') form
      hform).failsAfter)
  refine .cons ⟨rfl, ?_⟩ (.cons ⟨rfl, ?_⟩ (.cons ⟨rfl, ?_⟩ (.cons ⟨rfl, ?_⟩ (.cons ⟨rfl, ?_⟩
    (.cons ⟨rfl, ?_⟩ .nil)))))
  · refine bind typeName fun _ _ hx => bind hkind ?_
    rintro k _ rfl
    exact bind htype fun _ _ hbody => pure fun m => congrArg₂ (Ty.lam m · k ·) hx hbody
  · refine bind typeName fun _ _ hx => bind hkind ?_
    rintro k _ rfl
    exact bind htype fun _ _ hbody => pure fun m => congrArg₂ (Ty.all m · k ·) hx hbody
  · exact bind htype fun _ _ hpattern => bind htype fun _ _ harg =>
      pure fun m => congrArg₂ (Ty.ifix m) hpattern harg
  · exact bind htype fun _ _ hdomain => bind htype fun _ _ hcodomain =>
      pure fun m => congrArg₂ (Ty.fn m) hdomain hcodomain
  · exact map_eq (accept _ _) fun _ _ => rfl
  · refine bind htype.many fun _ _ hitems => pure fun m => ?_
    simp only [Alike, Ty.mapNames, Ty.mapNamesAll_eq_map, Alike.of_forall₂ hitems]

theorem type (h : C.Rooms room room') :
    C.Agrees (C.Alike Ty.mapNames) (Grammar.type room) (Grammar.type room') := by
  induction room generalizing room' with
  | zero => exact tooDeep rfl h
  | succ room ih =>
    rcases h.succ with ⟨room', rfl, hrooms⟩
    have hparts := ih hrooms
    refine branch .lparen (marked (typeBody (kind hrooms) hparts)) ?_
    refine branch .lbracket (nested _ _ (fun _ _ _ _ => rfl) Ty.mark_mapNames hparts hparts) ?_
    refine branch .ident (bind spannedTypeName ?_) (unexpected _)
    rintro ⟨x, span⟩ ⟨x', span'⟩ ⟨hx, hspan⟩
    cases hspan
    exact pure (congrArg (Ty.var (.position span)) hx)

/-! ## Terms and programs -/

theorem termBody
    (hconstant : C.Agrees Eq (Grammar.constant room) (Grammar.constant room'))
    (hkind : C.Agrees Eq (Grammar.kind room) (Grammar.kind room'))
    (htype : C.Agrees (C.Alike Ty.mapNames) (Grammar.type room) (Grammar.type room'))
    (hterm : C.Agrees (C.Alike Term.mapNames) (Grammar.term room) (Grammar.term room')) :
    C.AgreesAfter (fun b b' => ∀ m, C.Alike Term.mapNames (b m) (b' m))
      (Grammar.termBody (Grammar.constant room) (Grammar.kind room) (Grammar.type room)
        (Grammar.term room))
      (Grammar.termBody (Grammar.constant room') (Grammar.kind room') (Grammar.type room')
        (Grammar.term room')) := by
  rw [Grammar.termBody_eq, Grammar.termBody_eq]
  refine .choice_forms (Grammar.termForms_nodup _ _ _ _) ?_
    (fun form hform => (Grammar.termForms_diagnose (Grammar.term_diagnoses room) form
      hform).failsAfter)
    (fun form hform => (Grammar.termForms_diagnose (Grammar.term_diagnoses room') form
      hform).failsAfter)
  refine .cons ⟨rfl, ?_⟩ (.cons ⟨rfl, ?_⟩ (.cons ⟨rfl, ?_⟩ (.cons ⟨rfl, ?_⟩ (.cons ⟨rfl, ?_⟩
    (.cons ⟨rfl, ?_⟩ (.cons ⟨rfl, ?_⟩ (.cons ⟨rfl, ?_⟩ (.cons ⟨rfl, ?_⟩ .nil))))))))
  · refine bind name fun _ _ hx => bind htype fun _ _ hdomain => bind hterm fun _ _ hbody => ?_
    refine pure fun m => ?_
    simp only [Alike, Term.mapNames, hx, hdomain.eq, hbody.eq]
  · refine bind typeName fun _ _ hx => bind hkind ?_
    rintro k _ rfl
    exact bind hterm fun _ _ hbody => pure fun m => congrArg₂ (Term.abs m · k ·) hx hbody
  · refine bind htype fun _ _ hpattern => bind htype fun _ _ harg => bind hterm fun _ _ hbody => ?_
    refine pure fun m => ?_
    simp only [Alike, Term.mapNames, hpattern.eq, harg.eq, hbody.eq]
  · exact bind hterm fun _ _ hbody => pure fun m => congrArg (Term.unwrap m) hbody
  · exact bind htype fun _ _ htype => pure fun m => congrArg (Term.error m) htype
  · exact map_eq hconstant fun _ _ => rfl
  · exact map_eq (accept _ _) fun _ _ => rfl
  · refine bind hterm.many fun _ _ hitems => pure fun m => ?_
    simp only [Alike, Term.mapNames, Term.mapNamesAll_eq_map, Alike.of_forall₂ hitems]
  · refine bind (natural _) ?_
    rintro ⟨index, _⟩ _ rfl
    exact bind hterm fun _ _ hbody => pure fun m => congrArg (Term.proj m index) hbody

theorem term (h : C.Rooms room room') :
    C.Agrees (C.Alike Term.mapNames) (Grammar.term room) (Grammar.term room') := by
  induction room generalizing room' with
  | zero => exact tooDeep rfl h
  | succ room ih =>
    rcases h.succ with ⟨room', rfl, hrooms⟩
    have hparts := ih hrooms
    have htype := type hrooms
    refine branch .lparen (marked (termBody (constant hrooms) (kind hrooms) htype hparts)) ?_
    refine branch .lbracket (nested _ _ (fun _ _ _ _ => rfl) Term.mark_mapNames hparts hparts) ?_
    refine branch .lbrace (nested _ _ (fun _ _ _ _ => rfl) Ty.mark_mapNames hparts htype) ?_
    refine branch .ident (bind spannedName ?_) (unexpected _)
    rintro ⟨x, span⟩ ⟨x', span'⟩ ⟨hx, hspan⟩
    cases hspan
    exact pure (congrArg (Term.var (.position span)) hx)

theorem program (h : C.Rooms room room') :
    C.Agrees (C.Alike Program.mapNames) (Grammar.program room) (Grammar.program room') := by
  have hbody : C.Agrees (fun x x' => x.1 = x'.1 ∧ C.Alike Term.mapNames x.2 x'.2)
      (do
        let _ ← Parser.keyword "program"
        return (← Grammar.version, ← Grammar.term room))
      (do
        let _ ← Parser.keyword "program"
        return (← Grammar.version, ← Grammar.term room')) :=
    bind (accept _ _) fun _ _ _ => bind version fun _ _ hversion => bind (term h) fun _ _ hterm =>
      pure ⟨hversion, hterm⟩
  refine bind (between _ _ hbody.after) ?_
  rintro ⟨⟨version, term⟩, span⟩ ⟨⟨version', term'⟩, span'⟩ ⟨⟨hversion, hterm⟩, hspan⟩
  cases hversion
  cases hspan
  exact pure (congrArg (Program.mk (.position span) version) hterm)

/-- The rule of each sort agrees with itself under any room that the parsers may have. -/
theorem phrase (p : Phrase) (h : C.Rooms room room') :
    C.Agrees (C.Alike p.mapNames) (p.rule room) (p.rule room') := by
  cases p with
  | program => exact program h
  | term => exact term h
  | type => exact type h
  | kind => exact kind h
  | constant => exact constant h

/-! ## Rule expressions -/

/-- A rule that only looks. -/
theorem look {g : Context → State → α} (hg : ∀ s s', C.States s s' → g C.left s = g C.right s') :
    C.Agrees Eq (fun c s => .ok (g c s) s) (fun c s => .ok (g c s) s) :=
  fun s s' hs => .ok (hg s s' hs) hs

mutual

/-- Under one limit every rule expression agrees with itself. -/
theorem rule (hlower : ¬ C.Lower) (hdepth : C.left.maxDepth = C.otherDepth) (room : Nat) :
    ∀ r : Rule, C.Agrees (C.Alike Value.mapNames) (r.run room) (r.run room)
  | .term => bind (term (.refl hdepth)) fun _ _ h =>
      pure (congrArg (fun t => Value.tree (.term t)) h)
  | .type => bind (type (.refl hdepth)) fun _ _ h =>
      pure (congrArg (fun t => Value.tree (.type t)) h)
  | .kind => map_eq (kind (.refl hdepth)) fun _ => rfl
  | .program => bind (program (.refl hdepth)) fun _ _ h =>
      pure (congrArg (fun p => Value.tree (.program p)) h)
  | .version => map_eq version fun _ => rfl
  | .constant => map_eq (constant (.refl hdepth)) fun _ => rfl
  | .builtinFunction => map_eq (accept _ _) fun _ => rfl
  | .builtinType => map_eq (accept _ _) fun _ => rfl
  | .name => bind name fun _ _ h => pure (congrArg Value.name h)
  | .typeName => bind typeName fun _ _ h => pure (congrArg Value.name h)
  | .spannedName => bind spannedName fun _ _ h => pure (congrArg₂ Value.spannedName h.1 h.2)
  | .spannedTypeName => bind spannedTypeName fun _ _ h =>
      pure (congrArg₂ Value.spannedName h.1 h.2)
  | .natural _ => map_eq (natural _) fun _ => rfl
  | .endOfInput => map_eq endOfInput fun _ => rfl
  | .empty => pure rfl
  | .position => map_eq (look fun s s' hs => by rw [State.position, State.position, hs.rest]; rfl)
      fun _ => rfl
  | .atEnd => map_eq (look fun s s' hs => by rw [hs.rest]) fun _ => rfl
  | .here => map_eq (look fun s s' hs => hs.here.symm) fun _ => rfl
  | .peek => map_eq (look fun s s' hs => by rw [hs.rest]) fun _ => rfl
  | .isAt _ => map_eq (look fun s s' hs => by rw [State.isAt, State.isAt, hs.rest]) fun _ => rfl
  | .expect _ => map_eq (accept _ _) fun _ => rfl
  | .keyword _ => map_eq (accept _ _) fun _ => rfl
  | .identifier _ => map_eq (accept _ _) fun _ => rfl
  | .unexpected _ => unexpected _
  | .preceded _ r => bind (accept _ _) fun _ _ _ => rule hlower hdepth room r
  | .followed r _ => bind (rule hlower hdepth room r) fun _ _ h => bind (accept _ _) fun _ _ _ =>
      pure h
  | .seq rs => bind (ruleAll hlower hdepth room rs) fun _ _ h => pure (congrArg Value.list h)
  | .choice rs => choice hlower (ruleEach hlower hdepth room rs)
  | .attempt r => attempt (rule hlower hdepth room r)
  | .enforce r => enforce (rule hlower hdepth room r)
  | .nested r =>
    match room with
    | 0 => tooDeep_self hdepth
    | room + 1 => rule hlower hdepth room r
  | .many r => bind (many (rule hlower hdepth room r)) fun _ _ h => pure (Alike.list h)
  | .atLeastOne r => bind (atLeastOne (rule hlower hdepth room r)) fun _ _ h => pure (Alike.list h)
  | .between _ _ r => bind (between _ _ (rule hlower hdepth room r).after) fun _ _ h =>
      pure (congrArg₂ Value.spanned h.1 h.2)

theorem ruleAll (hlower : ¬ C.Lower) (hdepth : C.left.maxDepth = C.otherDepth) (room : Nat) :
    ∀ rs : List Rule, C.Agrees (C.Alike Value.mapNamesAll) (Rule.runAll room rs)
      (Rule.runAll room rs)
  | [] => pure rfl
  | r :: rs => bind (rule hlower hdepth room r) fun _ _ h =>
      bind (ruleAll hlower hdepth room rs) fun _ _ hs => pure (congrArg₂ List.cons h hs)

theorem ruleEach (hlower : ¬ C.Lower) (hdepth : C.left.maxDepth = C.otherDepth) (room : Nat) :
    ∀ rs : List Rule, List.Forall₂ (C.Agrees (C.Alike Value.mapNames)) (Rule.runEach room rs)
      (Rule.runEach room rs)
  | [] => .nil
  | r :: rs => .cons (rule hlower hdepth room r) (ruleEach hlower hdepth room rs)

end

end Agrees

end Companions

end FOmega
