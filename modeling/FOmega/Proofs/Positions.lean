import FOmega.Proofs.Outline

/-!
# Positions in a parsed tree

Every node of a tree that was read from a source is marked with the span of its phrase: from the
first byte of the first token to the last byte of the last one. The spans of the parts of a node lie
inside its own and follow each other.
-/

namespace FOmega

open FOmega.Parser

/-! ## The outline of a tree -/

/-- The marks of a kind. -/
def Kind.outline : Kind → Outline Mark
  | .type m => .node m []
  | .arrow m domain codomain => .node m [domain.outline, codomain.outline]

mutual

/-- The marks of a type, those of the kind of a binder included. -/
def Ty.outline : Ty → Outline Mark
  | .lam m _ k body => .node m [k.outline, body.outline]
  | .all m _ k body => .node m [k.outline, body.outline]
  | .ifix m pattern arg => .node m [pattern.outline, arg.outline]
  | .app m function arg => .node m [function.outline, arg.outline]
  | .fn m domain codomain => .node m [domain.outline, codomain.outline]
  | .var m _ => .node m []
  | .builtin m _ => .node m []
  | .prod m items => .node m (Ty.outlines items)

/-- The marks of types in a row. -/
def Ty.outlines : List Ty → List (Outline Mark)
  | [] => []
  | t :: ts => t.outline :: Ty.outlines ts

end

mutual

/-- The marks of a term, those of its types and kinds included. -/
def Term.outline : Term → Outline Mark
  | .lam m _ type body => .node m [type.outline, body.outline]
  | .abs m _ k body => .node m [k.outline, body.outline]
  | .iwrap m pattern arg t => .node m [pattern.outline, arg.outline, t.outline]
  | .unwrap m t => .node m [t.outline]
  | .apply m function arg => .node m [function.outline, arg.outline]
  | .inst m t type => .node m [t.outline, type.outline]
  | .error m type => .node m [type.outline]
  | .var m _ => .node m []
  | .constant m _ => .node m []
  | .builtin m _ => .node m []
  | .prod m items => .node m (Term.outlines items)
  | .proj m _ t => .node m [t.outline]

/-- The marks of terms in a row. -/
def Term.outlines : List Term → List (Outline Mark)
  | [] => []
  | t :: ts => t.outline :: Term.outlines ts

end

/-- The marks of a program, that of its version included. -/
def Program.outline (p : Program) : Outline Mark :=
  .node p.mark [.node p.version.mark [], p.term.outline]

@[simp] theorem Ty.outlines_eq_map (ts : List Ty) : Ty.outlines ts = ts.map Ty.outline := by
  induction ts with
  | nil => rfl
  | cons t ts ih => rw [Ty.outlines, ih, List.map_cons]

@[simp] theorem Term.outlines_eq_map (ts : List Term) :
    Term.outlines ts = ts.map Term.outline := by
  induction ts with
  | nil => rfl
  | cons t ts ih => rw [Term.outlines, ih, List.map_cons]

theorem Ty.mark_eq_label (t : Ty) : t.mark = t.outline.label := by
  cases t <;> rfl

theorem Term.mark_eq_label (t : Term) : t.mark = t.outline.label := by
  cases t <;> rfl

/-! ## The phrases of a derivation -/

/-- The phrases of a kind. -/
def KindDerivation.phrases : KindDerivation → Outline (List Token)
  | .type o w c => .node (KindDerivation.type o w c).tokens []
  | .arrow o w d e c => .node (KindDerivation.arrow o w d e c).tokens [d.phrases, e.phrases]

namespace TypeDerivation

mutual

/-- The phrases of a type, those of the kind of a binder included. -/
def phrases : TypeDerivation → Outline (List Token)
  | var x => .node (var x).tokens []
  | lam o w x k d c => .node (lam o w x k d c).tokens [k.phrases, d.phrases]
  | all o w x k d c => .node (all o w x k d c).tokens [k.phrases, d.phrases]
  | ifix o w d e c => .node (ifix o w d e c).tokens [d.phrases, e.phrases]
  | fn o w d e c => .node (fn o w d e c).tokens [d.phrases, e.phrases]
  | con o w b c => .node (con o w b c).tokens []
  | prod o w ds c => .node (prod o w ds c).tokens (allPhrases ds)
  | app o d e es c =>
    .nest c.token (o.token :: d.tokens) d.phrases (e.phrases :: allPhrases es)

/-- The phrases of types in a row. -/
def allPhrases : List TypeDerivation → List (Outline (List Token))
  | [] => []
  | d :: ds => d.phrases :: allPhrases ds

end

end TypeDerivation

namespace TermDerivation

mutual

/-- The phrases of a term, those of its types and kinds included. -/
def phrases : TermDerivation → Outline (List Token)
  | var x => .node (var x).tokens []
  | lam o w x t d c => .node (lam o w x t d c).tokens [t.phrases, d.phrases]
  | abs o w x k d c => .node (abs o w x k d c).tokens [k.phrases, d.phrases]
  | iwrap o w t u d c => .node (iwrap o w t u d c).tokens [t.phrases, u.phrases, d.phrases]
  | unwrap o w d c => .node (unwrap o w d c).tokens [d.phrases]
  | error o w t c => .node (error o w t c).tokens [t.phrases]
  | con o w k c => .node (con o w k c).tokens []
  | builtin o w b c => .node (builtin o w b c).tokens []
  | prod o w ds c => .node (prod o w ds c).tokens (allPhrases ds)
  | proj o w n d c => .node (proj o w n d c).tokens [d.phrases]
  | apply o d e es c =>
    .nest c.token (o.token :: d.tokens) d.phrases (e.phrases :: allPhrases es)
  | inst o d t ts c =>
    .nest c.token (o.token :: d.tokens) d.phrases
      (t.phrases :: TypeDerivation.allPhrases ts)

/-- The phrases of terms in a row. -/
def allPhrases : List TermDerivation → List (Outline (List Token))
  | [] => []
  | d :: ds => d.phrases :: allPhrases ds

end

end TermDerivation

/-- The phrases of a program, that of its version included. -/
def ProgramDerivation.phrases (d : ProgramDerivation) : Outline (List Token) :=
  .node d.tokens [.node d.version.tokens [], d.term.phrases]

@[simp] theorem TypeDerivation.allPhrases_eq_map (ds : List TypeDerivation) :
    allPhrases ds = ds.map phrases := by
  induction ds with
  | nil => rfl
  | cons d ds ih => rw [allPhrases, ih, List.map_cons]

@[simp] theorem TermDerivation.allPhrases_eq_map (ds : List TermDerivation) :
    allPhrases ds = ds.map phrases := by
  induction ds with
  | nil => rfl
  | cons d ds ih => rw [allPhrases, ih, List.map_cons]

/-! ### The phrase of a derivation has its tokens -/

theorem KindDerivation.label_phrases (d : KindDerivation) : d.phrases.label = d.tokens := by
  cases d <;> rfl

theorem TypeDerivation.label_phrases (d : TypeDerivation) : d.phrases.label = d.tokens := by
  induction d with
  | app o d e es c ihd ihe ihes =>
    rw [phrases, Outline.label_nest (List.cons_ne_nil _ _), allPhrases_eq_map, List.flatMap_cons,
      List.flatMap_map, List.flatMap_congr ihes, ihe]
    simp [tokens]
  | _ => rfl

theorem TermDerivation.label_phrases (d : TermDerivation) : d.phrases.label = d.tokens := by
  induction d with
  | apply o d e es c ihd ihe ihes =>
    rw [phrases, Outline.label_nest (List.cons_ne_nil _ _), allPhrases_eq_map, List.flatMap_cons,
      List.flatMap_map, List.flatMap_congr ihes, ihe]
    simp [tokens]
  | inst o d t ts c ih =>
    rw [phrases, Outline.label_nest (List.cons_ne_nil _ _), TypeDerivation.allPhrases_eq_map,
      List.flatMap_cons, List.flatMap_map,
      List.flatMap_congr fun t _ => t.label_phrases, t.label_phrases]
    simp [tokens]
  | _ => rfl

theorem TypeDerivation.label_phrases_sublist (d : TypeDerivation) (t : Token) :
    d.phrases.label.Sublist (t :: d.tokens) := by
  rw [label_phrases]
  exact List.sublist_cons_self _ _

theorem TermDerivation.label_phrases_sublist (d : TermDerivation) (t : Token) :
    d.phrases.label.Sublist (t :: d.tokens) := by
  rw [label_phrases]
  exact List.sublist_cons_self _ _

/-! ### Phrases lie inside of phrases -/

theorem KindDerivation.phrases_nested (d : KindDerivation) : d.phrases.Nested := by
  induction d with
  | type o w c => exact .brackets o.token c.token [w.token] rfl (by simp)
  | arrow o w d e c ihd ihe =>
    exact .brackets o.token c.token [w.token] (by simp [tokens, label_phrases]) (by simp [ihd, ihe])

theorem TypeDerivation.phrases_nested (d : TypeDerivation) : d.phrases.Nested := by
  induction d with
  | var x => exact .node (List.cons_ne_nil _ _) (List.nil_sublist _) (by simp)
  | lam o w x k d c ih | all o w x k d c ih =>
    exact .brackets o.token c.token [w.token, x.token]
      (by simp [tokens, label_phrases, KindDerivation.label_phrases])
      (by simp [ih, k.phrases_nested])
  | ifix o w d e c ihd ihe | fn o w d e c ihd ihe =>
    exact .brackets o.token c.token [w.token] (by simp [tokens, label_phrases]) (by simp [ihd, ihe])
  | con o w b c => exact .brackets o.token c.token [w.token, b.token] rfl (by simp)
  | prod o w ds c ih =>
    exact .brackets o.token c.token [w.token]
      (by simp [tokens, List.flatMap_map, label_phrases]) (by simpa using ih)
  | app o d e es c ihd ihe ihes =>
    exact .nest ihd (d.label_phrases_sublist o.token)
      (List.forall_mem_cons.mpr ⟨ihe, by simpa using ihes⟩)

theorem TermDerivation.phrases_nested (d : TermDerivation) : d.phrases.Nested := by
  have htypes : ∀ ts, ∀ o ∈ TypeDerivation.allPhrases ts, o.Nested := by
    intro ts
    simpa using fun t _ => TypeDerivation.phrases_nested t
  induction d with
  | var x => exact .node (List.cons_ne_nil _ _) (List.nil_sublist _) (by simp)
  | lam o w x t d c ih =>
    exact .brackets o.token c.token [w.token, x.token]
      (by simp [tokens, label_phrases, TypeDerivation.label_phrases])
      (by simp [ih, t.phrases_nested])
  | abs o w x k d c ih =>
    exact .brackets o.token c.token [w.token, x.token]
      (by simp [tokens, label_phrases, KindDerivation.label_phrases])
      (by simp [ih, k.phrases_nested])
  | iwrap o w t u d c ih =>
    exact .brackets o.token c.token [w.token]
      (by simp [tokens, label_phrases, TypeDerivation.label_phrases])
      (by simp [ih, t.phrases_nested, u.phrases_nested])
  | unwrap o w d c ih =>
    exact .brackets o.token c.token [w.token] (by simp [tokens, label_phrases]) (by simp [ih])
  | error o w t c =>
    exact .brackets o.token c.token [w.token] (by simp [tokens, TypeDerivation.label_phrases])
      (by simp [t.phrases_nested])
  | con o w k c =>
    exact .brackets o.token c.token (w.token :: k.tokens) (by simp [tokens]) (by simp)
  | builtin o w b c => exact .brackets o.token c.token [w.token, b.token] rfl (by simp)
  | prod o w ds c ih =>
    exact .brackets o.token c.token [w.token]
      (by simp [tokens, List.flatMap_map, label_phrases]) (by simpa using ih)
  | proj o w n d c ih =>
    exact .brackets o.token c.token [w.token, n.token] (by simp [tokens, label_phrases])
      (by simp [ih])
  | apply o d e es c ihd ihe ihes =>
    exact .nest ihd (d.label_phrases_sublist o.token)
      (List.forall_mem_cons.mpr ⟨ihe, by simpa using ihes⟩)
  | inst o d t ts c ih =>
    exact .nest ih (d.label_phrases_sublist o.token)
      (List.forall_mem_cons.mpr ⟨t.phrases_nested, htypes ts⟩)

theorem VersionDerivation.phrases_nested (d : VersionDerivation) :
    (Outline.node d.tokens []).Nested :=
  .node (List.cons_ne_nil _ _) (List.nil_sublist _) (List.forall_mem_nil _)

theorem ProgramDerivation.phrases_nested (d : ProgramDerivation) : d.phrases.Nested :=
  .brackets d.opening.token d.closing.token [d.word.token]
    (by simp [tokens, TermDerivation.label_phrases])
    (by simp [d.version.phrases_nested, d.term.phrases_nested])

/-! ## Every node is marked with the span of its phrase -/

variable {l : Layout}

theorem KindDerivation.tree_marks (d : KindDerivation) :
    Outline.Marks l d.tree.outline d.phrases := by
  induction d with
  | type o w c => exact .brackets o.token c.token [w.token] rfl (phrases_nested _) .nil
  | arrow o w d e c ihd ihe =>
    exact .brackets o.token c.token (w.token :: (d.tokens ++ e.tokens)) rfl (phrases_nested _)
      (.cons ihd (.cons ihe .nil))

theorem TypeDerivation.forall₂_readAll {R : Ty → Outline (List Token) → Prop}
    {ds : List TypeDerivation} (h : ∀ d ∈ ds, ∀ i, R (d.read i).1 d.phrases) (i : Interner) :
    List.Forall₂ R (readAll ds i).1 (allPhrases ds) := by
  induction ds generalizing i with
  | nil => exact .nil
  | cons d ds ih =>
    exact .cons (h d List.mem_cons_self i) (ih (fun e he => h e (List.mem_cons_of_mem d he)) _)

theorem TypeDerivation.read_marks (d : TypeDerivation) (i : Interner) :
    Outline.Marks l (d.read i).1.outline d.phrases := by
  induction d generalizing i with
  | var x => exact .token x.token
  | lam o w x k d c ih | all o w x k d c ih =>
    exact .brackets o.token c.token (w.token :: x.token :: (k.tokens ++ d.tokens)) rfl
      (phrases_nested _) (.cons k.tree_marks (.cons (ih _) .nil))
  | ifix o w d e c ihd ihe | fn o w d e c ihd ihe =>
    exact .brackets o.token c.token (w.token :: (d.tokens ++ e.tokens)) rfl (phrases_nested _)
      (.cons (ihd _) (.cons (ihe _) .nil))
  | con o w b c =>
    exact .brackets o.token c.token [w.token, b.token] rfl (phrases_nested _) .nil
  | prod o w ds c ih =>
    refine .brackets o.token c.token (w.token :: allTokens ds) rfl (phrases_nested _) ?_
    rw [Ty.outlines_eq_map, List.forall₂_map_left_iff]
    exact forall₂_readAll ih i
  | app o d e es c ihd ihe ihes =>
    exact .nest (fun _ _ _ => rfl) Ty.mark_eq_label rfl (d.label_phrases_sublist o.token) (ihd i)
      (.cons ⟨ihe _, e.phrases_nested.label_ne_nil⟩
        (forall₂_readAll (fun a ha i => ⟨ihes a ha i, a.phrases_nested.label_ne_nil⟩) _))

theorem TermDerivation.forall₂_readAll {R : Term → Outline (List Token) → Prop}
    {ds : List TermDerivation} (h : ∀ d ∈ ds, ∀ i, R (d.read i).1 d.phrases) (i : Interner) :
    List.Forall₂ R (readAll ds i).1 (allPhrases ds) := by
  induction ds generalizing i with
  | nil => exact .nil
  | cons d ds ih =>
    exact .cons (h d List.mem_cons_self i) (ih (fun e he => h e (List.mem_cons_of_mem d he)) _)

theorem TermDerivation.read_marks (d : TermDerivation) (i : Interner) :
    Outline.Marks l (d.read i).1.outline d.phrases := by
  induction d generalizing i with
  | var x => exact .token x.token
  | lam o w x t d c ih =>
    exact .brackets o.token c.token (w.token :: x.token :: (t.tokens ++ d.tokens)) rfl
      (phrases_nested _) (.cons (t.read_marks _) (.cons (ih _) .nil))
  | abs o w x k d c ih =>
    exact .brackets o.token c.token (w.token :: x.token :: (k.tokens ++ d.tokens)) rfl
      (phrases_nested _) (.cons k.tree_marks (.cons (ih _) .nil))
  | iwrap o w t u d c ih =>
    exact .brackets o.token c.token (w.token :: (t.tokens ++ u.tokens ++ d.tokens)) rfl
      (phrases_nested _) (.cons (t.read_marks _) (.cons (u.read_marks _) (.cons (ih _) .nil)))
  | unwrap o w d c ih =>
    exact .brackets o.token c.token (w.token :: d.tokens) rfl (phrases_nested _)
      (.cons (ih _) .nil)
  | error o w t c =>
    exact .brackets o.token c.token (w.token :: t.tokens) rfl (phrases_nested _)
      (.cons (t.read_marks _) .nil)
  | con o w k c =>
    exact .brackets o.token c.token (w.token :: k.tokens) rfl (phrases_nested _) .nil
  | builtin o w b c =>
    exact .brackets o.token c.token [w.token, b.token] rfl (phrases_nested _) .nil
  | prod o w ds c ih =>
    refine .brackets o.token c.token (w.token :: allTokens ds) rfl (phrases_nested _) ?_
    rw [Term.outlines_eq_map, List.forall₂_map_left_iff]
    exact forall₂_readAll ih i
  | proj o w n d c ih =>
    exact .brackets o.token c.token (w.token :: n.token :: d.tokens) rfl (phrases_nested _)
      (.cons (ih _) .nil)
  | apply o d e es c ihd ihe ihes =>
    exact .nest (fun _ _ _ => rfl) Term.mark_eq_label rfl (d.label_phrases_sublist o.token) (ihd i)
      (.cons ⟨ihe _, e.phrases_nested.label_ne_nil⟩
        (forall₂_readAll (fun a ha i => ⟨ihes a ha i, a.phrases_nested.label_ne_nil⟩) _))
  | inst o d t ts c ih =>
    exact .nest (fun _ _ _ => rfl) Ty.mark_eq_label rfl (d.label_phrases_sublist o.token) (ih i)
      (.cons ⟨t.read_marks _, t.phrases_nested.label_ne_nil⟩
        (TypeDerivation.forall₂_readAll
          (fun a _ i => ⟨a.read_marks i, a.phrases_nested.label_ne_nil⟩) _))

theorem ProgramDerivation.read_marks (d : ProgramDerivation) (i : Interner) :
    Outline.Marks l (d.read i).1.outline d.phrases := by
  have hversion : Outline.Marks l (.node d.version.tree.mark []) (.node d.version.tokens []) :=
    .brackets d.version.major.token d.version.patch.token
      [d.version.firstDot.token, d.version.minor.token, d.version.secondDot.token] rfl
      d.version.phrases_nested .nil
  exact .brackets d.opening.token d.closing.token
    (d.word.token :: (d.version.tokens ++ d.term.tokens)) rfl d.phrases_nested
    (.cons hversion (.cons (d.term.read_marks i) .nil))

/-! ## Whole sources -/

namespace Phrase

/-- The marks of an answer. A constant has none. -/
def outline : (p : Phrase) → p.Answer → List (Outline Mark)
  | program => fun a => [Program.outline a]
  | term => fun a => [Term.outline a]
  | type => fun a => [Ty.outline a]
  | kind => fun a => [Kind.outline a]
  | constant => fun _ => []

/-- The phrases of a derivation that get a mark. -/
def phrases : (p : Phrase) → p.Derivation → List (Outline (List Token))
  | program => fun d => [ProgramDerivation.phrases d]
  | term => fun d => [TermDerivation.phrases d]
  | type => fun d => [TypeDerivation.phrases d]
  | kind => fun d => [KindDerivation.phrases d]
  | constant => fun _ => []

variable {p : Phrase}

theorem phrases_nested (d : p.Derivation) :
    ∀ o ∈ p.phrases d, o.Nested ∧ o.label = p.tokens d := by
  cases p with
  | program => exact List.forall_mem_singleton.mpr ⟨ProgramDerivation.phrases_nested d, rfl⟩
  | term =>
    exact List.forall_mem_singleton.mpr
      ⟨TermDerivation.phrases_nested d, TermDerivation.label_phrases d⟩
  | type =>
    exact List.forall_mem_singleton.mpr
      ⟨TypeDerivation.phrases_nested d, TypeDerivation.label_phrases d⟩
  | kind =>
    exact List.forall_mem_singleton.mpr
      ⟨KindDerivation.phrases_nested d, KindDerivation.label_phrases d⟩
  | constant => exact List.forall_mem_nil _

/-- With enough room, the rule of a sort answers with a tree that is marked with the spans of the
    phrases. -/
theorem rule_marks (d : p.Derivation) {room : Nat} (hroom : p.depth d ≤ room) (c : Context)
    (rest : List Token) (hint : Option ParseError) (i : Interner) :
    ∃ a i', p.rule room c ⟨p.tokens d ++ rest, hint, i⟩ = .ok a ⟨rest, none, i'⟩ ∧
      List.Forall₂ (Outline.Marks l) (p.outline a) (p.phrases d) := by
  cases p with
  | program =>
    exact ⟨_, _, Grammar.program_read c rest hint i d hroom,
      .cons (ProgramDerivation.read_marks d i) .nil⟩
  | term =>
    exact ⟨_, _, Grammar.term_read c rest hint i d hroom,
      .cons (TermDerivation.read_marks d i) .nil⟩
  | type =>
    exact ⟨_, _, Grammar.type_read c rest hint i d hroom,
      .cons (TypeDerivation.read_marks d i) .nil⟩
  | kind =>
    exact ⟨_, _, Grammar.kind_read c rest hint i d hroom, .cons (KindDerivation.tree_marks d) .nil⟩
  | constant => exact ⟨_, _, Grammar.constant_read c rest hint i d hroom, .nil⟩

/-- The positions in a tree that was read from a source are complete and nested. The tree has one
    node for each phrase of its derivation, in the same order, and every node is marked with the
    position of its phrase. Each of these spans runs from the first byte of the first token to the
    last byte of the last token of its phrase; it is not empty and inside the source; the spans of
    the parts of a node lie inside its own, and each ends before the next one starts. -/
theorem parseWith_positions (p : Phrase) (maxDepth : Nat) (supply : Supply) (label src : String)
    {a : p.Answer} (h : (parseWith maxDepth supply p.rule label src).result = .ok a) :
    ∃ d : p.Derivation, p.tokens d = (lexSkippingComments src).tokens ∧ p.ast d = p.skeleton a ∧
      p.outline a = (p.phrases d).map (Outline.map positioned) ∧
      ∀ n ∈ (p.phrases d).flatMap Outline.nodes, n.Placed (byteLength src.toList) := by
  let l := Layout.ofSource src
  rcases parseWith_eq_ok_iff.mp h with ⟨-, s, hwhole⟩
  rcases whole_derives (c := sourceContext maxDepth src) hwhole with ⟨d, hdepth, htokens, hast⟩
  have hlaid : ∀ o ∈ p.phrases d, o.Nested ∧ o.label.Sublist l.tokens := by
    intro o ho
    rcases phrases_nested d o ho with ⟨hnested, hlabel⟩
    refine ⟨hnested, ?_⟩
    rw [hlabel, htokens]
    exact List.Sublist.refl _
  -- The rule reads the derivation, so its answer is the tree that it is read as.
  have hmarks : List.Forall₂ (Outline.Marks l) (p.outline a) (p.phrases d) := by
    rcases rule_marks (l := l) d hdepth (sourceContext maxDepth src) [] none (.ofSupply supply) with
      ⟨b, i, hread, hmarks⟩
    rw [List.append_nil, htokens] at hread
    cases (whole_eq_ok_iff.mp hwhole).1.symm.trans hread
    exact hmarks
  refine ⟨d, htokens, hast.symm, ?_, ?_⟩
  · exact Outline.Marks.map_eq hmarks fun o ho => (hlaid o ho).2
  · intro n hn
    rcases List.mem_flatMap.mp hn with ⟨o, ho, hn⟩
    exact (hlaid o ho).1.placed (hlaid o ho).2 n hn

/-- In `[f x y]` the inner node runs from the bracket through `x`. -/
theorem application_positions :
    let out := parseWith 2 .empty term.rule "t" "[f x y]"
    out.result.toOption.map (fun a => ((term.outline a).flatMap Outline.nodes).map Outline.label) =
        some [.position ⟨0, 7⟩, .position ⟨0, 4⟩, .position ⟨1, 1⟩, .position ⟨3, 1⟩,
          .position ⟨5, 1⟩] ∧
      ∃ a, out.result = .ok a ∧ ∃ d : TermDerivation,
        term.outline a = (term.phrases d).map (Outline.map positioned) ∧
        ∀ n ∈ (term.phrases d).flatMap Outline.nodes, n.Placed 7 := by
  intro out
  refine ⟨by decide +kernel, ?_⟩
  have hok : out.result.isOk = true := by decide +kernel
  cases hout : out.result with
  | error report =>
    rw [hout] at hok
    cases hok
  | ok a =>
    rcases parseWith_positions .term 2 .empty "t" "[f x y]" hout with ⟨d, -, -, hmarks, hplaced⟩
    exact ⟨a, rfl, d, hmarks, hplaced⟩

end Phrase

end FOmega
