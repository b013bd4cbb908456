import FOmega.Grammar
import FOmega.Proofs.Placement

/-!
# Outlines

The outline of a tree is its shape with a label at every node. The phrases of a derivation have an
outline, whose labels are the tokens of each phrase, and a syntax tree has one, whose labels are its
marks. If the parts of every phrase follow each other inside of it, then so do their spans.

An application to several arguments is one phrase, but has a node for each argument. The phrase of
an inner node begins with the opening bracket and ends with the argument of the node; the outermost
one also has the closing bracket.
-/

namespace FOmega

/-- A tree with a label at every node; the parts of a node stand in the order of the source. -/
inductive Outline (α : Type) where
  | node (label : α) (parts : List (Outline α))

namespace Outline

variable {α β : Type}

/-- The label at the root. -/
def label : Outline α → α
  | node a _ => a

/-- What is right below the root. -/
def parts : Outline α → List (Outline α)
  | node _ parts => parts

mutual

/-- Changes the labels. -/
def map (f : α → β) : Outline α → Outline β
  | node a parts => node (f a) (mapAll f parts)

/-- Changes the labels of outlines in a row. -/
def mapAll (f : α → β) : List (Outline α) → List (Outline β)
  | [] => []
  | o :: os => o.map f :: mapAll f os

end

mutual

/-- Every node of an outline, with what is below it. -/
def nodes : Outline α → List (Outline α)
  | node a parts => node a parts :: nodesAll parts

/-- Every node of outlines in a row. -/
def nodesAll : List (Outline α) → List (Outline α)
  | [] => []
  | o :: os => o.nodes ++ nodesAll os

end

@[simp] theorem label_node (a : α) (parts : List (Outline α)) : (node a parts).label = a := rfl

@[simp] theorem mapAll_eq_map (f : α → β) (os : List (Outline α)) :
    mapAll f os = os.map (map f) := by
  induction os with
  | nil => rfl
  | cons o os ih => rw [mapAll, ih, List.map_cons]

@[simp] theorem nodesAll_eq_flatMap (os : List (Outline α)) : nodesAll os = os.flatMap nodes := by
  induction os with
  | nil => rfl
  | cons o os ih => rw [nodesAll, ih, List.flatMap_cons]

@[simp] theorem label_map (f : α → β) (o : Outline α) : (o.map f).label = f o.label := by
  cases o with
  | node a parts => rfl

end Outline

/-! ## The span of a phrase -/

/-- The span from the first through the last of some tokens. -/
def spanOf (u : List Token) : Span :=
  match u.head?, u.getLast? with
  | some first, some last => first.span.through last.span
  | _, _ => ⟨0, 0⟩

/-- The mark of the node for a phrase. -/
def positioned (u : List Token) : Mark :=
  .position (spanOf u)

section

variable {u v : List Token} {t first last : Token}

theorem spanOf_eq (hfirst : u.head? = some first) (hlast : u.getLast? = some last) :
    spanOf u = first.span.through last.span := by
  rw [spanOf, hfirst, hlast]

theorem positioned_singleton (t : Token) : positioned [t] = .position t.span := by
  have hself : t.span.through t.span = t.span := by
    simp [Span.through, Span.stop]
  rw [positioned, spanOf_eq (List.head?_cons) (List.getLast?_singleton), hself]

theorem positioned_brackets (o c : Token) (inside : List Token) :
    positioned (o :: (inside ++ [c])) = .position (o.span.through c.span) := by
  have hlast : (o :: (inside ++ [c])).getLast? = some c := by
    rw [← List.cons_append, List.getLast?_concat]
  rw [positioned, spanOf_eq rfl hlast]

namespace Layout

variable {l : Layout}

/-- Every token of a phrase stands between its first and its last one. -/
theorem between_ends (h : u.Sublist l.tokens) (hfirst : u.head? = some first)
    (hlast : u.getLast? = some last) (ht : t ∈ u) :
    first.span.offset ≤ t.span.offset ∧ t.span.stop ≤ last.span.stop := by
  have hapart := l.apart.sublist h
  constructor
  · rcases List.head?_eq_some_iff.mp hfirst with ⟨rest, rfl⟩
    rcases List.mem_cons.mp ht with rfl | ht
    · exact Nat.le_refl _
    · have hle := (List.pairwise_cons.mp hapart).1 t ht
      exact Nat.le_trans (Nat.le_add_right _ _) hle
  · rcases List.getLast?_eq_some_iff.mp hlast with ⟨before, rfl⟩
    rcases List.mem_append.mp ht with ht | ht
    · have hle := (List.pairwise_append.mp hapart).2.2 t ht last List.mem_cons_self
      exact Nat.le_trans hle (Nat.le_add_right _ _)
    · rw [List.mem_singleton.mp ht]

theorem stop_spanOf (h : u.Sublist l.tokens) (hfirst : u.head? = some first)
    (hlast : u.getLast? = some last) : (spanOf u).stop = last.span.stop := by
  have hstart := (between_ends h hfirst hlast (List.mem_of_getLast? hlast)).1
  have hend : last.span.offset ≤ last.span.stop := Nat.le_add_right _ _
  rw [spanOf_eq hfirst hlast]
  simp only [Span.through, Span.stop] at hstart hend ⊢
  omega

end Layout

end

namespace Outline

/-! ## Phrases inside of phrases -/

/-- No phrase is empty, and the parts of each follow each other inside of it. -/
inductive Nested : Outline (List Token) → Prop where
  | node {u : List Token} {parts : List (Outline (List Token))} (nonempty : u ≠ [])
    (sublist : (parts.flatMap label).Sublist u) (parts_nested : ∀ part ∈ parts, Nested part) :
    Nested (node u parts)

/-- A phrase and its parts are where they should be in a source of the given size: the span of the
    phrase runs from its first through its last token, and the spans of its parts lie inside of it
    and follow each other. -/
structure Placed (size : Nat) (n : Outline (List Token)) : Prop where
  ends : ∃ first last, n.label.head? = some first ∧ n.label.getLast? = some last ∧
    (spanOf n.label).offset = first.span.offset ∧ (spanOf n.label).stop = last.span.stop
  nonempty : 0 < (spanOf n.label).len
  inside : (spanOf n.label).stop ≤ size
  parts_inside : ∀ part ∈ n.parts, (spanOf n.label).offset ≤ (spanOf part.label).offset ∧
    (spanOf part.label).stop ≤ (spanOf n.label).stop
  parts_apart : n.parts.Pairwise fun part part' =>
    (spanOf part.label).stop ≤ (spanOf part'.label).offset

section

variable {l : Layout} {u : List Token} {parts : List (Outline (List Token))}
  {o : Outline (List Token)}

theorem exists_ends (h : u ≠ []) : ∃ first last, u.head? = some first ∧ u.getLast? = some last :=
  ⟨u.head h, u.getLast h, List.head?_eq_some_head h, List.getLast?_eq_some_getLast h⟩

theorem label_sublist {part : Outline (List Token)} (h : part ∈ parts) :
    part.label.Sublist (parts.flatMap label) := by
  rw [List.flatMap_def]
  exact List.sublist_flatten_of_mem (List.mem_map_of_mem h)

theorem Nested.label_ne_nil (h : o.Nested) : o.label ≠ [] := by
  cases h with
  | node hne _ _ => exact hne

/-- A phrase in brackets, with its parts right before the closing one. -/
theorem Nested.brackets (o c : Token) (before : List Token)
    (hu : u = o :: (before ++ parts.flatMap label ++ [c])) (hparts : ∀ part ∈ parts, part.Nested) :
    (Outline.node u parts).Nested := by
  rw [hu]
  refine .node (List.cons_ne_nil _ _) ?_ hparts
  rw [List.append_assoc]
  exact ((List.sublist_append_left _ [c]).trans (List.sublist_append_right before _)).cons o

theorem Nested.part_sublist (h : o.Nested) (ho : o.label.Sublist l.tokens) :
    ∀ part ∈ o.parts, part.label.Sublist l.tokens := by
  cases h with
  | node _ hsublist _ => exact fun part hpart => ((label_sublist hpart).trans hsublist).trans ho

theorem placed_node (hne : u ≠ []) (hu : u.Sublist l.tokens)
    (hsublist : (parts.flatMap label).Sublist u) (hparts : ∀ part ∈ parts, part.Nested) :
    (node u parts).Placed l.size := by
  rcases exists_ends hne with ⟨first, last, hfirst, hlast⟩
  have hoffset : (spanOf u).offset = first.span.offset := by
    rw [spanOf_eq hfirst hlast]
    rfl
  have hstop := Layout.stop_spanOf hu hfirst hlast
  have hbetween := fun {t} (ht : t ∈ u) => Layout.between_ends hu hfirst hlast ht
  -- The ends of a part are tokens of the phrase.
  have hends : ∀ part ∈ parts, ∃ first' ∈ part.label, ∃ last' ∈ part.label,
      (spanOf part.label).offset = first'.span.offset ∧
        (spanOf part.label).stop = last'.span.stop := by
    intro part hpart
    rcases exists_ends (hparts part hpart).label_ne_nil with ⟨first', last', hfirst', hlast'⟩
    have hpart' : part.label.Sublist l.tokens :=
      ((label_sublist hpart).trans hsublist).trans hu
    refine ⟨first', List.mem_of_head? hfirst', last', List.mem_of_getLast? hlast', ?_,
      Layout.stop_spanOf hpart' hfirst' hlast'⟩
    rw [spanOf_eq hfirst' hlast']
    rfl
  have hmem : ∀ part ∈ parts, ∀ t ∈ part.label, t ∈ u := fun part hpart t ht =>
    hsublist.subset (List.mem_flatMap.mpr ⟨part, hpart, ht⟩)
  refine ⟨⟨first, last, hfirst, hlast, hoffset, hstop⟩, ?_, ?_, ?_, ?_⟩
  · have hfirstMem := List.mem_of_head? hfirst
    have hpos := l.nonempty first (hu.subset hfirstMem)
    have hle := (hbetween hfirstMem).2
    simp only [label_node, Span.stop] at hstop hle ⊢
    omega
  · rw [label_node, hstop]
    exact l.inside last (hu.subset (List.mem_of_getLast? hlast))
  · intro part hpart
    rcases hends part hpart with ⟨first', hfirst', last', hlast', hoffset', hstop'⟩
    rw [label_node, hoffset, hstop, hoffset', hstop']
    exact ⟨(hbetween (hmem part hpart first' hfirst')).1,
      (hbetween (hmem part hpart last' hlast')).2⟩
  · have hapart := (List.pairwise_flatMap.mp (l.apart.sublist (hsublist.trans hu))).2
    refine hapart.imp_of_mem ?_
    intro part part' hpart hpart' hafter
    rcases hends part hpart with ⟨-, -, last', hlast', -, hstop'⟩
    rcases hends part' hpart' with ⟨first', hfirst', -, -, hoffset', -⟩
    rw [hstop', hoffset']
    exact hafter last' hlast' first' hfirst'

/-- Every phrase of nested ones is where it should be. -/
theorem Nested.placed (h : o.Nested) (ho : o.label.Sublist l.tokens) :
    ∀ n ∈ o.nodes, n.Placed l.size := by
  induction h with
  | @node u parts hne hsublist hparts ih =>
    intro n hn
    rw [nodes, nodesAll_eq_flatMap] at hn
    rcases List.mem_cons.mp hn with rfl | hn
    · exact placed_node hne ho hsublist hparts
    · rcases List.mem_flatMap.mp hn with ⟨part, hpart, hn⟩
      exact ih part hpart (((label_sublist hpart).trans hsublist).trans ho) n hn

end

/-! ## Applications -/

/-- The phrases of an application to several arguments. The node of an argument has the phrase from
    the opening bracket through the argument, that of the last one also the closing bracket; its
    parts are the node before it and the argument. -/
def nest (closing : Token) (before : List Token) (inner : Outline (List Token)) :
    List (Outline (List Token)) → Outline (List Token)
  | [] => inner
  | [arg] => node (before ++ arg.label ++ [closing]) [inner, arg]
  | arg :: args => nest closing (before ++ arg.label) (node (before ++ arg.label) [inner, arg]) args

variable {closing opening : Token} {before : List Token} {inner : Outline (List Token)}
  {args : List (Outline (List Token))}

theorem label_nest (hne : args ≠ []) :
    (nest closing before inner args).label = before ++ args.flatMap label ++ [closing] := by
  fun_induction nest closing before inner args with
  | case1 => exact absurd rfl hne
  | case2 before inner arg => simp
  | case3 before inner arg args hargs ih => simp [ih hargs]

theorem Nested.nest (hinner : inner.Nested) (hbefore : inner.label.Sublist before)
    (hargs : ∀ arg ∈ args, arg.Nested) : (nest closing before inner args).Nested := by
  fun_induction Outline.nest closing before inner args with
  | case1 => exact hinner
  | case2 before inner arg =>
    have hparts : ∀ part ∈ [inner, arg], part.Nested :=
      List.forall_mem_cons.mpr ⟨hinner, hargs⟩
    refine .node (by simp) ?_ hparts
    simpa using (hbefore.append_right arg.label).trans (List.sublist_append_left _ [closing])
  | case3 before inner arg args hne ih =>
    have hparts : ∀ part ∈ [inner, arg], part.Nested :=
      List.forall_mem_cons.mpr
        ⟨hinner, List.forall_mem_singleton.mpr (hargs arg List.mem_cons_self)⟩
    have harg := (hargs arg List.mem_cons_self).label_ne_nil
    refine ih (.node (by simp [harg]) ?_ hparts) (List.Sublist.refl _)
      fun arg' harg' => hargs arg' (List.mem_cons_of_mem arg harg')
    simpa using hbefore.append_right arg.label

theorem nest_sublist {l : Layout} (hne : args ≠ [])
    (h : (nest closing before inner args).label.Sublist l.tokens) :
    before.Sublist l.tokens ∧ ∀ arg ∈ args, arg.label.Sublist l.tokens := by
  rw [label_nest hne, List.append_assoc] at h
  refine ⟨(List.sublist_append_left _ _).trans h, fun arg harg => ?_⟩
  have hargs := ((List.sublist_append_left _ [closing]).trans
    (List.sublist_append_right before _)).trans h
  exact (label_sublist harg).trans hargs

/-! ## Marks -/

/-- If the tokens of a phrase are laid out, the marks are the spans of the phrase and of the phrases
    inside of it. -/
def Marks (l : Layout) (marks : Outline Mark) (phrase : Outline (List Token)) : Prop :=
  phrase.label.Sublist l.tokens → marks = phrase.map positioned

namespace Marks

variable {l : Layout}

theorem token (t : Token) : Marks l (node (.position t.span) []) (node [t] []) := by
  intro _
  rw [map, positioned_singleton]
  rfl

theorem map_eq {marks : List (Outline Mark)} {phrases : List (Outline (List Token))}
    (h : List.Forall₂ (Marks l) marks phrases)
    (hphrases : ∀ phrase ∈ phrases, phrase.label.Sublist l.tokens) :
    marks = phrases.map (map positioned) := by
  induction h with
  | nil => rfl
  | cons hphrase _ ih =>
    rcases List.forall_mem_cons.mp hphrases with ⟨hlabel, hlabels⟩
    rw [hphrase hlabel, ih hlabels, List.map_cons]

/-- A phrase in brackets. -/
theorem brackets (o c : Token) (inside : List Token) {phrase : Outline (List Token)}
    {marks : List (Outline Mark)} {parts : List (Outline (List Token))}
    (hphrase : phrase = node (o :: (inside ++ [c])) parts) (hnested : phrase.Nested)
    (hparts : List.Forall₂ (Marks l) marks parts) :
    Marks l (node (.position (o.span.through c.span)) marks) phrase := by
  intro h
  subst hphrase
  rw [map, positioned_brackets, mapAll_eq_map, map_eq hparts (hnested.part_sublist h)]

/-- A head and its arguments, nested to the left. The span of a node that is not the outermost is
    found through the mark of its argument. -/
theorem nest {α β : Type} {node : Mark → α → β → α} {mark : β → Mark} {outline : α → Outline Mark}
    {outlineArg : β → Outline Mark}
    (hnode : ∀ m a b, outline (node m a b) = .node m [outline a, outlineArg b])
    (hmark : ∀ b, mark b = (outlineArg b).label) (hopening : before.head? = some opening)
    (hbefore : inner.label.Sublist before) {head : α} (hhead : Marks l (outline head) inner)
    {trees : List β}
    (hargs : List.Forall₂ (fun tree arg => Marks l (outlineArg tree) arg ∧ arg.label ≠ [])
      trees args) :
    Marks l (outline (Grammar.nestLeft node mark (opening.span.through closing.span) head trees))
      (Outline.nest closing before inner args) := by
  induction hargs generalizing head before inner with
  | nil => exact hhead
  | @cons tree arg trees args harg hargs ih =>
    intro h
    rcases nest_sublist (List.cons_ne_nil _ _) h with ⟨hbeforeTokens, hargTokens⟩
    have hargLabel := hargTokens arg List.mem_cons_self
    have hinner : outline head = inner.map positioned := hhead (hbefore.trans hbeforeTokens)
    have htree : outlineArg tree = arg.map positioned := harg.1 hargLabel
    rcases exists_ends harg.2 with ⟨first, last, hfirst, hlast⟩
    cases hargs with
    | nil =>
      have hspan : spanOf (before ++ arg.label ++ [closing]) =
          opening.span.through closing.span := by
        refine spanOf_eq ?_ List.getLast?_concat
        simp [hopening]
      simp only [Grammar.nestLeft, Outline.nest, hnode, hinner, htree, map, mapAll, positioned,
        hspan]
    | cons _ _ =>
      have hspan : spanOf (before ++ arg.label) = opening.span.through (spanOf arg.label) := by
        have hends : (before ++ arg.label).head? = some opening ∧
            (before ++ arg.label).getLast? = some last := by
          simp [hopening, hlast]
        rw [spanOf_eq hends.1 hends.2]
        simp only [Span.through, Layout.stop_spanOf hargLabel hfirst hlast]
      have hmarked : mark tree = .position (spanOf arg.label) := by
        rw [hmark, htree, label_map]
        rfl
      have hnext : Marks l (outline (node (positioned (before ++ arg.label)) head tree))
          (.node (before ++ arg.label) [inner, arg]) := by
        intro _
        rw [hnode, hinner, htree, map, mapAll, mapAll, mapAll]
      have hnextOpening : (before ++ arg.label).head? = some opening := by
        simp [hopening]
      rw [positioned, hspan] at hnext
      simp only [Grammar.nestLeft, Outline.nest, hmarked] at h ⊢
      exact ih hnextOpening (List.Sublist.refl _) hnext h

end Marks

end Outline

end FOmega
