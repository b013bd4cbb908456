import FOmega.Proofs.Numbering
import FOmega.Proofs.Positions

/-!
# The nodes of a tree and their phrases

A tree that was read from tokens has a node for each phrase in them, and inner nodes besides, which
an application or instantiation with more than one argument is nested into. Every node that is not
such an inner node is read off a derivation of its own, the tokens of which stand in a row among
those of the whole.
-/

namespace FOmega

open Terminal FOmega.Parser Grammar

/-! ## The nodes of a tree -/

/-- A tree with its sort, as a node of a larger tree. -/
structure Node where
  phrase : Phrase
  tree : phrase.Answer

/-- Whether two positions start at the same byte. -/
def Mark.sameStart : Mark → Mark → Bool
  | position s, position s' => s.offset == s'.offset
  | _, _ => false

/-- The nodes of the head of an application. With more than one argument the head of the whole is an
    inner node, which starts at the opening bracket as the whole does. It is no phrase of its own,
    and is left out. -/
def Node.ofHead (whole head : Mark) (nodes : List Node) : List Node :=
  if whole.sameStart head then nodes.tail else nodes

/-- The nodes of a kind. -/
def Kind.nodes : Kind → List Node
  | .type m => [⟨.kind, Kind.type m⟩]
  | .arrow m domain codomain =>
    ⟨.kind, Kind.arrow m domain codomain⟩ :: (domain.nodes ++ codomain.nodes)

mutual

/-- The nodes of a type, those of the kind of a binder included. -/
def Ty.nodes : Ty → List Node
  | .lam m x k body => ⟨.type, Ty.lam m x k body⟩ :: (k.nodes ++ body.nodes)
  | .all m x k body => ⟨.type, Ty.all m x k body⟩ :: (k.nodes ++ body.nodes)
  | .ifix m pattern arg => ⟨.type, Ty.ifix m pattern arg⟩ :: (pattern.nodes ++ arg.nodes)
  | .app m f arg =>
    ⟨.type, Ty.app m f arg⟩ :: (Node.ofHead m f.mark f.nodes ++ arg.nodes)
  | .fn m domain codomain => ⟨.type, Ty.fn m domain codomain⟩ :: (domain.nodes ++ codomain.nodes)
  | .var m x => [⟨.type, Ty.var m x⟩]
  | .builtin m b => [⟨.type, Ty.builtin m b⟩]
  | .prod m items => ⟨.type, Ty.prod m items⟩ :: Ty.allNodes items

/-- The nodes of types in a row. -/
def Ty.allNodes : List Ty → List Node
  | [] => []
  | t :: ts => t.nodes ++ Ty.allNodes ts

end

mutual

/-- The nodes of a term, those of its types and kinds included. -/
def Term.nodes : Term → List Node
  | .lam m x type body => ⟨.term, Term.lam m x type body⟩ :: (type.nodes ++ body.nodes)
  | .abs m x k body => ⟨.term, Term.abs m x k body⟩ :: (k.nodes ++ body.nodes)
  | .iwrap m pattern arg t =>
    ⟨.term, Term.iwrap m pattern arg t⟩ :: (pattern.nodes ++ (arg.nodes ++ t.nodes))
  | .unwrap m t => ⟨.term, Term.unwrap m t⟩ :: t.nodes
  | .apply m f arg =>
    ⟨.term, Term.apply m f arg⟩ :: (Node.ofHead m f.mark f.nodes ++ arg.nodes)
  | .inst m t type =>
    ⟨.term, Term.inst m t type⟩ :: (Node.ofHead m t.mark t.nodes ++ type.nodes)
  | .error m type => ⟨.term, Term.error m type⟩ :: type.nodes
  | .var m x => [⟨.term, Term.var m x⟩]
  | .constant m c => [⟨.term, Term.constant m c⟩]
  | .builtin m b => [⟨.term, Term.builtin m b⟩]
  | .prod m items => ⟨.term, Term.prod m items⟩ :: Term.allNodes items
  | .proj m index t => ⟨.term, Term.proj m index t⟩ :: t.nodes

/-- The nodes of terms in a row. -/
def Term.allNodes : List Term → List Node
  | [] => []
  | t :: ts => t.nodes ++ Term.allNodes ts

end

@[simp] theorem Ty.allNodes_eq_flatMap (ts : List Ty) : Ty.allNodes ts = ts.flatMap Ty.nodes := by
  induction ts with
  | nil => rfl
  | cons t ts ih => rw [Ty.allNodes, ih, List.flatMap_cons]

@[simp] theorem Term.allNodes_eq_flatMap (ts : List Term) :
    Term.allNodes ts = ts.flatMap Term.nodes := by
  induction ts with
  | nil => rfl
  | cons t ts ih => rw [Term.allNodes, ih, List.flatMap_cons]

theorem Node.mem_of_mem_ofHead {whole head : Mark} {ns : List Node} {n : Node}
    (h : n ∈ ofHead whole head ns) : n ∈ ns := by
  unfold ofHead at h
  split at h
  · exact List.mem_of_mem_tail h
  · exact h

theorem Mark.sameStart_congr {s s' : Span} (h : s.offset = s'.offset) (m : Mark) :
    (position s).sameStart m = (position s').sameStart m := by
  cases m <;> simp only [sameStart, h]

/-- What holds of the root of a nest and of the nodes of its head and its arguments holds of all its
    nodes: the inner nodes are left out. -/
theorem Grammar.forall_mem_nodes_nestLeft {α β : Type} {node : Mark → α → β → α} {mark : β → Mark}
    (root : α → Mark) (asNode : α → Node) {nodes : α → List Node} {argNodes : β → List Node}
    (hroot : ∀ m a b, root (node m a b) = m)
    (hnodes : ∀ m a b, nodes (node m a b) =
      asNode (node m a b) :: (Node.ofHead m (root a) (nodes a) ++ argNodes b))
    {P : Node → Prop} {whole : Span} {head : α} {args : List β} (hne : args ≠ [])
    (hwhole : P (asNode (nestLeft node mark whole head args)))
    (hhead : ∀ n ∈ Node.ofHead (.position whole) (root head) (nodes head), P n)
    (hargs : ∀ b ∈ args, ∀ n ∈ argNodes b, P n) :
    ∀ n ∈ nodes (nestLeft node mark whole head args), P n := by
  fun_induction nestLeft node mark whole head args with
  | case1 => exact absurd rfl hne
  | case2 head arg =>
    rw [hnodes]
    exact List.forall_mem_cons.mpr
      ⟨hwhole, List.forall_mem_append.mpr ⟨hhead, hargs arg List.mem_cons_self⟩⟩
  | case3 head arg args hmore opening span ih =>
    refine ih hmore hwhole ?_ fun b hb => hargs b (List.mem_cons_of_mem arg hb)
    have hinner : (Mark.position whole).sameStart (.position span) = true := beq_self_eq_true _
    have hsame : Node.ofHead (.position span) (root head) (nodes head) =
        Node.ofHead (.position whole) (root head) (nodes head) := by
      have hstart : span.offset = whole.offset := rfl
      simp only [Node.ofHead, Mark.sameStart_congr hstart]
    rw [hroot, hnodes, hsame, Node.ofHead, if_pos hinner, List.tail_cons]
    exact List.forall_mem_append.mpr ⟨hhead, hargs arg List.mem_cons_self⟩

/-! ## Every node is read off a derivation of its own -/

theorem Outline.Marks.label_eq {l : Layout} {marks : Outline Mark} {phrase : Outline (List Token)}
    {ts : List Token} (h : Marks l marks phrase) (hlabel : phrase.label = ts)
    (hts : ts.Sublist l.tokens) : marks.label = positioned ts := by
  rw [← hlabel] at hts ⊢
  rw [h hts, label_map]

theorem Kind.mark_eq_label (k : Kind) : k.mark = k.outline.label := by
  cases k <;> rfl

namespace Phrase

/-- The mark at the root of an answer. A constant has none. -/
def mark : (p : Phrase) → p.Answer → Mark
  | program => Program.mark
  | term => Term.mark
  | type => Ty.mark
  | kind => Kind.mark
  | constant => fun _ => .absent

/-- The nodes of an answer that are terms, types and kinds. -/
def nodes : (p : Phrase) → p.Answer → List Node
  | program => fun a => Term.nodes a.term
  | term => Term.nodes
  | type => Ty.nodes
  | kind => Kind.nodes
  | constant => fun _ => []

/-- The answer that is read off a derivation. -/
def read : (p : Phrase) → p.Derivation → StateM Interner p.Answer
  | program => ProgramDerivation.read
  | term => TermDerivation.read
  | type => TypeDerivation.read
  | kind => fun d i => (KindDerivation.tree d, i)
  | constant => fun d i => (ConstantDerivation.ast d, i)

/-- With enough room, the rule of a sort answers with what is read off a derivation. -/
theorem rule_eq_read {p : Phrase} (d : p.Derivation) {room : Nat} (hroom : p.depth d ≤ room)
    (c : Context) (rest : List Token) (hint : Option ParseError) (i : Interner) :
    p.rule room c ⟨p.tokens d ++ rest, hint, i⟩ =
      .ok (p.read d i).1 ⟨rest, none, (p.read d i).2⟩ := by
  cases p with
  | program => exact program_read c rest hint i d hroom
  | term => exact term_read c rest hint i d hroom
  | type => exact type_read c rest hint i d hroom
  | kind => exact kind_read c rest hint i d hroom
  | constant => exact constant_read c rest hint i d hroom

theorem names_read {p : Phrase} (d : p.Derivation) (i : Interner) :
    p.names (p.read d i).1 = (Interner.nameAll ((p.nameTokens d).map Token.text) i).1 := by
  cases p with
  | program => exact congrArg Prod.fst (TermDerivation.names_read d.term i)
  | term => exact congrArg Prod.fst (TermDerivation.names_read d i)
  | type => exact congrArg Prod.fst (TypeDerivation.names_read d i)
  | kind => rfl
  | constant => rfl

/-- The root of what is read off a derivation is marked with the span of all its tokens. -/
theorem mark_read {p : Phrase} (hp : p ≠ constant) (d : p.Derivation) (i : Interner) {l : Layout}
    (h : (p.tokens d).Sublist l.tokens) : p.mark (p.read d i).1 = positioned (p.tokens d) := by
  cases p with
  | program => exact (ProgramDerivation.read_marks d i).label_eq rfl h
  | term =>
    have hroot := (TermDerivation.read_marks d i).label_eq (TermDerivation.label_phrases d) h
    exact (Term.mark_eq_label _).trans hroot
  | type =>
    have hroot := (TypeDerivation.read_marks d i).label_eq (TypeDerivation.label_phrases d) h
    exact (Ty.mark_eq_label _).trans hroot
  | kind =>
    have hroot := (KindDerivation.tree_marks d).label_eq (KindDerivation.label_phrases d) h
    exact (Kind.mark_eq_label _).trans hroot
  | constant => exact absurd rfl hp

end Phrase

namespace Interner

variable {first : Nat} {i : Interner}

/-- An interner that has numbered what it has seen from `first` on. -/
def Numbers (first : Nat) (i : Interner) : Prop :=
  ∃ texts, i = seen first texts

theorem Numbers.nameAll (h : i.Numbers first) (texts : List String) :
    (nameAll texts i).2.Numbers first := by
  obtain ⟨before, rfl⟩ := h
  rw [nameAll_seen]
  exact ⟨_, rfl⟩

theorem Numbers.intern (h : i.Numbers first) (text : String) : (i.intern text).2.Numbers first := by
  obtain ⟨before, rfl⟩ := h
  rw [intern_seen]
  exact ⟨_, rfl⟩

theorem Numbers.type (h : i.Numbers first) (d : TypeDerivation) : (d.read i).2.Numbers first := by
  have hnumbers := h.nameAll (d.nameTokens.map Token.text)
  rw [← d.names_read] at hnumbers
  exact hnumbers

theorem Numbers.term (h : i.Numbers first) (d : TermDerivation) : (d.read i).2.Numbers first := by
  have hnumbers := h.nameAll (d.nameTokens.map Token.text)
  rw [← d.names_read] at hnumbers
  exact hnumbers

end Interner

open Interner (Numbers)

/-- A node that is read off a derivation of its own, with names numbered from `first` on. The tokens
    of the derivation are some of the given ones in a row, and it opens no more than the given
    levels. -/
def Node.ReadOff (first : Nat) (ts : List Token) (levels : Nat) (n : Node) : Prop :=
  n.phrase ≠ .constant ∧ ∃ d i, Numbers first i ∧ n.tree = (n.phrase.read d i).1 ∧
    n.phrase.tokens d <:+: ts ∧ n.phrase.depth d ≤ levels

section

variable {first : Nat} {i : Interner} {ts us : List Token} {k l : Nat} {ns : List Node}

theorem Node.ReadOff.self {p : Phrase} (hp : p ≠ .constant) (d : p.Derivation)
    (hi : Numbers first i) : ReadOff first (p.tokens d) (p.depth d) ⟨p, (p.read d i).1⟩ :=
  ⟨hp, d, i, hi, rfl, List.infix_rfl, Nat.le_refl _⟩

/-- What is read off a part of some tokens is read off a part of more tokens. -/
theorem Node.ReadOff.within (h : ∀ n ∈ ns, ReadOff first ts k n) (hts : ts <:+: us) (hk : k ≤ l) :
    ∀ n ∈ ns, ReadOff first us l n := by
  intro n hn
  obtain ⟨hp, d, i, hi, htree, htokens, hdepth⟩ := h n hn
  exact ⟨hp, d, i, hi, htree, htokens.trans hts, Nat.le_trans hdepth hk⟩

/-- A head and its arguments between brackets. The inner nodes are left out, so what remains is the
    whole, and the nodes of the head and of the arguments. -/
theorem Node.ReadOff.nestLeft {α β : Type} {node : Mark → α → β → α} {mark : β → Mark}
    (root : α → Mark) (asNode : α → Node) {nodes : α → List Node} {argNodes : β → List Node}
    (hroot : ∀ m a b, root (node m a b) = m)
    (hnodes : ∀ m a b, nodes (node m a b) =
      asNode (node m a b) :: (ofHead m (root a) (nodes a) ++ argNodes b))
    {opening closing : Token} {rs : List Token} {r : Nat} {whole : Span} {head : α} {arg : β}
    {args : List β}
    (hwhole : ReadOff first (opening :: (ts ++ us ++ rs ++ [closing])) (max k (max l r) + 1)
      (asNode (Grammar.nestLeft node mark whole head (arg :: args))))
    (hhead : ∀ n ∈ nodes head, ReadOff first ts k n)
    (harg : ∀ n ∈ argNodes arg, ReadOff first us l n)
    (hargs : ∀ b ∈ args, ∀ n ∈ argNodes b, ReadOff first rs r n) :
    ∀ n ∈ nodes (Grammar.nestLeft node mark whole head (arg :: args)),
      ReadOff first (opening :: (ts ++ us ++ rs ++ [closing])) (max k (max l r) + 1) n := by
  refine forall_mem_nodes_nestLeft root asNode hroot hnodes (List.cons_ne_nil _ _) hwhole
    (fun n hn => ?_) (List.forall_mem_cons.mpr ⟨?_, fun b hb => ?_⟩)
  · exact within hhead ⟨[opening], us ++ rs ++ [closing], by simp⟩ (by omega) n
      (mem_of_mem_ofHead hn)
  · exact within harg ⟨opening :: ts, rs ++ [closing], by simp⟩ (by omega)
  · exact within (hargs b hb) ⟨opening :: (ts ++ us), [closing], by simp⟩ (by omega)

theorem KindDerivation.readOff (d : KindDerivation) (hi : Numbers first i) :
    Node.ReadOff first d.tokens d.depth ⟨.kind, d.tree⟩ :=
  .self (p := .kind) nofun d hi

theorem TypeDerivation.readOff (d : TypeDerivation) (hi : Numbers first i) :
    Node.ReadOff first d.tokens d.depth ⟨.type, (d.read i).1⟩ :=
  .self (p := .type) nofun d hi

theorem TermDerivation.readOff (d : TermDerivation) (hi : Numbers first i) :
    Node.ReadOff first d.tokens d.depth ⟨.term, (d.read i).1⟩ :=
  .self (p := .term) nofun d hi

theorem KindDerivation.nodes_readOff (d : KindDerivation) (hi : Numbers first i) :
    ∀ n ∈ d.tree.nodes, n.ReadOff first d.tokens d.depth := by
  induction d with
  | type o w c => exact List.forall_mem_singleton.mpr (readOff _ hi)
  | arrow o w d e c ihd ihe =>
    refine List.forall_mem_cons.mpr ⟨readOff _ hi, List.forall_mem_append.mpr ⟨?_, ?_⟩⟩
    · exact .within ihd ⟨[o.token, w.token], e.tokens ++ [c.token], by simp [tokens]⟩
        (Nat.le_succ_of_le (Nat.le_max_left _ _))
    · exact .within ihe ⟨o.token :: w.token :: d.tokens, [c.token], by simp [tokens]⟩
        (Nat.le_succ_of_le (Nat.le_max_right _ _))

theorem TypeDerivation.readAll_readOff {ds : List TypeDerivation}
    (h : ∀ d ∈ ds, ∀ {i}, Numbers first i → ∀ n ∈ (d.read i).1.nodes,
      n.ReadOff first d.tokens d.depth) (hi : Numbers first i) :
    ∀ t ∈ (readAll ds i).1, ∀ n ∈ t.nodes, n.ReadOff first (allTokens ds) (maxDepth ds) := by
  induction ds generalizing i with
  | nil => exact List.forall_mem_nil _
  | cons d ds ih =>
    obtain ⟨hhead, htail⟩ := List.forall_mem_cons.mp h
    refine List.forall_mem_cons.mpr ⟨?_, fun t ht => ?_⟩
    · exact .within (hhead hi) (List.prefix_append _ _).isInfix (Nat.le_max_left _ _)
    · exact .within (ih htail (hi.type d) t ht) (List.suffix_append _ _).isInfix
        (Nat.le_max_right _ _)

theorem TypeDerivation.nodes_readOff (d : TypeDerivation) (hi : Numbers first i) :
    ∀ n ∈ (d.read i).1.nodes, n.ReadOff first d.tokens d.depth := by
  induction d generalizing i with
  | var x => exact List.forall_mem_singleton.mpr (readOff _ hi)
  | lam o w x k d c ih | all o w x k d c ih =>
    refine List.forall_mem_cons.mpr ⟨readOff _ hi, List.forall_mem_append.mpr ⟨?_, ?_⟩⟩
    · exact .within (k.nodes_readOff hi)
        ⟨[o.token, w.token, x.token], d.tokens ++ [c.token], by simp [tokens]⟩
        (Nat.le_succ_of_le (Nat.le_max_left _ _))
    · exact .within (ih (hi.intern _))
        ⟨o.token :: w.token :: x.token :: k.tokens, [c.token], by simp [tokens]⟩
        (Nat.le_succ_of_le (Nat.le_max_right _ _))
  | ifix o w d e c ihd ihe | fn o w d e c ihd ihe =>
    refine List.forall_mem_cons.mpr ⟨readOff _ hi, List.forall_mem_append.mpr ⟨?_, ?_⟩⟩
    · exact .within (ihd hi) ⟨[o.token, w.token], e.tokens ++ [c.token], by simp [tokens]⟩
        (Nat.le_succ_of_le (Nat.le_max_left _ _))
    · exact .within (ihe (hi.type d)) ⟨o.token :: w.token :: d.tokens, [c.token], by simp [tokens]⟩
        (Nat.le_succ_of_le (Nat.le_max_right _ _))
  | con o w b c => exact List.forall_mem_singleton.mpr (readOff _ hi)
  | prod o w ds c ih =>
    refine List.forall_mem_cons.mpr ⟨readOff _ hi, ?_⟩
    rw [Ty.allNodes_eq_flatMap, List.forall_mem_flatMap]
    exact fun t ht => .within (readAll_readOff ih hi t ht) ⟨[o.token, w.token], [c.token], rfl⟩
      (Nat.le_succ_of_le (Nat.le_max_right _ _))
  | app o d e es c ihd ihe ihes =>
    exact .nestLeft Ty.mark (⟨.type, ·⟩) (fun _ _ _ => rfl) (fun _ _ _ => rfl)
      (readOff (app o d e es c) hi) (ihd hi) (ihe (hi.type d))
      (readAll_readOff ihes ((hi.type d).type e))

theorem TermDerivation.readAll_readOff {ds : List TermDerivation}
    (h : ∀ d ∈ ds, ∀ {i}, Numbers first i → ∀ n ∈ (d.read i).1.nodes,
      n.ReadOff first d.tokens d.depth) (hi : Numbers first i) :
    ∀ t ∈ (readAll ds i).1, ∀ n ∈ t.nodes, n.ReadOff first (allTokens ds) (maxDepth ds) := by
  induction ds generalizing i with
  | nil => exact List.forall_mem_nil _
  | cons d ds ih =>
    obtain ⟨hhead, htail⟩ := List.forall_mem_cons.mp h
    refine List.forall_mem_cons.mpr ⟨?_, fun t ht => ?_⟩
    · exact .within (hhead hi) (List.prefix_append _ _).isInfix (Nat.le_max_left _ _)
    · exact .within (ih htail (hi.term d) t ht) (List.suffix_append _ _).isInfix
        (Nat.le_max_right _ _)

theorem TermDerivation.nodes_readOff (d : TermDerivation) (hi : Numbers first i) :
    ∀ n ∈ (d.read i).1.nodes, n.ReadOff first d.tokens d.depth := by
  induction d generalizing i with
  | var x => exact List.forall_mem_singleton.mpr (readOff _ hi)
  | lam o w x t d c ih =>
    refine List.forall_mem_cons.mpr ⟨readOff _ hi, List.forall_mem_append.mpr ⟨?_, ?_⟩⟩
    · exact .within (t.nodes_readOff (hi.intern _))
        ⟨[o.token, w.token, x.token], d.tokens ++ [c.token], by simp [tokens]⟩
        (by rw [depth]; omega)
    · exact .within (ih ((hi.intern _).type t))
        ⟨o.token :: w.token :: x.token :: t.tokens, [c.token], by simp [tokens]⟩
        (by rw [depth]; omega)
  | abs o w x k d c ih =>
    refine List.forall_mem_cons.mpr ⟨readOff _ hi, List.forall_mem_append.mpr ⟨?_, ?_⟩⟩
    · exact .within (k.nodes_readOff hi)
        ⟨[o.token, w.token, x.token], d.tokens ++ [c.token], by simp [tokens]⟩
        (by rw [depth]; omega)
    · exact .within (ih (hi.intern _))
        ⟨o.token :: w.token :: x.token :: k.tokens, [c.token], by simp [tokens]⟩
        (by rw [depth]; omega)
  | iwrap o w t u d c ih =>
    refine List.forall_mem_cons.mpr ⟨readOff _ hi, List.forall_mem_append.mpr
      ⟨?_, List.forall_mem_append.mpr ⟨?_, ?_⟩⟩⟩
    · exact .within (t.nodes_readOff hi)
        ⟨[o.token, w.token], u.tokens ++ d.tokens ++ [c.token], by simp [tokens]⟩
        (by rw [depth]; omega)
    · exact .within (u.nodes_readOff (hi.type t))
        ⟨o.token :: w.token :: t.tokens, d.tokens ++ [c.token], by simp [tokens]⟩
        (by rw [depth]; omega)
    · exact .within (ih ((hi.type t).type u))
        ⟨o.token :: w.token :: (t.tokens ++ u.tokens), [c.token], by simp [tokens]⟩
        (by rw [depth]; omega)
  | unwrap o w d c ih =>
    refine List.forall_mem_cons.mpr ⟨readOff _ hi, ?_⟩
    exact .within (ih hi) ⟨[o.token, w.token], [c.token], rfl⟩ (Nat.le_succ _)
  | error o w t c =>
    refine List.forall_mem_cons.mpr ⟨readOff _ hi, ?_⟩
    exact .within (t.nodes_readOff hi) ⟨[o.token, w.token], [c.token], rfl⟩ (Nat.le_succ _)
  | con o w k c => exact List.forall_mem_singleton.mpr (readOff _ hi)
  | builtin o w b c => exact List.forall_mem_singleton.mpr (readOff _ hi)
  | prod o w ds c ih =>
    refine List.forall_mem_cons.mpr ⟨readOff _ hi, ?_⟩
    rw [Term.allNodes_eq_flatMap, List.forall_mem_flatMap]
    exact fun t ht => .within (readAll_readOff ih hi t ht)
      ⟨[o.token, w.token], [c.token], rfl⟩ (by rw [depth]; omega)
  | proj o w n d c ih =>
    refine List.forall_mem_cons.mpr ⟨readOff _ hi, ?_⟩
    exact .within (ih hi) ⟨[o.token, w.token, n.token], [c.token], rfl⟩ (Nat.le_succ _)
  | apply o d e es c ihd ihe ihes =>
    exact .nestLeft Term.mark (⟨.term, ·⟩) (fun _ _ _ => rfl) (fun _ _ _ => rfl)
      (readOff (apply o d e es c) hi) (ihd hi) (ihe (hi.term d))
      (readAll_readOff ihes ((hi.term d).term e))
  | inst o d t ts c ih =>
    have hargs := TypeDerivation.readAll_readOff (fun u (_ : u ∈ ts) => u.nodes_readOff)
      ((hi.term d).type t)
    exact .nestLeft Term.mark (⟨.term, ·⟩) (fun _ _ _ => rfl) (fun _ _ _ => rfl)
      (readOff (inst o d t ts c) hi) (ih hi) (t.nodes_readOff (hi.term d)) hargs

end

theorem Phrase.nodes_readOff {p : Phrase} (d : p.Derivation) {first : Nat} {i : Interner}
    (hi : Numbers first i) :
    ∀ n ∈ p.nodes (p.read d i).1, n.ReadOff first (p.tokens d) (p.depth d) := by
  cases p with
  | program =>
    exact .within (d.term.nodes_readOff hi) ⟨d.opening.token :: d.word.token :: d.version.tokens,
      [d.closing.token], by simp [Phrase.tokens, ProgramDerivation.tokens]⟩ (Nat.le_refl _)
  | term => exact TermDerivation.nodes_readOff d hi
  | type => exact TypeDerivation.nodes_readOff d hi
  | kind => exact KindDerivation.nodes_readOff d hi
  | constant => exact List.forall_mem_nil _

end FOmega
