import FOmega.Parse
import FOmega.Proofs.Recognition

/-!
# Whole token lists and the sentences of the grammar

A derivation is never deeper than it is long, so a limit on nesting that is at least the number of
tokens never bites. The tree that is read off a derivation has the syntax tree of the derivation as
its skeleton. With these two facts the reading of derivations and the derivation of what is read
meet: a rule that is followed by the end of the input succeeds exactly on the sentences, and answers
with the one syntax tree that the sentence has.
-/

namespace FOmega

open Terminal FOmega.Parser Grammar

/-! ## Depth and length -/

theorem ConstantDerivation.depth_le_length (d : ConstantDerivation) :
    d.depth ≤ d.tokens.length := by
  induction d with
  | literal l => exact Nat.le_refl 1
  | parens o d c ih =>
    simp only [depth, tokens, List.length_cons, List.length_append, List.length_nil]
    omega

theorem KindDerivation.depth_le_length (d : KindDerivation) : d.depth ≤ d.tokens.length := by
  induction d with
  | type o w c => simp [depth, tokens]
  | arrow o w d e c ihd ihe =>
    simp only [depth, tokens, List.length_cons, List.length_append, List.length_nil]
    omega

/-- Each list that is joined into a longer one is no longer than that. -/
theorem length_le_length_flatMap {α β : Type} {f : α → List β} {l : List α} {a : α} (h : a ∈ l) :
    (f a).length ≤ (l.flatMap f).length := by
  rw [List.flatMap_def]
  exact (List.sublist_flatten_of_mem (List.mem_map_of_mem h)).length_le

theorem TypeDerivation.maxDepth_le_length {ds : List TypeDerivation}
    (h : ∀ d ∈ ds, d.depth ≤ d.tokens.length) : maxDepth ds ≤ (allTokens ds).length := by
  rw [maxDepth_le_iff, allTokens_eq_flatMap]
  intro d hd
  exact Nat.le_trans (h d hd) (length_le_length_flatMap hd)

theorem TypeDerivation.depth_le_length (d : TypeDerivation) : d.depth ≤ d.tokens.length := by
  induction d with
  | var x => exact Nat.le_refl 1
  | lam o w x k d c ih | all o w x k d c ih =>
    have hk := k.depth_le_length
    simp only [depth, tokens, List.length_cons, List.length_append, List.length_nil]
    omega
  | ifix o w d e c ihd ihe | fn o w d e c ihd ihe =>
    simp only [depth, tokens, List.length_cons, List.length_append, List.length_nil]
    omega
  | con o w b c => simp [depth, tokens]
  | prod o w ds c ih =>
    have hds := maxDepth_le_length ih
    simp only [depth, tokens, List.length_cons, List.length_append, List.length_nil]
    omega
  | app o d e es c ihd ihe ihes =>
    have hes := maxDepth_le_length ihes
    simp only [depth, tokens, List.length_cons, List.length_append, List.length_nil]
    omega

theorem TermDerivation.maxDepth_le_length {ds : List TermDerivation}
    (h : ∀ d ∈ ds, d.depth ≤ d.tokens.length) : maxDepth ds ≤ (allTokens ds).length := by
  rw [maxDepth_le_iff, allTokens_eq_flatMap]
  intro d hd
  exact Nat.le_trans (h d hd) (length_le_length_flatMap hd)

theorem TermDerivation.depth_le_length (d : TermDerivation) : d.depth ≤ d.tokens.length := by
  induction d with
  | var x => exact Nat.le_refl 1
  | lam o w x t d c ih =>
    have ht := t.depth_le_length
    simp only [depth, tokens, List.length_cons, List.length_append, List.length_nil]
    omega
  | abs o w x k d c ih =>
    have hk := k.depth_le_length
    simp only [depth, tokens, List.length_cons, List.length_append, List.length_nil]
    omega
  | iwrap o w t u d c ih =>
    have ht := t.depth_le_length
    have hu := u.depth_le_length
    simp only [depth, tokens, List.length_cons, List.length_append, List.length_nil]
    omega
  | unwrap o w d c ih | proj o w n d c ih =>
    simp only [depth, tokens, List.length_cons, List.length_append, List.length_nil]
    omega
  | error o w t c =>
    have ht := t.depth_le_length
    simp only [depth, tokens, List.length_cons, List.length_append, List.length_nil]
    omega
  | con o w k c =>
    have hk := k.depth_le_length
    simp only [depth, tokens, List.length_cons, List.length_append, List.length_nil]
    omega
  | builtin o w b c => simp [depth, tokens]
  | prod o w ds c ih =>
    have hds := maxDepth_le_length ih
    simp only [depth, tokens, List.length_cons, List.length_append, List.length_nil]
    omega
  | apply o d e es c ihd ihe ihes =>
    have hes := maxDepth_le_length ihes
    simp only [depth, tokens, List.length_cons, List.length_append, List.length_nil]
    omega
  | inst o d t ts c ih =>
    have ht := t.depth_le_length
    have hts := TypeDerivation.maxDepth_le_length fun t (_ : t ∈ ts) => t.depth_le_length
    simp only [depth, tokens, List.length_cons, List.length_append, List.length_nil]
    omega

theorem ProgramDerivation.depth_le_length (d : ProgramDerivation) : d.depth ≤ d.tokens.length := by
  have hterm := d.term.depth_le_length
  simp only [depth, tokens, List.length_cons, List.length_append, List.length_nil]
  omega

/-! ## Skeletons of what is read -/

/-- What a function that maps nodes to nodes makes of a nest is the fold of what it makes of the head
    and of the arguments. -/
theorem Grammar.nestLeft_foldl {α α' β β' : Type} {node : Mark → α → β → α} {node' : α' → β' → α'}
    {f : α → α'} {g : β → β'} (hnode : ∀ m a b, f (node m a b) = node' (f a) (g b))
    (mark : β → Mark) (whole : Span) (head : α) (args : List β) :
    f (nestLeft node mark whole head args) = (args.map g).foldl node' (f head) := by
  fun_induction nestLeft node mark whole head args with
  | case1 head => rfl
  | case2 head arg => exact hnode _ head arg
  | case3 head arg args hne opening span ih => rw [ih, hnode, List.map_cons, List.foldl_cons]

theorem KindDerivation.skeleton_tree (d : KindDerivation) : d.tree.skeleton = d.ast := by
  induction d with
  | type o w c => rfl
  | arrow o w d e c ihd ihe => rw [tree, Kind.skeleton, ihd, ihe, ast]

theorem TypeDerivation.skeletons_readAll {ds : List TypeDerivation}
    (h : ∀ d ∈ ds, ∀ i, (d.read i).1.skeleton = d.ast) (i : Interner) :
    (readAll ds i).1.map Ty.skeleton = asts ds := by
  induction ds generalizing i with
  | nil => rfl
  | cons d ds ih =>
    have hd := h d List.mem_cons_self i
    have hds := ih (fun e he => h e (List.mem_cons_of_mem d he)) (d.read i).2
    rw [asts, ← hd, ← hds]
    rfl

theorem TypeDerivation.skeleton_read (d : TypeDerivation) (i : Interner) :
    (d.read i).1.skeleton = d.ast := by
  induction d generalizing i with
  | var x => rfl
  | lam o w x k d c ih | all o w x k d c ih =>
    rw [ast, ← ih (x.read i).2, ← k.skeleton_tree]
    rfl
  | ifix o w d e c ihd ihe | fn o w d e c ihd ihe =>
    rw [ast, ← ihd i, ← ihe (d.read i).2]
    rfl
  | con o w b c => rfl
  | prod o w ds c ih =>
    rw [ast, ← skeletons_readAll ih i, ← Ty.skeletons_eq_map]
    rfl
  | app o d e es c ihd ihe ihes =>
    rw [ast, ← ihd i, ← ihe (d.read i).2, ← skeletons_readAll ihes (e.read (d.read i).2).2]
    exact nestLeft_foldl (fun _ _ _ => rfl) Ty.mark (bracketSpan o c) _
      ((e.read (d.read i).2).1 :: _)

theorem TermDerivation.skeletons_readAll {ds : List TermDerivation}
    (h : ∀ d ∈ ds, ∀ i, (d.read i).1.skeleton = d.ast) (i : Interner) :
    (readAll ds i).1.map Term.skeleton = asts ds := by
  induction ds generalizing i with
  | nil => rfl
  | cons d ds ih =>
    have hd := h d List.mem_cons_self i
    have hds := ih (fun e he => h e (List.mem_cons_of_mem d he)) (d.read i).2
    rw [asts, ← hd, ← hds]
    rfl

theorem TermDerivation.skeleton_read (d : TermDerivation) (i : Interner) :
    (d.read i).1.skeleton = d.ast := by
  induction d generalizing i with
  | var x => rfl
  | lam o w x t d c ih =>
    rw [ast, ← t.skeleton_read (x.read i).2, ← ih (t.read (x.read i).2).2]
    rfl
  | abs o w x k d c ih =>
    rw [ast, ← ih (x.read i).2, ← k.skeleton_tree]
    rfl
  | iwrap o w t u d c ih =>
    rw [ast, ← t.skeleton_read i, ← u.skeleton_read (t.read i).2, ← ih (u.read (t.read i).2).2]
    rfl
  | unwrap o w d c ih | proj o w n d c ih =>
    rw [ast, ← ih i]
    rfl
  | error o w t c =>
    rw [ast, ← t.skeleton_read i]
    rfl
  | con o w k c => rfl
  | builtin o w b c => rfl
  | prod o w ds c ih =>
    rw [ast, ← skeletons_readAll ih i, ← Term.skeletons_eq_map]
    rfl
  | apply o d e es c ihd ihe ihes =>
    rw [ast, ← ihd i, ← ihe (d.read i).2, ← skeletons_readAll ihes (e.read (d.read i).2).2]
    exact nestLeft_foldl (fun _ _ _ => rfl) Term.mark (bracketSpan o c) _
      ((e.read (d.read i).2).1 :: _)
  | inst o d t ts c ih =>
    rw [ast, ← ih i, ← t.skeleton_read (d.read i).2,
      ← TypeDerivation.skeletons_readAll (fun t _ => t.skeleton_read) (t.read (d.read i).2).2]
    exact nestLeft_foldl (fun _ _ _ => rfl) Ty.mark (bracketSpan o c) _
      ((t.read (d.read i).2).1 :: _)

theorem ProgramDerivation.skeleton_read (d : ProgramDerivation) (i : Interner) :
    (d.read i).1.skeleton = d.ast := by
  rw [ast, ← d.term.skeleton_read i]
  rfl

/-! ## The sorts of phrase -/

/-- The sorts of phrase that a source can be read as. -/
inductive Phrase where
  | program
  | term
  | type
  | kind
  | constant

namespace Phrase

/-- What the rule of a sort answers with. -/
def Answer : Phrase → Type
  | program => Program
  | term => Term
  | type => Ty
  | kind => Kind
  | constant => Constant

/-- The rule of a sort, which may open as many levels as it is told. -/
def rule : (p : Phrase) → Nat → Parser p.Answer
  | program => Grammar.program
  | term => Grammar.term
  | type => Grammar.type
  | kind => Grammar.kind
  | constant => Grammar.constant

/-- An answer without marks and uniques. -/
def skeleton : (p : Phrase) → p.Answer → p.Answer
  | program => Program.skeleton
  | term => Term.skeleton
  | type => Ty.skeleton
  | kind => Kind.skeleton
  | constant => id

/-- The derivations of a sort. -/
def Derivation : Phrase → Type
  | program => ProgramDerivation
  | term => TermDerivation
  | type => TypeDerivation
  | kind => KindDerivation
  | constant => ConstantDerivation

/-- The tokens of a derivation. -/
def tokens : (p : Phrase) → p.Derivation → List Token
  | program => ProgramDerivation.tokens
  | term => TermDerivation.tokens
  | type => TypeDerivation.tokens
  | kind => KindDerivation.tokens
  | constant => ConstantDerivation.tokens

/-- The syntax tree of a derivation. -/
def ast : (p : Phrase) → p.Derivation → p.Answer
  | program => ProgramDerivation.ast
  | term => TermDerivation.ast
  | type => TypeDerivation.ast
  | kind => KindDerivation.ast
  | constant => ConstantDerivation.ast

/-- The number of levels that a derivation opens. -/
def depth : (p : Phrase) → p.Derivation → Nat
  | program => ProgramDerivation.depth
  | term => TermDerivation.depth
  | type => TypeDerivation.depth
  | kind => KindDerivation.depth
  | constant => ConstantDerivation.depth

variable {p : Phrase}

theorem depth_le_length (d : p.Derivation) : p.depth d ≤ (p.tokens d).length := by
  cases p with
  | program => exact ProgramDerivation.depth_le_length d
  | term => exact TermDerivation.depth_le_length d
  | type => exact TypeDerivation.depth_le_length d
  | kind => exact KindDerivation.depth_le_length d
  | constant => exact ConstantDerivation.depth_le_length d

/-- With enough room, the rule of a sort reads each of its derivations and answers with the syntax
    tree. -/
theorem rule_read (d : p.Derivation) {room : Nat} (hroom : p.depth d ≤ room) (c : Context)
    (rest : List Token) (hint : Option ParseError) (i : Interner) :
    ∃ a i', p.rule room c ⟨p.tokens d ++ rest, hint, i⟩ = .ok a ⟨rest, none, i'⟩ ∧
      p.skeleton a = p.ast d := by
  cases p with
  | program =>
    exact ⟨_, _, program_read c rest hint i d hroom, ProgramDerivation.skeleton_read d i⟩
  | term => exact ⟨_, _, term_read c rest hint i d hroom, TermDerivation.skeleton_read d i⟩
  | type => exact ⟨_, _, type_read c rest hint i d hroom, TypeDerivation.skeleton_read d i⟩
  | kind => exact ⟨_, _, kind_read c rest hint i d hroom, KindDerivation.skeleton_tree d⟩
  | constant => exact ⟨_, _, constant_read c rest hint i d hroom, rfl⟩

/-- Whatever the rule of a sort accepts is derived, within the room it had. -/
theorem rule_derives {room : Nat} {c : Context} {s s' : State} {a : p.Answer}
    (h : p.rule room c s = .ok a s') :
    ∃ d : p.Derivation, p.depth d ≤ room ∧ s.rest = p.tokens d ++ s'.rest := by
  cases p with
  | program => exact program_derives h
  | term => exact term_derives h
  | type => exact type_derives h
  | kind => exact kind_derives h
  | constant => exact constant_derives h

end Phrase

/-! ## Whole token lists -/

theorem Parser.whole_eq_ok_iff {α : Type} {rule : Parser α} {c : Context} {s s' : State} {a : α} :
    rule.whole c s = .ok a s' ↔ rule c s = .ok a s' ∧ s'.rest = [] := by
  constructor
  · intro h
    obtain ⟨b, s₁, hrule, h⟩ := bind_eq_ok h
    obtain ⟨_, s₂, hend, h⟩ := bind_eq_ok h
    obtain ⟨rfl, rfl⟩ := pure_eq_ok h
    unfold endOfInput at hend
    split at hend
    · next hrest =>
      cases hend
      exact ⟨hrule, List.isEmpty_iff.mp hrest⟩
    · cases hend
  · rintro ⟨hrule, hrest⟩
    have hend : endOfInput c s' = .ok () s' := by
      rw [endOfInput, if_pos (List.isEmpty_iff.mpr hrest)]
    rw [whole, bind_run, hrule]
    simp only [bind_run, hend, pure_run]

/-- What stays fixed while the tokens of a source are read. -/
def sourceContext (maxDepth : Nat) (src : String) : Context :=
  ⟨(lexSkippingComments src).tokens, byteLength src.toList, maxDepth⟩

section

variable {α : Type} {maxDepth : Nat} {supply : Supply} {rule : Nat → Parser α} {label src : String}

/-- A source with lexical errors is not read, and nothing is drawn from the supply. -/
theorem parseWith_of_lexErrors (herrors : (lexSkippingComments src).errors ≠ []) :
    parseWith maxDepth supply rule label src =
      ⟨.error (.ofLexErrors label src (lexSkippingComments src).errors), supply,
        [.lexicalErrors label (lexSkippingComments src).errors.length]⟩ := by
  simp only [parseWith, List.isEmpty_iff, herrors, if_false]

/-- The end of a parse whose rule accepts all tokens. -/
theorem parseWith_of_ok (herrors : (lexSkippingComments src).errors = []) {a : α} {s : State}
    (h : (rule maxDepth).whole (sourceContext maxDepth src)
      (.start (sourceContext maxDepth src) (.ofSupply supply)) = .ok a s) :
    parseWith maxDepth supply rule label src =
      ⟨.ok a, s.interner.supply, s.interner.log ++
        [.parsed label (lexSkippingComments src).tokens.length s.interner.size true]⟩ := by
  unfold sourceContext at h
  simp only [parseWith, herrors, List.isEmpty_nil, if_true, h]
  rfl

/-- The end of a parse whose rule fails. -/
theorem parseWith_of_error (herrors : (lexSkippingComments src).errors = []) {e : ParseError}
    {s : State}
    (h : (rule maxDepth).whole (sourceContext maxDepth src)
      (.start (sourceContext maxDepth src) (.ofSupply supply)) = .error e s) :
    parseWith maxDepth supply rule label src =
      ⟨.error (.single label src e), s.interner.supply, s.interner.log ++
        [.parsed label (lexSkippingComments src).tokens.length s.interner.size false]⟩ := by
  unfold sourceContext at h
  simp only [parseWith, herrors, List.isEmpty_nil, if_true, h]
  rfl

end

/-- A source is read if it has no lexical errors and the whole of its tokens is. -/
theorem parseWith_eq_ok_iff {α : Type} {maxDepth : Nat} {supply : Supply} {rule : Nat → Parser α}
    {label src : String} {a : α} :
    (parseWith maxDepth supply rule label src).result = .ok a ↔
      (lexSkippingComments src).errors = [] ∧
        ∃ s, (rule maxDepth).whole (sourceContext maxDepth src)
          (.start (sourceContext maxDepth src) (.ofSupply supply)) = .ok a s := by
  by_cases herrors : (lexSkippingComments src).errors = []
  · cases hreply : (rule maxDepth).whole (sourceContext maxDepth src)
        (.start (sourceContext maxDepth src) (.ofSupply supply)) with
    | ok b s =>
      rw [parseWith_of_ok herrors hreply]
      simp [herrors]
    | error e s =>
      rw [parseWith_of_error herrors hreply]
      simp
  · rw [parseWith_of_lexErrors herrors]
    simp [herrors]

namespace Phrase

variable {p : Phrase} {c : Context} {i : Interner}

/-- A sort reads the whole of its derivations that are no deeper than the limit. -/
theorem whole_read (d : p.Derivation) (hdepth : p.depth d ≤ c.maxDepth)
    (htokens : p.tokens d = c.tokens) :
    ∃ a s, (p.rule c.maxDepth).whole c (.start c i) = .ok a s ∧ p.skeleton a = p.ast d := by
  obtain ⟨a, i', hrule, hast⟩ := rule_read d hdepth c [] none i
  rw [List.append_nil, htokens] at hrule
  exact ⟨a, _, whole_eq_ok_iff.mpr ⟨hrule, rfl⟩, hast⟩

/-- What a sort reads the whole of is a derivation that is no deeper than the limit, and the answer is
    its syntax tree. -/
theorem whole_derives {a : p.Answer} {s : State}
    (h : (p.rule c.maxDepth).whole c (.start c i) = .ok a s) :
    ∃ d : p.Derivation, p.depth d ≤ c.maxDepth ∧ p.tokens d = c.tokens ∧
      p.skeleton a = p.ast d := by
  obtain ⟨hrule, hrest⟩ := whole_eq_ok_iff.mp h
  obtain ⟨d, hdepth, htokens⟩ := rule_derives hrule
  rw [hrest, List.append_nil] at htokens
  obtain ⟨b, s', hread, hast⟩ := whole_read (i := i) d hdepth htokens.symm
  rw [h] at hread
  cases hread
  exact ⟨d, hdepth, htokens.symm, hast⟩

theorem depth_le_maxDepth {d : p.Derivation} (htokens : p.tokens d = c.tokens)
    (hroom : c.tokens.length ≤ c.maxDepth) : p.depth d ≤ c.maxDepth := by
  rw [← htokens] at hroom
  exact Nat.le_trans (depth_le_length d) hroom

/-- A sentence has one syntax tree: the rule of its sort, given enough room, can answer only one. -/
theorem ast_eq_of_tokens_eq {d e : p.Derivation} (h : p.tokens d = p.tokens e) :
    p.ast d = p.ast e := by
  let c : Context := ⟨p.tokens d, 0, (p.tokens d).length⟩
  have hroom : c.tokens.length ≤ c.maxDepth := Nat.le_refl _
  obtain ⟨a, s, hread, hast⟩ :=
    whole_read (c := c) (i := .ofSupply .empty) d (depth_le_maxDepth rfl hroom) rfl
  obtain ⟨b, s', hread', hast'⟩ :=
    whole_read (c := c) (i := .ofSupply .empty) e (depth_le_maxDepth h.symm hroom) h.symm
  rw [hread] at hread'
  cases hread'
  rw [← hast, ← hast']

/-- If the limit is at least the number of tokens, a sort reads the whole of exactly its sentences,
    and the skeleton of its answer is the syntax tree of the sentence, of which there is one. -/
theorem whole_reads_exactly_sentences (p : Phrase) (c : Context) (i : Interner)
    (hroom : c.tokens.length ≤ c.maxDepth) :
    ((∃ a s, (p.rule c.maxDepth).whole c (.start c i) = .ok a s) ↔
        ∃ d : p.Derivation, p.tokens d = c.tokens) ∧
      (∀ a s, (p.rule c.maxDepth).whole c (.start c i) = .ok a s →
        ∀ d : p.Derivation, p.tokens d = c.tokens → p.skeleton a = p.ast d) ∧
      ∀ d e : p.Derivation, p.tokens d = p.tokens e → p.ast d = p.ast e := by
  refine ⟨⟨?_, ?_⟩, ?_, ?_⟩
  · rintro ⟨a, s, h⟩
    obtain ⟨d, -, htokens, -⟩ := whole_derives h
    exact ⟨d, htokens⟩
  · rintro ⟨d, htokens⟩
    obtain ⟨a, s, h, -⟩ := whole_read d (depth_le_maxDepth htokens hroom) htokens
    exact ⟨a, s, h⟩
  · intro a s h d htokens
    obtain ⟨e, -, htokens', hast⟩ := whole_derives h
    exact hast.trans (ast_eq_of_tokens_eq (htokens'.trans htokens.symm))
  · intro d e h
    exact ast_eq_of_tokens_eq h

/-- The phrase `[f x y]`, whose two arguments nest to the left. -/
def twoArguments : TermDerivation :=
  .apply ⟨⟨.lbracket, ⟨0, 1⟩, "["⟩, rfl⟩ (.var ⟨⟨.ident, ⟨1, 1⟩, "f"⟩, rfl⟩)
    (.var ⟨⟨.ident, ⟨3, 1⟩, "x"⟩, rfl⟩) [.var ⟨⟨.ident, ⟨5, 1⟩, "y"⟩, rfl⟩]
    ⟨⟨.rbracket, ⟨6, 1⟩, "]"⟩, rfl⟩

theorem whole_reads_twoArguments :
    let c : Context := ⟨twoArguments.tokens, 7, 5⟩
    c.tokens.length ≤ c.maxDepth ∧
      ∃ a s, (term.rule c.maxDepth).whole c (.start c (.ofSupply .empty)) = .ok a s ∧
        term.skeleton a = Term.apply .absent
          (.apply .absent (.var .absent ⟨"f", 0⟩) (.var .absent ⟨"x", 0⟩))
          (.var .absent ⟨"y", 0⟩) := by
  intro c
  have hroom : c.tokens.length ≤ c.maxDepth := Nat.le_refl 5
  obtain ⟨hiff, hast, -⟩ := whole_reads_exactly_sentences term c (.ofSupply .empty) hroom
  obtain ⟨a, s, h⟩ := hiff.mpr ⟨twoArguments, rfl⟩
  exact ⟨hroom, a, s, h, hast a s h twoArguments rfl⟩

end Phrase

end FOmega
