import FOmega.Proofs.Numbering
import FOmega.Proofs.Consistency

/-!
# No unique is given twice

Everything that draws from a supply moves it forward, and what it creates lies between the place of
the supply before and after it. A parse hands the supply to an interner and takes it back at the end,
whether it succeeds or fails; an interner only grows, and every name that a rule answers with is one
of its entries. So the uniques that different operations on one supply create are different, however
the operations are mixed.
-/

namespace FOmega

open FOmega.Parser

/-! ## Interners grow -/

namespace Interner

/-- What was seen stays, and what is new has a unique that was handed out in between. -/
structure Extends (i i' : Interner) : Prop where
  issued_le : i.supply.issued ≤ i'.supply.issued
  entries_eq : ∃ new, i'.entries = i.entries ++ new ∧
    ∀ entry ∈ new, i.supply.issued ≤ entry.2 ∧ entry.2 < i'.supply.issued

theorem Extends.refl (i : Interner) : i.Extends i :=
  ⟨Nat.le_refl _, [], (List.append_nil _).symm, List.forall_mem_nil _⟩

theorem Extends.trans {i i' i'' : Interner} (h : i.Extends i') (h' : i'.Extends i'') :
    i.Extends i'' := by
  rcases h with ⟨hle, new, hentries, hnew⟩
  rcases h' with ⟨hle', new', hentries', hnew'⟩
  refine ⟨Nat.le_trans hle hle', new ++ new', ?_, List.forall_mem_append.mpr ⟨?_, ?_⟩⟩
  · rw [hentries', hentries, List.append_assoc]
  · intro entry hentry
    have hbounds := hnew entry hentry
    omega
  · intro entry hentry
    have hbounds := hnew' entry hentry
    omega

theorem Extends.mem {i i' : Interner} (h : i.Extends i') {entry : String × Nat}
    (hentry : entry ∈ i.entries) : entry ∈ i'.entries := by
  rcases h.entries_eq with ⟨new, hentries, -⟩
  rw [hentries]
  exact List.mem_append_left new hentry

theorem extends_intern (i : Interner) (text : String) : i.Extends (i.intern text).2 := by
  unfold intern
  cases i.lookup? text with
  | some u => exact Extends.refl i
  | none =>
    refine ⟨Nat.le_succ _, [(text, i.supply.issued)], rfl, List.forall_mem_singleton.mpr ?_⟩
    exact ⟨Nat.le_refl _, Nat.lt_succ_self _⟩

theorem mem_of_lookup {i : Interner} {text : String} {u : Nat} (h : i.lookup? text = some u) :
    (text, u) ∈ i.entries := by
  rcases List.lookup_eq_some_iff.mp h with ⟨before, after, hentries, -⟩
  rw [hentries]
  exact List.mem_append_right before List.mem_cons_self

/-- The unique that interning answers with is that of an entry. -/
theorem mem_intern (i : Interner) (text : String) :
    (text, (i.intern text).1) ∈ (i.intern text).2.entries := by
  unfold intern
  cases hlookup : i.lookup? text with
  | some u => exact mem_of_lookup hlookup
  | none => exact List.mem_append_right i.entries List.mem_cons_self

theorem extends_nameAll (texts : List String) (i : Interner) :
    i.Extends (nameAll texts i).2 := by
  induction texts generalizing i with
  | nil => exact Extends.refl i
  | cons text texts ih => exact (i.extends_intern text).trans (ih _)

theorem mem_nameAll {texts : List String} {i : Interner} {x : Name}
    (hx : x ∈ (nameAll texts i).1) : (x.text, x.unique) ∈ (nameAll texts i).2.entries := by
  induction texts generalizing i with
  | nil => cases hx
  | cons text texts ih =>
    rcases List.mem_cons.mp hx with rfl | hx
    · exact (extends_nameAll texts _).mem (i.mem_intern text)
    · exact ih hx

end Interner

/-- The interner of the second state extends that of the first. -/
def Parser.Grows (s s' : State) : Prop :=
  s.interner.Extends s'.interner

theorem Parser.grows_stepRelation : StepRelation Grows where
  refl s := Interner.Extends.refl s.interner
  trans h h' := h.trans h'
  advance s := by
    rcases s with ⟨_ | ⟨t, rest⟩, hint, i⟩ <;> exact Interner.Extends.refl i
  hint s h := Interner.Extends.refl s.interner
  intern s text := s.interner.extends_intern text
  rewind h := h

/-! ## The names in an answer are entries -/

/-- The names at the sites of a tree, in order. -/
def Tree.names (t : Tree) : List Name :=
  t.sites.map fun e => e.name.name

mutual

/-- The names in the value of a rule expression. -/
def Value.names : Value → List Name
  | .name x => [x]
  | .spannedName x _ => [x]
  | .tree t => t.names
  | .list items => Value.allNames items
  | .spanned value _ => value.names
  | _ => []

/-- The names in values in a row. -/
def Value.allNames : List Value → List Name
  | [] => []
  | v :: vs => v.names ++ Value.allNames vs

end

theorem Value.names_list : (fun vs => (Value.list vs).names) = List.flatMap Value.names := by
  funext vs
  rw [names]
  induction vs with
  | nil => rfl
  | cons v vs ih => rw [allNames, ih, List.flatMap_cons]

namespace Parser

variable {α β : Type} {known : List Name} {n : α → List Name} {m : β → List Name}

/-- The rule only adds to the interner, and every name in an answer was known before or is an entry
    after the run. -/
structure Interns (known : List Name) (n : α → List Name) (p : Parser α) : Prop where
  grows : Keeps Grows p
  names : ∀ {c s a s'}, p c s = .ok a s' →
    ∀ x ∈ n a, x ∈ known ∨ (x.text, x.unique) ∈ s'.interner.entries

namespace Interns

theorem pure {a : α} (h : ∀ x ∈ n a, x ∈ known) : Interns known n (Pure.pure a : Parser α) where
  grows := Keeps.pure grows_stepRelation a
  names := by
    intro c s b s' hrun x hx
    rcases pure_eq_ok hrun with ⟨rfl, -⟩
    exact .inl (h x hx)

/-- An answer without names has nothing to be interned. -/
theorem none {p : Parser α} (hp : Keeps Grows p) : Interns known (fun _ => []) p where
  grows := hp
  names := by
    intro c s a s' hrun x hx
    cases hx

theorem intern (text : String) : Interns known (fun x => [x]) (Parser.intern text) where
  grows := Keeps.intern grows_stepRelation text
  names := by
    intro c s a s' hrun x hx
    cases hrun
    rcases List.mem_singleton.mp hx with rfl
    exact .inr (s.interner.mem_intern text)

theorem bind {p : Parser α} {f : α → Parser β} (hp : Interns known n p)
    (hf : ∀ a, Interns (known ++ n a) m (f a)) : Interns known m (p >>= f) where
  grows := Keeps.bind grows_stepRelation hp.grows fun a => (hf a).grows
  names := by
    intro c s b s' hrun x hx
    rcases bind_eq_ok hrun with ⟨a, s₁, hfirst, hsecond⟩
    rcases (hf a).names hsecond x hx with hknown | hentry
    · rcases List.mem_append.mp hknown with hknown | hname
      · exact .inl hknown
      · -- A name of the first part is an entry already then, and entries stay.
        rcases hp.names hfirst x hname with hknown | hentry
        · exact .inl hknown
        · exact .inr (((hf a).grows.of_ok hsecond).mem hentry)
    · exact .inr hentry

theorem map {p : Parser α} {g : α → β} (hp : Interns known (fun a => m (g a)) p) :
    Interns known m (p >>= fun a => Pure.pure (g a)) :=
  bind hp fun _ => pure fun _ hx => List.mem_append_right known hx

theorem attempt {p : Parser α} (hp : Interns known n p) : Interns known n (Parser.attempt p) where
  grows := Keeps.attempt grows_stepRelation hp.grows
  names hrun := hp.names (attempt_eq_ok hrun)

theorem enforce {p : Parser α} (hp : Interns known n p) : Interns known n (Parser.enforce p) where
  grows := Keeps.enforce hp.grows
  names hrun := hp.names (enforce_eq_ok hrun)

theorem choice {ps : List (Parser α)} (hps : ∀ p ∈ ps, Interns known n p) :
    Interns known n (Parser.choice ps) where
  grows := Keeps.choice grows_stepRelation fun p hp => (hps p hp).grows
  names := by
    intro c s a s' hrun
    rcases choice_eq_ok hrun with ⟨p, hp, s₁, -, hok⟩
    exact (hps p hp).names hok

theorem names_many {p : Parser α} (hp : Interns known n p) {c : Context} {s s' : State}
    {as : List α} (hrun : Parser.many p c s = .ok as s') :
    ∀ x ∈ as.flatMap n, x ∈ known ∨ (x.text, x.unique) ∈ s'.interner.entries := by
  intro x hx
  rw [Parser.many] at hrun
  split at hrun
  · next a s₁ he =>
    have hlt := enforce_rest_lt he
    cases hmany : Parser.many p c s₁ with
    | error e s₂ =>
      simp only [hmany] at hrun
      cases hrun
    | ok bs s₂ =>
      simp only [hmany] at hrun
      cases hrun
      rw [List.flatMap_cons] at hx
      rcases List.mem_append.mp hx with hx | hx
      · rcases hp.names (enforce_eq_ok he) x hx with hknown | hentry
        · exact .inl hknown
        · have hgrows := Keeps.many grows_stepRelation hp.grows
          exact .inr ((hgrows.of_ok hmany).mem hentry)
      · exact names_many hp hmany x hx
  · split at hrun
    · cases hrun
      cases hx
    · cases hrun
termination_by s.rest.length

theorem many {p : Parser α} (hp : Interns known n p) :
    Interns known (List.flatMap n) (Parser.many p) where
  grows := Keeps.many grows_stepRelation hp.grows
  names hrun := names_many hp hrun

theorem atLeastOne {p : Parser α} (hp : ∀ known, Interns known n p) :
    Interns known (List.flatMap n) (Parser.atLeastOne p) := by
  refine bind (enforce (hp known)) fun a => bind (many (hp _)) fun as => pure fun x hx => ?_
  rw [List.flatMap_cons] at hx
  rcases List.mem_append.mp hx with hx | hx
  · exact List.mem_append_left _ (List.mem_append_right known hx)
  · exact List.mem_append_right _ hx

theorem between (opening closing : TokenKind) {p : Parser α} (hp : ∀ known, Interns known n p) :
    Interns known (fun found => n found.1) (Parser.between opening closing p) := by
  have hexpect : ∀ kind, Keeps Grows (Parser.expect kind) := fun kind =>
    Keeps.accept grows_stepRelation _ _
  refine bind (none (hexpect opening)) fun first => bind (hp _) fun a =>
    bind (none (hexpect closing)) fun last => pure fun x hx => ?_
  exact List.mem_append_left _ (List.mem_append_right _ hx)

/-! ## The rules of the grammar and rule expressions -/

theorem spannedName : Interns known (fun found => [found.1]) Grammar.spannedName :=
  bind (none (Keeps.accept grows_stepRelation _ _)) fun _ => map (intern _)

theorem spannedTypeName : Interns known (fun found => [found.1]) Grammar.spannedTypeName :=
  bind (none (Keeps.accept grows_stepRelation _ _)) fun _ => map (intern _)

theorem phrase (p : Phrase) (room : Nat) : Interns known p.names (p.rule room) where
  grows := by
    cases p with
    | program => exact Keeps.program grows_stepRelation room
    | term => exact Keeps.term grows_stepRelation room
    | type => exact Keeps.type grows_stepRelation room
    | kind => exact Keeps.kind grows_stepRelation room
    | constant => exact Keeps.constant grows_stepRelation room
  names := by
    intro c s a s' hrun x hx
    rcases StartRule.names_of_ok (r := .phrase p) hrun with ⟨us, ts, -, -, hnames⟩
    rcases Prod.mk.inj hnames with ⟨hlist, hinterner⟩
    have hmem : x ∈ (Interner.nameAll (ts.map Token.text) s.interner).1 := hlist ▸ hx
    rw [hinterner]
    exact .inr (Interner.mem_nameAll hmem)

mutual

theorem rule (known : List Name) (room : Nat) :
    ∀ r : Rule, Interns known Value.names (r.run room)
  | .term => map (phrase .term room)
  | .type => map (phrase .type room)
  | .kind => map (phrase .kind room)
  | .program => map (phrase .program room)
  | .version => map (none (Keeps.version grows_stepRelation))
  | .constant => map (phrase .constant room)
  | .builtinFunction => map (none (Keeps.accept grows_stepRelation _ _))
  | .builtinType => map (none (Keeps.accept grows_stepRelation _ _))
  | .name => map (map spannedName)
  | .typeName => map (map spannedTypeName)
  | .spannedName => map spannedName
  | .spannedTypeName => map spannedTypeName
  | .natural _ => map (none (Keeps.natural grows_stepRelation _))
  | .endOfInput => map (none (Keeps.endOfInput grows_stepRelation))
  | .empty => pure (List.forall_mem_nil _)
  | .position => map (none fun _ s => grows_stepRelation.refl s)
  | .atEnd => map (none fun _ s => grows_stepRelation.refl s)
  | .here => map (none fun _ s => grows_stepRelation.refl s)
  | .peek => map (none fun _ s => grows_stepRelation.refl s)
  | .isAt _ => map (none (Keeps.isAt grows_stepRelation _))
  | .expect _ => map (none (Keeps.accept grows_stepRelation _ _))
  | .keyword _ => map (none (Keeps.accept grows_stepRelation _ _))
  | .identifier _ => map (none (Keeps.accept grows_stepRelation _ _))
  | .unexpected _ => ⟨Keeps.unexpected grows_stepRelation _, fun hrun => by cases hrun⟩
  | .preceded _ r => bind (none (Keeps.accept grows_stepRelation _ _)) fun _ => rule _ room r
  | .followed r _ => bind (rule known room r) fun _ =>
      bind (none (Keeps.accept grows_stepRelation _ _)) fun _ => pure fun _ hx =>
        List.mem_append_left _ (List.mem_append_right known hx)
  | .seq rs => map (ruleAll known room rs)
  | .choice rs => choice (ruleEach known room rs)
  | .attempt r => attempt (rule known room r)
  | .enforce r => enforce (rule known room r)
  | .nested r =>
    match room with
    | 0 => ⟨Keeps.tooDeep grows_stepRelation, fun hrun => by cases hrun⟩
    | room + 1 => rule known room r
  | .many r => map (Value.names_list ▸ many (rule known room r))
  | .atLeastOne r => map (Value.names_list ▸ atLeastOne fun known => rule known room r)
  | .between _ _ r => map (between _ _ fun known => rule known room r)

theorem ruleAll (known : List Name) (room : Nat) :
    ∀ rs : List Rule, Interns known Value.allNames (Rule.runAll room rs)
  | [] => pure (List.forall_mem_nil _)
  | r :: rs => bind (rule known room r) fun _ => bind (ruleAll _ room rs) fun _ => pure fun x hx => by
      rcases List.mem_append.mp hx with hx | hx
      · exact List.mem_append_left _ (List.mem_append_right known hx)
      · exact List.mem_append_right _ hx

theorem ruleEach (known : List Name) (room : Nat) :
    ∀ rs : List Rule, ∀ p ∈ Rule.runEach room rs, Interns known Value.names p
  | [] => List.forall_mem_nil _
  | r :: rs => List.forall_mem_cons.mpr ⟨rule known room r, ruleEach known room rs⟩

end

end Interns

end Parser

/-! ## Operations on one supply -/

/-- What can be done with a supply: drawing uniques, reading a source by any rule, and renaming any
    tree with any registrar in any state. -/
inductive Operation where
  | draw (count : Nat)
  | parse (rule : Rule) (maxDepth : Nat) (label src : String)
  | rename {σ : Type} (registrar : Registrar σ) (memory : σ) (tree : Tree)

/-- The unique that a record of interning notes. -/
def LogRecord.unique? : LogRecord → Option Nat
  | .interned _ unique => some unique
  | _ => none

/-- The uniques that a parse of a rule expression created: those of the names in its value, and those
    that it interned on the way, also where it failed. -/
def Parsed.created (out : Parsed Value) : List Nat :=
  (match out.result with
    | .ok value => value.names.map Name.unique
    | .error _ => []) ++ out.log.filterMap LogRecord.unique?

namespace Operation

/-- The uniques that an operation creates, and the supply after it. -/
def run (supply : Supply) : Operation → List Nat × Supply
  | draw count => supply.take count
  | parse rule maxDepth label src =>
    let out := parseWith maxDepth supply (fun room => rule.run room) label src
    (out.created, out.supply)
  | rename registrar memory tree =>
    let out := tree.renameWith registrar supply memory
    (out.tree.names.map Name.unique, out.supply)

/-- An operation that was carried out, with the supply before it, the uniques that it created, and
    the supply after it. -/
structure Performed where
  operation : Operation
  before : Supply
  created : List Nat
  after : Supply

/-- Carries out one operation. -/
def perform (op : Operation) (supply : Supply) : Performed :=
  ⟨op, supply, (op.run supply).1, (op.run supply).2⟩

/-- Carries out operations one after the other on one supply. -/
def performAll (supply : Supply) : List Operation → List Performed
  | [] => []
  | op :: ops => op.perform supply :: performAll (op.perform supply).after ops

theorem mem_entries_of_log {i : Interner} {label : String} {tokens names : Nat} {succeeded : Bool}
    {u : Nat}
    (h : u ∈ (i.log ++ [LogRecord.parsed label tokens names succeeded]).filterMap LogRecord.unique?) :
    ∃ text, (text, u) ∈ i.entries := by
  rcases List.mem_filterMap.mp h with ⟨record, hrecord, hunique⟩
  rcases List.mem_append.mp hrecord with hrecord | hrecord
  · rcases List.mem_map.mp hrecord with ⟨⟨text, v⟩, hentry, rfl⟩
    cases hunique
    exact ⟨text, hentry⟩
  · rcases List.mem_singleton.mp hrecord with rfl
    cases hunique

/-- A parse without lexical errors leaves the supply of an interner that extends the one it started
    with, and all that it created are entries of that interner. -/
theorem parse_created (rule : Rule) (maxDepth : Nat) (supply : Supply) (label src : String)
    (herrors : (lexSkippingComments src).errors = []) :
    let out := parseWith maxDepth supply (fun room => rule.run room) label src
    ∃ i : Interner, (Interner.ofSupply supply).Extends i ∧ out.supply = i.supply ∧
      ∀ u ∈ out.created, ∃ text, (text, u) ∈ i.entries := by
  intro out
  have hgrows := Keeps.whole grows_stepRelation (Keeps.rule grows_stepRelation maxDepth rule)
    (sourceContext maxDepth src) (.start (sourceContext maxDepth src) (.ofSupply supply))
  cases hreply : (rule.run maxDepth).whole (sourceContext maxDepth src)
      (.start (sourceContext maxDepth src) (.ofSupply supply)) with
  | ok value s =>
    rw [hreply] at hgrows
    have hout : out = _ := parseWith_of_ok herrors hreply
    have hrule := (whole_eq_ok_iff.mp hreply).1
    refine ⟨s.interner, hgrows, congrArg Parsed.supply hout, ?_⟩
    rw [hout]
    intro u hu
    rcases List.mem_append.mp hu with hu | hu
    · rcases List.mem_map.mp hu with ⟨x, hx, rfl⟩
      rcases (Interns.rule [] maxDepth rule).names hrule x hx with hknown | hentry
      · cases hknown
      · exact ⟨x.text, hentry⟩
    · exact mem_entries_of_log hu
  | error e s =>
    rw [hreply] at hgrows
    have hout : out = _ := parseWith_of_error herrors hreply
    refine ⟨s.interner, hgrows, congrArg Parsed.supply hout, ?_⟩
    rw [hout]
    intro u hu
    exact mem_entries_of_log hu

/-- What one operation creates was handed out between the supply before and after it. -/
theorem run_fresh (op : Operation) (supply : Supply) :
    supply.issued ≤ (op.run supply).2.issued ∧
      ∀ u ∈ (op.run supply).1, supply.issued ≤ u ∧ u < (op.run supply).2.issued := by
  cases op with
  | draw count =>
    refine ⟨Nat.le_add_right _ _, ?_⟩
    intro u hu
    exact List.mem_range'_1.mp hu
  | parse rule maxDepth label src =>
    simp only [run]
    by_cases herrors : (lexSkippingComments src).errors = []
    · rcases parse_created rule maxDepth supply label src herrors with
        ⟨i, hextends, hsupply, hcreated⟩
      rcases hextends.entries_eq with ⟨new, hentries, hnew⟩
      rw [hsupply]
      refine ⟨hextends.issued_le, ?_⟩
      intro u hu
      rcases hcreated u hu with ⟨text, hentry⟩
      -- The interner started without entries, so this one is new.
      rw [hentries] at hentry
      exact hnew (text, u) hentry
    · rw [parseWith_of_lexErrors herrors]
      exact ⟨Nat.le_refl _, List.forall_mem_nil _⟩
  | rename registrar memory tree =>
    have hsupply := tree.supply_renameWith registrar supply.issued memory
    have huniques := tree.uniques_renameWith registrar supply.issued memory
    have hafter : ((rename registrar memory tree).run supply).2 =
      ⟨supply.issued + tree.sites.length⟩ := hsupply
    have hcreated : ((rename registrar memory tree).run supply).1 =
        List.range' supply.issued tree.sites.length := by
      rw [← huniques]
      exact List.map_map
    rw [hafter, hcreated]
    refine ⟨Nat.le_add_right _ _, ?_⟩
    intro u hu
    exact List.mem_range'_1.mp hu

theorem run_lexErrors {rule : Rule} {maxDepth : Nat} {supply : Supply} {label src : String}
    (herrors : (lexSkippingComments src).errors ≠ []) :
    ((parse rule maxDepth label src).run supply).2 = supply := by
  simp only [run, parseWith_of_lexErrors herrors]

/-- Each step is an operation that was carried out on a supply no further back than the first. -/
theorem mem_performAll {supply : Supply} {ops : List Operation} {step : Performed}
    (h : step ∈ performAll supply ops) :
    supply.issued ≤ step.before.issued ∧ step = step.operation.perform step.before := by
  induction ops generalizing supply with
  | nil => cases h
  | cons op ops ih =>
    rcases List.mem_cons.mp h with rfl | h
    · exact ⟨Nat.le_refl _, rfl⟩
    · rcases ih h with ⟨hle, hstep⟩
      exact ⟨Nat.le_trans (op.run_fresh supply).1 hle, hstep⟩

theorem fresh_of_mem {supply : Supply} {ops : List Operation} {step : Performed}
    (h : step ∈ performAll supply ops) :
    step.before.issued ≤ step.after.issued ∧
      ∀ u ∈ step.created, step.before.issued ≤ u ∧ u < step.after.issued := by
  rw [(mem_performAll h).2]
  exact step.operation.run_fresh step.before

/-- However operations on one supply are mixed: the supply never moves back, and does not move at a
    source with lexical errors; every unique that an operation creates was handed out in between the
    supply before and after it; and different operations create different uniques. -/
theorem operations_create_apart (supply : Supply) (ops : List Operation) :
    let steps := performAll supply ops
    (∀ step ∈ steps, step.before.issued ≤ step.after.issued ∧
        ∀ u ∈ step.created, step.before.issued ≤ u ∧ u < step.after.issued) ∧
      (∀ step ∈ steps, ∀ rule maxDepth label src, step.operation = parse rule maxDepth label src →
        (lexSkippingComments src).errors ≠ [] → step.after = step.before) ∧
      steps.Pairwise fun earlier later => ∀ u ∈ earlier.created, ∀ v ∈ later.created, u ≠ v := by
  intro steps
  refine ⟨fun step hstep => fresh_of_mem hstep, ?_, ?_⟩
  · intro step hstep rule maxDepth label src hop herrors
    rw [(mem_performAll hstep).2, hop]
    exact run_lexErrors herrors
  · induction ops generalizing supply with
    | nil => exact List.Pairwise.nil
    | cons op ops ih =>
      refine List.Pairwise.cons ?_ (ih _)
      intro later hlater u hu v hv
      have hearlier := (op.run_fresh supply).2 u hu
      have hstart := (mem_performAll hlater).1
      have hbounds := (fresh_of_mem hlater).2 v hv
      have hbetween : u < (op.run supply).2.issued := hearlier.2
      have hmoved : (op.run supply).2.issued ≤ later.before.issued := hstart
      omega

end Operation

end FOmega
