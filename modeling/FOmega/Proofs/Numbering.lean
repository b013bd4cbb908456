import Mathlib.Data.List.Basic
import FOmega.Proofs.Sentence
import FOmega.Proofs.Sites

/-!
# Names are numbered by first occurrence

An interner that starts empty numbers spellings in the order in which it first sees them. A rule that
reads a phrase interns exactly the spellings of the names in it, from left to right: forms that are
given up on the way read no name, and keywords and built-ins are never interned. So the uniques in
what is read are told by the spellings alone.
-/

namespace FOmega

open Terminal FOmega.Parser Grammar

/-! ## The interner after a list of spellings -/

namespace Interner

/-- The interner of a supply that had handed out `n` uniques, after it has seen spellings in order. -/
def seen (n : Nat) (texts : List String) : Interner :=
  ⟨texts.eraseDups.zipIdx n, ⟨n + texts.eraseDups.length⟩⟩

/-- The names that spellings in a row stand for. -/
def nameAll : List String → Interner → List Name × Interner
  | [], i => ([], i)
  | text :: texts, i =>
    (⟨text, (i.intern text).1⟩ :: (nameAll texts (i.intern text).2).1,
      (nameAll texts (i.intern text).2).2)

theorem nameAll_append (texts texts' : List String) (i : Interner) :
    nameAll (texts ++ texts') i =
      ((nameAll texts i).1 ++ (nameAll texts' (nameAll texts i).2).1,
        (nameAll texts' (nameAll texts i).2).2) := by
  induction texts generalizing i with
  | nil => rfl
  | cons text texts ih => simp only [List.cons_append, nameAll, ih]

theorem lookup_zipIdx (text : String) (texts : List String) (n : Nat) :
    (texts.zipIdx n).lookup text =
      if text ∈ texts then some (n + texts.idxOf text) else none := by
  induction texts generalizing n with
  | nil => rfl
  | cons first texts ih =>
    by_cases h : text = first
    · subst h
      simp
    · have hbeq : (text == first) = false := beq_eq_false_iff_ne.mpr h
      have hbeq' : (first == text) = false := beq_eq_false_iff_ne.mpr fun heq => h heq.symm
      have hsucc : n + 1 + texts.idxOf text = n + (texts.idxOf text + 1) := by omega
      simp only [List.zipIdx_cons, List.lookup_cons, hbeq, ih, List.mem_cons, h, false_or,
        List.idxOf_cons, hbeq', cond_false, hsucc]

theorem eraseDups_snoc (texts : List String) (text : String) :
    (texts ++ [text]).eraseDups =
      if text ∈ texts then texts.eraseDups else texts.eraseDups ++ [text] := by
  rw [List.eraseDups_append]
  by_cases h : text ∈ texts
  · simp [List.removeAll, h]
  · simp [List.removeAll, h, List.eraseDups_cons]

/-- The rank of a spelling does not depend on what comes after its first occurrence. -/
theorem idxOf_eraseDups_append {text : String} {texts : List String} (h : text ∈ texts)
    (texts' : List String) :
    (texts ++ texts').eraseDups.idxOf text = texts.eraseDups.idxOf text := by
  have hmem : text ∈ texts.eraseDups := List.mem_eraseDups.mpr h
  rw [List.eraseDups_append, List.idxOf_append, if_pos hmem]

theorem intern_seen (n : Nat) (texts : List String) (text : String) :
    (seen n texts).intern text =
      (n + (texts ++ [text]).eraseDups.idxOf text, seen n (texts ++ [text])) := by
  have hlookup : (seen n texts).lookup? text =
      if text ∈ texts then some (n + texts.eraseDups.idxOf text) else none := by
    have hzip := lookup_zipIdx text texts.eraseDups n
    simp only [List.mem_eraseDups] at hzip
    exact hzip
  unfold intern
  rw [hlookup]
  by_cases h : text ∈ texts
  · simp only [h, if_true, seen, eraseDups_snoc]
  · have hfresh : text ∉ texts.eraseDups := fun hmem => h (List.mem_eraseDups.mp hmem)
    simp only [h, if_false, seen, eraseDups_snoc, Supply.fresh, List.idxOf_append, hfresh,
      List.zipIdx_append, List.length_append, List.length_singleton, List.idxOf_cons_self,
      List.zipIdx_singleton, Nat.zero_add, Nat.add_assoc]

/-- Spellings in a row are numbered by their rank among all that were seen. -/
theorem nameAll_seen (n : Nat) (before texts : List String) :
    nameAll texts (seen n before) =
      (texts.map fun text => ⟨text, n + (before ++ texts).eraseDups.idxOf text⟩,
        seen n (before ++ texts)) := by
  induction texts generalizing before with
  | nil => simp [nameAll]
  | cons text texts ih =>
    have hmem : text ∈ before ++ [text] := by simp
    have hrank := idxOf_eraseDups_append hmem texts
    simp only [List.append_assoc, List.singleton_append] at hrank
    simp only [nameAll, intern_seen, ih, List.map_cons, List.append_assoc, List.singleton_append,
      hrank]

theorem nameAll_ofSupply (n : Nat) (texts : List String) :
    nameAll texts (ofSupply ⟨n⟩) =
      (texts.map fun text => ⟨text, n + texts.eraseDups.idxOf text⟩, seen n texts) := by
  have hstart : ofSupply ⟨n⟩ = seen n [] := rfl
  rw [hstart, nameAll_seen, List.nil_append]

theorem texts_nameAll (texts : List String) (i : Interner) :
    (nameAll texts i).1.map Name.text = texts := by
  induction texts generalizing i with
  | nil => rfl
  | cons text texts ih => rw [nameAll, List.map_cons, ih]

/-- Names have the same unique when they have the same spelling, and only then. -/
theorem nameAll_unique_inj {n : Nat} {before texts : List String} {x y : Name}
    (hx : x ∈ (nameAll texts (seen n before)).1) (hy : y ∈ (nameAll texts (seen n before)).1) :
    x.unique = y.unique ↔ x.text = y.text := by
  rw [nameAll_seen] at hx hy
  obtain ⟨text, htext, rfl⟩ := List.mem_map.mp hx
  obtain ⟨text', -, rfl⟩ := List.mem_map.mp hy
  have hmem : text ∈ (before ++ texts).eraseDups :=
    List.mem_eraseDups.mpr (List.mem_append_right _ htext)
  exact Nat.add_left_cancel_iff.trans (List.idxOf_inj hmem)

end Interner

/-! ## The names of a tree -/

/-- The names at the sites of a type, in order. -/
def Ty.names (t : Ty) : List Name :=
  t.sites.map fun e => e.name.name

/-- The names at the sites of a term, in order. -/
def Term.names (t : Term) : List Name :=
  t.sites.map fun e => e.name.name

theorem Grammar.flatMap_nestLeft {α β γ : Type} {node : Mark → α → β → α} {f : α → List γ}
    {g : β → List γ} (hnode : ∀ m a b, f (node m a b) = f a ++ g b) (mark : β → Mark)
    (whole : Span) (head : α) (args : List β) :
    f (nestLeft node mark whole head args) = f head ++ args.flatMap g := by
  have hfold : f (nestLeft node mark whole head args) =
      (args.map g).foldl (fun xs ys => xs ++ ys) (f head) := nestLeft_foldl hnode mark whole head args
  rw [hfold, List.foldl_map, List.foldl_append_eq_append, List.flatMap_def]

theorem Ty.names_app (m : Mark) (f arg : Ty) : (Ty.app m f arg).names = f.names ++ arg.names := by
  rw [names, sites, List.map_append]
  rfl

theorem Ty.names_prod (m : Mark) (items : List Ty) :
    (Ty.prod m items).names = items.flatMap Ty.names := by
  rw [names, sites, allSites_eq_flatMap, List.map_flatMap]
  rfl

theorem Term.names_apply (m : Mark) (f arg : Term) :
    (Term.apply m f arg).names = f.names ++ arg.names := by
  rw [names, sites, List.map_append]
  rfl

theorem Term.names_inst (m : Mark) (t : Term) (type : Ty) :
    (Term.inst m t type).names = t.names ++ type.names := by
  rw [names, sites, List.map_append]
  rfl

theorem Term.names_prod (m : Mark) (items : List Term) :
    (Term.prod m items).names = items.flatMap Term.names := by
  rw [names, sites, allSites_eq_flatMap, List.map_flatMap]
  rfl

/-! ## The names of a derivation -/

mutual

/-- The tokens of a type that stand for names. -/
def TypeDerivation.nameTokens : TypeDerivation → List Token
  | .var x => [x.token]
  | .lam _ _ x _ d _ => x.token :: d.nameTokens
  | .all _ _ x _ d _ => x.token :: d.nameTokens
  | .ifix _ _ d e _ => d.nameTokens ++ e.nameTokens
  | .fn _ _ d e _ => d.nameTokens ++ e.nameTokens
  | .con _ _ _ _ => []
  | .prod _ _ ds _ => TypeDerivation.allNameTokens ds
  | .app _ d e es _ => d.nameTokens ++ e.nameTokens ++ TypeDerivation.allNameTokens es

/-- The tokens of types in a row that stand for names. -/
def TypeDerivation.allNameTokens : List TypeDerivation → List Token
  | [] => []
  | d :: ds => d.nameTokens ++ TypeDerivation.allNameTokens ds

end

mutual

/-- The tokens of a term that stand for names. -/
def TermDerivation.nameTokens : TermDerivation → List Token
  | .var x => [x.token]
  | .lam _ _ x t d _ => x.token :: (t.nameTokens ++ d.nameTokens)
  | .abs _ _ x _ d _ => x.token :: d.nameTokens
  | .iwrap _ _ t u d _ => t.nameTokens ++ u.nameTokens ++ d.nameTokens
  | .unwrap _ _ d _ => d.nameTokens
  | .error _ _ t _ => t.nameTokens
  | .con _ _ _ _ => []
  | .builtin _ _ _ _ => []
  | .prod _ _ ds _ => TermDerivation.allNameTokens ds
  | .proj _ _ _ d _ => d.nameTokens
  | .apply _ d e es _ => d.nameTokens ++ e.nameTokens ++ TermDerivation.allNameTokens es
  | .inst _ d t ts _ => d.nameTokens ++ t.nameTokens ++ TypeDerivation.allNameTokens ts

/-- The tokens of terms in a row that stand for names. -/
def TermDerivation.allNameTokens : List TermDerivation → List Token
  | [] => []
  | d :: ds => d.nameTokens ++ TermDerivation.allNameTokens ds

end

/-! ## Name tokens stand in the order of the source -/

theorem TypeDerivation.allNameTokens_sublist {ds : List TypeDerivation}
    (h : ∀ d ∈ ds, d.nameTokens.Sublist d.tokens) :
    (allNameTokens ds).Sublist (allTokens ds) := by
  induction ds with
  | nil => exact List.Sublist.refl []
  | cons d ds ih =>
    have hhead := h d List.mem_cons_self
    have htail := ih fun e he => h e (List.mem_cons_of_mem d he)
    exact hhead.append htail

theorem TypeDerivation.nameTokens_sublist (d : TypeDerivation) :
    d.nameTokens.Sublist d.tokens := by
  induction d with
  | var x => exact List.Sublist.refl _
  | lam o w x k d c ih | all o w x k d c ih =>
    have hbody : d.nameTokens.Sublist (k.tokens ++ d.tokens ++ [c.token]) :=
      (ih.trans (List.sublist_append_right _ _)).trans (List.sublist_append_left _ _)
    exact ((hbody.cons_cons x.token).cons w.token).cons o.token
  | ifix o w d e c ihd ihe | fn o w d e c ihd ihe =>
    have hparts := (ihd.append ihe).trans (List.sublist_append_left _ [c.token])
    exact (hparts.cons w.token).cons o.token
  | con o w b c => exact List.nil_sublist _
  | prod o w ds c ih =>
    have hitems := (allNameTokens_sublist ih).trans (List.sublist_append_left _ [c.token])
    exact (hitems.cons w.token).cons o.token
  | app o d e es c ihd ihe ihes =>
    have hparts := (ihd.append ihe).append (allNameTokens_sublist ihes)
    exact (hparts.trans (List.sublist_append_left _ [c.token])).cons o.token

theorem TermDerivation.allNameTokens_sublist {ds : List TermDerivation}
    (h : ∀ d ∈ ds, d.nameTokens.Sublist d.tokens) :
    (allNameTokens ds).Sublist (allTokens ds) := by
  induction ds with
  | nil => exact List.Sublist.refl []
  | cons d ds ih =>
    have hhead := h d List.mem_cons_self
    have htail := ih fun e he => h e (List.mem_cons_of_mem d he)
    exact hhead.append htail

theorem TermDerivation.nameTokens_sublist (d : TermDerivation) :
    d.nameTokens.Sublist d.tokens := by
  induction d with
  | var x => exact List.Sublist.refl _
  | lam o w x t d c ih =>
    have hparts := (t.nameTokens_sublist.append ih).trans (List.sublist_append_left _ [c.token])
    exact ((hparts.cons_cons x.token).cons w.token).cons o.token
  | abs o w x k d c ih =>
    have hbody : d.nameTokens.Sublist (k.tokens ++ d.tokens ++ [c.token]) :=
      (ih.trans (List.sublist_append_right _ _)).trans (List.sublist_append_left _ _)
    exact ((hbody.cons_cons x.token).cons w.token).cons o.token
  | iwrap o w t u d c ih =>
    have htypes := t.nameTokens_sublist.append u.nameTokens_sublist
    have hparts := (htypes.append ih).trans (List.sublist_append_left _ [c.token])
    exact (hparts.cons w.token).cons o.token
  | unwrap o w d c ih =>
    exact ((ih.trans (List.sublist_append_left _ [c.token])).cons w.token).cons o.token
  | error o w t c =>
    have htype := t.nameTokens_sublist.trans (List.sublist_append_left _ [c.token])
    exact (htype.cons w.token).cons o.token
  | con o w k c => exact List.nil_sublist _
  | builtin o w b c => exact List.nil_sublist _
  | prod o w ds c ih =>
    have hitems := (allNameTokens_sublist ih).trans (List.sublist_append_left _ [c.token])
    exact (hitems.cons w.token).cons o.token
  | proj o w n d c ih =>
    have hbody := ih.trans (List.sublist_append_left _ [c.token])
    exact ((hbody.cons n.token).cons w.token).cons o.token
  | apply o d e es c ihd ihe ihes =>
    have hparts := (ihd.append ihe).append (allNameTokens_sublist ihes)
    exact (hparts.trans (List.sublist_append_left _ [c.token])).cons o.token
  | inst o d t ts c ih =>
    have hargs := TypeDerivation.allNameTokens_sublist fun t (_ : t ∈ ts) => t.nameTokens_sublist
    have hparts := (ih.append t.nameTokens_sublist).append hargs
    exact (hparts.trans (List.sublist_append_left _ [c.token])).cons o.token

/-! ## Reading interns the name tokens in order -/

theorem TypeDerivation.names_readAll {ds : List TypeDerivation}
    (h : ∀ d ∈ ds, ∀ i, Prod.map Ty.names id (d.read i) =
      Interner.nameAll (d.nameTokens.map Token.text) i) (i : Interner) :
    Prod.map (List.flatMap Ty.names) id (readAll ds i) =
      Interner.nameAll ((allNameTokens ds).map Token.text) i := by
  induction ds generalizing i with
  | nil => rfl
  | cons d ds ih =>
    have htail := ih fun e he => h e (List.mem_cons_of_mem d he)
    rw [allNameTokens, List.map_append, Interner.nameAll_append, ← h d List.mem_cons_self, ← htail]
    rfl

theorem TypeDerivation.names_read (d : TypeDerivation) (i : Interner) :
    Prod.map Ty.names id (d.read i) = Interner.nameAll (d.nameTokens.map Token.text) i := by
  induction d generalizing i with
  | var x => rfl
  | lam o w x k d c ih | all o w x k d c ih =>
    rw [nameTokens, List.map_cons, Interner.nameAll, ← ih]
    rfl
  | ifix o w d e c ihd ihe | fn o w d e c ihd ihe =>
    rw [nameTokens, List.map_append, Interner.nameAll_append, ← ihd, ← ihe]
    exact Prod.ext List.map_append rfl
  | con o w b c => rfl
  | prod o w ds c ih =>
    rw [nameTokens, ← names_readAll ih]
    exact Prod.ext (Ty.names_prod _ _) rfl
  | app o d e es c ihd ihe ihes =>
    rw [nameTokens, List.map_append, List.map_append, Interner.nameAll_append,
      Interner.nameAll_append, ← ihd, ← ihe, ← names_readAll ihes]
    have hnest := flatMap_nestLeft Ty.names_app Ty.mark (bracketSpan o c) (d.read i).1
      ((e.read (d.read i).2).1 :: (readAll es (e.read (d.read i).2).2).1)
    rw [List.flatMap_cons, ← List.append_assoc] at hnest
    exact Prod.ext hnest rfl

theorem TermDerivation.names_readAll {ds : List TermDerivation}
    (h : ∀ d ∈ ds, ∀ i, Prod.map Term.names id (d.read i) =
      Interner.nameAll (d.nameTokens.map Token.text) i) (i : Interner) :
    Prod.map (List.flatMap Term.names) id (readAll ds i) =
      Interner.nameAll ((allNameTokens ds).map Token.text) i := by
  induction ds generalizing i with
  | nil => rfl
  | cons d ds ih =>
    have htail := ih fun e he => h e (List.mem_cons_of_mem d he)
    rw [allNameTokens, List.map_append, Interner.nameAll_append, ← h d List.mem_cons_self, ← htail]
    rfl

theorem TermDerivation.names_read (d : TermDerivation) (i : Interner) :
    Prod.map Term.names id (d.read i) = Interner.nameAll (d.nameTokens.map Token.text) i := by
  induction d generalizing i with
  | var x => rfl
  | lam o w x t d c ih =>
    rw [nameTokens, List.map_cons, List.map_append, Interner.nameAll, Interner.nameAll_append,
      ← t.names_read, ← ih]
    exact Prod.ext (congrArg (List.cons _) List.map_append) rfl
  | abs o w x k d c ih =>
    rw [nameTokens, List.map_cons, Interner.nameAll, ← ih]
    rfl
  | iwrap o w t u d c ih =>
    rw [nameTokens, List.map_append, List.map_append, Interner.nameAll_append,
      Interner.nameAll_append, ← t.names_read, ← u.names_read, ← ih]
    refine Prod.ext ?_ rfl
    exact List.map_append.trans (congrArg (· ++ _) List.map_append)
  | unwrap o w d c ih | proj o w n d c ih =>
    rw [nameTokens, ← ih]
    rfl
  | error o w t c =>
    rw [nameTokens, ← t.names_read]
    rfl
  | con o w k c | builtin o w b c => rfl
  | prod o w ds c ih =>
    rw [nameTokens, ← names_readAll ih]
    exact Prod.ext (Term.names_prod _ _) rfl
  | apply o d e es c ihd ihe ihes =>
    rw [nameTokens, List.map_append, List.map_append, Interner.nameAll_append,
      Interner.nameAll_append, ← ihd, ← ihe, ← names_readAll ihes]
    have hnest := flatMap_nestLeft Term.names_apply Term.mark (bracketSpan o c) (d.read i).1
      ((e.read (d.read i).2).1 :: (readAll es (e.read (d.read i).2).2).1)
    rw [List.flatMap_cons, ← List.append_assoc] at hnest
    exact Prod.ext hnest rfl
  | inst o d t ts c ih =>
    rw [nameTokens, List.map_append, List.map_append, Interner.nameAll_append,
      Interner.nameAll_append, ← ih, ← t.names_read,
      ← TypeDerivation.names_readAll fun t _ => t.names_read]
    have hnest := flatMap_nestLeft Term.names_inst Ty.mark (bracketSpan o c) (d.read i).1
      ((t.read (d.read i).2).1 :: (TypeDerivation.readAll ts (t.read (d.read i).2).2).1)
    rw [List.flatMap_cons, ← List.append_assoc] at hnest
    exact Prod.ext hnest rfl

/-! ## The rules that start a source -/

namespace Phrase

/-- The names in an answer. Kinds and constants have none. -/
def names : (p : Phrase) → p.Answer → List Name
  | program => fun a => Term.names a.term
  | term => Term.names
  | type => Ty.names
  | kind => fun _ => []
  | constant => fun _ => []

/-- The tokens of a derivation that stand for names. -/
def nameTokens : (p : Phrase) → p.Derivation → List Token
  | program => fun d => TermDerivation.nameTokens d.term
  | term => TermDerivation.nameTokens
  | type => TypeDerivation.nameTokens
  | kind => fun _ => []
  | constant => fun _ => []

variable {p : Phrase}

theorem nameTokens_sublist (d : p.Derivation) : (p.nameTokens d).Sublist (p.tokens d) := by
  cases p with
  | program =>
    have hterm := d.term.nameTokens_sublist.trans
      (List.sublist_append_right d.version.tokens d.term.tokens)
    have hinside := hterm.trans (List.sublist_append_left _ [d.closing.token])
    exact (hinside.cons d.word.token).cons d.opening.token
  | term => exact TermDerivation.nameTokens_sublist d
  | type => exact TypeDerivation.nameTokens_sublist d
  | kind => exact List.nil_sublist _
  | constant => exact List.nil_sublist _

/-- With enough room, the rule of a sort interns the name tokens of a derivation in order, and nothing
    else. -/
theorem rule_names (d : p.Derivation) {room : Nat} (hroom : p.depth d ≤ room) (c : Context)
    (rest : List Token) (hint : Option ParseError) (i : Interner) :
    ∃ a i', p.rule room c ⟨p.tokens d ++ rest, hint, i⟩ = .ok a ⟨rest, none, i'⟩ ∧
      (p.names a, i') = Interner.nameAll ((p.nameTokens d).map Token.text) i := by
  cases p with
  | program => exact ⟨_, _, program_read c rest hint i d hroom, TermDerivation.names_read d.term i⟩
  | term => exact ⟨_, _, term_read c rest hint i d hroom, TermDerivation.names_read d i⟩
  | type => exact ⟨_, _, type_read c rest hint i d hroom, TypeDerivation.names_read d i⟩
  | kind => exact ⟨_, _, kind_read c rest hint i d hroom, rfl⟩
  | constant => exact ⟨_, _, constant_read c rest hint i d hroom, rfl⟩

end Phrase

/-- The rules that a whole source can be read by: the sorts of phrase, and single names. -/
inductive StartRule where
  | phrase (p : Phrase)
  | name
  | typeName

namespace StartRule

/-- What a rule answers with. -/
def Answer : StartRule → Type
  | phrase p => p.Answer
  | name => Name
  | typeName => Name

/-- The rule itself, which may open as many levels as it is told. -/
def rule : (r : StartRule) → Nat → Parser r.Answer
  | phrase p => p.rule
  | name => fun _ => Grammar.name
  | typeName => fun _ => Grammar.typeName

/-- The names in an answer, in the order of a walk. -/
def names : (r : StartRule) → r.Answer → List Name
  | phrase p => p.names
  | name => fun x => [x]
  | typeName => fun x => [x]

variable {r : StartRule} {room : Nat} {c : Context} {s s' : State}

/-- What a rule accepts has tokens that stand for its names, and these are all that it interns. -/
theorem names_of_ok {a : r.Answer} (h : r.rule room c s = .ok a s') :
    ∃ us ts : List Token, s.rest = us ++ s'.rest ∧ ts.Sublist us ∧
      (r.names a, s'.interner) = Interner.nameAll (ts.map Token.text) s.interner := by
  rcases s with ⟨rest, hint, i⟩
  rcases s' with ⟨rest', hint', i'⟩
  cases r with
  | phrase p =>
    rcases Phrase.rule_derives h with ⟨d, hdepth, htokens⟩
    have hrest : rest = p.tokens d ++ rest' := htokens
    subst hrest
    rcases Phrase.rule_names d hdepth c rest' hint i with ⟨b, j, hread, hnames⟩
    have heq : Reply.ok a ⟨rest', hint', i'⟩ = .ok b ⟨rest', none, j⟩ := h.symm.trans hread
    cases heq
    exact ⟨p.tokens d, p.nameTokens d, rfl, Phrase.nameTokens_sublist d, hnames⟩
  | name =>
    rcases name_eq_ok h with ⟨x, hx⟩
    have hrest : rest = x.token :: rest' := hx
    subst hrest
    have heq : Reply.ok a ⟨rest', hint', i'⟩ = _ := h.symm.trans (name_cons c rest' hint i x)
    cases heq
    exact ⟨[x.token], [x.token], rfl, List.Sublist.refl _, rfl⟩
  | typeName =>
    rcases typeName_eq_ok h with ⟨x, hx⟩
    have hrest : rest = x.token :: rest' := hx
    subst hrest
    have heq : Reply.ok a ⟨rest', hint', i'⟩ = _ := h.symm.trans (typeName_cons c rest' hint i x)
    cases heq
    exact ⟨[x.token], [x.token], rfl, List.Sublist.refl _, rfl⟩

/-- Names are numbered by first occurrence. When a source is read, the spellings of the names in the
    answer are those of some of its tokens, in the order of the source. With the different spellings
    taken in the order of first occurrence, each name has the supply's next unique plus the rank of
    its spelling, the supply moves by the number of different spellings, and the log records each of
    them once with its unique, in that order, before the end of the parse. -/
theorem parse_numbers_by_first_occurrence (r : StartRule) (maxDepth n : Nat) (label src : String)
    (a : r.Answer) (h : (parseWith maxDepth ⟨n⟩ r.rule label src).result = .ok a) :
    let out := parseWith maxDepth ⟨n⟩ r.rule label src
    let tokens := (lexSkippingComments src).tokens
    let texts := (r.names a).map Name.text
    let distinct := texts.eraseDups
    (∃ ts : List Token, ts.Sublist tokens ∧ ts.map Token.text = texts) ∧
      (∀ x ∈ r.names a, x.unique = n + distinct.idxOf x.text) ∧
      (∀ x ∈ r.names a, ∀ y ∈ r.names a, x.unique = y.unique ↔ x.text = y.text) ∧
      out.supply.issued = n + distinct.length ∧
      out.log = (distinct.zipIdx n).map (fun entry => .interned entry.1 entry.2) ++
        [.parsed label tokens.length distinct.length true] := by
  intro out tokens texts distinct
  rcases parseWith_eq_ok_iff.mp h with ⟨herrors, s, hwhole⟩
  rcases whole_eq_ok_iff.mp hwhole with ⟨hrule, hend⟩
  rcases names_of_ok hrule with ⟨us, ts, hus, hsublist, hnames⟩
  rw [hend, List.append_nil] at hus
  have hnumbered := hnames.trans (Interner.nameAll_ofSupply n (ts.map Token.text))
  have htexts : ts.map Token.text = texts := by
    have hmap := congrArg (fun out => out.1.map Name.text) hnumbered
    simp only [List.map_map] at hmap
    exact hmap.symm
  rw [htexts] at hnumbered
  rcases Prod.mk.inj hnumbered with ⟨hlist, hstate⟩
  have hunique : ∀ x ∈ r.names a, x.unique = n + distinct.idxOf x.text := by
    intro x hx
    rw [hlist] at hx
    rcases List.mem_map.mp hx with ⟨text, -, rfl⟩
    rfl
  have hout : out = _ := parseWith_of_ok herrors hwhole
  have htokens : us = tokens := hus.symm
  refine ⟨⟨ts, htokens ▸ hsublist, htexts⟩, hunique, ?_, ?_, ?_⟩
  · intro x hx y hy
    have hmem : x.text ∈ distinct := List.mem_eraseDups.mpr (List.mem_map_of_mem hx)
    rw [hunique x hx, hunique y hy, Nat.add_left_cancel_iff]
    exact List.idxOf_inj hmem
  · rw [hout, hstate]
    rfl
  · rw [hout, hstate]
    simp only [Interner.log, Interner.size, Interner.seen, List.length_zipIdx]
    rfl

/-- The five names of `(lam x x [f x y])` have three spellings, which are recorded in the order
    `x`, `f`, `y`. -/
theorem lambda_numbered_by_first_occurrence :
    let out := parseWith 3 ⟨7⟩ (phrase .term).rule "t" "(lam x x [f x y])"
    ∃ t, out.result = .ok t ∧
      ((phrase .term).names t).map Name.text = ["x", "x", "f", "x", "y"] ∧
      out.supply.issued = 10 ∧
      out.log = [.interned "x" 7, .interned "f" 8, .interned "y" 9, .parsed "t" 10 3 true] := by
  intro out
  have hnames : out.result.toOption.map (fun t => (Term.names t).map Name.text) =
      some ["x", "x", "f", "x", "y"] := by decide +kernel
  have htokens : (lexSkippingComments "(lam x x [f x y])").tokens.length = 10 := by decide +kernel
  cases hresult : out.result with
  | error report =>
    rw [hresult] at hnames
    cases hnames
  | ok t =>
    rw [hresult] at hnames
    have htexts : ((phrase .term).names t).map Name.text = ["x", "x", "f", "x", "y"] :=
      Option.some.inj hnames
    rcases parse_numbers_by_first_occurrence (phrase .term) 3 7 "t" _ t hresult with
      ⟨-, -, -, hissued, hlog⟩
    rw [htexts] at hissued hlog
    rw [htokens] at hlog
    exact ⟨t, rfl, htexts, hissued, hlog⟩

end StartRule

end FOmega
