import FOmega.Proofs.Numbering
import FOmega.Proofs.Verdict

/-!
# On what is read, the check looks at spellings

An interner gives two spellings of a source the same unique exactly when they are the same. So in a
tree that was just read, "carries the same unique" and "is spelled alike" say the same, and the
check of its scope info can be told without uniques: no spelling has two binders, and none has a
binder and an occurrence. Levels and places in the tree play no part.
-/

namespace FOmega

open Terminal FOmega.Parser Grammar ScopeEntry ScopeInfo

/-! ## Spellings in place of uniques -/

/-- The spelling of an entry's name. -/
def ScopeEntry.text (e : ScopeEntry) : String :=
  e.name.name.text

/-- The spellings of the entries of one role, in order. -/
def ScopeEntry.textsOf (role : Role) (es : List ScopeEntry) : List String :=
  (es.filter (·.role == role)).map text

/-- Entries that share a unique exactly when they share a spelling. -/
def ScopeEntry.Interned (es : List ScopeEntry) : Prop :=
  ∀ e ∈ es, ∀ f ∈ es, e.unique = f.unique ↔ e.text = f.text

section

variable {es : List ScopeEntry} (h : Interned es)

include h

theorem ScopeEntry.Interned.nodup_iff (role : Role) :
    (uniquesOf role es).Nodup ↔ (textsOf role es).Nodup := by
  rw [uniquesOf, textsOf, List.Nodup, List.Nodup, List.pairwise_map, List.pairwise_map]
  refine List.Pairwise.iff_of_mem ?_
  intro e f he hf
  exact not_congr (h e (List.mem_filter.mp he).1 f (List.mem_filter.mp hf).1)

theorem ScopeEntry.Interned.count_eq (role : Role) {e : ScopeEntry} (he : e ∈ es) :
    (uniquesOf role es).count e.unique = (textsOf role es).count e.text := by
  rw [uniquesOf, textsOf, List.count_eq_countP, List.count_eq_countP, List.countP_map,
    List.countP_map]
  refine List.countP_congr ?_
  intro f hf
  simp only [Function.comp, beq_iff_eq]
  exact h f (List.mem_filter.mp hf).1 e he

theorem ScopeEntry.Interned.mem_iff (role : Role) {e : ScopeEntry} (he : e ∈ es) :
    e.unique ∈ uniquesOf role es ↔ e.text ∈ textsOf role es := by
  rw [← List.count_pos_iff, ← List.count_pos_iff, h.count_eq role he]

theorem ScopeEntry.Interned.unbound_iff :
    (∀ unique ∈ uniquesOf .free es, unique ∉ uniquesOf .binder es) ↔
      ∀ text ∈ textsOf .free es, text ∉ textsOf .binder es := by
  rw [uniquesOf, textsOf, List.forall_mem_map, List.forall_mem_map]
  refine forall₂_congr ?_
  intro e he
  exact not_congr (h.mem_iff .binder (List.mem_filter.mp he).1)

end

/-! ## The entries of a tree -/

namespace Scope

theorem mem_addAll {a b : Counts} {p : ScopeEntry × Nat} (h : p ∈ addAll a b) :
    (∃ q ∈ a, p.1 = q.1) ∨ ∃ q ∈ b, p.1 = q.1 := by
  induction b generalizing a with
  | nil => exact .inl ⟨p, h, rfl⟩
  | cons x b ih =>
    rcases ih h with ⟨q, hq, hp⟩ | ⟨q, hq, hp⟩
    · rcases mem_add hq with hx | ⟨y, hy, hqy⟩
      · exact .inr ⟨x, List.mem_cons_self, hp.trans hx⟩
      · exact .inl ⟨y, hy, hp.trans hqy⟩
    · exact .inr ⟨q, List.mem_cons_of_mem x hq, hp⟩

end Scope

/-- What is stored is among what was collected, spellings included. -/
theorem ScopeInfo.Collects.mem_counts {info : ScopeInfo} {es : List ScopeEntry}
    (h : Collects info es) : ∀ p ∈ info.counts, p.1 ∈ es := by
  induction h with
  | empty => exact List.forall_mem_nil _
  | singleton e => exact List.forall_mem_singleton.mpr List.mem_cons_self
  | combine ha hb iha ihb =>
    intro p hp
    rcases Scope.mem_addAll hp with ⟨q, hq, heq⟩ | ⟨q, hq, heq⟩
    · rw [heq]
      exact List.mem_append_left _ (iha q hq)
    · rw [heq]
      exact List.mem_append_right _ (ihb q hq)

theorem ScopeInfo.Collects.mem_of_mem_toList {info : ScopeInfo} {es : List ScopeEntry}
    (h : Collects info es) {e : ScopeEntry} (he : e ∈ info.toList) : e ∈ es := by
  obtain ⟨p, hp, hmem⟩ := List.mem_flatMap.mp he
  rw [(List.mem_replicate.mp hmem).2]
  exact h.mem_counts p hp

/-! ## The check of what is read -/

namespace Phrase

/-- The tree of an answer that is one. -/
def tree? : (p : Phrase) → p.Answer → Option Tree
  | program => fun a => some (.program a)
  | term => fun t => some (.term t)
  | type => fun t => some (.type t)
  | kind => fun k => some (.kind k)
  | constant => fun _ => none

variable {p : Phrase}

theorem names_of_tree? {a : p.Answer} {t : Tree} (h : p.tree? a = some t) :
    p.names a = t.sites.map fun e => e.name.name := by
  cases p with
  | program | term | type | kind =>
    cases h
    rfl
  | constant => cases h

/-- In a tree that was just read, uniques are shared exactly when spellings are. -/
theorem interned_of_ok {maxDepth : Nat} {supply : Supply} {label src : String} {a : p.Answer}
    {t : Tree} (h : (parseWith maxDepth supply p.rule label src).result = .ok a)
    (ht : p.tree? a = some t) : Interned t.sites := by
  obtain ⟨n⟩ := supply
  obtain ⟨-, s, hwhole⟩ := parseWith_eq_ok_iff.mp h
  obtain ⟨hrule, -⟩ := whole_eq_ok_iff.mp hwhole
  obtain ⟨-, ts, -, -, hnames⟩ := StartRule.names_of_ok (r := .phrase p) hrule
  have hsites : t.sites.map (fun e => e.name.name) =
      (Interner.nameAll (ts.map Token.text) (.seen n [])).1 :=
    (names_of_tree? ht).symm.trans (congrArg Prod.fst hnames)
  have hmem : ∀ e ∈ t.sites, e.name.name ∈
      (Interner.nameAll (ts.map Token.text) (.seen n [])).1 := by
    intro e he
    rw [← hsites]
    exact List.mem_map_of_mem he
  intro e he f hf
  exact Interner.nameAll_unique_inj (hmem e he) (hmem f hf)

/-- On a tree that was just read, the check of its scope info is a check of spellings. With the
    spellings of the binders and of the occurrences as lists, it passes when no binder's spelling
    is repeated and none is that of an occurrence; it reports a duplicate when a binder's spelling
    is repeated, with the number of binders spelled like the reported one; and in the remaining
    case it reports an occurrence. -/
theorem parse_check_spelling (p : Phrase) (maxDepth : Nat) (supply : Supply) (label src : String)
    (a : p.Answer) (t : Tree) (h : (parseWith maxDepth supply p.rule label src).result = .ok a)
    (ht : p.tree? a = some t) :
    let bound := textsOf .binder t.sites
    let used := textsOf .free t.sites
    (t.scopeInfo.check = .ok () ↔ bound.Nodup ∧ ∀ text ∈ used, text ∉ bound) ∧
      ((∃ x n, t.scopeInfo.check = .error (.duplicateBinder x n)) ↔ ¬ bound.Nodup) ∧
      (∀ x n, t.scopeInfo.check = .error (.duplicateBinder x n) →
        n = bound.count x.name.text ∧ 2 ≤ n) ∧
      ((∃ x, t.scopeInfo.check = .error (.capturedFree x)) ↔
        bound.Nodup ∧ ∃ text ∈ used, text ∈ bound) := by
  intro bound used
  have hinterned : Interned t.sites := interned_of_ok h ht
  have hbuilt := t.collects.built
  have hbound : (∀ unique, t.scopeInfo.boundCount unique ≤ 1) ↔ bound.Nodup :=
    hbuilt.boundCount_le_one_iff.trans (hinterned.nodup_iff .binder)
  have hfree : (∀ e ∈ t.scopeInfo.frees, t.scopeInfo.boundCount e.unique = 0) ↔
      ∀ text ∈ used, text ∉ bound := hbuilt.frees_unbound_iff.trans hinterned.unbound_iff
  refine ⟨?_, ?_, ?_, ?_⟩
  · rw [check_eq_ok_iff, hbound, hfree]
  · rw [exists_check_eq_duplicate_iff, hbound]
  · intro x n hcheck
    obtain ⟨e, hbinder, rfl, rfl, hmany⟩ := binder_of_check_eq_duplicate hcheck
    have hsite : e ∈ t.sites := t.collects.mem_of_mem_toList (List.mem_filter.mp hbinder).1
    exact ⟨hbuilt.boundCount.trans (hinterned.count_eq .binder hsite), hmany⟩
  · rw [exists_check_eq_captured_iff, hbound, hfree]
    push Not
    rfl

/-- In `(lam x (all x (type) x) [x y])` a term and a type are bound under one spelling, which makes
    a duplicate of two binders. -/
theorem shared_spelling_reported :
    let out := parseWith 4 ⟨0⟩ term.rule "t" "(lam x (all x (type) x) [x y])"
    ∃ t, out.result = .ok t ∧ ∃ x n,
      (Tree.term t).scopeInfo.check = .error (.duplicateBinder x n) ∧
        n = ["x", "x"].count x.name.text ∧ 2 ≤ n := by
  intro out
  have hbound : out.result.toOption.map (fun t => textsOf .binder (Term.sites t)) =
      some ["x", "x"] := by decide +kernel
  cases hresult : out.result with
  | error report =>
    rw [hresult] at hbound
    cases hbound
  | ok t =>
    rw [hresult] at hbound
    have hbound : textsOf .binder (Tree.term t).sites = ["x", "x"] := Option.some.inj hbound
    obtain ⟨-, hduplicate, hcount, -⟩ :=
      parse_check_spelling term 4 ⟨0⟩ "t" _ t (.term t) hresult rfl
    rw [hbound] at hduplicate hcount
    obtain ⟨x, n, hcheck⟩ := hduplicate.mpr (by decide)
    exact ⟨t, rfl, x, n, hcheck, hcount x n hcheck⟩

end Phrase

end FOmega
