import Mathlib.Data.List.Nodup
import FOmega.Scope.Collect
import FOmega.Proofs.Regroup
import FOmega.Proofs.Renaming

/-!
# Renamed trees are consistently scoped

Collecting the scope info of a tree and walking over its sites see the same entries. The info merges
entries that differ in spelling only, but it never loses an occurrence, and it merges nothing where
all uniques differ. Renaming numbers the sites apart, so the info of a renamed tree holds each site
once, and is consistent.
-/

namespace FOmega

/-! ## Collecting and walking see the same entries -/

namespace ScopeInfo

/-- Infos that are put together from entries, with those entries in order. -/
inductive Collects : ScopeInfo → List ScopeEntry → Prop where
  | empty : Collects empty []
  | singleton (e : ScopeEntry) : Collects (singleton e) [e]
  | combine {a b : ScopeInfo} {es fs : List ScopeEntry} (ha : Collects a es) (hb : Collects b fs) :
    Collects (a.combine b) (es ++ fs)

/-- Adding up the infos of a list after others collects the entries after the others. -/
theorem Collects.foldl {α : Type} {info : α → ScopeInfo} {entries : α → List ScopeEntry}
    {l : List α} (h : ∀ x ∈ l, Collects (info x) (entries x)) {a : ScopeInfo}
    {es : List ScopeEntry} (ha : Collects a es) :
    Collects ((l.map info).foldl ScopeInfo.combine a) (es ++ l.flatMap entries) := by
  induction l generalizing a es with
  | nil =>
    rw [List.flatMap_nil, List.append_nil]
    exact ha
  | cons x l ih =>
    have hx := ha.combine (h x List.mem_cons_self)
    rw [List.flatMap_cons, ← List.append_assoc]
    exact ih (fun y hy => h y (List.mem_cons_of_mem x hy)) hx

theorem Collects.sum {α : Type} {info : α → ScopeInfo} {entries : α → List ScopeEntry}
    {l : List α} (h : ∀ x ∈ l, Collects (info x) (entries x)) :
    Collects (ScopeInfo.sum (l.map info)) (l.flatMap entries) :=
  Collects.foldl h .empty

end ScopeInfo

open ScopeInfo

theorem Ty.scopeInfos_eq_map (ts : List Ty) : Ty.scopeInfos ts = ts.map Ty.scopeInfo := by
  induction ts with
  | nil => rfl
  | cons t ts ih => rw [Ty.scopeInfos, ih, List.map_cons]

theorem Term.scopeInfos_eq_map (ts : List Term) : Term.scopeInfos ts = ts.map Term.scopeInfo := by
  induction ts with
  | nil => rfl
  | cons t ts ih => rw [Term.scopeInfos, ih, List.map_cons]

theorem Kind.collects (k : Kind) : Collects k.scopeInfo [] := by
  rw [k.scopeInfo_eq_empty]
  exact .empty

theorem Ty.collects (t : Ty) : Collects t.scopeInfo t.sites := by
  induction t with
  | lam m x k body ih | all m x k body ih =>
    exact ((Collects.singleton _).combine k.collects).combine ih
  | ifix m d e ihd ihe | app m d e ihd ihe | fn m d e ihd ihe => exact ihd.combine ihe
  | var m x => exact .singleton _
  | builtin m b => exact .empty
  | prod m items ih =>
    rw [Ty.scopeInfo, Ty.scopeInfos_eq_map, Ty.sites, Ty.allSites_eq_flatMap]
    exact Collects.sum ih

theorem Term.collects (t : Term) : Collects t.scopeInfo t.sites := by
  induction t with
  | lam m x type body ih =>
    rw [Term.sites, ← List.cons_append]
    exact ((Collects.singleton _).combine type.collects).combine ih
  | abs m x k body ih => exact ((Collects.singleton _).combine k.collects).combine ih
  | iwrap m pattern arg t ih => exact (pattern.collects.combine arg.collects).combine ih
  | unwrap m t ih | proj m index t ih => exact ih
  | apply m f arg ihf iharg => exact ihf.combine iharg
  | inst m t type ih => exact ih.combine type.collects
  | error m type => exact type.collects
  | var m x => exact .singleton _
  | constant m c | builtin m b => exact .empty
  | prod m items ih =>
    rw [Term.scopeInfo, Term.scopeInfos_eq_map, Term.sites, Term.allSites_eq_flatMap]
    exact Collects.sum ih

theorem Tree.collects (t : Tree) : Collects t.scopeInfo t.sites := by
  cases t with
  | kind k => exact k.collects
  | type t => exact t.collects
  | term t => exact t.collects
  | program p => exact p.term.collects

/-! ## No occurrence is lost -/

namespace Scope

theorem total_add (e : ScopeEntry) (n : Nat) (counts : Counts) :
    total (add e n counts) = total counts + n := by
  induction counts with
  | nil => exact Nat.add_comm n 0
  | cons p rest ih =>
    obtain ⟨x, m⟩ := p
    unfold add
    split
    · rw [total, total, Nat.add_comm]
    · rw [total, total]
      omega
    · rw [total, total, ih]
      omega

theorem total_addAll (a b : Counts) : total (addAll a b) = total a + total b := by
  induction b generalizing a with
  | nil => rfl
  | cons p rest ih =>
    have hrest := ih (add p.1 p.2 a)
    rw [total_add] at hrest
    rw [total, addAll, List.foldl_cons]
    exact hrest.trans (Nat.add_assoc _ _ _)

end Scope

theorem ScopeInfo.Collects.size {info : ScopeInfo} {es : List ScopeEntry} (h : Collects info es) :
    info.size = es.length := by
  induction h with
  | empty => rfl
  | singleton e => rfl
  | combine ha hb iha ihb =>
    rw [List.length_append, ← iha, ← ihb]
    exact Scope.total_addAll _ _

/-! ## Entries apart are kept apart -/

/-- Entries with different uniques are different in the order of entries. -/
theorem ScopeEntry.compare_ne_eq {e f : ScopeEntry} (h : e.unique ≠ f.unique) :
    compare e f ≠ .eq := by
  intro heq
  have horder : (compare e.role f.role).then (((compare e.name.level f.name.level).then
      (compare e.unique f.unique)).then (compare e.mark f.mark)) = .eq := heq
  simp only [Ordering.then_eq_eq] at horder
  exact h (Nat.compare_eq_eq.mp horder.2.1.2)

namespace Scope

/-- Counted entries no two of which share a unique. -/
def Apart (counts : Counts) : Prop :=
  (counts.map fun p => p.1.unique).Nodup

theorem add_perm {e : ScopeEntry} {counts : Counts} (h : ∀ p ∈ counts, e.unique ≠ p.1.unique)
    (n : Nat) : (add e n counts).Perm ((e, n) :: counts) := by
  induction counts with
  | nil => exact List.Perm.refl _
  | cons p rest ih =>
    obtain ⟨x, m⟩ := p
    obtain ⟨hx, hrest⟩ := List.forall_mem_cons.mp h
    unfold add
    split
    · exact List.Perm.refl _
    · next heq => exact absurd heq (ScopeEntry.compare_ne_eq hx)
    · exact ((ih hrest).cons (x, m)).trans (List.Perm.swap (e, n) (x, m) rest)

theorem addAll_perm {a b : Counts} (h : Apart (a ++ b)) : (addAll a b).Perm (a ++ b) := by
  induction b generalizing a with
  | nil =>
    rw [List.append_nil]
    exact List.Perm.refl a
  | cons p rest ih =>
    have hmiddle : (p :: (a ++ rest)).Perm (a ++ p :: rest) := List.perm_middle.symm
    have hcons : Apart (p :: (a ++ rest)) := (hmiddle.map _).nodup_iff.mpr h
    have hfresh : ∀ q ∈ a, p.1.unique ≠ q.1.unique := by
      intro q hq heq
      refine (List.nodup_cons.mp hcons).1 ?_
      show p.1.unique ∈ _
      rw [heq]
      exact List.mem_map_of_mem (List.mem_append_left rest hq)
    have hadd : (add p.1 p.2 a ++ rest).Perm (p :: (a ++ rest)) :=
      (add_perm hfresh p.2).append_right rest
    have hapart : Apart (add p.1 p.2 a ++ rest) := (hadd.map _).nodup_iff.mpr hcons
    exact (ih hapart).trans (hadd.trans hmiddle)

end Scope

/-- Where no two entries share a unique, the info counts each of them once. -/
theorem ScopeInfo.Collects.counts_perm {info : ScopeInfo} {es : List ScopeEntry}
    (h : Collects info es) (hapart : (es.map ScopeEntry.unique).Nodup) :
    info.counts.Perm (es.map fun e => (e, 1)) := by
  induction h with
  | empty => exact List.Perm.refl _
  | singleton e => exact List.Perm.refl _
  | @combine a b es fs ha hb iha ihb =>
    rw [List.map_append] at hapart
    obtain ⟨hes, hfs, -⟩ := List.nodup_append.mp hapart
    have hperm : (a.counts ++ b.counts).Perm ((es ++ fs).map fun e => (e, 1)) := by
      rw [List.map_append]
      exact (iha hes).append (ihb hfs)
    refine (Scope.addAll_perm ?_).trans hperm
    refine (hperm.map fun p => p.1.unique).nodup_iff.mpr ?_
    rw [List.map_map, List.map_append]
    exact hapart

/-- Where no two entries share a unique, the info holds just them. -/
theorem ScopeInfo.Collects.toList_perm {info : ScopeInfo} {es : List ScopeEntry}
    (h : Collects info es) (hapart : (es.map ScopeEntry.unique).Nodup) : info.toList.Perm es := by
  have honce : (es.map fun e => (e, 1)).flatMap (fun p => List.replicate p.2 p.1) = es := by
    rw [List.flatMap_map]
    exact List.flatMap_singleton' es
  have hperm := (h.counts_perm hapart).flatMap_right fun p => List.replicate p.2 p.1
  rw [honce] at hperm
  exact hperm

/-! ## Entries apart are consistent -/

namespace ScopeInfo

variable {info : ScopeInfo}

theorem boundCount_le_one (h : (info.toList.map ScopeEntry.unique).Nodup) (unique : Nat) :
    info.boundCount unique ≤ 1 := by
  have hbinders : (info.binders.map ScopeEntry.unique).Nodup :=
    h.sublist (List.filter_sublist.map ScopeEntry.unique)
  have hcount := List.nodup_iff_count.mp hbinders unique
  rw [List.count_eq_countP, List.countP_map] at hcount
  exact hcount

/-- No binder shares its unique with a free occurrence. -/
theorem boundCount_free (h : (info.toList.map ScopeEntry.unique).Nodup) {e : ScopeEntry}
    (he : e ∈ info.frees) : info.boundCount e.unique = 0 := by
  refine List.countP_eq_zero.mpr ?_
  intro f hf hunique
  obtain ⟨he, hfree⟩ := List.mem_filter.mp he
  obtain ⟨hf, hbinder⟩ := List.mem_filter.mp hf
  have hsame : f = e := List.inj_on_of_nodup_map h hf he (beq_iff_eq.mp hunique)
  rw [beq_iff_eq] at hfree hbinder
  rw [hsame, hfree] at hbinder
  cases hbinder

theorem check_eq_ok (h : (info.toList.map ScopeEntry.unique).Nodup) : info.check = .ok () :=
  check_eq_ok_iff.mpr ⟨boundCount_le_one h, fun _ => boundCount_free h⟩

end ScopeInfo

/-! ## The sites of a renamed tree -/

variable {σ : Type}

theorem Registrar.names_answer (r : Registrar σ) (calls : List (Role × ScopedName)) (memory : σ) :
    (r.answer calls memory).1.map (fun e => (e.role, e.name)) = calls := by
  induction calls generalizing memory with
  | nil => rfl
  | cons call calls ih =>
    simp only [Registrar.answer, List.map_cons, ih]

theorem Rename.uniques_calls (n : Nat) (es : List ScopeEntry) :
    (Rename.calls n es).map (fun call => call.2.unique) = List.range' n es.length := by
  rw [Rename.calls, List.map_map, ← List.zipIdx_map_snd]
  rfl

/-- The sites of a renamed tree carry the uniques of the supply in order. -/
theorem Tree.uniques_renameWith (r : Registrar σ) (t : Tree) (n : Nat) (memory : σ) :
    (t.renameWith r ⟨n⟩ memory).tree.sites.map ScopeEntry.unique =
      List.range' n t.sites.length := by
  rw [← Rename.uniques_calls, ← r.names_answer (Rename.calls n t.sites) memory,
    ← t.sites_renameWith r n memory, List.map_map]
  rfl

theorem Tree.nodup_uniques_renameWith (r : Registrar σ) (t : Tree) (n : Nat) (memory : σ) :
    ((t.renameWith r ⟨n⟩ memory).tree.sites.map ScopeEntry.unique).Nodup := by
  rw [t.uniques_renameWith r n memory]
  exact List.nodup_range'

/-! ## Marks and records -/

/-- An entry whose mark says what it is: its role, with its own name. -/
def ScopeEntry.Tagged (e : ScopeEntry) : Prop :=
  match e.role with
  | .binder => e.mark = .binder e.name
  | .free => e.mark = .free e.name

theorem Registrar.tagged_roleMark (role : Role) (name : ScopedName) :
    ScopeEntry.Tagged ⟨role, name, Registrar.roleMark role name⟩ := by
  cases role with
  | binder => exact rfl
  | free => exact rfl

/-- A registrar that answers with role and name tags every entry. -/
theorem Registrar.tagged_answer {r : Registrar σ}
    (h : ∀ role name memory, (r.register role name memory).1 = roleMark role name)
    (calls : List (Role × ScopedName)) (memory : σ) :
    ∀ e ∈ (r.answer calls memory).1, e.Tagged := by
  induction calls generalizing memory with
  | nil => exact List.forall_mem_nil _
  | cons call calls ih =>
    obtain ⟨role, name⟩ := call
    have hhead : ScopeEntry.Tagged ⟨role, name, (r.register role name memory).1⟩ := by
      rw [h]
      exact tagged_roleMark role name
    exact List.forall_mem_cons.mpr ⟨hhead, ih (r.register role name memory).2⟩

/-- Recording appends the names of the entries it makes, those of each role to their own list. -/
theorem Registrar.record_answer (calls : List (Role × ScopedName)) (record : Record) :
    (recording.answer calls record).2 =
      ⟨record.binders ++ ((recording.answer calls record).1.filter (·.role == .binder)).map (·.name),
        record.frees ++ ((recording.answer calls record).1.filter (·.role == .free)).map (·.name)⟩ := by
  induction calls generalizing record with
  | nil =>
    simp [Registrar.answer]
  | cons call calls ih =>
    obtain ⟨role, name⟩ := call
    have hrest := ih (record.push role name)
    cases role with
    | binder =>
      refine hrest.trans ?_
      simp [Registrar.answer, recording, Record.push]
    | free =>
      refine hrest.trans ?_
      simp [Registrar.answer, recording, Record.push]

/-! ## The scope info of a renamed tree -/

section

variable (r : Registrar σ) (t : Tree) (n : Nat) (memory : σ)

theorem Tree.counts_renameWith_perm :
    (t.renameWith r ⟨n⟩ memory).tree.scopeInfo.counts.Perm
      ((t.renameWith r ⟨n⟩ memory).tree.sites.map fun e => (e, 1)) :=
  (Tree.collects _).counts_perm (t.nodup_uniques_renameWith r n memory)

theorem Tree.toList_renameWith_perm :
    (t.renameWith r ⟨n⟩ memory).tree.scopeInfo.toList.Perm
      (t.renameWith r ⟨n⟩ memory).tree.sites :=
  (Tree.collects _).toList_perm (t.nodup_uniques_renameWith r n memory)

theorem Tree.length_sites_renameWith :
    (t.renameWith r ⟨n⟩ memory).tree.sites.length = t.sites.length := by
  have hlength := congrArg List.length (t.uniques_renameWith r n memory)
  rw [List.length_map, List.length_range'] at hlength
  exact hlength

theorem Tree.tagged_renameWith
    (h : ∀ role name memory, (r.register role name memory).1 = Registrar.roleMark role name) :
    ∀ p ∈ (t.renameWith r ⟨n⟩ memory).tree.scopeInfo.counts, p.1.Tagged := by
  intro p hp
  have hmem := (t.counts_renameWith_perm r n memory).mem_iff.mp hp
  obtain ⟨e, he, rfl⟩ := List.mem_map.mp hmem
  rw [t.sites_renameWith r n memory] at he
  exact Registrar.tagged_answer h _ memory e he

end

/-- The scope info of a renamed tree is consistent, counts every entry once and no unique twice, and
    has as many entries as the tree had before and as the supply gave uniques. Where the registrar
    tags or records, each entry is tagged as what it is; what a record gains are the names of the
    entries, up to their order. -/
theorem Tree.renameWith_consistent (t : Tree) (supply : Supply) :
    (∀ {σ : Type} (r : Registrar σ) (memory : σ),
      let out := t.renameWith r supply memory
      let info := out.tree.scopeInfo
      info.check = .ok () ∧ (∀ p ∈ info.counts, p.2 = 1) ∧
        (info.counts.map fun p => p.1.unique).Nodup ∧ t.scopeInfo.size = info.size ∧
          out.supply.issued = supply.issued + info.size) ∧
      (∀ p ∈ (t.renameWith .tagging supply ()).tree.scopeInfo.counts, p.1.Tagged) ∧
      ∀ record : Registrar.Record,
        let out := t.renameWith .recording supply record
        let info := out.tree.scopeInfo
        (∀ p ∈ info.counts, p.1.Tagged) ∧
          ∃ binders frees : List ScopedName,
            out.memory = ⟨record.binders ++ binders, record.frees ++ frees⟩ ∧
              (info.binders.map (·.name)).Perm binders ∧ (info.frees.map (·.name)).Perm frees := by
  obtain ⟨n⟩ := supply
  refine ⟨?_, ?_, ?_⟩
  · intro σ r memory out info
    have hcounts := t.counts_renameWith_perm r n memory
    have huniques := t.nodup_uniques_renameWith r n memory
    have hsize : info.size = t.sites.length :=
      (Tree.collects out.tree).size.trans (t.length_sites_renameWith r n memory)
    refine ⟨?_, ?_, ?_, ?_, ?_⟩
    · have hperm := (t.toList_renameWith_perm r n memory).map ScopeEntry.unique
      exact ScopeInfo.check_eq_ok (hperm.nodup_iff.mpr huniques)
    · intro p hp
      obtain ⟨e, -, rfl⟩ := List.mem_map.mp (hcounts.mem_iff.mp hp)
      rfl
    · refine (hcounts.map fun p => p.1.unique).nodup_iff.mpr ?_
      rw [List.map_map]
      exact huniques
    · rw [hsize, t.collects.size]
    · rw [hsize]
      exact congrArg Supply.issued (t.supply_renameWith r n memory)
  · exact t.tagged_renameWith .tagging n () fun _ _ _ => rfl
  · intro record out info
    have hperm := t.toList_renameWith_perm .recording n record
    have hsites := t.sites_renameWith .recording n record
    refine ⟨t.tagged_renameWith .recording n record fun _ _ _ => rfl, _, _, ?_,
      (hperm.filter _).map _, (hperm.filter _).map _⟩
    rw [hsites]
    exact (t.memory_renameWith .recording n record).trans (Registrar.record_answer _ record)

end FOmega
