import FOmega.Proofs.Verdict
import Mathlib.Order.Bounds.Basic

/-!
# Whom the check names

The entries of an info stand in order, so the first entry with a property is the least one. Bindings
stand in the order of uniques and take the name of the first binder counted, so a duplicate is
reported for the least unique that several binders carry, under the name of the least of these
binders; since types come before terms, that is the name of a type if one of them is. A captured
occurrence is the least one. None of this looks at spellings, so equal infos get verdicts that are
equal up to the spelling of the name.
-/

namespace FOmega

namespace ScopeInfo

open Scope ScopeEntry

variable {info other : ScopeInfo} {es : List ScopeEntry} {e f : ScopeEntry} {b : Binding}
  {role : Role} {unique : Nat} {P : ScopeEntry → Prop}

/-! ## The least entry of an info -/

/-- Of the entries of an info that have a property, a least one in the order of entries. -/
structure LeastEntry (info : ScopeInfo) (P : ScopeEntry → Prop) (e : ScopeEntry) : Prop where
  mem : e ∈ info.toList
  holds : P e
  least : ∀ f ∈ info.toList, P f → (compare e f).isLE

/-- Entries in order, where equal ones may follow each other. -/
def Sorted (es : List ScopeEntry) : Prop :=
  es.Pairwise fun e f => (compare e f).isLE

theorem sorted_toList (info : ScopeInfo) : Sorted info.toList := by
  rw [toList, Sorted, List.pairwise_flatMap]
  refine ⟨?_, info.increasing.imp ?_⟩
  · intro p _
    exact List.pairwise_replicate.mpr (.inr (by simp))
  · intro p q hlt x hx y hy
    rw [List.eq_of_mem_replicate hx, List.eq_of_mem_replicate hy, hlt]
    rfl

/-- The first of sorted entries with a property is the least one. -/
theorem Sorted.find?_le {p : ScopeEntry → Bool} (h : Sorted es) (he : es.find? p = some e) :
    ∀ f ∈ es, p f = true → (compare e f).isLE := by
  obtain ⟨-, before, after, rfl, hbefore⟩ := List.find?_eq_some_iff_append.mp he
  have hafter := (List.pairwise_cons.mp (List.pairwise_append.mp h).2.1).1
  intro f hf hp
  simp only [List.mem_append, List.mem_cons] at hf
  rcases hf with hf | rfl | hf
  · have hnot := hbefore f hf
    simp [hp] at hnot
  · simp
  · exact hafter f hf

/-! ## The culprits -/

theorem carries_iff : carries role unique e = true ↔ e.unique = unique ∧ e.role = role := by
  simp [carries]

theorem boundCount_eq_countP (info : ScopeInfo) (unique : Nat) :
    info.boundCount unique = info.toList.countP (carries .binder unique) := by
  rw [boundCount, binders, List.countP_filter]
  rfl

/-- A duplicate has the least unique carried by several binders, and the name of the least of
    these. -/
theorem duplicate?_least (h : info.duplicate? = some b) :
    IsLeast {unique | 1 < info.boundCount unique} b.unique ∧
      ∃ e, e.unique = b.unique ∧ e.name = b.name ∧
        info.LeastEntry (carries .binder b.unique · = true) e := by
  refine ⟨⟨(duplicate?_count h).2, fun unique => duplicate?_unique_le h⟩, ?_⟩
  obtain ⟨e, he, hname⟩ := duplicate?_name h
  have hunique := List.find?_some he
  rw [beq_iff_eq] at hunique
  obtain ⟨hmem, hrole⟩ := List.mem_filter.mp (List.mem_of_find?_eq_some he)
  refine ⟨e, hunique, hname.symm, hmem, carries_iff.mpr ⟨hunique, beq_iff_eq.mp hrole⟩, ?_⟩
  intro f hf hcarries
  obtain ⟨hunique, hbinder⟩ := carries_iff.mp hcarries
  have hbinders : f ∈ info.binders := List.mem_filter.mpr ⟨hf, beq_iff_eq.mpr hbinder⟩
  have hsorted : Sorted info.binders := info.sorted_toList.sublist List.filter_sublist
  exact hsorted.find?_le he f hbinders (beq_iff_eq.mpr hunique)

/-- A captured occurrence is the least one whose unique a binder carries. -/
theorem captured?_least (h : info.captured? = some e) :
    info.LeastEntry (fun f => f.role = .free ∧ 0 < info.boundCount f.unique) e := by
  rw [captured?_eq_find?, frees, List.find?_filter] at h
  have hholds := List.find?_some h
  simp only [beq_iff_eq, decide_eq_true_eq] at hholds
  refine ⟨List.mem_of_find?_eq_some h, hholds, ?_⟩
  intro f hf hcaptured
  exact info.sorted_toList.find?_le h f hf (by simpa using hcaptured)

/-- Types come before terms: the least of some entries of one role is a type if any of them is. -/
theorem level_eq_type_of_le (hrole : e.role = f.role) (hle : (compare e f).isLE)
    (hf : f.name.level = .type) : e.name.level = .type := by
  by_contra hterm
  have hterm : e.name.level = .term := by
    cases hlevel : e.name.level with
    | type => exact absurd hlevel hterm
    | term => rfl
  have hself : compare f.role f.role = .eq := Std.ReflCmp.compare_self
  have hlevels : compare Level.term Level.type = .gt := rfl
  rw [compare_eq_then, hrole, hself, hf, hterm, hlevels] at hle
  cases hle

/-! ## Equal infos -/

theorem beq_symm (h : (info == other) = true) : (other == info) = true :=
  beq_iff_count.mpr fun e => (beq_iff_count.mp h e).symm

theorem mem_toList_of_beq (h : (info == other) = true) (he : e ∈ info.toList) :
    ∃ f ∈ other.toList, (f == e) = true := by
  have hcount : info.toList.countP (· == e) = other.toList.countP (· == e) := by
    have htally := tally_congr (Blind.beq e) h
    rwa [tally_eq_countP, tally_eq_countP] at htally
  refine List.countP_pos_iff.mp ?_
  rw [← hcount]
  exact List.countP_pos_iff.mpr ⟨e, he, BEq.rfl⟩

theorem boundCount_congr (h : (info == other) = true) (unique : Nat) :
    info.boundCount unique = other.boundCount unique := by
  have htally := tally_congr (blind_carries .binder unique) h
  rw [tally_eq_countP, tally_eq_countP] at htally
  rw [boundCount_eq_countP, boundCount_eq_countP]
  exact htally

section

variable (hP : ∀ x y : ScopeEntry, (x == y) = true → P x → P y) (h : (info == other) = true)

include hP h

/-- The least entry of an info is not below that of an equal info. -/
theorem LeastEntry.le_of_beq (he : info.LeastEntry P e) (hf : other.LeastEntry P f) :
    (compare f e).isLE := by
  obtain ⟨g, hg, hge⟩ := mem_toList_of_beq h he.mem
  have hle := hf.least g hg (hP e g (BEq.symm hge) he.holds)
  rwa [Std.TransCmp.congr_right (ScopeEntry.compare_eq_iff.mpr hge)] at hle

theorem LeastEntry.beq (he : info.LeastEntry P e) (hf : other.LeastEntry P f) :
    (e == f) = true := by
  refine ScopeEntry.compare_eq_iff.mp (Std.OrientedCmp.isLE_antisymm ?_ ?_)
  · exact hf.le_of_beq hP (beq_symm h) he
  · exact he.le_of_beq hP h hf

end

theorem name_beq (h : (e == f) = true) : (e.name == f.name) = true := by
  have hbeq : (e == f) = (e.role == f.role && (e.name == f.name && e.mark == f.mark)) := rfl
  rw [hbeq, Bool.and_eq_true, Bool.and_eq_true] at h
  exact h.2.1

/-- Two verdicts that agree up to the spelling of the name they give. -/
inductive SameVerdict : Except ScopeError Unit → Except ScopeError Unit → Prop where
  | ok : SameVerdict (.ok ()) (.ok ())
  | duplicate {x y : ScopedName} (count : Nat) (name : (x == y) = true) :
    SameVerdict (.error (.duplicateBinder x count)) (.error (.duplicateBinder y count))
  | captured {x y : ScopedName} (name : (x == y) = true) :
    SameVerdict (.error (.capturedFree x)) (.error (.capturedFree y))

theorem check_of_duplicate? (h : info.duplicate? = some b) :
    info.check = .error (.duplicateBinder b.name (info.boundCount b.unique)) := by
  rw [← (duplicate?_count h).1]
  exact check_eq_duplicate_iff.mpr ⟨b, h, rfl, rfl⟩

theorem check_of_captured? (hunique : info.duplicate? = none) (h : info.captured? = some e) :
    info.check = .error (.capturedFree e.name) := by
  rw [check_eq, hunique, h]

theorem duplicate?_eq_none_congr (h : (info == other) = true) :
    info.duplicate? = none ↔ other.duplicate? = none := by
  simp only [duplicate?_eq_none_iff, boundCount_congr h]

/-- Whether an occurrence is captured does not depend on its spelling. -/
theorem captured_of_beq (h : (e == f) = true)
    (he : e.role = .free ∧ 0 < info.boundCount e.unique) :
    f.role = .free ∧ 0 < info.boundCount f.unique := by
  have hblind := blind_carries .free e.unique e f h
  rw [carries_iff.mpr ⟨rfl, he.1⟩] at hblind
  obtain ⟨hunique, hrole⟩ := carries_iff.mp hblind.symm
  exact ⟨hrole, hunique ▸ he.2⟩

theorem captured?_eq_none_of_beq (h : (info == other) = true) (hnone : info.captured? = none) :
    other.captured? = none := by
  rw [captured?_eq_none_iff] at hnone ⊢
  intro e he
  obtain ⟨hmem, hrole⟩ := List.mem_filter.mp he
  obtain ⟨f, hf, hbeq⟩ := mem_toList_of_beq (beq_symm h) hmem
  by_contra hbound
  have hcaptured : f.role = .free ∧ 0 < other.boundCount f.unique :=
    captured_of_beq (BEq.symm hbeq) ⟨beq_iff_eq.mp hrole, Nat.pos_of_ne_zero hbound⟩
  have hzero := hnone f (List.mem_filter.mpr ⟨hf, beq_iff_eq.mpr hcaptured.1⟩)
  rw [boundCount_congr h] at hzero
  omega

/-- Equal infos get the same verdict. -/
theorem check_congr (h : (info == other) = true) : SameVerdict info.check other.check := by
  cases hdup : info.duplicate? with
  | some b =>
    cases hdup' : other.duplicate? with
    | none => simp [(duplicate?_eq_none_congr h).mpr hdup'] at hdup
    | some c =>
      obtain ⟨hmin, e, -, hname, hleast⟩ := duplicate?_least hdup
      obtain ⟨hmin', f, -, hname', hleast'⟩ := duplicate?_least hdup'
      simp only [boundCount_congr h] at hmin
      have hunique : b.unique = c.unique := hmin.unique hmin'
      rw [hunique] at hleast
      have hblind : ∀ x y : ScopeEntry, (x == y) = true →
          carries .binder c.unique x = true → carries .binder c.unique y = true := by
        intro x y hxy hx
        rwa [← blind_carries .binder c.unique x y hxy]
      rw [check_of_duplicate? hdup, check_of_duplicate? hdup', boundCount_congr h, hunique,
        ← hname, ← hname']
      exact .duplicate _ (name_beq (hleast.beq hblind h hleast'))
  | none =>
    have hdup' := (duplicate?_eq_none_congr h).mp hdup
    cases hcap : info.captured? with
    | some e =>
      cases hcap' : other.captured? with
      | none => simp [captured?_eq_none_of_beq (beq_symm h) hcap'] at hcap
      | some f =>
        have hleast := captured?_least hcap
        have hleast' := captured?_least hcap'
        simp only [boundCount_congr h] at hleast
        rw [check_of_captured? hdup hcap, check_of_captured? hdup' hcap']
        exact .captured (name_beq (hleast.beq (fun _ _ => captured_of_beq) h hleast'))
    | none =>
      simp only [check_eq, hdup, hcap, hdup', captured?_eq_none_of_beq h hcap]
      exact .ok

/-! ## The rule of the check -/

/-- The check decides its rule and names the right culprit. Counting for each unique the binders
    that carry it, whatever their level and mark, it passes when no unique has two binders and no
    free occurrence carries a unique that has one. If some unique has several binders, it reports
    the least such unique with the number of its binders, under the name of the least of them, which
    is a type if one of them is. Otherwise, if it fails, it names the least free occurrence whose
    unique is bound. Equal infos get the same verdict up to the spelling of the name. -/
theorem check_names_least_culprit (info : ScopeInfo) :
    let bound (unique : Nat) := info.toList.countP (carries .binder unique)
    let captured (e : ScopeEntry) := e.role = .free ∧ 0 < bound e.unique
    (info.check = .ok () ↔
      (∀ unique, bound unique < 2) ∧ ∀ e ∈ info.toList, ¬ captured e) ∧
    ((∃ unique, 2 ≤ bound unique) → ∃ e,
      IsLeast {unique | 2 ≤ bound unique} e.unique ∧
      info.LeastEntry (carries .binder e.unique · = true) e ∧
      info.check = .error (.duplicateBinder e.name (bound e.unique)) ∧
      ((∃ f ∈ info.toList, carries .binder e.unique f = true ∧ f.name.level = .type) →
        e.name.level = .type)) ∧
    ((∀ unique, bound unique < 2) → info.check ≠ .ok () → ∃ e,
      info.LeastEntry captured e ∧ info.check = .error (.capturedFree e.name)) ∧
    ∀ other : ScopeInfo, (info == other) = true → SameVerdict info.check other.check := by
  intro bound captured
  have hbound : bound = info.boundCount := funext fun unique =>
    (info.boundCount_eq_countP unique).symm
  have hcaptured : captured = fun e => e.role = .free ∧ 0 < info.boundCount e.unique := by
    simp only [captured, hbound]
  rw [hbound, hcaptured]
  refine ⟨?_, ?_, ?_, fun other => check_congr⟩
  · rw [check_eq_ok_iff]
    refine and_congr (forall_congr' fun unique => Nat.lt_succ_iff.symm) ?_
    simp [frees, List.mem_filter]
  · rintro ⟨unique, hmany⟩
    cases hdup : info.duplicate? with
    | none =>
      have hle := duplicate?_eq_none_iff.mp hdup unique
      omega
    | some b =>
      obtain ⟨hmin, e, hunique, hname, hleast⟩ := duplicate?_least hdup
      have hcheck := check_of_duplicate? hdup
      rw [← hunique] at hmin hleast hcheck
      rw [← hname] at hcheck
      refine ⟨e, hmin, hleast, hcheck, ?_⟩
      rintro ⟨f, hf, hcarries, htype⟩
      have hrole := (carries_iff.mp hleast.holds).2.trans (carries_iff.mp hcarries).2.symm
      exact level_eq_type_of_le hrole (hleast.least f hf hcarries) htype
  · intro hsingle hfails
    have hdup : info.duplicate? = none :=
      duplicate?_eq_none_iff.mpr fun unique => Nat.le_of_lt_succ (hsingle unique)
    cases hcap : info.captured? with
    | none => simp [check_eq, hdup, hcap] at hfails
    | some e => exact ⟨e, captured?_least hcap, check_of_captured? hdup hcap⟩

/-- A term and a type that are bound under one unique are a duplicate with the name of the type,
    whatever the spellings; a type captured by the binder of a term is reported as captured. -/
theorem check_names_type_binder :
    let x : ScopeEntry := ⟨.binder, ⟨.term, ⟨"x", 7⟩⟩, .absent⟩
    let a : ScopeEntry := ⟨.binder, ⟨.type, ⟨"a", 7⟩⟩, .notAName⟩
    let b : ScopeEntry := ⟨.binder, ⟨.type, ⟨"b", 7⟩⟩, .notAName⟩
    let z : ScopeEntry := ⟨.free, ⟨.type, ⟨"z", 7⟩⟩, .absent⟩
    let twice := ofList [x, a]
    let respelled := ofList [b, x]
    let once := ofList [z, x]
    ((∃ unique, 2 ≤ twice.toList.countP (carries .binder unique)) ∧
      ∃ e : ScopeEntry, e.name.level = .type ∧ twice.check = .error (.duplicateBinder e.name
        (twice.toList.countP (carries .binder e.unique)))) ∧
    ((twice == respelled) = true ∧ SameVerdict twice.check respelled.check) ∧
    (∀ unique, once.toList.countP (carries .binder unique) < 2) ∧ once.check ≠ .ok () ∧
      ∃ e : ScopeEntry, once.check = .error (.capturedFree e.name) := by
  intro x a b z twice respelled once
  obtain ⟨-, hduplicate, -, hsame⟩ := check_names_least_culprit twice
  obtain ⟨-, -, hcaptured, -⟩ := check_names_least_culprit once
  have hmany : 2 ≤ twice.toList.countP (carries .binder 7) := by decide
  obtain ⟨e, -, hleast, hcheck, htype⟩ := hduplicate ⟨7, hmany⟩
  have hunique : e.unique = 7 := by
    have hall : ∀ f ∈ twice.toList, f.unique = 7 := by decide
    exact hall e hleast.mem
  have hmem : a ∈ twice.toList := by
    have hentries : twice.toList = [a, x] := by decide
    simp [hentries]
  have hequal : (twice == respelled) = true := by decide
  have hsingle : ∀ unique, once.toList.countP (carries .binder unique) < 2 := by
    intro unique
    have hentries : once.toList = [x, z] := by decide
    by_cases h : 7 = unique <;>
      simp [hentries, carries, ScopeEntry.unique, ScopedName.unique, x, z, h]
  have hfails : once.check ≠ .ok () := by decide
  obtain ⟨f, -, hcheck'⟩ := hcaptured hsingle hfails
  refine ⟨⟨⟨7, hmany⟩, e, htype ⟨a, hmem, ?_, rfl⟩, hcheck⟩, ⟨hequal, hsame respelled hequal⟩,
    hsingle, hfails, f, hcheck'⟩
  rw [hunique]
  rfl

end ScopeInfo

end FOmega
