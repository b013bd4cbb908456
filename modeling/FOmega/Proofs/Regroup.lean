import FOmega.Scope.Check
import Mathlib.Data.List.Induction

/-!
# Binders regrouped by their uniques

The binders of an info stand in the order of entries, where those of one unique may be far apart. The
check counts them into bindings, which stand in the order of uniques. After every binder that was
counted, the binding of a unique has the name of the first binder with that unique and the number of
all of them. So the outcomes of the check can be told from how many binders carry each unique.
-/

namespace FOmega

namespace Scope

/-- Bindings of increasing uniques. -/
def Ascending (bound : List Binding) : Prop :=
  bound.Pairwise fun b c => b.unique < c.unique

variable {bound : List Binding} {b : Binding} {binders : List ScopeEntry} {e : ScopeEntry}
  {unique : Nat}

/-! ## One more binder -/

theorem unique_of_mem_note (h : b ∈ note e bound) :
    b.unique = e.unique ∨ ∃ c ∈ bound, b.unique = c.unique := by
  induction bound with
  | nil =>
    rw [note, List.mem_singleton] at h
    exact .inl (by rw [h])
  | cons c bound ih =>
    rw [note] at h
    split at h
    · rcases List.mem_cons.mp h with rfl | h
      · exact .inl rfl
      · exact .inr ⟨b, h, rfl⟩
    · rcases List.mem_cons.mp h with rfl | h
      · exact .inr ⟨c, List.mem_cons_self, rfl⟩
      · exact .inr ⟨b, List.mem_cons_of_mem c h, rfl⟩
    · rcases List.mem_cons.mp h with rfl | h
      · exact .inr ⟨b, List.mem_cons_self, rfl⟩
      · rcases ih h with h | ⟨d, hd, h⟩
        · exact .inl h
        · exact .inr ⟨d, List.mem_cons_of_mem c hd, h⟩

theorem Ascending.note (h : Ascending bound) (e : ScopeEntry) : Ascending (note e bound) := by
  induction bound with
  | nil => exact List.pairwise_singleton _ _
  | cons c bound ih =>
    obtain ⟨hc, hbound⟩ := List.pairwise_cons.mp h
    rw [Scope.note]
    split
    · next hlt =>
      have hlt : e.unique < c.unique := Nat.compare_eq_lt.mp hlt
      refine List.pairwise_cons.mpr ⟨List.forall_mem_cons.mpr ⟨hlt, ?_⟩, h⟩
      exact fun d hd => Nat.lt_trans hlt (hc d hd)
    · exact List.pairwise_cons.mpr ⟨hc, hbound⟩
    · next hgt =>
      have hgt : c.unique < e.unique := Nat.compare_eq_gt.mp hgt
      refine List.pairwise_cons.mpr ⟨?_, ih hbound⟩
      intro d hd
      rcases unique_of_mem_note hd with hd | ⟨f, hf, hd⟩
      · rwa [hd]
      · rw [hd]
        exact hc f hf

/-- One more binder raises the count of its unique or brings its binding; the others stay. -/
theorem find?_note (h : Ascending bound) (e : ScopeEntry) (unique : Nat) :
    (note e bound).find? (·.unique == unique) =
      if e.unique = unique then
        some ((bound.find? (·.unique == unique)).elim ⟨e.unique, e.name, 1⟩
          fun b => { b with count := b.count + 1 })
      else bound.find? (·.unique == unique) := by
  induction bound with
  | nil => by_cases he : e.unique = unique <;> simp [note, he]
  | cons c bound ih =>
    obtain ⟨hc, hbound⟩ := List.pairwise_cons.mp h
    rw [note]
    split
    · next hlt =>
      have hlt : e.unique < c.unique := Nat.compare_eq_lt.mp hlt
      by_cases he : e.unique = unique
      · -- All bindings here have greater uniques, so the binder's own is not among them.
        have hnone : (c :: bound).find? (·.unique == unique) = none := by
          refine List.find?_eq_none.mpr (List.forall_mem_cons.mpr ⟨?_, fun d hd => ?_⟩)
          · simp only [beq_iff_eq]
            omega
          · have hlt' := hc d hd
            simp only [beq_iff_eq]
            omega
        rw [if_pos he, hnone]
        simp [he]
      · rw [if_neg he, List.find?_cons_of_neg (by simpa using he)]
    · next heq =>
      have heq : e.unique = c.unique := Nat.compare_eq_eq.mp heq
      by_cases he : e.unique = unique
      · simp [he, ← heq]
      · simp [he, ← heq]
    · next hgt =>
      have hgt : c.unique < e.unique := Nat.compare_eq_gt.mp hgt
      rw [List.find?_cons, List.find?_cons, ih hbound]
      by_cases hcu : c.unique = unique
      · have he : e.unique ≠ unique := by omega
        simp [hcu, he]
      · have hcu : (c.unique == unique) = false := by simpa using hcu
        simp only [hcu]

/-! ## All binders -/

theorem regroup_concat (binders : List ScopeEntry) (e : ScopeEntry) :
    regroup (binders ++ [e]) = note e (regroup binders) := by
  rw [regroup, List.foldl_append]
  rfl

theorem ascending_regroup (binders : List ScopeEntry) : Ascending (regroup binders) := by
  induction binders using List.reverseRecOn with
  | nil => exact .nil
  | append_singleton binders e ih =>
    rw [regroup_concat]
    exact ih.note e

/-- The binding of a unique has the name of the first binder with it and the number of all. -/
theorem find?_regroup (binders : List ScopeEntry) (unique : Nat) :
    (regroup binders).find? (·.unique == unique) =
      (binders.find? (·.unique == unique)).map fun e =>
        ⟨unique, e.name, binders.countP (·.unique == unique)⟩ := by
  induction binders using List.reverseRecOn with
  | nil => rfl
  | append_singleton binders e ih =>
    rw [regroup_concat, find?_note (ascending_regroup binders), ih, List.find?_append,
      List.countP_append]
    by_cases he : e.unique = unique
    · cases hfirst : binders.find? (·.unique == unique) with
      | some f => simp [he]
      | none =>
        have hzero : binders.countP (·.unique == unique) = 0 :=
          List.countP_eq_zero.mpr (List.find?_eq_none.mp hfirst)
        simp [he, hzero]
    · cases hfirst : binders.find? (·.unique == unique) <;> simp [he]

/-- A unique has only one binding. -/
theorem Ascending.find?_of_mem (h : Ascending bound) (hb : b ∈ bound) :
    bound.find? (·.unique == b.unique) = some b := by
  induction bound with
  | nil => cases hb
  | cons c bound ih =>
    obtain ⟨hc, hbound⟩ := List.pairwise_cons.mp h
    rcases List.mem_cons.mp hb with rfl | hb
    · exact List.find?_cons_of_pos (by simp)
    · have hlt := hc b hb
      rw [List.find?_cons_of_neg (by simp only [beq_iff_eq]; omega)]
      exact ih hbound hb

theorem mem_regroup (h : b ∈ regroup binders) : ∃ e,
    binders.find? (·.unique == b.unique) = some e ∧ b.name = e.name ∧
      b.count = binders.countP (·.unique == b.unique) := by
  have hfind := (ascending_regroup binders).find?_of_mem h
  rw [find?_regroup, Option.map_eq_some_iff] at hfind
  obtain ⟨e, he, hb⟩ := hfind
  exact ⟨e, he, by rw [← hb], by rw [← hb]⟩

/-- A unique that some binder carries has a binding. -/
theorem exists_mem_regroup (h : 0 < binders.countP (·.unique == unique)) :
    ∃ b ∈ regroup binders, b.unique = unique ∧
      b.count = binders.countP (·.unique == unique) := by
  cases hfirst : binders.find? (·.unique == unique) with
  | none =>
    have hzero := List.countP_eq_zero.mpr (List.find?_eq_none.mp hfirst)
    omega
  | some e =>
    have hfind := find?_regroup binders unique
    rw [hfirst] at hfind
    exact ⟨_, List.mem_of_find?_eq_some hfind, rfl, rfl⟩

theorem isBound_regroup :
    isBound (regroup binders) unique = true ↔ 0 < binders.countP (·.unique == unique) := by
  rw [isBound, List.any_eq_true]
  constructor
  · rintro ⟨b, hb, hunique⟩
    obtain ⟨e, he, -, -⟩ := mem_regroup hb
    rw [beq_iff_eq] at hunique
    rw [hunique] at he
    have hcarries := List.find?_some he
    exact List.countP_pos_iff.mpr ⟨e, List.mem_of_find?_eq_some he, hcarries⟩
  · intro hpos
    obtain ⟨b, hb, hunique, -⟩ := exists_mem_regroup hpos
    exact ⟨b, hb, beq_iff_eq.mpr hunique⟩

end Scope

namespace ScopeInfo

open Scope

variable {info : ScopeInfo} {b : Binding} {x : ScopedName} {n : Nat}

/-- How many binders carry a unique. -/
def boundCount (info : ScopeInfo) (unique : Nat) : Nat :=
  info.binders.countP (·.unique == unique)

/-- The binding of the least unique that several binders carry. -/
def duplicate? (info : ScopeInfo) : Option Binding :=
  (regroup info.binders).find? fun b => 1 < b.count

/-- The least free occurrence that carries the unique of a binder. -/
def captured? (info : ScopeInfo) : Option ScopeEntry :=
  info.frees.find? fun e => isBound (regroup info.binders) e.unique

/-! ## Culprits -/

theorem duplicate?_count (h : info.duplicate? = some b) :
    b.count = info.boundCount b.unique ∧ 1 < info.boundCount b.unique := by
  obtain ⟨-, -, -, hcount⟩ := mem_regroup (List.mem_of_find?_eq_some h)
  have hmany := List.find?_some h
  rw [decide_eq_true_eq, hcount] at hmany
  exact ⟨hcount, hmany⟩

/-- A duplicate has the name of the first binder with its unique. -/
theorem duplicate?_name (h : info.duplicate? = some b) :
    ∃ e, info.binders.find? (·.unique == b.unique) = some e ∧ b.name = e.name := by
  obtain ⟨e, he, hname, -⟩ := mem_regroup (List.mem_of_find?_eq_some h)
  exact ⟨e, he, hname⟩

theorem duplicate?_unique_le (h : info.duplicate? = some b) {unique : Nat}
    (hmany : 1 < info.boundCount unique) : b.unique ≤ unique := by
  obtain ⟨c, hc, hunique, hcount⟩ := exists_mem_regroup (Nat.lt_trans Nat.one_pos hmany)
  obtain ⟨-, before, after, hbound, hbefore⟩ := List.find?_eq_some_iff_append.mp h
  have hafter : ∀ d ∈ after, b.unique < d.unique := by
    have hascending := ascending_regroup info.binders
    rw [hbound] at hascending
    exact (List.pairwise_cons.mp (List.pairwise_append.mp hascending).2.1).1
  rw [hbound] at hc
  simp only [List.mem_append, List.mem_cons] at hc
  rcases hc with hc | rfl | hc
  · -- what stands before the first duplicate is none
    have hnot : ¬ 1 < c.count := by simpa using hbefore c hc
    rw [hcount] at hnot
    exact absurd hmany hnot
  · exact Nat.le_of_eq hunique
  · rw [← hunique]
    exact Nat.le_of_lt (hafter c hc)

theorem duplicate?_eq_none_iff :
    info.duplicate? = none ↔ ∀ unique, info.boundCount unique ≤ 1 := by
  constructor
  · intro hnone unique
    refine Nat.le_of_not_lt ?_
    intro hmany
    obtain ⟨b, hb, -, hcount⟩ := exists_mem_regroup (Nat.lt_trans Nat.one_pos hmany)
    refine List.find?_eq_none.mp hnone b hb (decide_eq_true ?_)
    rw [hcount]
    exact hmany
  · intro hsingle
    cases hdup : info.duplicate? with
    | none => rfl
    | some b => exact absurd (duplicate?_count hdup).2 (Nat.not_lt.mpr (hsingle b.unique))

theorem captured?_eq_find? (info : ScopeInfo) :
    info.captured? = info.frees.find? fun e => 0 < info.boundCount e.unique := by
  refine congrArg (List.find? · info.frees) (funext fun e => ?_)
  rw [Bool.eq_iff_iff, isBound_regroup, decide_eq_true_iff]
  rfl

theorem captured?_eq_none_iff :
    info.captured? = none ↔ ∀ e ∈ info.frees, info.boundCount e.unique = 0 := by
  rw [captured?_eq_find?, List.find?_eq_none]
  simp only [decide_eq_true_eq, Nat.not_lt, Nat.le_zero_eq]

/-! ## The outcomes of the check -/

theorem check_eq (info : ScopeInfo) : info.check =
    match info.duplicate?, info.captured? with
    | some b, _ => .error (.duplicateBinder b.name b.count)
    | none, some e => .error (.capturedFree e.name)
    | none, none => .ok () := by
  cases hdup : info.duplicate? with
  | some b =>
    rw [duplicate?] at hdup
    simp only [check, hdup]
  | none =>
    rw [duplicate?] at hdup
    cases hcap : info.captured? <;> rw [captured?] at hcap <;> simp only [check, hdup, hcap]

theorem check_eq_ok_iff : info.check = .ok () ↔
    (∀ unique, info.boundCount unique ≤ 1) ∧
      ∀ e ∈ info.frees, info.boundCount e.unique = 0 := by
  rw [← duplicate?_eq_none_iff, ← captured?_eq_none_iff, check_eq]
  split <;> simp [*]

/-- A duplicate is reported under the name of its binding with the count of that. -/
theorem check_eq_duplicate_iff : info.check = .error (.duplicateBinder x n) ↔
    ∃ b, info.duplicate? = some b ∧ x = b.name ∧ n = b.count := by
  rw [check_eq]
  split
  · next b hdup =>
    rw [hdup]
    constructor
    · intro h
      cases h
      exact ⟨b, rfl, rfl, rfl⟩
    · rintro ⟨c, hc, rfl, rfl⟩
      cases hc
      rfl
  · next hdup _ => simp [hdup]
  · next hdup _ => simp [hdup]

/-- What is reported as a duplicate is the name of a binder, with the number of binders of its
    unique. -/
theorem binder_of_check_eq_duplicate (h : info.check = .error (.duplicateBinder x n)) :
    ∃ e ∈ info.binders, x = e.name ∧ n = info.boundCount e.unique ∧
      1 < info.boundCount e.unique := by
  obtain ⟨b, hdup, rfl, rfl⟩ := check_eq_duplicate_iff.mp h
  obtain ⟨hcount, hmany⟩ := duplicate?_count hdup
  obtain ⟨e, he, hname⟩ := duplicate?_name hdup
  have hunique := List.find?_some he
  rw [beq_iff_eq] at hunique
  rw [← hunique] at hcount hmany
  exact ⟨e, List.mem_of_find?_eq_some he, hname, hcount, hmany⟩

theorem exists_check_eq_duplicate_iff :
    (∃ x n, info.check = .error (.duplicateBinder x n)) ↔
      ¬ ∀ unique, info.boundCount unique ≤ 1 := by
  rw [← duplicate?_eq_none_iff]
  simp only [check_eq_duplicate_iff]
  cases hdup : info.duplicate? with
  | none => simp
  | some b => exact iff_of_true ⟨b.name, _, b, rfl, rfl, rfl⟩ (Option.some_ne_none b)

theorem exists_check_eq_captured_iff :
    (∃ x, info.check = .error (.capturedFree x)) ↔
      (∀ unique, info.boundCount unique ≤ 1) ∧
        ¬ ∀ e ∈ info.frees, info.boundCount e.unique = 0 := by
  rw [← duplicate?_eq_none_iff, ← captured?_eq_none_iff, check_eq]
  split <;> simp [*]

end ScopeInfo

end FOmega
