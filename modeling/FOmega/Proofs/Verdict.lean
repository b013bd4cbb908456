import FOmega.Proofs.Multiset

/-!
# The verdict on an info that was put together

The outcomes of the check look at how many binders and how many free occurrences carry each unique.
Both numbers are tallies, so for an info that was put together from entries they are told by the
entries.
-/

namespace FOmega

/-- The uniques of the entries of one role, in order. -/
def ScopeEntry.uniquesOf (role : Role) (es : List ScopeEntry) : List Nat :=
  (es.filter (·.role == role)).map unique

namespace ScopeInfo

open Scope ScopeEntry

variable {info : ScopeInfo} {es : List ScopeEntry} {role : Role} {unique : Nat}

/-- The entries of one role that carry one unique. -/
def carries (role : Role) (unique : Nat) (e : ScopeEntry) : Bool :=
  e.unique == unique && e.role == role

theorem blind_carries (role : Role) (unique : Nat) : Blind (carries role unique) := by
  intro e f h
  have horder := ScopeEntry.compare_eq_iff.mpr h
  rw [compare_eq_then] at horder
  simp only [Ordering.then_eq_eq] at horder
  obtain ⟨hrole, ⟨-, hunique⟩, -⟩ := horder
  have hrole : e.role = f.role := Role.rank_inj.mp (Nat.compare_eq_eq.mp hrole)
  rw [carries, carries, hrole, Nat.compare_eq_eq.mp hunique]

theorem count_uniquesOf : (uniquesOf role es).count unique = es.countP (carries role unique) := by
  rw [uniquesOf, List.count_eq_countP, List.countP_map, List.countP_filter]
  rfl

theorem countP_toList (h : Built info es) : info.toList.countP (carries role unique) =
    (uniquesOf role es).count unique := by
  rw [count_uniquesOf, ← h.tally (blind_carries role unique), tally_eq_countP]
  rfl

theorem Built.boundCount (h : Built info es) :
    info.boundCount unique = (uniquesOf .binder es).count unique := by
  rw [← countP_toList h, ScopeInfo.boundCount, binders, List.countP_filter]
  rfl

theorem Built.mem_frees (h : Built info es) :
    (∃ e ∈ info.frees, e.unique = unique) ↔ unique ∈ uniquesOf .free es := by
  have hcount : (info.frees.map ScopeEntry.unique).count unique =
      (uniquesOf .free es).count unique := by
    rw [← countP_toList h, ← count_uniquesOf]
    rfl
  rw [← List.count_pos_iff, ← hcount, List.count_pos_iff, List.mem_map]

theorem Built.boundCount_le_one_iff (h : Built info es) :
    (∀ unique, info.boundCount unique ≤ 1) ↔ (uniquesOf .binder es).Nodup := by
  rw [List.nodup_iff_count_le_one]
  exact forall_congr' fun unique => by rw [h.boundCount]

theorem Built.frees_unbound_iff (h : Built info es) :
    (∀ e ∈ info.frees, info.boundCount e.unique = 0) ↔
      ∀ unique ∈ uniquesOf .free es, unique ∉ uniquesOf .binder es := by
  constructor
  · intro hfree unique hmem
    obtain ⟨e, he, rfl⟩ := h.mem_frees.mpr hmem
    exact List.count_eq_zero.mp (h.boundCount.symm.trans (hfree e he))
  · intro hfree e he
    exact h.boundCount.trans (List.count_eq_zero.mpr (hfree _ (h.mem_frees.mp ⟨e, he, rfl⟩)))

end ScopeInfo

end FOmega
