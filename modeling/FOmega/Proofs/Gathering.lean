import FOmega.Proofs.Multiset

/-!
# The scope info of a tree is that of its sites in order

An info keeps of each class of equal entries the one that was added first. Combining two infos asks
the first one before the second, as searching two lists in a row does, so what an info stores is
found by a search through all that was added, however the additions were grouped. Hence the entries
in their order determine the info, spellings included, and collecting from a tree by combining the
infos of its parts gives what adding its sites one by one gives.
-/

namespace FOmega

namespace Scope

/-- The stored entry that is equal to the given one. -/
def stored? (x : ScopeEntry) (counts : Counts) : Option ScopeEntry :=
  (counts.find? fun p => p.1 == x).map Prod.fst

section

variable {e x : ScopeEntry} {a b counts : Counts}

/-! ## What adding stores -/

@[simp] theorem stored?_nil (x : ScopeEntry) : stored? x [] = none :=
  rfl

theorem stored?_cons (x y : ScopeEntry) (m : Nat) (rest : Counts) :
    stored? x ((y, m) :: rest) = if y == x then some y else stored? x rest := by
  unfold stored?
  rw [List.find?_cons]
  by_cases hy : (y == x) = true <;> simp [hy]

/-- What is equal to an entry before all counted ones is not stored. -/
theorem stored?_of_lt (hx : (e == x) = true) (h : ∀ p ∈ counts, compare e p.1 = .lt) :
    stored? x counts = none := by
  have hnone : counts.find? (fun p => p.1 == x) = none := by
    simp only [List.find?_eq_none, Bool.not_eq_true]
    intro p hp
    rw [← BEq.congr_right hx]
    exact beq_eq_false_of_lt (h p hp)
  simp [stored?, hnone]

/-- Adding stores the entry if no equal one is stored yet. -/
theorem Increasing.stored?_add (h : Increasing counts) (e x : ScopeEntry) (n : Nat) :
    stored? x (Scope.add e n counts) = (stored? x counts).or ([e].find? (· == x)) := by
  induction counts with
  | nil => simp [Scope.add, stored?_cons, List.find?_singleton]
  | cons p rest ih =>
    obtain ⟨y, m⟩ := p
    obtain ⟨hy, hrest⟩ := List.pairwise_cons.mp h
    simp only [Scope.add]
    split
    next hlt =>
      have hbefore : ∀ q ∈ (y, m) :: rest, compare e q.1 = .lt := by
        simp only [List.mem_cons, forall_eq_or_imp]
        exact ⟨hlt, fun q hq => Std.TransCmp.lt_trans hlt (hy q hq)⟩
      rw [stored?_cons]
      by_cases hx : (e == x) = true
      · simp [hx, stored?_of_lt hx hbefore]
      · simp [hx]
    next heq =>
      have hclass : (e == x) = (y == x) := BEq.congr_left (ScopeEntry.compare_eq_iff.mp heq)
      rw [stored?_cons, stored?_cons]
      by_cases hx : (y == x) = true <;> simp [hclass, hx]
    next hgt =>
      rw [stored?_cons, stored?_cons, ih hrest]
      by_cases hx : (y == x) = true <;> simp [hx]

/-- Where an entry is stored in both, the one of the first stays. -/
theorem Increasing.stored?_addAll (ha : Increasing a) (hb : Increasing b) (x : ScopeEntry) :
    stored? x (Scope.addAll a b) = (stored? x a).or (stored? x b) := by
  induction b generalizing a with
  | nil => simp [Scope.addAll]
  | cons p rest ih =>
    obtain ⟨y, m⟩ := p
    have hstep : stored? x (Scope.addAll a ((y, m) :: rest)) =
        (stored? x (Scope.add y m a)).or (stored? x rest) :=
      ih (ha.add y m) (List.pairwise_cons.mp hb).2
    rw [hstep, ha.stored?_add, stored?_cons, Option.or_assoc]
    by_cases hy : (y == x) = true <;> simp [hy]

/-- In counted entries in order, each is found by searching for it. -/
theorem Increasing.mem_iff_find (h : Increasing counts) {p : ScopeEntry × Nat} :
    p ∈ counts ↔ counts.find? (fun q => q.1 == p.1) = some p := by
  constructor
  · intro hp
    induction counts with
    | nil => cases hp
    | cons q rest ih =>
      obtain ⟨hq, hrest⟩ := List.pairwise_cons.mp h
      rcases List.mem_cons.mp hp with rfl | hp
      · simp
      · have hne : (q.1 == p.1) = false := by
          rw [BEq.comm]
          exact beq_eq_false_of_lt (hq p hp)
        rw [List.find?_cons, hne]
        exact ih hrest hp
  · intro hfind
    exact List.mem_of_find?_eq_some hfind

theorem Increasing.nodup (h : Increasing counts) : counts.Nodup := by
  refine List.Pairwise.imp ?_ h
  intro p q hlt heq
  simp [heq] at hlt

/-- Counted entries in order are determined by what searches find in them. -/
theorem Increasing.eq_of_find (ha : Increasing a) (hb : Increasing b)
    (h : ∀ x, a.find? (fun p => p.1 == x) = b.find? (fun p => p.1 == x)) : a = b := by
  have hperm : a.Perm b := by
    refine (List.perm_ext_iff_of_nodup ha.nodup hb.nodup).mpr ?_
    intro p
    rw [ha.mem_iff_find, hb.mem_iff_find, h]
  refine hperm.eq_of_pairwise ?_ ha hb
  intro p q _ _ hlt hgt
  have hself : compare p.1 p.1 = .lt := Std.TransCmp.lt_trans hlt hgt
  simp at hself

end

end Scope

/-! ## What an info stores -/

namespace ScopeInfo

open Scope

variable {info other : ScopeInfo} {es : List ScopeEntry}

theorem stored?_extend (info : ScopeInfo) (es : List ScopeEntry) (x : ScopeEntry) :
    stored? x (info.extend es).counts = (stored? x info.counts).or (es.find? (· == x)) := by
  induction es generalizing info with
  | nil => simp [extend]
  | cons e es ih =>
    have hhead : stored? x (info.insert e).counts =
        (stored? x info.counts).or ([e].find? (· == x)) := info.increasing.stored?_add e x 1
    have hcons : (e :: es).find? (· == x) = ([e].find? (· == x)).or (es.find? (· == x)) := by
      rw [← List.find?_append, List.singleton_append]
    refine (ih (info.insert e)).trans ?_
    rw [hhead, hcons, Option.or_assoc]

theorem stored?_sum {l : List (ScopeInfo × List ScopeEntry)} {x : ScopeEntry}
    (h : ∀ p ∈ l, stored? x p.1.counts = p.2.find? (· == x)) (a : ScopeInfo) :
    stored? x ((l.map Prod.fst).foldl ScopeInfo.combine a).counts =
      (stored? x a.counts).or ((l.flatMap Prod.snd).find? (· == x)) := by
  induction l generalizing a with
  | nil => simp
  | cons p l ih =>
    obtain ⟨hp, hl⟩ := List.forall_mem_cons.mp h
    have hhead : stored? x (a.combine p.1).counts =
        (stored? x a.counts).or (stored? x p.1.counts) :=
      a.increasing.stored?_addAll p.1.increasing x
    rw [List.map_cons, List.foldl_cons, ih hl, hhead, hp, List.flatMap_cons, List.find?_append,
      Option.or_assoc]

/-- Of all entries that were added and are equal to a given one, an info stores the first. -/
theorem Built.stored? (h : Built info es) (x : ScopeEntry) :
    stored? x info.counts = es.find? (· == x) := by
  induction h with
  | empty => rfl
  | singleton e => exact stored?_extend .empty [e] x
  | insert ha e iha =>
    rw [List.find?_append, ← iha]
    exact stored?_extend _ [e] x
  | @combine a b _ _ ha hb iha ihb =>
    rw [List.find?_append, ← iha, ← ihb]
    exact a.increasing.stored?_addAll b.increasing x
  | extend ha fs iha =>
    rw [List.find?_append, ← iha]
    exact stored?_extend _ fs x
  | ofList es => exact stored?_extend .empty es x
  | sum h ih => exact stored?_sum ih .empty

/-- A search in an info finds the first of the equal entries that were added, with their number. -/
theorem Built.find (h : Built info es) (x : ScopeEntry) :
    info.counts.find? (fun p => p.1 == x) =
      (es.find? (· == x)).map fun e => (e, es.countP (· == x)) := by
  rw [← h.stored? x, ← h.count x, Scope.stored?, ScopeInfo.count]
  cases info.counts.find? fun p => p.1 == x <;> rfl

/-- Two infos that were put together from the same entries in the same order are the same, spellings
    included, however they were put together. -/
theorem Built.unique (h : Built info es) (hother : Built other es) : info = other := by
  refine counts_inj (info.increasing.eq_of_find other.increasing ?_)
  intro x
  rw [h.find, hother.find]

end ScopeInfo

/-- The scope info of a tree is what adding its sites in the order of a walk gives, spellings
    included: of the sites that are equal to an entry it stores the first. So it has as many entries
    as the tree has sites, and counts for each entry the sites that are equal to it. -/
theorem Tree.scopeInfo_gathers_sites (t : Tree) :
    t.scopeInfo = ScopeInfo.ofList t.sites ∧
      (∀ e, (t.scopeInfo.counts.find? fun p => p.1 == e).map Prod.fst = t.sites.find? (· == e)) ∧
      t.scopeInfo.size = t.sites.length ∧
      ∀ e, t.scopeInfo.count e = t.sites.countP (· == e) := by
  have hbuilt : ScopeInfo.Built t.scopeInfo t.sites := t.collects.built
  exact ⟨hbuilt.unique (.ofList t.sites), hbuilt.stored?, hbuilt.size, hbuilt.count⟩

/-- Two variables that are spelled differently and carry one unique are one entry, which keeps the
    spelling of the first. -/
example :
    (Term.apply .absent (.var .absent ⟨"x", 0⟩) (.var .absent ⟨"y", 0⟩)).scopeInfo.counts =
      [(⟨.free, ⟨.term, ⟨"x", 0⟩⟩, .absent⟩, 2)] := by
  decide

end FOmega
