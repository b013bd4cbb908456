import FOmega.Scope.Entry

/-!
# Multisets of scope entries

A scope info counts how often each entry occurs. It holds the distinct entries in increasing order,
each with its count, so equal multisets have equal representations. Of entries that differ in
spelling only, the one stored first stays.

The invariant is part of the type; the lemmas before the type show that adding keeps it.
-/

namespace FOmega

namespace Scope

/-! ## Counted entries in order -/

/-- Entries with their counts, which are unbounded here. A counter of 64 bits holds a count as long
    as fewer than `2 ^ 64` occurrences of the entry are added. No run adds so many one by one, so the
    infos of trees and of listed entries stay below: a count is at most the number of entries added
    (`Built.count_le`). Only combining an info with itself again and again gets there, since it
    doubles every count each time (`count_doubled`): 64 times is the least that passes the bound from
    a single occurrence. -/
abbrev Counts : Type :=
  List (ScopeEntry × Nat)

/-- Counted entries that are strictly increasing. -/
def Increasing (counts : Counts) : Prop :=
  counts.Pairwise fun a b => compare a.1 b.1 = .lt

/-- Counted entries that all occur. -/
def Positive (counts : Counts) : Prop :=
  ∀ a ∈ counts, 0 < a.2

/-- The number of occurrences. -/
def total : Counts → Nat
  | [] => 0
  | (_, n) :: rest => n + total rest

/-- Adds `n` occurrences of an entry. -/
def add (e : ScopeEntry) (n : Nat) : Counts → Counts
  | [] => [(e, n)]
  | (x, m) :: rest =>
    match compare e x with
    | .lt => (e, n) :: (x, m) :: rest
    | .eq => (x, m + n) :: rest
    | .gt => (x, m) :: add e n rest

/-- Adds all of the second to the first. -/
def addAll (a b : Counts) : Counts :=
  b.foldl (fun counts p => add p.1 p.2 counts) a

/-- Adding brings no entry but the one added. -/
theorem mem_add {e : ScopeEntry} {n : Nat} {counts : Counts} {a : ScopeEntry × Nat}
    (h : a ∈ add e n counts) : a.1 = e ∨ ∃ b ∈ counts, a.1 = b.1 := by
  induction counts with
  | nil =>
    simp only [add, List.mem_singleton] at h
    exact .inl (by rw [h])
  | cons x rest ih =>
    simp only [add] at h
    split at h
    · rcases List.mem_cons.mp h with h | h
      · exact .inl (by rw [h])
      · exact .inr ⟨a, h, rfl⟩
    · rcases List.mem_cons.mp h with h | h
      · exact .inr ⟨x, List.mem_cons_self, by rw [h]⟩
      · exact .inr ⟨a, List.mem_cons_of_mem _ h, rfl⟩
    · rcases List.mem_cons.mp h with h | h
      · exact .inr ⟨x, List.mem_cons_self, by rw [h]⟩
      · rcases ih h with h | ⟨b, hb, h⟩
        · exact .inl h
        · exact .inr ⟨b, List.mem_cons_of_mem _ hb, h⟩

/-- Adding keeps the order. -/
theorem Increasing.add {counts : Counts} (h : Increasing counts) (e : ScopeEntry) (n : Nat) :
    Increasing (add e n counts) := by
  induction counts with
  | nil => simp [Scope.add, Increasing]
  | cons x rest ih =>
    have hx := List.pairwise_cons.mp h
    simp only [Scope.add]
    split
    next hlt =>
      refine List.pairwise_cons.mpr ⟨fun b hb => ?_, h⟩
      rcases List.mem_cons.mp hb with rfl | hb
      · exact hlt
      · exact Std.TransCmp.lt_trans hlt (hx.1 b hb)
    next => exact List.pairwise_cons.mpr ⟨fun b hb => hx.1 b hb, hx.2⟩
    next hgt =>
      refine List.pairwise_cons.mpr ⟨fun b hb => ?_, ih hx.2⟩
      rcases mem_add hb with hb | ⟨y, hy, hb⟩
      · rw [hb]
        exact Std.OrientedCmp.lt_of_gt hgt
      · rw [hb]
        exact hx.1 y hy

/-- Adding something that occurs keeps what occurs. -/
theorem Positive.add {counts : Counts} (h : Positive counts) (e : ScopeEntry) {n : Nat}
    (hn : 0 < n) : Positive (add e n counts) := by
  induction counts with
  | nil => simp [Scope.add, Positive, hn]
  | cons x rest ih =>
    have hx : 0 < x.2 ∧ Positive rest := List.forall_mem_cons.mp h
    simp only [Scope.add]
    split
    · exact List.forall_mem_cons.mpr ⟨hn, h⟩
    · exact List.forall_mem_cons.mpr ⟨Nat.add_pos_left hx.1 n, hx.2⟩
    · exact List.forall_mem_cons.mpr ⟨hx.1, ih hx.2⟩

/-- Adding all keeps the order. -/
theorem Increasing.addAll {a : Counts} (h : Increasing a) (b : Counts) :
    Increasing (addAll a b) := by
  induction b generalizing a with
  | nil => exact h
  | cons x rest ih => exact ih (h.add x.1 x.2)

/-- Adding what occurs keeps what occurs. -/
theorem Positive.addAll {a b : Counts} (ha : Positive a) (hb : Positive b) :
    Positive (addAll a b) := by
  induction b generalizing a with
  | nil => exact ha
  | cons x rest ih =>
    have hx : 0 < x.2 ∧ Positive rest := List.forall_mem_cons.mp hb
    exact ih (ha.add x.1 hx.1) hx.2

end Scope

/-! ## The multiset -/

/-- A multiset of entries: the distinct ones in increasing order, each with how often it occurs. -/
structure ScopeInfo where
  counts : Scope.Counts
  increasing : Scope.Increasing counts
  positive : Scope.Positive counts

namespace ScopeInfo

/-- Two infos are equal when they count the same entries up to spelling. -/
instance : BEq ScopeInfo :=
  ⟨fun a b => a.counts == b.counts⟩

/-- No entries. -/
def empty : ScopeInfo :=
  ⟨[], .nil, nofun⟩

/-- Adds one occurrence of an entry. -/
def insert (info : ScopeInfo) (e : ScopeEntry) : ScopeInfo :=
  ⟨Scope.add e 1 info.counts, info.increasing.add e 1, info.positive.add e Nat.one_pos⟩

/-- One occurrence of one entry. -/
def singleton (e : ScopeEntry) : ScopeInfo :=
  empty.insert e

/-- The occurrences of both; where an entry is in both, the spelling of the first stays. -/
def combine (a b : ScopeInfo) : ScopeInfo :=
  ⟨Scope.addAll a.counts b.counts, a.increasing.addAll b.counts, a.positive.addAll b.positive⟩

/-- Adds the entries of a list one by one. -/
def extend (info : ScopeInfo) (es : List ScopeEntry) : ScopeInfo :=
  es.foldl insert info

/-- The entries of a list. -/
def ofList (es : List ScopeEntry) : ScopeInfo :=
  empty.extend es

/-- The occurrences of all infos of a list. -/
def sum (infos : List ScopeInfo) : ScopeInfo :=
  infos.foldl combine empty

/-! ## Views -/

/-- The number of occurrences. -/
def size (info : ScopeInfo) : Nat :=
  Scope.total info.counts

/-- Holds when there is no entry. -/
def isEmpty (info : ScopeInfo) : Bool :=
  info.counts.isEmpty

/-- How often an entry occurs. -/
def count (info : ScopeInfo) (e : ScopeEntry) : Nat :=
  (info.counts.find? fun p => p.1 == e).elim 0 (·.2)

/-- Every entry in order, as often as it occurs. -/
def toList (info : ScopeInfo) : List ScopeEntry :=
  info.counts.flatMap fun p => List.replicate p.2 p.1

/-- The binders in order. -/
def binders (info : ScopeInfo) : List ScopeEntry :=
  info.toList.filter fun e => e.role == .binder

/-- The free occurrences in order. -/
def frees (info : ScopeInfo) : List ScopeEntry :=
  info.toList.filter fun e => e.role == .free

end ScopeInfo

end FOmega
