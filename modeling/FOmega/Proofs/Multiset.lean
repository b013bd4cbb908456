import FOmega.Proofs.Consistency
import Mathlib.Algebra.GroupWithZero.Nat
import Mathlib.Logic.Function.Iterate

/-!
# Scope infos are multisets in canonical form

The order of entries looks at roles, levels, uniques and marks, and ties exactly those entries that
are `==`. So an info that was put together from entries, in whatever order and grouping, stores each
class of equal entries once, in order, and counts how many of them were added.

What is counted is any property of entries that does not look at spellings. The tally of such a
property is the sum over the pieces an info is made of, and the tallies determine the info.
-/

namespace FOmega

/-! ## The order of entries and their equality -/

theorem Level.rank_inj {a b : Level} : a.rank = b.rank ↔ a = b := by
  cases a <;> cases b <;> decide

theorem Role.rank_inj {a b : Role} : a.rank = b.rank ↔ a = b := by
  cases a <;> cases b <;> decide

theorem ScopedName.beq_iff {x y : ScopedName} :
    (x == y) = true ↔ x.level = y.level ∧ x.unique = y.unique := by
  rcases x with ⟨level, name⟩
  rcases y with ⟨level', name'⟩
  have hbeq : ((⟨level, name⟩ : ScopedName) == ⟨level', name'⟩) =
      (level == level' && name.unique == name'.unique) := rfl
  rw [hbeq, Bool.and_eq_true, beq_iff_eq, beq_iff_eq]
  rfl

/-- Marks are `==` when they agree on the numbers they are ordered by. -/
theorem Mark.beq_iff_key {m m' : Mark} : (m == m') = true ↔ m.key = m'.key := by
  cases m <;> cases m'
  case absent.absent => exact ⟨fun _ => rfl, fun _ => rfl⟩
  case notAName.notAName => exact ⟨fun _ => rfl, fun _ => rfl⟩
  case position.position s s' =>
    have hbeq : (position s == position s') = (s == s') := rfl
    rcases s with ⟨offset, len⟩
    rcases s' with ⟨offset', len'⟩
    simp [key, hbeq]
  case binder.binder x x' =>
    have hbeq : (binder x == binder x') = (x == x') := rfl
    simp [key, hbeq, ScopedName.beq_iff, Level.rank_inj]
  case free.free x x' =>
    have hbeq : (free x == free x') = (x == x') := rfl
    simp [key, hbeq, ScopedName.beq_iff, Level.rank_inj]
  -- what is left are marks of two kinds, whose keys start with two numbers
  all_goals
    refine iff_of_false Bool.false_ne_true ?_
    simp [key]

theorem Mark.compare_eq_iff {m m' : Mark} : compare m m' = .eq ↔ (m == m') = true := by
  rw [Mark.beq_iff_key]
  show compare m.key m'.key = .eq ↔ _
  exact Std.compare_eq_iff_eq

namespace ScopeEntry

theorem compare_eq_then (e f : ScopeEntry) : compare e f =
    (compare e.role f.role).then (((compare e.name.level f.name.level).then
      (compare e.unique f.unique)).then (compare e.mark.key f.mark.key)) :=
  rfl

theorem compare_eq_iff {e f : ScopeEntry} : compare e f = .eq ↔ (e == f) = true := by
  have hbeq : (e == f) = (e.role == f.role && (e.name == f.name && e.mark == f.mark)) := rfl
  have hrole : compare e.role f.role = .eq ↔ e.role = f.role :=
    Nat.compare_eq_eq.trans Role.rank_inj
  have hlevel : compare e.name.level f.name.level = .eq ↔ e.name.level = f.name.level :=
    Nat.compare_eq_eq.trans Level.rank_inj
  have hmark : compare e.mark.key f.mark.key = .eq ↔ (e.mark == f.mark) = true :=
    Mark.compare_eq_iff
  rw [compare_eq_then, hbeq]
  simp only [Ordering.then_eq_eq, Bool.and_eq_true, beq_iff_eq, hrole, hlevel, hmark,
    Nat.compare_eq_eq, ScopedName.beq_iff]
  rfl

instance : Std.LawfulBEqOrd ScopeEntry :=
  ⟨compare_eq_iff⟩

end ScopeEntry

/-! ## Tallies -/

namespace Scope

/-- A property of entries that does not look at spellings. -/
def Blind (P : ScopeEntry → Bool) : Prop :=
  ∀ e f : ScopeEntry, (e == f) = true → P e = P f

theorem Blind.beq (e : ScopeEntry) : Blind (· == e) :=
  fun _ _ h => BEq.congr_left h

/-- The number of counted occurrences that have a property. -/
def tally (P : ScopeEntry → Bool) : Counts → Nat
  | [] => 0
  | (e, n) :: rest => (if P e then n else 0) + tally P rest

theorem tally_eq_countP (P : ScopeEntry → Bool) (counts : Counts) :
    tally P counts = (counts.flatMap fun p => List.replicate p.2 p.1).countP P := by
  induction counts with
  | nil => rfl
  | cons p rest ih => rw [tally, List.flatMap_cons, List.countP_append, List.countP_replicate, ih]

theorem tally_eq_zero {P : ScopeEntry → Bool} {counts : Counts}
    (h : ∀ p ∈ counts, P p.1 = false) : tally P counts = 0 := by
  induction counts with
  | nil => rfl
  | cons p rest ih =>
    obtain ⟨hp, hrest⟩ := List.forall_mem_cons.mp h
    rw [tally, hp, ih hrest]
    rfl

theorem tally_add {P : ScopeEntry → Bool} (hP : Blind P) (e : ScopeEntry) (n : Nat)
    (counts : Counts) : tally P (add e n counts) = tally P counts + if P e then n else 0 := by
  induction counts with
  | nil => exact Nat.add_comm _ 0
  | cons p rest ih =>
    obtain ⟨x, m⟩ := p
    rw [add]
    split
    · exact Nat.add_comm _ _
    · next heq =>
      rw [tally, tally, hP e x (ScopeEntry.compare_eq_iff.mp heq)]
      split <;> omega
    · rw [tally, tally, ih, Nat.add_assoc]

theorem tally_addAll {P : ScopeEntry → Bool} (hP : Blind P) (a b : Counts) :
    tally P (addAll a b) = tally P a + tally P b := by
  induction b generalizing a with
  | nil => rfl
  | cons p rest ih =>
    have hrest : tally P (addAll a (p :: rest)) = tally P (add p.1 p.2 a) + tally P rest := ih _
    rw [hrest, tally_add hP, tally, Nat.add_assoc]

theorem tally_congr {P : ScopeEntry → Bool} (hP : Blind P) {a b : Counts}
    (h : (a == b) = true) : tally P a = tally P b := by
  induction a generalizing b with
  | nil =>
    cases b with
    | nil => rfl
    | cons q b => cases h
  | cons p a ih =>
    cases b with
    | nil => cases h
    | cons q b =>
      have hcons : (((p.1 == q.1) && (p.2 == q.2)) && (a == b)) = true := h
      rw [Bool.and_eq_true, Bool.and_eq_true] at hcons
      obtain ⟨⟨hentry, hcount⟩, hrest⟩ := hcons
      rw [tally, tally, hP _ _ hentry, eq_of_beq hcount, ih hrest]

/-! ### The tally of one class of entries -/

section

variable {e x : ScopeEntry} {n : Nat} {rest : Counts}

theorem beq_eq_false_of_lt {e f : ScopeEntry} (h : compare e f = .lt) : (f == e) = false := by
  rw [Bool.eq_false_iff]
  intro hbeq
  have heq := ScopeEntry.compare_eq_iff.mpr (BEq.symm hbeq)
  rw [h] at heq
  cases heq

/-- An entry before all counted ones is not counted. -/
theorem Increasing.tally_of_le (h : Increasing ((x, n) :: rest)) (hle : (compare e x).isLE) :
    tally (· == e) rest = 0 := by
  refine tally_eq_zero ?_
  intro p hp
  have hx : compare x p.1 = .lt := (List.pairwise_cons.mp h).1 p hp
  exact beq_eq_false_of_lt (Std.TransCmp.lt_of_isLE_of_lt hle hx)

theorem Increasing.tally_head (h : Increasing ((x, n) :: rest)) :
    tally (· == x) ((x, n) :: rest) = n := by
  have hself : compare x x = .eq := Std.ReflCmp.compare_self
  rw [tally, BEq.rfl, h.tally_of_le (by rw [hself]; rfl)]
  rfl

theorem Increasing.tally_of_lt (h : Increasing ((x, n) :: rest)) (hlt : compare e x = .lt) :
    tally (· == e) ((x, n) :: rest) = 0 := by
  rw [tally, beq_eq_false_of_lt hlt, h.tally_of_le (by rw [hlt]; rfl)]
  rfl

end

/-- In counted entries in order, the tally of a class is the count stored with it. -/
theorem Increasing.find_eq_tally {counts : Counts} (h : Increasing counts) (e : ScopeEntry) :
    (counts.find? fun p => p.1 == e).elim 0 (·.2) = tally (· == e) counts := by
  induction counts with
  | nil => rfl
  | cons p rest ih =>
    obtain ⟨x, n⟩ := p
    rw [List.find?_cons, tally]
    cases hx : x == e with
    | true =>
      have heq : compare e x = .eq := ScopeEntry.compare_eq_iff.mpr (BEq.symm hx)
      rw [h.tally_of_le (by rw [heq]; rfl)]
      rfl
    | false =>
      rw [ih (List.pairwise_cons.mp h).2]
      exact (Nat.zero_add _).symm

/-- Counted entries in order are determined, up to spelling, by their tallies. -/
theorem beq_of_tally {a b : Counts} (ha : Increasing a) (hb : Increasing b) (hpa : Positive a)
    (hpb : Positive b) (h : ∀ e, tally (· == e) a = tally (· == e) b) : (a == b) = true := by
  induction a generalizing b with
  | nil =>
    cases b with
    | nil => rfl
    | cons q b =>
      have hcount := (h q.1).trans hb.tally_head
      have hpos : 0 < q.2 := hpb q List.mem_cons_self
      simp only [tally] at hcount
      omega
  | cons p a ih =>
    cases b with
    | nil =>
      have hcount := (h p.1).symm.trans ha.tally_head
      have hpos : 0 < p.2 := hpa p List.mem_cons_self
      simp only [tally] at hcount
      omega
    | cons q b =>
      obtain ⟨x, n⟩ := p
      obtain ⟨y, m⟩ := q
      obtain ⟨hn, hpa⟩ := List.forall_mem_cons.mp hpa
      obtain ⟨hm, hpb⟩ := List.forall_mem_cons.mp hpb
      have hx := h x
      have hy := h y
      rw [ha.tally_head] at hx
      rw [hb.tally_head] at hy
      cases hxy : compare x y with
      | lt =>
        rw [hb.tally_of_lt hxy] at hx
        exact absurd hx (Nat.ne_of_gt hn)
      | gt =>
        rw [ha.tally_of_lt (Std.OrientedCmp.lt_of_gt hxy)] at hy
        exact absurd hy.symm (Nat.ne_of_gt hm)
      | eq =>
        have hbeq := ScopeEntry.compare_eq_iff.mp hxy
        have hyx : (y == x) = true := BEq.symm hbeq
        have hnm : n = m := by
          rw [tally, hyx, hb.tally_of_le (by rw [hxy]; rfl)] at hx
          exact hx
        have hrest : ∀ e, tally (· == e) a = tally (· == e) b := by
          intro e
          have he := h e
          simp only [tally, BEq.congr_left hbeq, hnm] at he
          exact Nat.add_left_cancel he
        have htail := ih (List.pairwise_cons.mp ha).2 (List.pairwise_cons.mp hb).2 hpa hpb hrest
        show (((x == y) && (n == m)) && (a == b)) = true
        rw [hbeq, hnm, htail, BEq.rfl]
        rfl

/-! ## Flat lists of entries -/

theorem add_add (e : ScopeEntry) (m n : Nat) (counts : Counts) :
    add e n (add e m counts) = add e (m + n) counts := by
  have hself : compare e e = .eq := Std.ReflCmp.compare_self
  induction counts with
  | nil => simp only [add, hself]
  | cons p rest ih =>
    obtain ⟨x, k⟩ := p
    cases hx : compare e x with
    | lt => simp only [add, hx, hself]
    | eq => simp only [add, hx, Nat.add_assoc]
    | gt => simp only [add, hx, ih]

/-- Adding something at the end that comes after all. -/
theorem add_last {e : ScopeEntry} {counts : Counts} (h : ∀ p ∈ counts, compare p.1 e = .lt)
    (n : Nat) : add e n counts = counts ++ [(e, n)] := by
  induction counts with
  | nil => rfl
  | cons p rest ih =>
    obtain ⟨x, m⟩ := p
    obtain ⟨hx, hrest⟩ := List.forall_mem_cons.mp h
    have hgt : compare e x = .gt := Std.OrientedCmp.gt_of_lt hx
    simp only [add, hgt, ih hrest, List.cons_append]

theorem addAll_append {a b : Counts} (h : Increasing (a ++ b)) : addAll a b = a ++ b := by
  induction b generalizing a with
  | nil => exact (List.append_nil a).symm
  | cons p rest ih =>
    have hbefore : ∀ q ∈ a, compare q.1 p.1 = .lt := fun q hq =>
      (List.pairwise_append.mp h).2.2 q hq p List.mem_cons_self
    have hsplit : a ++ p :: rest = (a ++ [p]) ++ rest := by rw [List.append_assoc]; rfl
    rw [hsplit] at h ⊢
    rw [addAll, List.foldl_cons, add_last hbefore]
    exact ih h

/-- Adding one occurrence after the other. -/
def addEach (counts : Counts) (es : List ScopeEntry) : Counts :=
  es.foldl (fun counts e => add e 1 counts) counts

theorem addEach_replicate (e : ScopeEntry) (n : Nat) (counts : Counts) :
    addEach counts (List.replicate (n + 1) e) = add e (n + 1) counts := by
  induction n generalizing counts with
  | zero => rfl
  | succ n ih =>
    rw [List.replicate_succ, addEach, List.foldl_cons]
    refine (ih (add e 1 counts)).trans ?_
    rw [add_add, Nat.add_comm 1]

/-- Adding counted entries adds each of them as often as it is counted. -/
theorem addEach_flatMap {b : Counts} (hb : Positive b) (a : Counts) :
    addEach a (b.flatMap fun p => List.replicate p.2 p.1) = addAll a b := by
  induction b generalizing a with
  | nil => rfl
  | cons p rest ih =>
    obtain ⟨e, n⟩ := p
    obtain ⟨hn, hrest⟩ := List.forall_mem_cons.mp hb
    obtain ⟨n, rfl⟩ := Nat.exists_eq_add_of_lt hn
    have hhead := addEach_replicate e n a
    rw [List.flatMap_cons, addEach, List.foldl_append]
    rw [Nat.zero_add]
    exact (congrArg (fun counts => addEach counts _) hhead).trans (ih hrest _)

end Scope

/-! ## Infos -/

namespace ScopeInfo

open Scope

theorem counts_inj {a b : ScopeInfo} (h : a.counts = b.counts) : a = b := by
  cases a
  cases b
  cases h
  rfl

theorem counts_extend (info : ScopeInfo) (es : List ScopeEntry) :
    (info.extend es).counts = addEach info.counts es := by
  induction es generalizing info with
  | nil => rfl
  | cons e es ih => exact ih (info.insert e)

/-- An info is the info of its own entries, spellings included. -/
theorem ofList_toList (info : ScopeInfo) : ofList info.toList = info := by
  refine counts_inj ?_
  rw [ofList, counts_extend]
  exact (addEach_flatMap info.positive []).trans (addAll_append info.increasing)

theorem empty_combine (info : ScopeInfo) : empty.combine info = info :=
  counts_inj (addAll_append info.increasing)

theorem count_eq_tally (info : ScopeInfo) (e : ScopeEntry) :
    info.count e = tally (· == e) info.counts :=
  info.increasing.find_eq_tally e

/-- Infos are equal when they count every entry equally often. -/
theorem beq_iff_count {a b : ScopeInfo} : (a == b) = true ↔ ∀ e, a.count e = b.count e := by
  constructor
  · intro h e
    rw [count_eq_tally, count_eq_tally]
    exact tally_congr (Blind.beq e) h
  · intro h
    refine beq_of_tally a.increasing b.increasing a.positive b.positive ?_
    intro e
    rw [← count_eq_tally, ← count_eq_tally]
    exact h e

theorem count_combine (a b : ScopeInfo) (e : ScopeEntry) :
    (a.combine b).count e = a.count e + b.count e := by
  simp only [count_eq_tally]
  exact tally_addAll (Blind.beq e) a.counts b.counts

/-- Combining an info with itself doubles every count. -/
theorem count_doubled (info : ScopeInfo) (e : ScopeEntry) (n : Nat) :
    ((fun a : ScopeInfo => a.combine a)^[n] info).count e = 2 ^ n * info.count e := by
  induction n with
  | zero => exact (Nat.one_mul _).symm
  | succ n ih =>
    rw [Function.iterate_succ_apply', count_combine, ih, ← Nat.two_mul, ← Nat.mul_assoc,
      Nat.pow_succ']

/-! ## Infos that were put together -/

/-- Infos that are put together from nothing, with the entries added in order. -/
inductive Built : ScopeInfo → List ScopeEntry → Prop where
  | empty : Built empty []
  | singleton (e : ScopeEntry) : Built (singleton e) [e]
  | insert {a : ScopeInfo} {es : List ScopeEntry} (ha : Built a es) (e : ScopeEntry) :
    Built (a.insert e) (es ++ [e])
  | combine {a b : ScopeInfo} {es fs : List ScopeEntry} (ha : Built a es) (hb : Built b fs) :
    Built (a.combine b) (es ++ fs)
  | extend {a : ScopeInfo} {es : List ScopeEntry} (ha : Built a es) (fs : List ScopeEntry) :
    Built (a.extend fs) (es ++ fs)
  | ofList (es : List ScopeEntry) : Built (ofList es) es
  | sum {l : List (ScopeInfo × List ScopeEntry)} (h : ∀ x ∈ l, Built x.1 x.2) :
    Built (sum (l.map Prod.fst)) (l.flatMap Prod.snd)

theorem Collects.built {info : ScopeInfo} {es : List ScopeEntry} (h : Collects info es) :
    Built info es := by
  induction h with
  | empty => exact .empty
  | singleton e => exact .singleton e
  | combine ha hb iha ihb => exact iha.combine ihb

section

variable {P : ScopeEntry → Bool}

theorem tally_extend (hP : Blind P) (info : ScopeInfo) (es : List ScopeEntry) :
    tally P (info.extend es).counts = tally P info.counts + es.countP P := by
  induction es generalizing info with
  | nil => rfl
  | cons e es ih =>
    have hhead : tally P (info.insert e).counts = tally P info.counts + if P e then 1 else 0 :=
      tally_add hP e 1 info.counts
    refine (ih (info.insert e)).trans ?_
    rw [hhead, List.countP_cons]
    omega

theorem tally_sum (hP : Blind P) (infos : List ScopeInfo) (a : ScopeInfo) :
    tally P (infos.foldl ScopeInfo.combine a).counts =
      tally P a.counts + (infos.map fun info => tally P info.counts).sum := by
  induction infos generalizing a with
  | nil => rfl
  | cons info infos ih =>
    have hhead : tally P (a.combine info).counts = tally P a.counts + tally P info.counts :=
      tally_addAll hP a.counts info.counts
    refine (ih (a.combine info)).trans ?_
    rw [hhead, List.map_cons, List.sum_cons, Nat.add_assoc]

/-- An info counts what was added. -/
theorem Built.tally {info : ScopeInfo} {es : List ScopeEntry} (h : Built info es) (hP : Blind P) :
    tally P info.counts = es.countP P := by
  induction h with
  | empty => rfl
  | singleton e => exact (tally_extend hP .empty [e]).trans (Nat.zero_add _)
  | insert ha e iha =>
    rw [List.countP_append, ← iha]
    exact tally_extend hP _ [e]
  | combine ha hb iha ihb =>
    rw [List.countP_append, ← iha, ← ihb]
    exact tally_addAll hP _ _
  | extend ha fs iha =>
    rw [List.countP_append, ← iha]
    exact tally_extend hP _ fs
  | ofList es => exact (tally_extend hP .empty es).trans (Nat.zero_add _)
  | @sum l h ih =>
    rw [List.countP_flatMap]
    refine (tally_sum hP (l.map Prod.fst) .empty).trans ?_
    rw [List.map_map]
    refine (Nat.zero_add _).trans (congrArg List.sum (List.map_congr_left ?_))
    exact ih

end

theorem Built.count {info : ScopeInfo} {es : List ScopeEntry} (h : Built info es)
    (e : ScopeEntry) : info.count e = es.countP (· == e) :=
  (info.count_eq_tally e).trans (h.tally (Blind.beq e))

/-- A count is at most the number of entries that were added. -/
theorem Built.count_le {info : ScopeInfo} {es : List ScopeEntry} (h : Built info es)
    (e : ScopeEntry) : info.count e ≤ es.length := by
  rw [h.count]
  exact List.countP_le_length

theorem size_eq_tally (info : ScopeInfo) : info.size = Scope.tally (fun _ => true) info.counts := by
  show total info.counts = _
  induction info.counts with
  | nil => rfl
  | cons p rest ih =>
    rw [total, ih]
    rfl

theorem Built.size {info : ScopeInfo} {es : List ScopeEntry} (h : Built info es) :
    info.size = es.length := by
  have hblind : Blind fun _ => true := fun _ _ _ => rfl
  rw [size_eq_tally, h.tally hblind]
  exact congrFun List.countP_true es

/-- Scope infos are multisets in canonical form. The order of entries goes by role, level, unique
    and mark, is total, and ties the entries that are `==`. An info that was put together from
    entries stores its classes in order, each at least once, counts the entries of each class and
    all entries, and is the info of its own entries, spellings included. Counts determine infos, so
    neither order nor grouping of what is added matters. -/
theorem built_canonical :
    (∀ e f g : ScopeEntry,
      compare e f = (compare e.role f.role).then (((compare e.name.level f.name.level).then
        (compare e.unique f.unique)).then (compare e.mark.key f.mark.key)) ∧
      compare e f = (compare f e).swap ∧
      ((compare e f).isLE → (compare f g).isLE → (compare e g).isLE) ∧
      (compare e f = .eq ↔ (e == f) = true)) ∧
    (∀ (info : ScopeInfo) (es : List ScopeEntry), Built info es →
      Increasing info.counts ∧ (∀ p ∈ info.counts, 1 ≤ p.2) ∧
      (∀ e, info.count e = es.countP (· == e)) ∧ info.size = es.length ∧
      ofList info.toList = info ∧
      ∀ (other : ScopeInfo) (fs : List ScopeEntry), Built other fs →
        ((info == other) = true ↔ ∀ e, info.count e = other.count e) ∧
        (es.Perm fs → (info == other) = true)) ∧
    ∀ a b c : ScopeInfo,
      ((a.combine b).combine c == a.combine (b.combine c)) = true ∧
      (a.combine b == b.combine a) = true ∧ a.combine empty = a ∧ empty.combine a = a := by
  refine ⟨?_, ?_, ?_⟩
  · intro e f g
    exact ⟨e.compare_eq_then f, Std.OrientedCmp.eq_swap, Std.TransCmp.isLE_trans,
      ScopeEntry.compare_eq_iff⟩
  · intro info es h
    refine ⟨info.increasing, info.positive, h.count, h.size, info.ofList_toList, ?_⟩
    intro other fs hother
    refine ⟨beq_iff_count, ?_⟩
    intro hperm
    refine beq_iff_count.mpr ?_
    intro e
    rw [h.count, hother.count]
    exact hperm.countP_eq _
  · intro a b c
    refine ⟨beq_iff_count.mpr ?_, beq_iff_count.mpr ?_, rfl, a.empty_combine⟩
    · intro e
      simp only [count_combine]
      exact Nat.add_assoc _ _ _
    · intro e
      rw [count_combine, count_combine]
      exact Nat.add_comm _ _

/-- A binder added under two spellings is one entry that occurs twice, in either order. -/
theorem built_canonical_respelled :
    let x : ScopeEntry := ⟨.binder, ⟨.type, ⟨"x", 0⟩⟩, .absent⟩
    let y : ScopeEntry := ⟨.binder, ⟨.type, ⟨"y", 0⟩⟩, .absent⟩
    let z : ScopeEntry := ⟨.free, ⟨.term, ⟨"z", 1⟩⟩, .position ⟨2, 1⟩⟩
    let info := (singleton x).combine ((ofList [z]).insert y)
    let other := sum [(empty.insert z).extend [y], singleton x]
    (compare x y).isLE ∧ (compare y z).isLE ∧ (compare x z).isLE ∧
      [x, z, y].Perm [z, y, x] ∧ (info == other) = true ∧ info.count y = 2 := by
  intro x y z info other
  obtain ⟨horder, hbuilt, -⟩ := built_canonical
  have hinfo : Built info [x, z, y] := (Built.singleton x).combine ((Built.ofList [z]).insert y)
  have hpieces : ∀ p ∈ [((empty.insert z).extend [y], [z, y]), (singleton x, [x])],
      Built p.1 p.2 := by
    simp only [List.forall_mem_cons]
    exact ⟨(Built.empty.insert z).extend [y], .singleton x, List.forall_mem_nil _⟩
  have hother : Built other [z, y, x] := Built.sum hpieces
  have hperm : ([x] ++ [z, y]).Perm ([z, y] ++ [x]) := List.perm_append_comm
  obtain ⟨-, -, hcount, -, -, hsame⟩ := hbuilt info _ hinfo
  have hxy : (compare x y).isLE := by decide
  have hyz : (compare y z).isLE := by decide
  exact ⟨hxy, hyz, (horder x y z).2.2.1 hxy hyz, hperm, (hsame other _ hother).2 hperm, hcount y⟩

end ScopeInfo

end FOmega
