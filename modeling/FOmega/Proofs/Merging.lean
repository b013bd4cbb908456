import FOmega.Proofs.ErrorReport
import Mathlib.Data.List.Sort

/-!
# Errors merged in any order

Several errors of one parser are merged two at a time. What comes of it depends on the errors alone:
of those that got furthest it is the limit on nesting, if they have reached it, and otherwise one
refusal with the expectations of all. Merging two errors that sum up two lists of errors gives one
that sums up both lists, and lists with the same errors have one sum, so neither the order nor the
grouping matters.
-/

namespace FOmega

/-! ## Refusals -/

namespace Cause

variable {a b cause : Cause} {xs ys : List String}

/-- The cause with other expectations, if it lists any. -/
def withExpected : Cause → List String → Cause
  | unexpected found _, expected => unexpected found expected
  | unexpectedEnd _, expected => unexpectedEnd expected
  | cause, _ => cause

theorem withExpected_of_expected? (h : cause.expected? = some xs) :
    cause.withExpected xs = cause := by
  cases cause <;> cases h <;> rfl

theorem expected?_withExpected (h : cause.expected? = some xs) :
    (cause.withExpected ys).expected? = some ys := by
  cases cause <;> cases h <;> rfl

/-- Causes that agree but for what they list agree when they list the same. -/
theorem withExpected_congr (h : a.withExpected [] = b.withExpected []) :
    a.withExpected xs = b.withExpected xs := by
  cases a <;> cases b <;> cases h <;> rfl

theorem join_withExpected (h : cause.expected?.isSome) :
    (cause.withExpected xs).join (cause.withExpected ys) =
      cause.withExpected (Expected.union xs ys) := by
  cases cause with
  | unexpected | unexpectedEnd => rfl
  | _ => cases h

theorem join_tooDeep (cause : Cause) (limit : Nat) :
    cause.join (.tooDeep limit) = .tooDeep limit := by
  cases cause <;> rfl

theorem tooDeep_join {limit : Nat} (h : cause.expected?.isSome) :
    (tooDeep limit).join cause = .tooDeep limit := by
  cases cause with
  | unexpected | unexpectedEnd => rfl
  | _ => cases h

theorem isTooDeep_iff : cause.isTooDeep = true ↔ ∃ limit, cause = .tooDeep limit := by
  cases cause <;> simp [isTooDeep]

end Cause

namespace ParseError

variable {es es' as bs tops : List ParseError} {a b e e' x : ParseError}

/-! ## The errors of one parser -/

/-- Errors as one parser can raise them. Each is a refusal or the limit on nesting. Errors at the
    same offset are at the same span, and refusals there differ in their expectations only. There is
    one limit on nesting. -/
structure OfOneParser (es : List ParseError) : Prop where
  kinds : ∀ e ∈ es, e.isTooDeep = true ∨ e.cause.expected?.isSome
  spans : ∀ a ∈ es, ∀ b ∈ es, a.span.offset = b.span.offset → a.span = b.span
  refusals : ∀ a ∈ es, ∀ b ∈ es, a.span.offset = b.span.offset → a.cause.expected?.isSome →
    b.cause.expected?.isSome → a.cause.withExpected [] = b.cause.withExpected []
  limits : ∀ a ∈ es, ∀ b ∈ es, a.isTooDeep = true → b.isTooDeep = true → a.cause = b.cause

theorem OfOneParser.mono (h : OfOneParser es) (hsub : es' ⊆ es) : OfOneParser es' where
  kinds e he := h.kinds e (hsub he)
  spans a ha b hb := h.spans a (hsub ha) b (hsub hb)
  refusals a ha b hb := h.refusals a (hsub ha) b (hsub hb)
  limits a ha b hb := h.limits a (hsub ha) b (hsub hb)

/-- The errors at an offset. -/
def atOffset (es : List ParseError) (offset : Nat) : List ParseError :=
  es.filter fun e => e.span.offset = offset

theorem mem_atOffset {offset : Nat} : e ∈ atOffset es offset ↔ e ∈ es ∧ e.span.offset = offset := by
  simp [atOffset]

/-! ## Sums of errors -/

/-- The error stands for errors at one place: it is the limit on nesting if one of them is, and
    otherwise refuses what they refuse and expects what any of them expects. It is the only one of
    them or lists its expectations in order. -/
structure Joins (tops : List ParseError) (e : ParseError) : Prop where
  nonempty : tops ≠ []
  span : ∀ x ∈ tops, x.span = e.span
  limit : ∀ x ∈ tops, x.isTooDeep = true → e.cause = x.cause
  refusal : (∀ x ∈ tops, x.isTooDeep = false) → ∃ expected,
    e.cause.expected? = some expected ∧ (∀ x ∈ tops, e.cause = x.cause.withExpected expected) ∧
      ∀ s, s ∈ expected ↔ ∃ x ∈ tops, ∃ l, x.cause.expected? = some l ∧ s ∈ l
  listed : tops = [e] ∨ 1 < tops.length ∧
    ∀ expected, e.cause.expected? = some expected → expected.Pairwise (· < ·)

/-- The error stands for those of the list that got furthest. -/
structure SumsUp (es : List ParseError) (e : ParseError) : Prop where
  furthest : ∀ x ∈ es, x.span.offset ≤ e.span.offset
  joins : Joins (atOffset es e.span.offset) e

theorem Joins.single (h : e.isTooDeep = true ∨ e.cause.expected?.isSome) : Joins [e] e where
  nonempty := List.cons_ne_nil e []
  span := by simp
  limit := by simp
  refusal := by
    intro hdeep
    have hrefusal := h.resolve_left (by simp [hdeep])
    obtain ⟨expected, hexpected⟩ := Option.isSome_iff_exists.mp hrefusal
    exact ⟨expected, hexpected, by simp [Cause.withExpected_of_expected? hexpected],
      by simp [hexpected]⟩
  listed := .inl rfl

theorem SumsUp.single (h : e.isTooDeep = true ∨ e.cause.expected?.isSome) : SumsUp [e] e where
  furthest := by simp
  joins := by
    have htop : atOffset [e] e.span.offset = [e] := by simp [atOffset]
    rw [htop]
    exact .single h

/-- An error stands for the limit on nesting or for refusals only. -/
theorem Joins.cases (h : Joins tops e) :
    (∃ x ∈ tops, x.isTooDeep = true ∧ e.cause = x.cause) ∨
      (∀ x ∈ tops, x.isTooDeep = false) ∧ e.cause.expected?.isSome := by
  by_cases hdeep : ∃ x ∈ tops, x.isTooDeep = true
  · obtain ⟨x, hx, hxdeep⟩ := hdeep
    exact .inl ⟨x, hx, hxdeep, h.limit x hx hxdeep⟩
  · have hrefusals : ∀ x ∈ tops, x.isTooDeep = false := by simpa using hdeep
    obtain ⟨expected, hexpected, -⟩ := h.refusal hrefusals
    exact .inr ⟨hrefusals, by simp [hexpected]⟩

/-- Several errors at one place, of which one is the limit on nesting, are summed up by that. -/
theorem Joins.of_limit (h : OfOneParser tops) (hlength : 1 < tops.length)
    (hspan : ∀ y ∈ tops, y.span = e.span) (hx : x ∈ tops) (hdeep : x.isTooDeep = true)
    (hcause : e.cause = x.cause) : Joins tops e where
  nonempty := List.ne_nil_of_mem hx
  span := hspan
  limit y hy hydeep := hcause.trans (h.limits x hx y hy hdeep hydeep)
  refusal hrefusals := by
    rw [hrefusals x hx] at hdeep
    cases hdeep
  listed := by
    refine .inr ⟨hlength, ?_⟩
    intro expected hexpected
    rw [hcause, Cause.expected?_of_isTooDeep hdeep] at hexpected
    cases hexpected

/-- The join of two sums of refusals sums up all of them. -/
theorem Joins.of_refusals (h : OfOneParser (as ++ bs)) (hlength : 1 < (as ++ bs).length)
    (ha : Joins as a) (hb : Joins bs b) (hspan : ∀ y ∈ as ++ bs, y.span = a.span)
    (has : ∀ x ∈ as, x.isTooDeep = false) (hbs : ∀ x ∈ bs, x.isTooDeep = false) :
    Joins (as ++ bs) ⟨a.span, a.cause.join b.cause⟩ := by
  obtain ⟨xs, hxs, hacause, hxsmem⟩ := ha.refusal has
  obtain ⟨ys, hys, hbcause, hysmem⟩ := hb.refusal hbs
  obtain ⟨x, hx⟩ := List.exists_mem_of_ne_nil as ha.nonempty
  have hrefusal : ∀ y ∈ as ++ bs, y.cause.expected?.isSome := by
    intro y hy
    have hdeep : y.isTooDeep = false := (List.mem_append.mp hy).elim (has y) (hbs y)
    exact (h.kinds y hy).resolve_left (by simp [hdeep])
  -- All refusals there agree with one of them but for what they list.
  have hsame : ∀ y ∈ as ++ bs, ∀ l, y.cause.withExpected l = x.cause.withExpected l := by
    intro y hy l
    have hxall : x ∈ as ++ bs := List.mem_append_left bs hx
    refine Cause.withExpected_congr (h.refusals y hy x hxall ?_ (hrefusal y hy) (hrefusal x hxall))
    rw [hspan y hy, hspan x hxall]
  have hjoin : a.cause.join b.cause = x.cause.withExpected (Expected.union xs ys) := by
    obtain ⟨y, hy⟩ := List.exists_mem_of_ne_nil bs hb.nonempty
    rw [hacause x hx, hbcause y hy, hsame y (List.mem_append_right as hy),
      Cause.join_withExpected (hrefusal x (List.mem_append_left bs hx))]
  obtain ⟨l, hl⟩ := Option.isSome_iff_exists.mp (hrefusal x (List.mem_append_left bs hx))
  have hexpected : (a.cause.join b.cause).expected? = some (Expected.union xs ys) := by
    rw [hjoin, Cause.expected?_withExpected hl]
  refine ⟨List.append_ne_nil_of_left_ne_nil ha.nonempty bs, hspan, ?_, ?_, .inr ⟨hlength, ?_⟩⟩
  · intro y hy hdeep
    have hnot : y.isTooDeep = false := (List.mem_append.mp hy).elim (has y) (hbs y)
    rw [hnot] at hdeep
    cases hdeep
  · intro _
    refine ⟨Expected.union xs ys, hexpected, ?_, ?_⟩
    · intro y hy
      rw [hsame y hy]
      exact hjoin
    · intro s
      rw [Expected.mem_union, hxsmem, hysmem]
      simp only [List.mem_append, or_and_right, exists_or]
  · intro expected hlisted
    obtain rfl := Option.some.inj (hexpected.symm.trans hlisted)
    exact Expected.pairwise_union

/-- Two sums at one place have a join that sums up the errors of both. -/
theorem Joins.join (h : OfOneParser (as ++ bs)) (ha : Joins as a) (hb : Joins bs b)
    (hoffset : a.span.offset = b.span.offset) :
    Joins (as ++ bs) ⟨a.span, a.cause.join b.cause⟩ := by
  have hspan : ∀ y ∈ as ++ bs, y.span = a.span := by
    obtain ⟨x, hx⟩ := List.exists_mem_of_ne_nil as ha.nonempty
    intro y hy
    rw [← ha.span x hx]
    refine h.spans y hy x (List.mem_append_left bs hx) ?_
    rw [ha.span x hx]
    rcases List.mem_append.mp hy with hy | hy
    · rw [ha.span y hy]
    · rw [hb.span y hy, hoffset]
  have hlength : 1 < (as ++ bs).length := by
    have hapos := List.length_pos_of_ne_nil ha.nonempty
    have hbpos := List.length_pos_of_ne_nil hb.nonempty
    rw [List.length_append]
    omega
  rcases hb.cases with ⟨y, hy, hdeep, hcause⟩ | ⟨hbs, hbrefusal⟩
  · obtain ⟨limit, hlimit⟩ := Cause.isTooDeep_iff.mp hdeep
    refine .of_limit h hlength hspan (List.mem_append_right as hy) hdeep ?_
    rw [hcause, hlimit, Cause.join_tooDeep]
  · rcases ha.cases with ⟨x, hx, hdeep, hcause⟩ | ⟨has, -⟩
    · obtain ⟨limit, hlimit⟩ := Cause.isTooDeep_iff.mp hdeep
      refine .of_limit h hlength hspan (List.mem_append_left bs hx) hdeep ?_
      rw [hcause, hlimit, Cause.tooDeep_join hbrefusal]
    · exact .of_refusals h hlength ha hb hspan has hbs

theorem atOffset_eq_nil {offset : Nat} (h : ∀ x ∈ es, x.span.offset < offset) :
    atOffset es offset = [] := by
  refine List.filter_eq_nil_iff.mpr ?_
  intro x hx
  have hlt := h x hx
  simp only [decide_eq_true_eq]
  omega

theorem SumsUp.of_atOffset (h : SumsUp as e) (hfurthest : ∀ x ∈ es, x.span.offset ≤ e.span.offset)
    (htops : atOffset es e.span.offset = atOffset as e.span.offset) : SumsUp es e :=
  ⟨hfurthest, htops ▸ h.joins⟩

/-- Merging two sums sums up both lists. -/
theorem SumsUp.merge (h : OfOneParser (as ++ bs)) (ha : SumsUp as a) (hb : SumsUp bs b) :
    SumsUp (as ++ bs) (a.merge b) := by
  have happend : ∀ offset, atOffset (as ++ bs) offset = atOffset as offset ++ atOffset bs offset :=
    fun offset => List.filter_append as bs
  rcases Nat.lt_trichotomy a.span.offset b.span.offset with hlt | heq | hgt
  · rw [Parser.merge_of_lt hlt]
    have hbehind : ∀ x ∈ as, x.span.offset < b.span.offset :=
      fun x hx => Nat.lt_of_le_of_lt (ha.furthest x hx) hlt
    refine hb.of_atOffset ?_ (by rw [happend, atOffset_eq_nil hbehind, List.nil_append])
    intro x hx
    exact (List.mem_append.mp hx).elim (fun hx => Nat.le_of_lt (hbehind x hx)) (hb.furthest x)
  · have hmerge : a.merge b = ⟨a.span, a.cause.join b.cause⟩ := by simp [ParseError.merge, heq]
    have hboth : OfOneParser (atOffset as a.span.offset ++ atOffset bs b.span.offset) := by
      rw [← heq, ← happend]
      exact h.mono (List.filter_subset_self _)
    have hjoins := Joins.join hboth ha.joins hb.joins heq
    rw [← heq, ← happend] at hjoins
    rw [hmerge]
    refine ⟨?_, hjoins⟩
    intro x hx
    exact (List.mem_append.mp hx).elim (ha.furthest x)
      fun hx => Nat.le_trans (hb.furthest x hx) (Nat.le_of_eq heq.symm)
  · rw [Parser.merge_of_gt hgt]
    have hbehind : ∀ x ∈ bs, x.span.offset < a.span.offset :=
      fun x hx => Nat.lt_of_le_of_lt (hb.furthest x hx) hgt
    refine ha.of_atOffset ?_ (by rw [happend, atOffset_eq_nil hbehind, List.append_nil])
    intro x hx
    exact (List.mem_append.mp hx).elim (ha.furthest x) fun hx => Nat.le_of_lt (hbehind x hx)

/-- The same errors at one place have one sum. -/
theorem Joins.unique {tops' : List ParseError} (hperm : tops.Perm tops') (he : Joins tops e)
    (he' : Joins tops' e') : e = e' := by
  have hmem : ∀ x, x ∈ tops ↔ x ∈ tops' := fun x => hperm.mem_iff
  obtain ⟨x, hx⟩ := List.exists_mem_of_ne_nil tops he.nonempty
  have hspan : e.span = e'.span := (he.span x hx).symm.trans (he'.span x ((hmem x).mp hx))
  have hcause : e.cause = e'.cause := by
    rcases he.listed with rfl | ⟨hlength, hsorted⟩
    · -- The only error at its place is its own sum.
      rcases he'.listed with rfl | ⟨hlength', -⟩
      · rw [List.singleton_perm_singleton.mp hperm]
      · rw [← hperm.length_eq] at hlength'
        exact absurd hlength' (Nat.lt_irrefl 1)
    · obtain ⟨-, hsorted'⟩ : 1 < tops'.length ∧ _ := by
        refine he'.listed.resolve_left ?_
        rintro rfl
        rw [hperm.length_eq] at hlength
        exact absurd hlength (Nat.lt_irrefl 1)
      by_cases hdeep : ∃ y ∈ tops, y.isTooDeep = true
      · obtain ⟨y, hy, hydeep⟩ := hdeep
        rw [he.limit y hy hydeep, he'.limit y ((hmem y).mp hy) hydeep]
      · have hrefusals : ∀ y ∈ tops, y.isTooDeep = false := by simpa using hdeep
        obtain ⟨xs, hxs, hall, hxsmem⟩ := he.refusal hrefusals
        obtain ⟨ys, hys, hall', hysmem⟩ :=
          he'.refusal fun y hy => hrefusals y ((hmem y).mpr hy)
        have hlists : xs = ys := by
          refine (hsorted xs hxs).eq_of_mem_iff (hsorted' ys hys) ?_
          intro s
          simp only [hxsmem, hysmem, hmem]
        rw [hall x hx, hall' x ((hmem x).mp hx), hlists]
  obtain ⟨span, cause⟩ := e
  obtain ⟨span', cause'⟩ := e'
  cases hspan
  cases hcause
  rfl

theorem SumsUp.exists_mem (h : SumsUp es e) : ∃ x ∈ es, x.span = e.span := by
  obtain ⟨x, hx⟩ := List.exists_mem_of_ne_nil _ h.joins.nonempty
  exact ⟨x, (mem_atOffset.mp hx).1, h.joins.span x hx⟩

/-- Lists with the same errors have one sum. -/
theorem SumsUp.unique (hperm : es.Perm es') (he : SumsUp es e) (he' : SumsUp es' e') : e = e' := by
  obtain ⟨x, hx, hspan⟩ := he.exists_mem
  obtain ⟨x', hx', hspan'⟩ := he'.exists_mem
  have hle := he'.furthest x (hperm.mem_iff.mp hx)
  have hge := he.furthest x' (hperm.mem_iff.mpr hx')
  have hoffset : e.span.offset = e'.span.offset := by
    rw [hspan] at hle
    rw [hspan'] at hge
    omega
  have htops : (atOffset es e.span.offset).Perm (atOffset es' e'.span.offset) := by
    rw [hoffset]
    exact hperm.filter _
  exact Joins.unique htops he.joins he'.joins

end ParseError

/-! ## Ways to merge errors -/

/-- A way to merge errors two at a time, in some order and with some grouping. -/
inductive Merging where
  | error (e : ParseError)
  | merge (a b : Merging)

namespace Merging

open ParseError

/-- The errors that are merged, in their order. -/
def errors : Merging → List ParseError
  | error e => [e]
  | merge a b => a.errors ++ b.errors

/-- The error that comes of it. -/
def result : Merging → ParseError
  | error e => e
  | merge a b => a.result.merge b.result

/-- Every way to merge errors of one parser sums them up. -/
theorem result_sumsUp (m : Merging) (h : OfOneParser m.errors) : SumsUp m.errors m.result := by
  induction m with
  | error e => exact .single (h.kinds e List.mem_cons_self)
  | merge a b iha ihb =>
    exact .merge h (iha (h.mono (List.subset_append_left _ _)))
      (ihb (h.mono (List.subset_append_right _ _)))

/-- Any errors, if there are some, can be merged in their order. -/
theorem exists_errors_eq {es : List ParseError} (h : es ≠ []) : ∃ m : Merging, m.errors = es := by
  induction es with
  | nil => exact absurd rfl h
  | cons e es ih =>
    cases es with
    | nil => exact ⟨.error e, rfl⟩
    | cons e' es =>
      obtain ⟨m, hm⟩ := ih (List.cons_ne_nil e' es)
      exact ⟨.merge (.error e) m, by rw [errors, errors, hm, List.singleton_append]⟩

/-- However the errors of one parser are merged, in any order and with any grouping, one and the
    same error comes of it. It stands at the greatest offset. If an error there is the limit on
    nesting, so is the result; otherwise it refuses what the errors there refuse, and expects exactly
    what one of them expects. -/
theorem result_ignores_order (es : List ParseError) (hne : es ≠ []) (h : OfOneParser es) :
    (∃ m : Merging, m.errors = es) ∧
    ∃ e, (∀ m : Merging, m.errors.Perm es → m.result = e) ∧
      (∀ x ∈ es, x.span.offset ≤ e.span.offset) ∧ (∃ x ∈ es, x.span = e.span) ∧
      let tops := atOffset es e.span.offset
      (∀ x ∈ tops, x.isTooDeep = true → e.cause = x.cause) ∧
      ((∀ x ∈ tops, x.isTooDeep = false) → ∃ expected,
        (∀ x ∈ tops, e.cause = x.cause.withExpected expected) ∧
        ∀ s, s ∈ expected ↔ ∃ x ∈ tops, ∃ l, x.cause.expected? = some l ∧ s ∈ l) := by
  obtain ⟨m, rfl⟩ := exists_errors_eq hne
  have hsum := m.result_sumsUp h
  refine ⟨⟨m, rfl⟩, m.result, ?_, hsum.furthest, hsum.exists_mem, hsum.joins.limit, ?_⟩
  · intro m' hperm
    exact SumsUp.unique hperm (m'.result_sumsUp (h.mono hperm.subset)) hsum
  · intro hrefusals
    obtain ⟨expected, -, hcause, hmem⟩ := hsum.joins.refusal hrefusals
    exact ⟨expected, hcause, hmem⟩

/-- Two refusals of a closing parenthesis and the limit on nesting before it. -/
def refusalsAndLimit : List ParseError :=
  [⟨⟨4, 1⟩, .unexpected "`)`" ["`lam`", "`abs`"]⟩, ⟨⟨2, 1⟩, .tooDeep 8⟩,
    ⟨⟨4, 1⟩, .unexpected "`)`" ["`con`", "`abs`"]⟩]

/-- The refusals got further than the limit, and in any order expect what either of them does. -/
theorem refusals_outlast_limit :
    refusalsAndLimit ≠ [] ∧ OfOneParser refusalsAndLimit ∧
      ∀ m : Merging, m.errors.Perm refusalsAndLimit →
        m.result = ⟨⟨4, 1⟩, .unexpected "`)`" ["`abs`", "`con`", "`lam`"]⟩ := by
  have hne : refusalsAndLimit ≠ [] := List.cons_ne_nil _ _
  have hraised : OfOneParser refusalsAndLimit := by
    refine ⟨?_, ?_, ?_, ?_⟩ <;> decide
  obtain ⟨-, e, hany, -⟩ := result_ignores_order refusalsAndLimit hne hraised
  refine ⟨hne, hraised, ?_⟩
  intro m hm
  let m₀ : Merging := .merge (.merge (.error ⟨⟨4, 1⟩, .unexpected "`)`" ["`lam`", "`abs`"]⟩)
    (.error ⟨⟨2, 1⟩, .tooDeep 8⟩)) (.error ⟨⟨4, 1⟩, .unexpected "`)`" ["`con`", "`abs`"]⟩)
  have hresult : m₀.result = ⟨⟨4, 1⟩, .unexpected "`)`" ["`abs`", "`con`", "`lam`"]⟩ := by
    decide +kernel
  rw [hany m hm, ← hany m₀ (List.Perm.refl _), hresult]

end Merging

end FOmega
