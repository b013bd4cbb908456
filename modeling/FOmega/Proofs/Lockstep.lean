import FOmega.Proofs.Placement
import FOmega.Proofs.Numbering

/-!
# Runs on two sources with the same tokens

A rule does the same on two sources that have the same tokens, however these are laid out. At every
moment both runs are at the same token and have seen the same names. They end alike: with values
whose spans cover the same tokens, or with the same error at the same token. Offsets are compared
only where errors are merged, and there they are in the order of the tokens.
-/

namespace FOmega

open FOmega.Parser

theorem Token.describe_eq {t t' : Token} (h : t.spelled = t'.spelled) :
    t.describe = t'.describe := by
  obtain ⟨hkind, htext⟩ := Prod.mk.inj h
  rw [describe, describe, hkind, htext]

namespace Layout

theorem offset_spanAt_lt_iff {l : Layout} {i j : Nat} (hi : i ≤ l.count) (hj : j ≤ l.count) :
    (l.spanAt i).offset < (l.spanAt j).offset ↔ i < j := by
  refine ⟨?_, fun hij => offset_spanAt_lt hij hj⟩
  intro hlt
  by_contra hge
  have hle := offset_spanAt_le (Nat.le_of_not_lt hge) hi
  omega

end Layout

namespace Twins

variable (T : Twins) {α β : Type}

/-! ## States, errors and replies -/

/-- Two errors with one cause, at the same token or both at the end. -/
def Errors (e e' : ParseError) : Prop :=
  e.cause = e'.cause ∧ ∃ i ≤ T.count, e.span = T.left.spanAt i ∧ e'.span = T.right.spanAt i

/-- Two states before the same token, with the same names and hints. -/
structure States (k : Nat) (s s' : State) : Prop where
  le : k ≤ T.count
  left : s.rest = T.left.tokens.drop k
  right : s'.rest = T.right.tokens.drop k
  hint : Option.Rel T.Errors s.hint s'.hint
  interner : s.interner = s'.interner

/-- Two ends of runs from the same token on, at the same token with related values, or with the same
    error. -/
inductive Replies (k : Nat) (R : α → α → Prop) : Reply α → Reply α → Prop where
  | ok {k' : Nat} {a a' : α} {s s' : State} (le : k ≤ k') (value : R a a')
    (states : T.States k' s s') : Replies k R (.ok a s) (.ok a' s')
  | error {k' : Nat} {e e' : ParseError} {s s' : State} (le : k ≤ k') (errors : T.Errors e e')
    (states : T.States k' s s') : Replies k R (.error e s) (.error e' s')

/-- Run from the same token on, each on its own source, the two rules end in the same way. -/
def Lockstep (maxDepth k : Nat) (R : α → α → Prop) (p p' : Parser α) : Prop :=
  ∀ s s', T.States k s s' →
    T.Replies k R (p (T.left.context maxDepth) s) (p' (T.right.context maxDepth) s')

variable {T} {d k k' : Nat} {s s' : State} {e e' f f' : ParseError} {R S : α → α → Prop}

/-- Which of two errors got further does not depend on the layout. -/
theorem Errors.merge (he : T.Errors e e') (hf : T.Errors f f') :
    T.Errors (e.merge f) (e'.merge f') := by
  obtain ⟨hcause, i, hi, hspan, hspan'⟩ := he
  obtain ⟨hcause', j, hj, hspanf, hspanf'⟩ := hf
  have hi' : i ≤ T.right.count := count_eq ▸ hi
  have hj' : j ≤ T.right.count := count_eq ▸ hj
  unfold ParseError.merge
  rw [hspan, hspan', hspanf, hspanf']
  simp only [Layout.offset_spanAt_lt_iff hi hj, Layout.offset_spanAt_lt_iff hj hi,
    Layout.offset_spanAt_lt_iff hi' hj', Layout.offset_spanAt_lt_iff hj' hi']
  split
  · exact ⟨hcause, i, hi, hspan, hspan'⟩
  · split
    · exact ⟨hcause', j, hj, hspanf, hspanf'⟩
    · exact ⟨by rw [hcause, hcause'], i, hi, rfl, rfl⟩

theorem Errors.isTooDeep_eq (h : T.Errors e e') : e.isTooDeep = e'.isTooDeep :=
  congrArg Cause.isTooDeep h.1

namespace States

/-- The number of tokens left is the same. -/
theorem length_eq (h : T.States k s s') :
    s.rest.length = T.count - k ∧ s'.rest.length = T.count - k := by
  rw [h.left, h.right, List.length_drop, List.length_drop, ← T.count_eq]
  exact ⟨by rw [T.count_eq]; rfl, rfl⟩

/-- What comes next: nothing in both, or one token of each that is spelled in the same way. -/
theorem next (h : T.States k s s') :
    (k = T.count ∧ s.rest = [] ∧ s'.rest = []) ∨
      ∃ t t', k < T.count ∧ t.spelled = t'.spelled ∧ t.span = T.left.spanAt k ∧
        t'.span = T.right.spanAt k ∧ s.rest = t :: T.left.tokens.drop (k + 1) ∧
        s'.rest = t' :: T.right.tokens.drop (k + 1) := by
  rcases Nat.lt_or_eq_of_le h.le with hlt | rfl
  · have hlt' : k < T.right.count := count_eq ▸ hlt
    have hsame := congrArg (fun l => l[k]?) T.same
    rw [List.getElem?_map, List.getElem?_map, List.getElem?_eq_getElem hlt,
      List.getElem?_eq_getElem hlt'] at hsame
    refine .inr ⟨T.left.tokens[k], T.right.tokens[k], hlt, Option.some.inj hsame,
      (Layout.spanAt_of_lt hlt).symm, (Layout.spanAt_of_lt hlt').symm, ?_, ?_⟩
    · rw [h.left, List.drop_eq_getElem_cons hlt]
    · rw [h.right, List.drop_eq_getElem_cons hlt']
  · refine .inl ⟨rfl, ?_, ?_⟩
    · rw [h.left]
      exact List.drop_eq_nil_of_le (Nat.le_refl _)
    · rw [h.right]
      exact List.drop_eq_nil_of_le (Nat.le_of_eq count_eq)

theorem here (h : T.States k s s') :
    s.here (T.left.context d) = T.left.spanAt k ∧
      s'.here (T.right.context d) = T.right.spanAt k := by
  unfold State.here
  rcases h.next with ⟨rfl, hrest, hrest'⟩ | ⟨t, t', -, -, hspan, hspan', hrest, hrest'⟩
  · have hend : T.left.spanAt T.count = ⟨T.left.size, 0⟩ := Layout.spanAt_of_ge (Nat.le_refl _)
    have hend' : T.right.spanAt T.count = ⟨T.right.size, 0⟩ :=
      Layout.spanAt_of_ge (Nat.le_of_eq count_eq)
    rw [hrest, hrest', hend, hend']
    exact ⟨rfl, rfl⟩
  · rw [hrest, hrest']
    exact ⟨hspan, hspan'⟩

theorem withHint (h : T.States k s s') {o o' : Option ParseError} (ho : Option.Rel T.Errors o o') :
    T.States k { s with hint := o } { s' with hint := o' } :=
  ⟨h.le, h.left, h.right, ho, h.interner⟩

theorem withInterner (h : T.States k s s') {i i' : Interner} (hi : i = i') :
    T.States k { s with interner := i } { s' with interner := i' } :=
  ⟨h.le, h.left, h.right, h.hint, hi⟩

theorem advance (h : T.States k s s') (hk : k < T.count) :
    T.States (k + 1) s.advance s'.advance := by
  unfold State.advance
  rcases h.next with ⟨hend, -⟩ | ⟨t, t', -, -, -, -, hrest, hrest'⟩
  · exact absurd hend (Nat.ne_of_lt hk)
  · rw [hrest, hrest']
    exact ⟨hk, rfl, rfl, .none, h.interner⟩

theorem unexpected (h : T.States k s s') (expected : List String) :
    T.Errors (s.unexpected (T.left.context d) expected)
      (s'.unexpected (T.right.context d) expected) := by
  obtain ⟨hhere, hhere'⟩ := h.here (d := d)
  refine ⟨?_, k, h.le, span_unexpected.trans hhere, span_unexpected.trans hhere'⟩
  unfold State.unexpected
  rcases h.next with ⟨-, hrest, hrest'⟩ | ⟨t, t', -, hspelled, -, -, hrest, hrest'⟩
  · rw [hrest, hrest']
  · rw [hrest, hrest']
    exact congrArg (Cause.unexpected · expected) (Token.describe_eq hspelled)

end States

namespace Replies

variable {r r' : Reply α}

theorem imp (h : T.Replies k R r r') (hRS : ∀ {a a'}, R a a' → S a a') : T.Replies k S r r' := by
  cases h with
  | ok hle hvalue hstates => exact .ok hle (hRS hvalue) hstates
  | error hle herrors hstates => exact .error hle herrors hstates

theorem weaken (h : T.Replies k' R r r') (hle : k ≤ k') : T.Replies k R r r' := by
  cases h with
  | ok hle' hvalue hstates => exact .ok (Nat.le_trans hle hle') hvalue hstates
  | error hle' herrors hstates => exact .error (Nat.le_trans hle hle') herrors hstates

end Replies

/-! ## Single tokens -/

/-- What a condition on tokens gives, if two tokens meet it together. -/
theorem rel_ite {c c' : Prop} [Decidable c] [Decidable c'] (hc : c ↔ c') {a a' : α} (h : R a a') :
    Option.Rel R (if c then some a else none) (if c' then some a' else none) := by
  by_cases hif : c
  · rw [if_pos hif, if_pos (hc.mp hif)]
    exact .some h
  · rw [if_neg hif, if_neg (mt hc.mpr hif)]
    exact .none

theorem rel_of_eq {o o' : Option α} (h : o = o') : Option.Rel Eq o o' := by
  rw [h]
  cases o' with
  | none => exact .none
  | some a => exact .some rfl

namespace Lockstep

variable {p p' : Parser α} {q q' : α → Parser β} {Q : β → β → Prop}

theorem imp (hp : T.Lockstep d k R p p') (hRS : ∀ {a a'}, R a a' → S a a') :
    T.Lockstep d k S p p' :=
  fun s s' hs => (hp s s' hs).imp hRS

theorem pure {a a' : α} (h : R a a') : T.Lockstep d k R (Pure.pure a) (Pure.pure a') :=
  fun _ _ hs => .ok (Nat.le_refl k) h hs

theorem bind (hp : T.Lockstep d k R p p')
    (hq : ∀ k' a a', k ≤ k' → R a a' → T.Lockstep d k' Q (q a) (q' a')) :
    T.Lockstep d k Q (p >>= q) (p' >>= q') := by
  intro s s' hs
  have hreplies := hp s s' hs
  rw [bind_run, bind_run]
  generalize p (T.left.context d) s = r, p' (T.right.context d) s' = r' at hreplies
  cases hreplies with
  | ok hle hvalue hstates => exact (hq _ _ _ hle hvalue _ _ hstates).weaken hle
  | error hle herrors hstates => exact .error hle herrors hstates

theorem fail (h : T.Errors e e') : T.Lockstep d k R (Parser.fail e) (Parser.fail e') :=
  fun _ _ hs => .error (Nat.le_refl k) h hs

theorem unexpected (expected : List String) :
    T.Lockstep d k R (Parser.unexpected expected) (Parser.unexpected expected) := by
  intro s s' hs
  have herror := hs.unexpected (d := d) expected
  have hhint := hs.hint
  refine .error (Nat.le_refl k) ?_ (hs.withHint .none)
  generalize s.hint = o, s'.hint = o' at hhint ⊢
  cases hhint with
  | none => exact herror
  | some hhint => exact herror.merge hhint

theorem tooDeep : T.Lockstep d k R Parser.tooDeep Parser.tooDeep := by
  intro s s' hs
  obtain ⟨hhere, hhere'⟩ := hs.here (d := d)
  exact .error (Nat.le_refl k) ⟨rfl, k, hs.le, hhere, hhere'⟩ hs

theorem accept {g g' : Token → Option α}
    (hg : ∀ t t', k < T.count → t.spelled = t'.spelled → t.span = T.left.spanAt k →
      t'.span = T.right.spanAt k → Option.Rel R (g t) (g' t'))
    (expected : List String) : T.Lockstep d k R (Parser.accept g expected)
      (Parser.accept g' expected) := by
  intro s s' hs
  unfold Parser.accept
  rcases hs.next with ⟨-, hrest, hrest'⟩ | ⟨t, t', hk, hspelled, hspan, hspan', hrest, hrest'⟩
  · rw [hrest, hrest']
    exact unexpected expected s s' hs
  · rw [hrest, hrest', List.head?_cons, List.head?_cons, Option.bind_some, Option.bind_some]
    have hrel := hg t t' hk hspelled hspan hspan'
    generalize g t = o, g' t' = o' at hrel
    cases hrel with
    | none => exact unexpected expected s s' hs
    | some hvalue => exact .ok (Nat.le_succ k) hvalue (hs.advance hk)

/-- A rule that answers with the place of a token, if the token is spelled as it has to be. -/
theorem accept_span {P : Token → Prop} [DecidablePred P]
    (hP : ∀ t t', t.spelled = t'.spelled → (P t ↔ P t')) (expected : List String) :
    T.Lockstep d k (T.From k)
      (Parser.accept (fun t => if P t then some t.span else none) expected)
      (Parser.accept (fun t => if P t then some t.span else none) expected) := by
  refine accept ?_ expected
  intro t t' hk hspelled hspan hspan'
  refine rel_ite (hP t t' hspelled) ?_
  rw [hspan, hspan']
  exact From.token hk

theorem expect (kind : TokenKind) :
    T.Lockstep d k (T.From k) (Parser.expect kind) (Parser.expect kind) := by
  refine accept_span ?_ _
  intro t t' hspelled
  rw [(Prod.mk.inj hspelled).1]

theorem keyword (word : String) :
    T.Lockstep d k (T.From k) (Parser.keyword word) (Parser.keyword word) := by
  refine accept_span ?_ _
  intro t t' hspelled
  rw [(Prod.mk.inj hspelled).1, (Prod.mk.inj hspelled).2]

theorem identifier (what : String) : T.Lockstep d k (fun x x' => x.1 = x'.1 ∧ T.From k x.2 x'.2)
    (Parser.identifier what) (Parser.identifier what) := by
  refine accept ?_ _
  intro t t' hk hspelled hspan hspan'
  refine rel_ite ?_ ⟨(Prod.mk.inj hspelled).2, ?_⟩
  · rw [(Prod.mk.inj hspelled).1]
  · rw [hspan, hspan']
    exact From.token hk

/-- A rule for one token that does not look at its place. -/
theorem accept_spelled {g : Token → Option α} (hg : ∀ t t', t.spelled = t'.spelled → g t = g t')
    (expected : List String) :
    T.Lockstep d k Eq (Parser.accept g expected) (Parser.accept g expected) :=
  accept (fun t t' _ hspelled _ _ => rel_of_eq (hg t t' hspelled)) expected

/-- A choice by the kind of the next token, which is not read. -/
theorem branch (kind : TokenKind) {q q' : Parser α} (hp : T.Lockstep d k R p p')
    (hq : T.Lockstep d k R q q') :
    T.Lockstep d k R (isAt kind >>= fun here => if here = true then p else q)
      (isAt kind >>= fun here => if here = true then p' else q') := by
  intro s s' hs
  have hsame : s.isAt kind = s'.isAt kind := by
    unfold State.isAt
    rcases hs.next with ⟨-, hrest, hrest'⟩ | ⟨t, t', -, hspelled, -, -, hrest, hrest'⟩
    · rw [hrest, hrest']
    · rw [hrest, hrest']
      exact congrArg (· == kind) (Prod.mk.inj hspelled).1
  simp only [bind_run, isAt, hsame]
  split
  · exact hp s s' hs
  · exact hq s s' hs

theorem intern (text : String) : T.Lockstep d k Eq (Parser.intern text) (Parser.intern text) := by
  intro s s' hs
  have hinterner := hs.interner
  refine .ok (Nat.le_refl k) ?_ (hs.withInterner ?_)
  · rw [hinterner]
  · rw [hinterner]

theorem natural (bound : Nat) : T.Lockstep d k (fun x x' => x.1 = x'.1 ∧ T.From k x.2 x'.2)
    (Grammar.natural bound) (Grammar.natural bound) := by
  intro s s' hs
  have hunexpected := unexpected (T := T) (d := d) (k := k)
    (R := fun x x' : Nat × Span => x.1 = x'.1 ∧ T.From k x.2 x'.2) ["natural number"] s s' hs
  unfold Grammar.natural
  rcases hs.next with ⟨-, hrest, hrest'⟩ | ⟨t, t', hk, hspelled, hspan, hspan', hrest, hrest'⟩
  · rw [hrest, hrest']
    exact hunexpected
  · obtain ⟨kind, span, text⟩ := t
    obtain ⟨kind', span', text'⟩ := t'
    obtain ⟨rfl, rfl⟩ : kind = kind' ∧ text = text' := Prod.mk.inj hspelled
    rw [hrest, hrest']
    cases kind with
    | int n =>
      simp only
      split
      · refine .ok (Nat.le_succ k) ⟨rfl, ?_⟩ (hs.advance hk)
        obtain rfl : span = T.left.spanAt k := hspan
        obtain rfl : span' = T.right.spanAt k := hspan'
        exact From.token hk
      · exact .error (Nat.le_refl k) ⟨rfl, k, hs.le, hspan, hspan'⟩ hs
    | _ => exact hunexpected

theorem endOfInput : T.Lockstep d k Eq Parser.endOfInput Parser.endOfInput := by
  intro s s' hs
  unfold Parser.endOfInput
  rcases hs.next with ⟨-, hrest, hrest'⟩ | ⟨t, t', -, -, -, -, hrest, hrest'⟩
  · rw [hrest, hrest']
    exact .ok (Nat.le_refl k) rfl hs
  · rw [hrest, hrest']
    exact unexpected _ s s' hs

/-! ## Alternatives and repetition -/

/-- A rule and what is done after it failed, from where it started. -/
theorem orElse {q q' : ParseError → Parser α} (hp : T.Lockstep d k R p p')
    (hq : ∀ {e e'}, T.Errors e e' → T.Lockstep d k R (q e) (q' e')) :
    T.Lockstep d k R
      (fun c s => match attempt p c s with
        | .ok a s₁ => .ok a s₁
        | .error e s₁ => q e c s₁)
      (fun c s => match attempt p' c s with
        | .ok a s₁ => .ok a s₁
        | .error e s₁ => q' e c s₁) := by
  intro s s' hs
  have hreplies := hp s s' hs
  simp only [attempt]
  generalize p (T.left.context d) s = r, p' (T.right.context d) s' = r' at hreplies
  cases hreplies with
  | ok hle hvalue hstates => exact .ok hle hvalue hstates
  | error _ herrors hstates => exact hq herrors _ _ (hs.withInterner hstates.interner)

theorem choiceAfter {ps ps' : List (Parser α)} (hps : List.Forall₂ (T.Lockstep d k R) ps ps')
    (he : T.Errors e e') :
    T.Lockstep d k R (Parser.choiceAfter e ps) (Parser.choiceAfter e' ps') := by
  induction hps generalizing e e' with
  | nil => exact fail he
  | cons hp _ ih => exact orElse hp fun hmore => ih (he.merge hmore)

theorem choice {ps ps' : List (Parser α)} (hps : List.Forall₂ (T.Lockstep d k R) ps ps') :
    T.Lockstep d k R (Parser.choice ps) (Parser.choice ps') := by
  cases hps with
  | nil => exact unexpected []
  | cons hp hps => exact orElse hp (choiceAfter hps)

theorem enforce (hp : T.Lockstep d k R p p') :
    T.Lockstep d k R (Parser.enforce p) (Parser.enforce p') := by
  intro s s' hs
  have hreplies := hp s s' hs
  obtain ⟨hlength, hlength'⟩ := hs.length_eq
  obtain ⟨hhere, hhere'⟩ := hs.here (d := d)
  unfold Parser.enforce
  generalize p (T.left.context d) s = r, p' (T.right.context d) s' = r' at hreplies
  cases hreplies with
  | error hle herrors hstates => exact .error hle herrors hstates
  | ok hle hvalue hstates =>
    obtain ⟨hlength₁, hlength₁'⟩ := hstates.length_eq
    simp only [hlength, hlength', hlength₁, hlength₁']
    split
    · exact .ok hle hvalue hstates
    · rw [hhere, hhere']
      exact .error hle ⟨rfl, k, hs.le, rfl, rfl⟩ hstates

variable {W : Nat → α → α → Prop}

/-- A repetition takes the same number of items. What is said of an item at a token is also said of
    it at any token before. -/
theorem many (hW : ∀ k k' a a', k ≤ k' → W k' a a' → W k a a')
    (hp : ∀ k, T.Lockstep d k (W k) p p') (k : Nat) :
    T.Lockstep d k (List.Forall₂ (W k)) (Parser.many p) (Parser.many p') := by
  intro s s' hs
  have hreplies := (hp k).enforce s s' hs
  obtain ⟨hlength, hlength'⟩ := hs.length_eq
  generalize hrun : Parser.enforce p (T.left.context d) s = r,
    hrun' : Parser.enforce p' (T.right.context d) s' = r' at hreplies
  cases hreplies with
  | @ok k₁ a a' s₁ s₁' hle hvalue hstates =>
    have hless : k < k₁ := by
      have hfewer := enforce_rest_lt hrun
      have hlength₁ := hstates.length_eq.1
      omega
    have hmore := many hW hp k₁ s₁ s₁' hstates
    rw [many_of_ok hrun, many_of_ok hrun']
    generalize Parser.many p (T.left.context d) s₁ = r,
      Parser.many p' (T.right.context d) s₁' = r' at hmore
    cases hmore with
    | ok hle' hvalues hstates' =>
      have hvalues' := hvalues.imp fun a a' => hW k k₁ a a' hle
      exact .ok (Nat.le_trans hle hle') (.cons hvalue hvalues') hstates'
    | error hle' herrors hstates' => exact .error (Nat.le_trans hle hle') herrors hstates'
  | @error k₁ e e' s₁ s₁' hle herrors hstates =>
    obtain ⟨hlength₁, hlength₁'⟩ := hstates.length_eq
    rw [many_of_error hrun, many_of_error hrun', hlength, hlength', hlength₁, hlength₁',
      herrors.isTooDeep_eq]
    split
    · refine .ok hle .nil (hstates.withHint (.some ?_))
      have hhint := hstates.hint
      generalize s₁.hint = o, s₁'.hint = o' at hhint ⊢
      cases hhint with
      | none => exact herrors
      | some hhint => exact hhint.merge herrors
    · exact .error hle herrors hstates
termination_by T.count - k
decreasing_by
  have hcount := hstates.le
  omega

theorem atLeastOne (hW : ∀ k k' a a', k ≤ k' → W k' a a' → W k a a')
    (hp : ∀ k, T.Lockstep d k (W k) p p') (k : Nat) :
    T.Lockstep d k (fun as as' => as ≠ [] ∧ List.Forall₂ (W k) as as') (Parser.atLeastOne p)
      (Parser.atLeastOne p') := by
  refine bind (hp k).enforce fun k₁ a a' hle ha => ?_
  refine bind (many hW hp k₁) fun k₂ as as' _ has => ?_
  exact pure ⟨List.cons_ne_nil a as, .cons ha (has.imp fun _ _ => hW _ _ _ _ hle)⟩

/-- A phrase between delimiters, with the span of the whole. -/
theorem between (opening closing : TokenKind) (hp : ∀ k', k ≤ k' → T.Lockstep d k' R p p') :
    T.Lockstep d k (fun x x' => R x.1 x'.1 ∧ T.From k x.2 x'.2)
      (Parser.between opening closing p) (Parser.between opening closing p') := by
  refine bind (expect opening) fun k₁ first first' hle hfirst => ?_
  refine bind (hp k₁ hle) fun k₂ a a' hle' ha => ?_
  refine bind (expect closing) fun k₃ last last' _ hlast => ?_
  exact pure ⟨ha, hfirst.through hlast (Nat.le_trans hle hle')⟩

theorem whole (hp : T.Lockstep d k R p p') : T.Lockstep d k R p.whole p'.whole := by
  refine bind hp fun k₁ a a' _ ha => ?_
  exact bind endOfInput fun _ _ _ _ _ => pure ha

end Lockstep

/-! ## Trees -/

variable (T) in
/-- Two values that are alike and whose roots span the same tokens, from the given one on. -/
structure Sited [Spanned α] (mark : α → Mark) (k : Nat) (a a' : α) : Prop where
  alike : T.Alike a a'
  root : ∃ i r r', k ≤ i ∧ T.From i r r' ∧ mark a = .position r ∧ mark a' = .position r'

variable (T) in
/-- Two trees that only lack the marks at their roots, and are alike with alike marks. -/
def Builds [Spanned α] (mark : α → Mark) (b b' : Mark → α) : Prop :=
  ∀ m m', T.Alike m m' → T.Alike (b m) (b' m') ∧ mark (b m) = m ∧ mark (b' m') = m'

theorem Sited.weaken [Spanned α] {mark : α → Mark} (k k' : Nat) (a a' : α) (hle : k ≤ k')
    (h : T.Sited mark k' a a') : T.Sited mark k a a' := by
  obtain ⟨i, r, r', hi, hroot⟩ := h.root
  exact ⟨h.alike, i, r, r', Nat.le_trans hle hi, hroot⟩

theorem Builds.sited [Spanned α] {mark : α → Mark} {b b' : Mark → α} {r r' : Span}
    (h : T.Builds mark b b') (hr : T.From k r r') :
    T.Sited mark k (b (.position r)) (b' (.position r')) := by
  obtain ⟨halike, hmark, hmark'⟩ := h _ _ hr.alike
  exact ⟨halike, k, r, r', Nat.le_refl k, hr, hmark, hmark'⟩

theorem Builds.leaf [Spanned α] {mark : α → Mark} (node : Mark → α)
    (hnode : ∀ g m, mapSpans g (node m) = node (mapSpans g m)) (hmark : ∀ m, mark (node m) = m) :
    T.Builds mark node node :=
  fun m m' hm => ⟨hm.node node hnode, hmark m, hmark m'⟩

theorem Builds.node [Spanned α] [Spanned β] {mark : α → Mark} (node : Mark → β → α) {b b' : β}
    (hnode : ∀ g m b, mapSpans g (node m b) = node (mapSpans g m) (mapSpans g b))
    (hmark : ∀ m b, mark (node m b) = m) (hb : T.Alike b b') :
    T.Builds mark (node · b) (node · b') := by
  intro m m' hm
  refine ⟨?_, hmark m b, hmark m' b'⟩
  exact (hm.pair hb).node (fun x => node x.1 x.2) fun g x => hnode g x.1 x.2

section NestLeft

variable {node : Mark → α → β → α} {mark : β → Mark} {whole whole' : Span} {head head' : α}
  {args args' : List β}

theorem root_nestLeft {root : α → Mark} (hroot : ∀ m a b, root (node m a b) = m) (hne : args ≠ []) :
    root (Grammar.nestLeft node mark whole head args) = .position whole := by
  fun_induction Grammar.nestLeft node mark whole head args with
  | case1 => exact absurd rfl hne
  | case2 head arg => exact hroot _ _ _
  | case3 head arg args hargs opening span ih => exact ih hargs

/-- Nesting to the left keeps arguments alike: each node spans from the opening bracket through its
    argument. -/
theorem alike_nestLeft [Spanned α] [Spanned β]
    (hnode : ∀ g m a b, mapSpans g (node m a b) = node (mapSpans g m) (mapSpans g a) (mapSpans g b))
    (hwhole : T.From k whole whole') (hhead : T.Alike head head')
    (hargs : List.Forall₂ (T.Sited mark k) args args') :
    T.Alike (Grammar.nestLeft node mark whole head args)
      (Grammar.nestLeft node mark whole' head' args') := by
  have hstep : ∀ {m m' : Mark} {a a' : α} {b b' : β}, T.Alike m m' → T.Alike a a' → T.Alike b b' →
      T.Alike (node m a b) (node m' a' b') := by
    intro m m' a a' b b' hm ha hb
    exact (hm.pair (ha.pair hb)).node (fun x => node x.1 x.2.1 x.2.2) fun g x =>
      hnode g x.1 x.2.1 x.2.2
  induction hargs generalizing head head' with
  | nil => exact hhead
  | @cons arg arg' args args' harg hargs ih =>
    cases hargs with
    | nil => exact hstep hwhole.alike hhead harg.alike
    | cons hnext hmore =>
      obtain ⟨i, r, r', hi, hfrom, hmark, hmark'⟩ := harg.root
      simp only [Grammar.nestLeft, hmark, hmark']
      refine ih (hstep ?_ hhead harg.alike)
      exact (hwhole.through hfrom hi).alike

end NestLeft

/-! ## The rules of the grammar -/

namespace Lockstep

variable {room : Nat}

/-- An identifier is interned as the same name. -/
theorem interned (what : String) : T.Lockstep d k (fun x x' => x.1 = x'.1 ∧ T.From k x.2 x'.2)
    (do
      let (text, span) ← Parser.identifier what
      return (← Parser.intern text, span))
    (do
      let (text, span) ← Parser.identifier what
      return (← Parser.intern text, span)) := by
  refine bind (identifier what) ?_
  rintro k₁ ⟨text, span⟩ ⟨text', span'⟩ - ⟨htext, hspan⟩
  obtain rfl : text = text' := htext
  exact bind (intern text) fun _ _ _ _ hname => pure ⟨hname, hspan⟩

theorem spannedName : T.Lockstep d k (fun x x' => x.1 = x'.1 ∧ T.From k x.2 x'.2)
    Grammar.spannedName Grammar.spannedName :=
  interned "name"

theorem spannedTypeName : T.Lockstep d k (fun x x' => x.1 = x'.1 ∧ T.From k x.2 x'.2)
    Grammar.spannedTypeName Grammar.spannedTypeName :=
  interned "type name"

theorem name : T.Lockstep d k Eq Grammar.name Grammar.name :=
  bind spannedName fun _ _ _ _ hname => pure hname.1

theorem typeName : T.Lockstep d k Eq Grammar.typeName Grammar.typeName :=
  bind spannedTypeName fun _ _ _ _ hname => pure hname.1

theorem builtinFunction :
    T.Lockstep d k Eq Grammar.builtinFunction Grammar.builtinFunction := by
  refine accept_spelled ?_ _
  intro t t' h
  rw [(Prod.mk.inj h).1, (Prod.mk.inj h).2]

theorem builtinType : T.Lockstep d k Eq Grammar.builtinType Grammar.builtinType := by
  refine accept_spelled ?_ _
  intro t t' h
  rw [(Prod.mk.inj h).1, (Prod.mk.inj h).2]

theorem version : T.Lockstep d k T.Alike Grammar.version Grammar.version := by
  refine bind (natural _) ?_
  rintro k₁ ⟨major, first⟩ ⟨major', first'⟩ hle ⟨hmajor, hfirst⟩
  refine bind (expect _) fun k₂ _ _ hle₂ _ => ?_
  refine bind (natural _) ?_
  rintro k₃ ⟨minor, _⟩ ⟨minor', _⟩ hle₃ ⟨hminor, -⟩
  refine bind (expect _) fun k₄ _ _ hle₄ _ => ?_
  refine bind (natural _) ?_
  rintro k₅ ⟨patch, last⟩ ⟨patch', last'⟩ - ⟨hpatch, hlast⟩
  obtain rfl : major = major' := hmajor
  obtain rfl : minor = minor' := hminor
  obtain rfl : patch = patch' := hpatch
  refine pure (Alike.node (fun m => Version.mk m major minor patch) (fun _ _ => rfl) ?_)
  exact (hfirst.through hlast (by omega)).alike

theorem constant (room : Nat) :
    T.Lockstep d k Eq (Grammar.constant room) (Grammar.constant room) := by
  induction room generalizing k with
  | zero => exact tooDeep
  | succ room ih =>
    refine branch .lparen ?_ ?_
    · exact bind (between _ _ fun _ _ => ih) fun _ _ _ _ h => pure h.1
    · refine accept_spelled ?_ _
      intro t t' h
      rw [Grammar.literal?, Grammar.literal?, (Prod.mk.inj h).1, (Prod.mk.inj h).2]

theorem kindBody {kind : Parser Kind} (hkind : ∀ k, T.Lockstep d k T.Alike kind kind) :
    T.Lockstep d k (T.Builds Kind.mark) (Grammar.kindBody kind) (Grammar.kindBody kind) := by
  refine choice (.cons ?_ (.cons ?_ .nil))
  all_goals refine bind (keyword _) fun _ _ _ _ _ => ?_
  · exact pure (Builds.leaf Kind.type (fun _ _ => rfl) fun _ => rfl)
  · refine bind (hkind _) fun _ _ _ _ hdomain => bind (hkind _) fun _ _ _ _ hcodomain => ?_
    exact pure (Builds.node (fun m x => Kind.arrow m x.1 x.2) (fun _ _ _ => rfl)
      (fun _ _ => rfl) (hdomain.pair hcodomain))

theorem kind (room : Nat) : T.Lockstep d k T.Alike (Grammar.kind room) (Grammar.kind room) := by
  induction room generalizing k with
  | zero => exact tooDeep
  | succ room ih =>
    refine bind (between _ _ fun _ _ => kindBody fun _ => ih) ?_
    rintro k₁ ⟨build, span⟩ ⟨build', span'⟩ - ⟨hbuild, hspan⟩
    exact pure (hbuild.sited hspan).alike

theorem application {head : Parser α} {arg : Parser β} [Spanned α] [Spanned β] {mark : β → Mark}
    (hhead : ∀ k, T.Lockstep d k T.Alike head head)
    (harg : ∀ k, T.Lockstep d k (T.Sited mark k) arg arg) :
    T.Lockstep d k (fun x x' => T.Alike x.1 x'.1 ∧ x.2 ≠ [] ∧ x'.2 ≠ [] ∧
        List.Forall₂ (T.Sited mark k) x.2 x'.2)
      (Grammar.application head arg) (Grammar.application head arg) := by
  refine bind (hhead k) fun k₁ a a' hle ha => ?_
  refine bind (atLeastOne Sited.weaken harg k₁) fun k₂ as as' _ has => pure ⟨ha, has.1, ?_, ?_⟩
  · rintro rfl
    cases has.2
    exact has.1 rfl
  · exact has.2.imp fun b b' => Sited.weaken k k₁ b b' hle

/-- A bracketed head with its arguments, nested to the left. -/
theorem nested {head : Parser α} {arg : Parser β} [Spanned α] [Spanned β] {mark : β → Mark}
    {root : α → Mark} {node : Mark → α → β → α} (opening closing : TokenKind)
    (hnode : ∀ g m a b, mapSpans g (node m a b) = node (mapSpans g m) (mapSpans g a) (mapSpans g b))
    (hroot : ∀ m a b, root (node m a b) = m)
    (hhead : ∀ k, T.Lockstep d k T.Alike head head)
    (harg : ∀ k, T.Lockstep d k (T.Sited mark k) arg arg) :
    T.Lockstep d k (T.Sited root k)
      (do
        let ((a, as), span) ← Parser.between opening closing (Grammar.application head arg)
        return Grammar.nestLeft node mark span a as)
      (do
        let ((a, as), span) ← Parser.between opening closing (Grammar.application head arg)
        return Grammar.nestLeft node mark span a as) := by
  have happlication : ∀ k', k ≤ k' → T.Lockstep d k' (fun x x' => T.Alike x.1 x'.1 ∧ x.2 ≠ [] ∧
      x'.2 ≠ [] ∧ List.Forall₂ (T.Sited mark k) x.2 x'.2) (Grammar.application head arg)
      (Grammar.application head arg) := by
    intro k' hle
    refine (application hhead harg).imp ?_
    rintro x x' ⟨ha, hne, hne', has⟩
    exact ⟨ha, hne, hne', has.imp fun b b' => Sited.weaken k k' b b' hle⟩
  refine bind (between _ _ happlication) ?_
  rintro k₁ ⟨⟨a, as⟩, span⟩ ⟨⟨a', as'⟩, span'⟩ - ⟨⟨ha, hne, hne', has⟩, hspan⟩
  refine pure ⟨alike_nestLeft hnode hspan ha has, k, span, span', Nat.le_refl k, hspan, ?_, ?_⟩
  · exact root_nestLeft hroot hne
  · exact root_nestLeft hroot hne'

theorem typeBody {kind : Parser Kind} {type : Parser Ty}
    (hkind : ∀ k, T.Lockstep d k T.Alike kind kind)
    (htype : ∀ k, T.Lockstep d k T.Alike type type) :
    T.Lockstep d k (T.Builds Ty.mark) (Grammar.typeBody kind type)
      (Grammar.typeBody kind type) := by
  refine choice (.cons ?_ (.cons ?_ (.cons ?_ (.cons ?_ (.cons ?_ (.cons ?_ .nil))))))
  all_goals refine bind (keyword _) fun _ _ _ _ _ => ?_
  · refine bind typeName fun _ x _ _ hx => ?_
    obtain rfl := hx
    refine bind (hkind _) fun _ _ _ _ hK => bind (htype _) fun _ _ _ _ hbody => ?_
    exact pure (Builds.node (fun m y => Ty.lam m x y.1 y.2) (fun _ _ _ => rfl)
      (fun _ _ => rfl) (hK.pair hbody))
  · refine bind typeName fun _ x _ _ hx => ?_
    obtain rfl := hx
    refine bind (hkind _) fun _ _ _ _ hK => bind (htype _) fun _ _ _ _ hbody => ?_
    exact pure (Builds.node (fun m y => Ty.all m x y.1 y.2) (fun _ _ _ => rfl)
      (fun _ _ => rfl) (hK.pair hbody))
  · refine bind (htype _) fun _ _ _ _ hpattern => bind (htype _) fun _ _ _ _ harg => ?_
    exact pure (Builds.node (fun m y => Ty.ifix m y.1 y.2) (fun _ _ _ => rfl)
      (fun _ _ => rfl) (hpattern.pair harg))
  · refine bind (htype _) fun _ _ _ _ hdomain => bind (htype _) fun _ _ _ _ hcodomain => ?_
    exact pure (Builds.node (fun m y => Ty.fn m y.1 y.2) (fun _ _ _ => rfl)
      (fun _ _ => rfl) (hdomain.pair hcodomain))
  · refine bind builtinType fun _ b _ _ hb => ?_
    obtain rfl := hb
    exact pure (Builds.leaf (fun m => Ty.builtin m b) (fun _ _ => rfl) fun _ => rfl)
  · refine bind (many (fun _ _ _ _ _ h => h) htype _) fun _ _ _ _ hitems => ?_
    refine pure (Builds.node Ty.prod (fun g m items => ?_) (fun _ _ => rfl)
      (Alike.of_forall₂ id hitems))
    exact congrArg (Ty.prod (m.mapSpans g)) (Ty.mapSpansAll_eq g items)

theorem type (room : Nat) (k : Nat) :
    T.Lockstep d k (T.Sited Ty.mark k) (Grammar.type room) (Grammar.type room) := by
  induction room generalizing k with
  | zero => exact tooDeep
  | succ room ih =>
    have hpart : ∀ k, T.Lockstep d k T.Alike (Grammar.type room) (Grammar.type room) :=
      fun k => (ih k).imp Sited.alike
    refine branch .lparen ?_ (branch .lbracket ?_ (branch .ident ?_ (unexpected _)))
    · refine bind (between _ _ fun _ _ => typeBody (fun _ => kind room) hpart) ?_
      rintro k₁ ⟨build, span⟩ ⟨build', span'⟩ - ⟨hbuild, hspan⟩
      exact pure (hbuild.sited hspan)
    · exact nested _ _ (fun _ _ _ _ => rfl) (fun _ _ _ => rfl) hpart ih
    · refine bind spannedTypeName ?_
      rintro k₁ ⟨x, span⟩ ⟨x', span'⟩ - ⟨hx, hspan⟩
      obtain rfl : x = x' := hx
      have hbuilds : T.Builds Ty.mark (fun m => Ty.var m x) fun m => Ty.var m x :=
        Builds.leaf _ (fun _ _ => rfl) fun _ => rfl
      exact pure (hbuilds.sited hspan)

theorem termBody {constant : Parser Constant} {kind : Parser Kind} {type : Parser Ty}
    {term : Parser Term} (hconstant : ∀ k, T.Lockstep d k Eq constant constant)
    (hkind : ∀ k, T.Lockstep d k T.Alike kind kind)
    (htype : ∀ k, T.Lockstep d k T.Alike type type)
    (hterm : ∀ k, T.Lockstep d k T.Alike term term) :
    T.Lockstep d k (T.Builds Term.mark) (Grammar.termBody constant kind type term)
      (Grammar.termBody constant kind type term) := by
  refine choice (.cons ?_ (.cons ?_ (.cons ?_ (.cons ?_ (.cons ?_ (.cons ?_ (.cons ?_ (.cons ?_
    (.cons ?_ .nil)))))))))
  all_goals refine bind (keyword _) fun _ _ _ _ _ => ?_
  · refine bind name fun _ x _ _ hx => ?_
    obtain rfl := hx
    refine bind (htype _) fun _ _ _ _ htype => bind (hterm _) fun _ _ _ _ hbody => ?_
    exact pure (Builds.node (fun m y => Term.lam m x y.1 y.2) (fun _ _ _ => rfl)
      (fun _ _ => rfl) (htype.pair hbody))
  · refine bind typeName fun _ x _ _ hx => ?_
    obtain rfl := hx
    refine bind (hkind _) fun _ _ _ _ hkind => bind (hterm _) fun _ _ _ _ hbody => ?_
    exact pure (Builds.node (fun m y => Term.abs m x y.1 y.2) (fun _ _ _ => rfl)
      (fun _ _ => rfl) (hkind.pair hbody))
  · refine bind (htype _) fun _ _ _ _ hpattern => bind (htype _) fun _ _ _ _ harg => ?_
    refine bind (hterm _) fun _ _ _ _ hbody => ?_
    exact pure (Builds.node (fun m y => Term.iwrap m y.1 y.2.1 y.2.2) (fun _ _ _ => rfl)
      (fun _ _ => rfl) (hpattern.pair (harg.pair hbody)))
  · refine bind (hterm _) fun _ _ _ _ hbody => ?_
    exact pure (Builds.node Term.unwrap (fun _ _ _ => rfl) (fun _ _ => rfl) hbody)
  · refine bind (htype _) fun _ _ _ _ htype => ?_
    exact pure (Builds.node Term.error (fun _ _ _ => rfl) (fun _ _ => rfl) htype)
  · refine bind (hconstant _) fun _ c _ _ hc => ?_
    obtain rfl := hc
    exact pure (Builds.leaf (fun m => Term.constant m c) (fun _ _ => rfl) fun _ => rfl)
  · refine bind builtinFunction fun _ b _ _ hb => ?_
    obtain rfl := hb
    exact pure (Builds.leaf (fun m => Term.builtin m b) (fun _ _ => rfl) fun _ => rfl)
  · refine bind (many (fun _ _ _ _ _ h => h) hterm _) fun _ _ _ _ hitems => ?_
    refine pure (Builds.node Term.prod (fun g m items => ?_) (fun _ _ => rfl)
      (Alike.of_forall₂ id hitems))
    exact congrArg (Term.prod (m.mapSpans g)) (Term.mapSpansAll_eq g items)
  · refine bind (natural _) ?_
    rintro _ ⟨index, _⟩ ⟨index', _⟩ - ⟨hindex, -⟩
    obtain rfl : index = index' := hindex
    refine bind (hterm _) fun _ _ _ _ hbody => ?_
    exact pure (Builds.node (fun m t => Term.proj m index t) (fun _ _ _ => rfl)
      (fun _ _ => rfl) hbody)

theorem term (room : Nat) (k : Nat) :
    T.Lockstep d k (T.Sited Term.mark k) (Grammar.term room) (Grammar.term room) := by
  induction room generalizing k with
  | zero => exact tooDeep
  | succ room ih =>
    have hpart : ∀ k, T.Lockstep d k T.Alike (Grammar.term room) (Grammar.term room) :=
      fun k => (ih k).imp Sited.alike
    have htype : ∀ k, T.Lockstep d k T.Alike (Grammar.type room) (Grammar.type room) :=
      fun k => (type room k).imp Sited.alike
    refine branch .lparen ?_ (branch .lbracket ?_ (branch .lbrace ?_ (branch .ident ?_
      (unexpected _))))
    · refine bind (between _ _ fun _ _ =>
        termBody (fun _ => constant room) (fun _ => kind room) htype hpart) ?_
      rintro k₁ ⟨build, span⟩ ⟨build', span'⟩ - ⟨hbuild, hspan⟩
      exact pure (hbuild.sited hspan)
    · exact nested _ _ (fun _ _ _ _ => rfl) (fun _ _ _ => rfl) hpart ih
    · exact nested _ _ (fun _ _ _ _ => rfl) (fun _ _ _ => rfl) hpart (type room)
    · refine bind spannedName ?_
      rintro k₁ ⟨x, span⟩ ⟨x', span'⟩ - ⟨hx, hspan⟩
      obtain rfl : x = x' := hx
      have hbuilds : T.Builds Term.mark (fun m => Term.var m x) fun m => Term.var m x :=
        Builds.leaf _ (fun _ _ => rfl) fun _ => rfl
      exact pure (hbuilds.sited hspan)

theorem program (room : Nat) :
    T.Lockstep d k T.Alike (Grammar.program room) (Grammar.program room) := by
  have hbody : ∀ k', k ≤ k' → T.Lockstep d k' T.Alike
      (do
        let _ ← Parser.keyword "program"
        return (← Grammar.version, ← Grammar.term room))
      (do
        let _ ← Parser.keyword "program"
        return (← Grammar.version, ← Grammar.term room)) := by
    intro k' _
    refine bind (keyword _) fun _ _ _ _ _ => bind version fun _ _ _ _ hversion => ?_
    exact bind (term room _) fun _ _ _ _ hterm => pure (hversion.pair hterm.alike)
  refine bind (between _ _ hbody) ?_
  rintro k₁ ⟨⟨version, term⟩, span⟩ ⟨⟨version', term'⟩, span'⟩ - ⟨hparts, hspan⟩
  exact pure (Alike.node (fun x : Mark × Version × Term => Program.mk x.1 x.2.1 x.2.2)
    (fun _ _ => rfl) (hspan.alike.pair hparts))

end Lockstep

end Twins

/-! ## Whole sources -/

/-- Changes the spans of what a rule for a sort answers with. -/
def Phrase.mapSpans (f : Span → Span) : (p : Phrase) → p.Answer → p.Answer
  | program => Program.mapSpans f
  | term => Term.mapSpans f
  | type => Ty.mapSpans f
  | kind => Kind.mapSpans f
  | constant => id

namespace StartRule

/-- Changes the spans of what a rule answers with. -/
def mapSpans (f : Span → Span) : (r : StartRule) → r.Answer → r.Answer
  | phrase p => p.mapSpans f
  | name => id
  | typeName => id

instance (r : StartRule) : Spanned r.Answer :=
  ⟨fun f => r.mapSpans f⟩

/-- Every rule ends in the same way on two sources with the same tokens. -/
theorem lockstep (T : Twins) (r : StartRule) (maxDepth room k : Nat) :
    T.Lockstep maxDepth k T.Alike (r.rule room) (r.rule room) := by
  have halike : ∀ {r : StartRule}, (∀ f a, r.mapSpans f a = a) → ∀ {a a' : r.Answer}, a = a' →
      T.Alike a a' := by
    rintro r hr a _ rfl
    exact ⟨(hr _ a).trans (hr _ a).symm, (hr _ _).trans (hr _ a), (hr _ _).trans (hr _ a)⟩
  cases r with
  | phrase p =>
    cases p with
    | program => exact Twins.Lockstep.program room
    | term => exact (Twins.Lockstep.term room k).imp Twins.Sited.alike
    | type => exact (Twins.Lockstep.type room k).imp Twins.Sited.alike
    | kind => exact Twins.Lockstep.kind room
    | constant =>
      exact (Twins.Lockstep.constant room).imp (halike (r := .phrase .constant) fun _ _ => rfl)
  | name => exact Twins.Lockstep.name.imp (halike (r := .name) fun _ _ => rfl)
  | typeName => exact Twins.Lockstep.typeName.imp (halike (r := .typeName) fun _ _ => rfl)

/-- Parsing does not depend on the layout. Of two sources without lexical errors that have the same
    tokens, comments apart, either both are read, as trees that are equal when each span is counted
    in tokens; or both are refused with the same cause at the same token, or at the end. The supply
    afterwards is the same. -/
theorem parse_ignores_layout (r : StartRule) (maxDepth : Nat) (supply : Supply)
    (label src label' src' : String) (hlex : (lex src).errors = []) (hlex' : (lex src').errors = [])
    (hsame : (lexSkippingComments src).tokens.map Token.spelled =
      (lexSkippingComments src').tokens.map Token.spelled) :
    let out := parseWith maxDepth supply r.rule label src
    let out' := parseWith maxDepth supply r.rule label' src'
    let l := Layout.ofSource src
    let l' := Layout.ofSource src'
    out.supply = out'.supply ∧
      ((∃ a a', out.result = .ok a ∧ out'.result = .ok a' ∧
          r.mapSpans l.index a = r.mapSpans l'.index a' ∧
          r.mapSpans l.place (r.mapSpans l.index a) = a ∧
          r.mapSpans l'.place (r.mapSpans l'.index a') = a') ∨
        ∃ e e', out.result = .error (.single label src e) ∧
          out'.result = .error (.single label' src' e') ∧ e.cause = e'.cause ∧
          ∃ i ≤ l.count, e.span = l.spanAt i ∧ e'.span = l'.spanAt i) := by
  intro out out' l l'
  let T : Twins := ⟨l, l', hsame⟩
  have hstart : T.States 0 (.start (l.context maxDepth) (.ofSupply supply))
      (.start (l'.context maxDepth) (.ofSupply supply)) :=
    ⟨Nat.zero_le _, rfl, rfl, .none, rfl⟩
  have hreplies := (r.lockstep T maxDepth maxDepth 0).whole _ _ hstart
  generalize hrun : (r.rule maxDepth).whole _ _ = reply,
    hrun' : (r.rule maxDepth).whole (l'.context maxDepth) _ = reply' at hreplies
  cases hreplies with
  | ok _ halike hstates =>
    have hout : out = _ := parseWith_of_ok hlex hrun
    have hout' : out' = _ := parseWith_of_ok hlex' hrun'
    rw [hout, hout', hstates.interner]
    exact ⟨rfl, .inl ⟨_, _, rfl, rfl, halike.index_eq, halike.left_placed, halike.right_placed⟩⟩
  | error _ herrors hstates =>
    have hout : out = _ := parseWith_of_error hlex hrun
    have hout' : out' = _ := parseWith_of_error hlex' hrun'
    rw [hout, hout', hstates.interner]
    exact ⟨rfl, .inr ⟨_, _, rfl, rfl, herrors⟩⟩

/-- With blanks and a comment between its tokens, `[f x]` is read as the same application. -/
theorem application_ignores_layout :
    let src := "[f x]"
    let src' := "[ f -- f\n\tx ]"
    let out := parseWith 2 .empty (phrase .term).rule "t" src
    let out' := parseWith 2 .empty (phrase .term).rule "t" src'
    (lex src).errors = [] ∧ (lex src').errors = [] ∧
      (lexSkippingComments src).tokens.map Token.spelled =
        (lexSkippingComments src').tokens.map Token.spelled ∧
      out.supply = out'.supply ∧
      ∃ a a', out.result = .ok a ∧ out'.result = .ok a' ∧
        Term.mapSpans (Layout.ofSource src).index a =
          Term.mapSpans (Layout.ofSource src').index a' := by
  intro src src' out out'
  have hlex : (lex src).errors = [] := by decide +kernel
  have hlex' : (lex src').errors = [] := by decide +kernel
  have hsame : (lexSkippingComments src).tokens.map Token.spelled =
      (lexSkippingComments src').tokens.map Token.spelled := by decide +kernel
  have hread : out.result.toOption.isSome = true := by decide +kernel
  obtain ⟨hsupply, ⟨a, a', ha, ha', hindex, -⟩ | ⟨e, -, he, -⟩⟩ :=
    parse_ignores_layout (phrase .term) 2 .empty "t" src "t" src' hlex hlex' hsame
  · exact ⟨hlex, hlex', hsame, hsupply, a, a', ha, ha', hindex⟩
  · have hresult : out.result = .error (.single "t" src e) := he
    rw [hresult] at hread
    cases hread

end StartRule

end FOmega
