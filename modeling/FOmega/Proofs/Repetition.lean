import FOmega.Proofs.Machine

/-!
# Repetitions end

A repetition has no counter. It goes on as long as its rule succeeds and does not end where it
started, so it ends because no rule ever moves the cursor backwards, whatever it attempts and gives
up on the way. Every run but the last takes a token away from what is left, and there is at most one
run more than there are tokens.

One turn of the loop is defined once, by the places where a run starts and ends. A loop that is cut
off after a number of turns then says how many of them a repetition makes.
-/

namespace FOmega

namespace Parser

variable {α : Type} {p : Parser α} {c : Context} {s s' last : State} {a : α} {as : List α}
  {e : ParseError} {r : Reply (List α)}

/-! ## One turn -/

/-- The reply with one more item in front. -/
def Reply.prepend (a : α) : Reply (List α) → Reply (List α)
  | .ok as s => .ok (a :: as) s
  | .error e s => .error e s

/-- The state with an error as a hint, joined with the hint that was there. -/
def State.hintAt (s : State) (e : ParseError) : State :=
  { s with hint := some (s.hint.elim e (·.merge e)) }

/-- What comes of one turn of a repetition: an item and the state to go on from, or the end. -/
inductive Turn (α : Type) where
  | item (value : α) (state : State)
  | ended (reply : Reply (List α))

/-- One turn of a repetition, which runs `p` once. A run that leaves the cursor where it was ends
    the repetition well, unless it fails at the nesting limit; any other failure is passed on. -/
def turn (p : Parser α) (c : Context) (s : State) : Turn α :=
  match p c s with
  | .ok a s' =>
    if s'.position c = s.position c then .ended (.ok [] (s'.hintAt ⟨s.here c, .zeroWidth⟩))
    else .item a s'
  | .error e s' =>
    if s'.position c = s.position c ∧ ¬ e.isTooDeep then .ended (.ok [] (s'.hintAt e))
    else .ended (.error e s')

/-- A repetition that is cut off after the given number of turns, without an answer. -/
def loop (p : Parser α) (c : Context) : Nat → State → Option (Reply (List α))
  | 0, _ => none
  | turns + 1, s =>
    match turn p c s with
    | .item a s' => (loop p c turns s').map (Reply.prepend a)
    | .ended reply => some reply

/-! ## Places among the tokens -/

theorem position_eq_iff (hs : s.rest <:+ c.tokens) (hleaves : Leaves s s') :
    s'.position c = s.position c ↔ s'.rest.length = s.rest.length := by
  have hlength := hs.length_le
  have hless := hleaves.length_le
  unfold State.position
  omega

theorem position_lt_of_ne (hleaves : Leaves s s') (hne : s'.position c ≠ s.position c) :
    s.position c < s'.position c := by
  have hless := hleaves.length_le
  unfold State.position at hne ⊢
  omega

/-- A run that leaves an end of what it was given has read something if it ends at another place,
    and only then. -/
theorem enforce_eq (hp : Keeps Leaves p) (hs : s.rest <:+ c.tokens) :
    enforce p c s = match p c s with
      | .ok a s' =>
        if s'.position c = s.position c then .error ⟨s.here c, .zeroWidth⟩ s' else .ok a s'
      | .error e s' => .error e s' := by
  unfold enforce
  cases hrun : p c s with
  | ok a s' =>
    have hleaves := hp.of_ok hrun
    have hless := hleaves.length_le
    simp only [position_eq_iff hs hleaves]
    by_cases hsame : s'.rest.length = s.rest.length
    · rw [if_neg (by omega), if_pos hsame]
    · rw [if_pos (by omega), if_neg hsame]
  | error e s' => rfl

/-- A repetition goes turn by turn. It compares the lengths of what is left, which is the same as
    comparing places as long as the cursor stands among the tokens. -/
theorem many_eq_turn (hp : Keeps Leaves p) (hs : s.rest <:+ c.tokens) :
    many p c s = match turn p c s with
      | .item a s' => (many p c s').prepend a
      | .ended reply => reply := by
  have henforce := enforce_eq hp hs
  unfold turn
  cases hrun : p c s with
  | ok a s' =>
    have hplaces := position_eq_iff hs (hp.of_ok hrun)
    simp only [hrun] at henforce ⊢
    by_cases hsame : s'.position c = s.position c
    · rw [if_pos hsame] at henforce ⊢
      rw [many_of_error henforce, if_pos ⟨hplaces.mp hsame, Bool.false_ne_true⟩]
      rfl
    · rw [if_neg hsame] at henforce ⊢
      rw [many_of_ok henforce]
      rfl
  | error e s' =>
    have hplaces := position_eq_iff hs (hp.of_error hrun)
    simp only [hrun] at henforce ⊢
    simp only [many_of_error henforce, hplaces]
    split
    · rfl
    · rfl

theorem atLeastOne_of_error (hrun : p c s = .error e s') : atLeastOne p c s = .error e s' := by
  simp only [atLeastOne, bind_run, enforce_of_error hrun]

theorem atLeastOne_of_same (hp : Keeps Leaves p) (hs : s.rest <:+ c.tokens)
    (hrun : p c s = .ok a s') (hsame : s'.position c = s.position c) :
    atLeastOne p c s = .error ⟨s.here c, .zeroWidth⟩ s' := by
  have henforce := enforce_eq hp hs
  simp only [hrun, if_pos hsame] at henforce
  simp only [atLeastOne, bind_run, henforce]

theorem atLeastOne_of_moved (hp : Keeps Leaves p) (hs : s.rest <:+ c.tokens)
    (hrun : p c s = .ok a s') (hmoved : s'.position c ≠ s.position c) :
    atLeastOne p c s = (many p c s').prepend a := by
  have henforce := enforce_eq hp hs
  simp only [hrun, if_neg hmoved] at henforce
  simp only [atLeastOne, bind_run, henforce, pure_run]
  cases many p c s' with
  | ok as s₂ => rfl
  | error e s₂ => rfl

/-! ## The runs of a repetition -/

/-- Runs of `p` in a row that each succeed and move the cursor forward, with their values and the
    state after them. -/
inductive Items (p : Parser α) (c : Context) : State → List α → State → Prop where
  | nil (s : State) : Items p c s [] s
  | cons {s s' last : State} {a : α} {as : List α} (run : p c s = .ok a s')
    (moves : s.position c < s'.position c) (more : Items p c s' as last) :
    Items p c s (a :: as) last

/-- How a repetition that has read the items `as` ends by a last run of `p` in the state `last`.
    Either this run stays where it is, and succeeds or fails for another reason than nesting; or it
    fails further on or at the nesting limit, and its error is that of the repetition. -/
inductive EndsBy (p : Parser α) (c : Context) (as : List α) (last : State) :
    Reply (List α) → Prop where
  | stopped {s : State} (position_eq : s.position c = last.position c)
    (stays : (p c last).state.position c = last.position c)
    (not_deep : ∀ {e s'}, p c last = .error e s' → e.isTooDeep = false) :
    EndsBy p c as last (.ok as s)
  | failed {e : ParseError} {s : State} (run : p c last = .error e s)
    (reason : last.position c < s.position c ∨ e.isTooDeep = true) :
    EndsBy p c as last (.error e s)

theorem EndsBy.prepend (h : EndsBy p c as last r) (a : α) :
    EndsBy p c (a :: as) last (r.prepend a) := by
  cases h with
  | stopped hposition hstays hdeep => exact .stopped hposition hstays hdeep
  | failed hrun hreason => exact .failed hrun hreason

theorem turn_item (hp : Keeps Leaves p) (h : turn p c s = .item a s') :
    p c s = .ok a s' ∧ s.position c < s'.position c := by
  unfold turn at h
  cases hrun : p c s with
  | ok b s₁ =>
    simp only [hrun] at h
    split at h
    · cases h
    · next hne =>
      cases h
      exact ⟨rfl, position_lt_of_ne (hp.of_ok hrun) hne⟩
  | error e s₁ =>
    simp only [hrun] at h
    split at h <;> cases h

theorem turn_ended (hp : Keeps Leaves p) (h : turn p c s = .ended r) : EndsBy p c [] s r := by
  unfold turn at h
  cases hrun : p c s with
  | ok a s₁ =>
    simp only [hrun] at h
    split at h
    · next hsame =>
      cases h
      refine .stopped hsame (by rw [hrun]; exact hsame) ?_
      intro e s' herror
      cases hrun.symm.trans herror
    · cases h
  | error e s₁ =>
    simp only [hrun] at h
    split at h
    · next hstop =>
      cases h
      refine .stopped hstop.1 (by rw [hrun]; exact hstop.1) ?_
      intro e' s' herror
      cases hrun.symm.trans herror
      exact Bool.eq_false_iff.mpr hstop.2
    · next hfail =>
      -- Below the nesting limit only a run that has read something is not given up.
      cases h
      refine .failed hrun ?_
      by_cases hdeep : e.isTooDeep = true
      · exact .inr hdeep
      · exact .inl (position_lt_of_ne (hp.of_error hrun) fun hsame => hfail ⟨hsame, hdeep⟩)

/-- Every item takes at least one token. -/
theorem Items.length_le (h : Items p c s as last) :
    s.position c + as.length ≤ last.position c := by
  induction h with
  | nil s => exact Nat.le_refl _
  | cons hrun hmoves hmore ih =>
    rw [List.length_cons]
    omega

/-- A repetition makes one run for each of its items and one more, which ends it. -/
theorem many_runs (hp : Keeps Leaves p) {s : State} (hs : s.rest <:+ c.tokens) :
    ∃ as last, Items p c s as last ∧ EndsBy p c as last (many p c s) ∧
      ∀ turns, loop p c turns s = if as.length < turns then some (many p c s) else none := by
  cases hturn : turn p c s with
  | ended r =>
    have hmany : many p c s = r := by rw [many_eq_turn hp hs, hturn]
    refine ⟨[], s, .nil s, hmany ▸ turn_ended hp hturn, ?_⟩
    intro turns
    cases turns with
    | zero => rfl
    | succ turns =>
      rw [loop, hturn, hmany]
      exact (if_pos (Nat.succ_pos turns)).symm
  | item a s₁ =>
    -- The item has taken a token from what is left, on which the induction is.
    obtain ⟨hrun, hmoves⟩ := turn_item hp hturn
    have hleaves := hp.of_ok hrun
    have hmany : many p c s = (many p c s₁).prepend a := by rw [many_eq_turn hp hs, hturn]
    have hfewer : s₁.rest.length < s.rest.length := by
      unfold State.position at hmoves
      omega
    obtain ⟨as, last, hitems, hends, hloop⟩ := many_runs hp (hleaves.trans hs)
    refine ⟨a :: as, last, .cons hrun hmoves hitems, hmany ▸ hends.prepend a, ?_⟩
    intro turns
    cases turns with
    | zero => rfl
    | succ turns =>
      rw [loop, hturn, hmany, List.length_cons]
      simp only [hloop turns, Nat.succ_lt_succ_iff]
      split
      · rfl
      · rfl
termination_by s.rest.length

/-- A repetition of any rule expression, in any state among the tokens, ends after one run of the
    rule for each item and one more, hence after at most one run more than there are tokens left.
    The run for each item moves the cursor forward, so there are no more items than tokens read. The
    last run either stays where it is, for another reason than nesting, and ends the repetition
    there with its items; or its own error, raised further on or at the nesting limit, is that of
    the repetition. A repetition of at least one item fails if the first run fails or stays where it
    is, and else is this item followed by a repetition. -/
theorem repetition_ends (rule : Rule) (room : Nat) {c : Context} {s : State}
    (hs : s.rest <:+ c.tokens) :
    let p := rule.run room
    (∃ items last, Items p c s items last ∧ EndsBy p c items last (many p c s) ∧
        s.position c + items.length ≤ last.position c ∧ items.length ≤ s.rest.length ∧
        ∀ turns, loop p c turns s = if items.length < turns then some (many p c s) else none) ∧
      (∀ e s', p c s = .error e s' → atLeastOne p c s = .error e s') ∧
      (∀ item s', p c s = .ok item s' → s'.position c = s.position c →
        atLeastOne p c s = .error ⟨s.here c, .zeroWidth⟩ s') ∧
      ∀ item s', p c s = .ok item s' → s'.position c ≠ s.position c →
        atLeastOne p c s = (many p c s').prepend item := by
  intro p
  have hp : Keeps Leaves p := Keeps.rule leaves_stepRelation room rule
  obtain ⟨items, last, hitems, hends, hloop⟩ := many_runs hp hs
  have hread := hitems.length_le
  refine ⟨⟨items, last, hitems, hends, hread, ?_, hloop⟩, fun e s' => atLeastOne_of_error,
    fun item s' => atLeastOne_of_same hp hs, fun item s' => atLeastOne_of_moved hp hs⟩
  have hlength := hs.length_le
  unfold State.position at hread
  omega

/-- Rows of names are repeated on `x y (`. The first run reads both names and the second one, which
    succeeds without reading anything, ends the repetition before the parenthesis. -/
theorem rows_of_names_end :
    let c : Context := ⟨(lexSkippingComments "x y (").tokens, 5, 1⟩
    let s := State.start c (.ofSupply .empty)
    let p := (Rule.many .name).run 1
    s.rest <:+ c.tokens ∧ loop p c 1 s = none ∧ loop p c 2 s = some (many p c s) ∧
      ∃ items last, Items p c s items last ∧ items.length = 1 ∧ last.position c = 2 := by
  intro c s p
  have hs : s.rest <:+ c.tokens := List.suffix_rfl
  obtain ⟨⟨items, last, hitems, hends, -, -, hloop⟩, -⟩ := repetition_ends (.many .name) 1 hs
  have hcut : (loop p c 1 s).isNone = true := by decide +kernel
  have hdone : (loop p c 2 s).isSome = true := by decide +kernel
  have hlength : items.length = 1 := by
    rw [hloop] at hcut hdone
    split at hcut
    · cases hcut
    · split at hdone
      · omega
      · cases hdone
  have hok : (many p c s).toExcept.isOk = true := by decide +kernel
  have hplace : (many p c s).state.position c = 2 := by decide +kernel
  refine ⟨hs, by rw [hloop, hlength, if_neg (Nat.lt_irrefl 1)],
    by rw [hloop, hlength, if_pos (Nat.lt_succ_self 1)], items, last, hitems, hlength, ?_⟩
  generalize many p c s = r at hends hok hplace
  cases hends with
  | stopped hposition _ _ => exact hposition.symm.trans hplace
  | failed _ _ => cases hok

end Parser

end FOmega
