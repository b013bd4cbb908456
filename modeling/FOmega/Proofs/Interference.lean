import FOmega.Proofs.Machine
import FOmega.Proofs.RuleAgreement

/-!
# Names left behind

An abandoned alternative leaves its names in the interner. This cannot be noticed afterwards: a rule
never looks at the names seen before. Two machines that only differ in their interners read the same
tokens, fail with the same error and leave the same hint, and their values differ in uniques alone.
The uniques in a value are those that the machine's own interner holds for the spellings.
-/

namespace FOmega

open FOmega.Parser

/-! ## Interners that tell spellings apart -/

namespace Interner

/-- Every spelling seen has one unique, no two have the same, and all come from the supply. -/
structure OneToOne (i : Interner) : Prop where
  texts_nodup : (i.entries.map Prod.fst).Nodup
  uniques_nodup : (i.entries.map Prod.snd).Nodup
  below : ∀ entry ∈ i.entries, entry.2 < i.supply.issued

variable {i : Interner} {text : String} {u : Nat}

/-- The uniques of the names in a value are those that the interner has for the spellings. -/
def Holds (i : Interner) (value : Value) : Prop :=
  ∀ x ∈ value.names, i.lookup? x.text = some x.unique

theorem OneToOne.lookup_of_mem (h : i.OneToOne) (hmem : (text, u) ∈ i.entries) :
    i.lookup? text = some u := by
  rcases List.append_of_mem hmem with ⟨before, after, hentries⟩
  have hnodup := h.texts_nodup
  rw [hentries, List.map_append, List.map_cons, List.nodup_middle, List.nodup_cons] at hnodup
  refine List.lookup_eq_some_iff.mpr ⟨before, after, hentries, ?_⟩
  intro entry hentry
  rw [bne_iff_ne]
  intro heq
  exact hnodup.1 (List.mem_append_left _ (List.mem_map.mpr ⟨entry, hentry, heq.symm⟩))

theorem OneToOne.lookup_eq_some_iff (h : i.OneToOne) :
    i.lookup? text = some u ↔ (text, u) ∈ i.entries :=
  ⟨mem_of_lookup, h.lookup_of_mem⟩

theorem OneToOne.lookup_eq_none_iff (h : i.OneToOne) :
    i.lookup? text = none ↔ text ∉ i.entries.map Prod.fst := by
  rw [Option.eq_none_iff_forall_ne_some]
  constructor
  · intro hnone hmem
    rcases List.mem_map.mp hmem with ⟨⟨text', u⟩, hentry, rfl⟩
    exact hnone u (h.lookup_of_mem hentry)
  · intro hnew u hlookup
    exact hnew (List.mem_map_of_mem (mem_of_lookup hlookup))

theorem OneToOne.intern (h : i.OneToOne) (text : String) : (i.intern text).2.OneToOne := by
  unfold Interner.intern
  cases hlookup : i.lookup? text with
  | some u => exact h
  | none =>
    -- A new spelling gets the next unique of the supply, which is above all others.
    have hnew : text ∉ i.entries.map Prod.fst := h.lookup_eq_none_iff.mp hlookup
    have hfresh : i.supply.issued ∉ i.entries.map Prod.snd := by
      intro hmem
      rcases List.mem_map.mp hmem with ⟨entry, hentry, heq⟩
      exact absurd heq (Nat.ne_of_lt (h.below entry hentry))
    refine ⟨?_, ?_, ?_⟩
    · rw [List.map_append]
      exact List.nodup_append_comm.mp (List.nodup_cons.mpr ⟨hnew, h.texts_nodup⟩)
    · rw [List.map_append]
      exact List.nodup_append_comm.mp (List.nodup_cons.mpr ⟨hfresh, h.uniques_nodup⟩)
    · refine List.forall_mem_append.mpr ⟨?_, List.forall_mem_singleton.mpr (Nat.lt_succ_self _)⟩
      exact fun entry hentry => Nat.lt_succ_of_lt (h.below entry hentry)

end Interner

/-- No step makes an interner confuse spellings. -/
theorem Parser.oneToOne_stepRelation :
    StepRelation fun s s' => s.interner.OneToOne → s'.interner.OneToOne where
  refl s h := h
  trans h h' hs := h' (h hs)
  advance s := by
    rcases s with ⟨_ | ⟨t, rest⟩, hint, i⟩ <;> exact id
  hint s h hs := hs
  intern s text h := h.intern text
  rewind h := h

/-! ## Machines with different interners -/

/-- Without a difference between their limits, two runs that end alike both give a value or both
    fail. -/
theorem Companions.Replies.ends {C : Companions} (hlower : ¬ C.Lower) {r r' : Reply Value}
    (h : C.Replies (C.Alike Value.mapNames) r r') :
    r.toExcept.map (Value.mapNames C.shown) = r'.toExcept.map (Value.mapNames C.shown) ∧
      r'.state.rest = r.state.rest ∧ r'.state.hint = r.state.hint := by
  cases h with
  | ok hvalue hstates => exact ⟨congrArg Except.ok hvalue, hstates.rest, hstates.hint⟩
  | error hstates => exact ⟨rfl, hstates.rest, hstates.hint⟩
  | stopped h _ => exact absurd h hlower

namespace Machine

/-- The machine with another interner. -/
def withInterner (m : Machine) (i : Interner) : Machine :=
  { m with state := { m.state with interner := i } }

theorem eq_withInterner {m m' : Machine} (hcontext : m'.context = m.context)
    (hdepth : m'.depth = m.depth) (hrest : m'.state.rest = m.state.rest)
    (hhint : m'.state.hint = m.state.hint) : m' = m.withInterner m'.state.interner := by
  rcases m with ⟨c, depth, rest, hint, i⟩
  rcases m' with ⟨c', depth', rest', hint', i'⟩
  cases hcontext
  cases hdepth
  cases hrest
  cases hhint
  rfl

/-- Two parsers that have seen any names. -/
def strangers (c : Context) : Companions where
  left := c
  otherDepth := c.maxDepth
  Interners _ _ := True
  shown := Name.spelling
  intern_shown _ _ := rfl
  intern_interners _ _ := trivial
  Lower := False

theorem run_oneToOne {m : Machine} (h : m.state.interner.OneToOne) (rule : Rule) :
    (m.run rule).2.state.interner.OneToOne :=
  run_keeps oneToOne_stepRelation m rule h

theorem run_holds {m : Machine} (h : m.state.interner.OneToOne) {rule : Rule} {value : Value}
    (hrun : (m.run rule).1 = .ok value) : (m.run rule).2.state.interner.Holds value := by
  intro x hx
  have hknown := (Interns.rule [] m.room rule).names (run_eq_ok hrun) x hx
  exact (run_oneToOne h rule).lookup_of_mem (hknown.resolve_left List.not_mem_nil)

/-- What a machine has seen before has no influence on what a rule does. Two machines that differ in
    their interners alone fail with the same error or give values that differ in uniques alone, and
    then again differ in their interners alone. These still tell spellings apart, and the uniques in
    each value are those that the machine's own interner holds for the spellings. -/
theorem run_ignores_interner (m : Machine) (rule : Rule) {i i' : Interner} (hi : i.OneToOne)
    (hi' : i'.OneToOne) :
    let out := (m.withInterner i).run rule
    let out' := (m.withInterner i').run rule
    out.1.map (Value.mapNames Name.spelling) = out'.1.map (Value.mapNames Name.spelling) ∧
      out.2.position = out'.2.position ∧ out.2.state.hint = out'.2.state.hint ∧
      out'.2 = out.2.withInterner out'.2.state.interner ∧
      out.2.state.interner.OneToOne ∧ out'.2.state.interner.OneToOne ∧
      (∀ value, out.1 = .ok value → out.2.state.interner.Holds value) ∧
      ∀ value, out'.1 = .ok value → out'.2.state.interner.Holds value := by
  intro out out'
  let C := strangers m.context
  have hstates : C.States (m.withInterner i).state (m.withInterner i').state :=
    ⟨rfl, rfl, trivial, False.elim⟩
  have hreplies := Companions.Agrees.rule (C := C) id rfl m.room rule _ _ hstates
  have hends : out.1.map (Value.mapNames Name.spelling) =
      out'.1.map (Value.mapNames Name.spelling) ∧
        out'.2.state.rest = out.2.state.rest ∧ out'.2.state.hint = out.2.state.hint := by
    simp only [out, out', answer_run, state_run]
    exact hreplies.ends id
  rcases hends with ⟨hanswers, hrest, hhint⟩
  have hcontext : out'.2.context = out.2.context := by
    rw [context_run, context_run]
    rfl
  have hdepth : out'.2.depth = out.2.depth := by
    rw [depth_run, depth_run]
    rfl
  have hmachine : out'.2 = out.2.withInterner out'.2.state.interner :=
    eq_withInterner hcontext hdepth hrest hhint
  refine ⟨hanswers, ?_, hhint.symm, hmachine, run_oneToOne hi rule, run_oneToOne hi' rule,
    fun value => run_holds hi, fun value => run_holds hi'⟩
  rw [hmachine]
  rfl

/-- A machine that has seen `y` before reads the names `x y` as one that has not; only the uniques
    are others. -/
theorem names_ignore_interner :
    let m := start (lexSkippingComments "x y").tokens 3 (.ofSupply .empty) 1
    let i := Interner.ofSupply .empty
    let i' : Interner := ⟨[("y", 7)], ⟨8⟩⟩
    let out := (m.withInterner i).run (.many .name)
    let out' := (m.withInterner i').run (.many .name)
    i.OneToOne ∧ i'.OneToOne ∧ out.1.isOk = true ∧
      out.1.map (Value.mapNames Name.spelling) = out'.1.map (Value.mapNames Name.spelling) ∧
      out.2.position = out'.2.position ∧ out.2.state.interner.lookup? "y" = some 1 ∧
      out'.2.state.interner.lookup? "y" = some 7 := by
  intro m i i' out out'
  have hi : i.OneToOne := ⟨by decide, by decide, by decide⟩
  have hi' : i'.OneToOne := ⟨by decide, by decide, by decide⟩
  have hsame := run_ignores_interner m (.many .name) hi hi'
  exact ⟨hi, hi', by decide +kernel, hsame.1, hsame.2.1, by decide +kernel, by decide +kernel⟩

end Machine

end FOmega
