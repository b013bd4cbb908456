import Mathlib.Data.Finset.Card
import Mathlib.Data.List.DropRight
import FOmega.Proofs.Interference

/-!
# Histories of an interner

Between the uses of an interner uniques may be drawn from its supply, and the supply may be handed
on to a new interner. Whatever the history, the table says what was answered: it holds the spellings
that were interned since the last reset, each with the one unique that was answered for it. A unique
that is taken from the supply is above all that were answered before, also before a reset.

The invariant ties the table and the supply to the transcript of the history. It is proved for one
step and then for every history.
-/

namespace FOmega

namespace Interner

/-! ## Transcripts -/

/-- Each step of a history with its answer. -/
def transcript (i : Interner) (steps : List Step) : List (Step × Answer) :=
  steps.zip ((i.run steps).map Prod.fst)

/-- The interner after a history. -/
def after (i : Interner) (steps : List Step) : Interner :=
  ((i.run steps).map Prod.snd).getLastD i

/-- The spelling that a step interned, with the unique that it answered. -/
def interned? : Step × Answer → Option (String × Nat)
  | (.intern text, .interned u) => some (text, u)
  | _ => none

/-- What was interned since the last reset, repetitions included. -/
def internedSince (past : List (Step × Answer)) : List (String × Nat) :=
  (past.rtakeWhile fun use => use.1 ≠ .reset).filterMap interned?

/-- The unique in an answer. -/
def Answer.unique? : Answer → Option Nat
  | .interned u => some u
  | .found u => u
  | .drawn u => some u
  | .restarted => none

/-- Whether a step takes a unique from the supply: a draw does, and so does the first interning of a
    spelling since the last reset. -/
def Step.takes (past : List (Step × Answer)) : Step → Bool
  | .intern text => text ∉ (internedSince past).map Prod.fst
  | .lookup _ => false
  | .draw => true
  | .reset => false

variable {i : Interner} {past : List (Step × Answer)} {text : String} {u : Nat}

theorem after_cons (i : Interner) (s : Step) (steps : List Step) :
    i.after (s :: steps) = (i.step s).2.after steps := by
  rw [after, run, List.map_cons, List.getLastD_cons, after]

theorem transcript_cons (i : Interner) (s : Step) (steps : List Step) :
    i.transcript (s :: steps) = (s, (i.step s).1) :: (i.step s).2.transcript steps := by
  rw [transcript, run, List.map_cons, List.zip_cons_cons, transcript]

theorem after_snoc (i : Interner) (steps : List Step) (s : Step) :
    i.after (steps ++ [s]) = ((i.after steps).step s).2 := by
  induction steps generalizing i with
  | nil => rfl
  | cons first steps ih => rw [List.cons_append, after_cons, ih, after_cons]

theorem transcript_snoc (i : Interner) (steps : List Step) (s : Step) :
    i.transcript (steps ++ [s]) = i.transcript steps ++ [(s, ((i.after steps).step s).1)] := by
  induction steps generalizing i with
  | nil => rfl
  | cons first steps ih =>
    rw [List.cons_append, transcript_cons, ih, transcript_cons, after_cons, List.cons_append]

theorem internedSince_reset (past : List (Step × Answer)) (answer : Answer) :
    internedSince (past ++ [(.reset, answer)]) = [] := by
  rw [internedSince, List.rtakeWhile_concat_neg _ _ _ (by simp), List.filterMap_nil]

theorem internedSince_snoc {s : Step} (hs : s ≠ .reset) (past : List (Step × Answer))
    (answer : Answer) :
    internedSince (past ++ [(s, answer)]) =
      internedSince past ++ (interned? (s, answer)).toList := by
  rw [internedSince, List.rtakeWhile_concat_pos _ _ _ (by simpa using hs), List.filterMap_append]
  rfl

theorem internedSince_other {s : Step} {answer : Answer} (hs : s ≠ .reset)
    (hother : interned? (s, answer) = none) (past : List (Step × Answer)) :
    internedSince (past ++ [(s, answer)]) = internedSince past := by
  rw [internedSince_snoc hs, hother, Option.toList_none, List.append_nil]

/-! ## Single steps -/

/-- Of two entries, equal spellings have equal uniques and equal uniques have equal spellings. -/
theorem OneToOne.unique_eq_iff (h : i.OneToOne) {a b : String × Nat} (ha : a ∈ i.entries)
    (hb : b ∈ i.entries) : a.2 = b.2 ↔ a.1 = b.1 := by
  constructor
  · intro heq
    rw [List.inj_on_of_nodup_map h.uniques_nodup ha hb heq]
  · intro heq
    rw [List.inj_on_of_nodup_map h.texts_nodup ha hb heq]

/-- Interning adds the entry that it answers with, if it is not there yet. -/
theorem mem_entries_intern (i : Interner) (text : String) (entry : String × Nat) :
    entry ∈ (i.intern text).2.entries ↔ entry ∈ i.entries ∨ entry = (text, (i.intern text).1) := by
  have hanswer := i.mem_intern text
  unfold intern at hanswer ⊢
  cases hlookup : i.lookup? text with
  | some u =>
    rw [hlookup] at hanswer
    exact ⟨.inl, fun h => h.elim id fun heq => heq ▸ hanswer⟩
  | none => exact List.mem_append.trans (or_congr Iff.rfl List.mem_singleton)

theorem issued_intern (i : Interner) (text : String) :
    (i.intern text).2.supply.issued =
      i.supply.issued + if i.lookup? text = none then 1 else 0 := by
  unfold intern
  cases i.lookup? text with
  | some u => rfl
  | none => rfl

theorem intern_of_new (hlookup : i.lookup? text = none) :
    (i.intern text).1 = i.supply.issued := by
  rw [intern, hlookup]
  rfl

/-- Without a reset, a step only adds entries at the end. -/
theorem entries_prefix_step (i : Interner) {s : Step} (hs : s ≠ .reset) :
    i.entries <+: (i.step s).2.entries := by
  cases s with
  | intern text =>
    rcases (i.extends_intern text).entries_eq with ⟨new, hentries, -⟩
    exact ⟨new, hentries.symm⟩
  | lookup text => exact List.prefix_rfl
  | draw => exact List.prefix_rfl
  | reset => exact absurd rfl hs

/-! ## The invariant -/

/-- The table holds what was interned since the last reset, one to one, and every unique that was
    answered was handed out by the supply. -/
structure Follows (i : Interner) (past : List (Step × Answer)) : Prop where
  oneToOne : i.OneToOne
  mem_iff : ∀ entry, entry ∈ i.entries ↔ entry ∈ internedSince past
  answered_lt : ∀ use ∈ past, ∀ u ∈ use.2.unique?, u < i.supply.issued

namespace Follows

theorem ofSupply (supply : Supply) : (Interner.ofSupply supply).Follows [] where
  oneToOne := ⟨List.nodup_nil, List.nodup_nil, List.forall_mem_nil _⟩
  mem_iff _ := Iff.rfl
  answered_lt := List.forall_mem_nil _

theorem takes_intern (h : i.Follows past) (text : String) :
    (Step.intern text).takes past = true ↔ i.lookup? text = none := by
  have hsame : text ∈ (internedSince past).map Prod.fst ↔ text ∈ i.entries.map Prod.fst := by
    simp only [List.mem_map, h.mem_iff]
  rw [Step.takes, decide_eq_true_iff, hsame, h.oneToOne.lookup_eq_none_iff]

/-- The supply moves by one at the steps that take a unique, and only there. -/
theorem issued_step (h : i.Follows past) (s : Step) :
    (i.step s).2.supply.issued = i.supply.issued + if s.takes past then 1 else 0 := by
  cases s with
  | intern text =>
    simp only [h.takes_intern text]
    exact i.issued_intern text
  | lookup text => rfl
  | draw => rfl
  | reset => rfl

/-- A step that takes a unique answers with the next one of the supply. -/
theorem unique_step (h : i.Follows past) {s : Step} (hs : s.takes past = true) :
    (i.step s).1.unique? = some i.supply.issued := by
  cases s with
  | intern text =>
    have hnew := (h.takes_intern text).mp hs
    exact congrArg some (intern_of_new hnew)
  | lookup text => cases hs
  | draw => rfl
  | reset => cases hs

/-- What a step answers was handed out by the supply, at the latest in this step. -/
theorem unique_lt (h : i.Follows past) (s : Step) {u : Nat} (hu : u ∈ (i.step s).1.unique?) :
    u < (i.step s).2.supply.issued := by
  cases s with
  | intern text =>
    cases hu
    exact (h.oneToOne.intern text).below _ (i.mem_intern text)
  | lookup text => exact h.oneToOne.below _ (h.oneToOne.lookup_eq_some_iff.mp hu)
  | draw =>
    cases hu
    exact Nat.lt_succ_self _
  | reset => cases hu

theorem answered_lt_step (h : i.Follows past) (s : Step) :
    ∀ use ∈ past ++ [(s, (i.step s).1)], ∀ u ∈ use.2.unique?, u < (i.step s).2.supply.issued := by
  refine List.forall_mem_append.mpr ⟨fun use huse u hu => ?_, List.forall_mem_singleton.mpr ?_⟩
  · have hbefore := h.answered_lt use huse u hu
    have hmoved := h.issued_step s
    omega
  · exact fun u hu => h.unique_lt s hu

theorem oneToOne_step (h : i.Follows past) (s : Step) : (i.step s).2.OneToOne := by
  cases s with
  | intern text => exact h.oneToOne.intern text
  | lookup text => exact h.oneToOne
  | draw =>
    -- A draw leaves the table alone, and its uniques stay below the supply.
    refine ⟨h.oneToOne.texts_nodup, h.oneToOne.uniques_nodup, fun entry hentry => ?_⟩
    exact Nat.lt_succ_of_lt (h.oneToOne.below entry hentry)
  | reset => exact (ofSupply i.supply).oneToOne

theorem mem_iff_step (h : i.Follows past) (s : Step) (entry : String × Nat) :
    entry ∈ (i.step s).2.entries ↔ entry ∈ internedSince (past ++ [(s, (i.step s).1)]) := by
  cases s with
  | intern text =>
    rw [internedSince_snoc (by simp), List.mem_append, ← h.mem_iff]
    exact (i.mem_entries_intern text entry).trans (or_congr Iff.rfl List.mem_singleton.symm)
  | lookup text =>
    rw [internedSince_other (by simp) rfl]
    exact h.mem_iff entry
  | draw =>
    rw [internedSince_other (by simp) rfl]
    exact h.mem_iff entry
  | reset =>
    rw [internedSince_reset]
    exact Iff.rfl

theorem step (h : i.Follows past) (s : Step) :
    (i.step s).2.Follows (past ++ [(s, (i.step s).1)]) :=
  ⟨h.oneToOne_step s, h.mem_iff_step s, h.answered_lt_step s⟩

theorem size_eq (h : i.Follows past) :
    i.size = ((internedSince past).map Prod.fst).toFinset.card := by
  have hsame :
      ((internedSince past).map Prod.fst).toFinset = (i.entries.map Prod.fst).toFinset := by
    ext text
    simp only [List.mem_toFinset, List.mem_map, h.mem_iff]
  rw [hsame, List.toFinset_card_of_nodup h.oneToOne.texts_nodup, List.length_map, size]

end Follows

theorem follows_after (supply : Supply) (steps : List Step) :
    ((ofSupply supply).after steps).Follows ((ofSupply supply).transcript steps) := by
  induction steps using List.reverseRecOn with
  | nil => exact Follows.ofSupply supply
  | append_singleton steps s ih =>
    rw [after_snoc, transcript_snoc]
    exact ih.step s

/-- After any history of an interner that starts on any supply: of what was interned since the last
    reset, the uniques are equal when the spellings are, and only then; a spelling is found with a
    unique exactly if it was interned since the last reset with this answer; and the size is the
    number of distinct spellings among them. Whatever the next step, it removes no entry unless it
    is a reset; the supply moves by one if the step takes a unique, and otherwise not at all; and a
    unique that is taken is above every one that was answered before. -/
theorem table_follows_history (supply : Supply) (steps : List Step) :
    let past := (ofSupply supply).transcript steps
    let i := (ofSupply supply).after steps
    (∀ a ∈ internedSince past, ∀ b ∈ internedSince past, a.2 = b.2 ↔ a.1 = b.1) ∧
      (∀ text u, i.lookup? text = some u ↔ (text, u) ∈ internedSince past) ∧
      i.size = ((internedSince past).map Prod.fst).toFinset.card ∧
      ∀ next, let out := i.step next
        (next ≠ .reset → i.entries <+: out.2.entries) ∧
          out.2.supply.issued = i.supply.issued + (if next.takes past then 1 else 0) ∧
          (next.takes past = true →
            ∃ u, out.1.unique? = some u ∧ ∀ use ∈ past, ∀ v ∈ use.2.unique?, v < u) := by
  intro past i
  have hfollows : i.Follows past := follows_after supply steps
  refine ⟨?_, ?_, hfollows.size_eq, ?_⟩
  · intro a ha b hb
    have hentry := (hfollows.mem_iff a).mpr ha
    have hentry' := (hfollows.mem_iff b).mpr hb
    exact hfollows.oneToOne.unique_eq_iff hentry hentry'
  · intro text u
    exact hfollows.oneToOne.lookup_eq_some_iff.trans (hfollows.mem_iff (text, u))
  · intro next out
    refine ⟨i.entries_prefix_step, hfollows.issued_step next, fun hnext => ?_⟩
    exact ⟨i.supply.issued, hfollows.unique_step hnext, hfollows.answered_lt⟩

example :
    (ofSupply ⟨5⟩).transcript [.intern "x", .draw, .intern "x", .reset, .lookup "x", .intern "x"] =
      [(.intern "x", .interned 5), (.draw, .drawn 6), (.intern "x", .interned 5),
        (.reset, .restarted), (.lookup "x", .found none), (.intern "x", .interned 7)] := by
  decide

end Interner

end FOmega
