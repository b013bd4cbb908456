import FOmega.Proofs.ErrorReport
import FOmega.Proofs.Numbering
import FOmega.Proofs.RuleAgreement

/-!
# The limit on nesting

A lower limit never leads to another tree or to another error. A parse either ends exactly as under
the higher limit, or it fails, and then because its own limit was reached: nothing on the way out of
the nested phrase takes that failure for something else.
-/

namespace FOmega

open FOmega.Parser

/-! ## Names that stay as they are -/

section

variable {f : Name → Name}

theorem Ty.mapNames_eq_self (t : Ty) (h : ∀ x ∈ t.names, f x = x) : t.mapNames f = t := by
  induction t with
  | lam m x k body ih | all m x k body ih =>
    obtain ⟨hx, hbody⟩ := List.forall_mem_cons.mp h
    rw [mapNames, hx, ih hbody]
  | ifix m a b iha ihb | app m a b iha ihb | fn m a b iha ihb =>
    rw [names, sites, List.map_append, List.forall_mem_append] at h
    rw [mapNames, iha h.1, ihb h.2]
  | var m x => rw [mapNames, h x List.mem_cons_self]
  | builtin m b => rfl
  | prod m items ih =>
    rw [names_prod, List.forall_mem_flatMap] at h
    have hitems : ∀ t ∈ items, t.mapNames f = t := fun t ht => ih t ht (h t ht)
    rw [mapNames, mapNamesAll_eq_map, List.map_congr_left hitems, List.map_id']

theorem Term.mapNames_eq_self (t : Term) (h : ∀ x ∈ t.names, f x = x) : t.mapNames f = t := by
  induction t with
  | lam m x type body ih =>
    obtain ⟨hx, hparts⟩ := List.forall_mem_cons.mp h
    rw [List.map_append, List.forall_mem_append] at hparts
    rw [mapNames, hx, type.mapNames_eq_self hparts.1, ih hparts.2]
  | abs m x k body ih =>
    obtain ⟨hx, hbody⟩ := List.forall_mem_cons.mp h
    rw [mapNames, hx, ih hbody]
  | iwrap m pattern arg t ih =>
    rw [names, sites, List.map_append, List.map_append, List.forall_mem_append,
      List.forall_mem_append] at h
    rw [mapNames, pattern.mapNames_eq_self h.1.1, arg.mapNames_eq_self h.1.2, ih h.2]
  | unwrap m t ih | proj m index t ih => rw [mapNames, ih h]
  | apply m a b iha ihb =>
    rw [names_apply, List.forall_mem_append] at h
    rw [mapNames, iha h.1, ihb h.2]
  | inst m t type ih =>
    rw [names_inst, List.forall_mem_append] at h
    rw [mapNames, ih h.1, type.mapNames_eq_self h.2]
  | error m type => rw [mapNames, type.mapNames_eq_self h]
  | var m x => rw [mapNames, h x List.mem_cons_self]
  | constant m c => rfl
  | builtin m b => rfl
  | prod m items ih =>
    rw [names_prod, List.forall_mem_flatMap] at h
    have hitems : ∀ t ∈ items, t.mapNames f = t := fun t ht => ih t ht (h t ht)
    rw [mapNames, mapNamesAll_eq_map, List.map_congr_left hitems, List.map_id']

theorem Phrase.mapNames_eq_self {p : Phrase} (a : p.Answer) (h : ∀ x ∈ p.names a, f x = x) :
    p.mapNames f a = a := by
  cases p with
  | program => exact congrArg (Program.mk a.mark a.version) (Term.mapNames_eq_self a.term h)
  | term => exact Term.mapNames_eq_self a h
  | type => exact Ty.mapNames_eq_self a h
  | kind => rfl
  | constant => rfl

end

namespace Phrase

theorem mapNames_id (p : Phrase) (a : p.Answer) : p.mapNames id a = a :=
  mapNames_eq_self a fun _ _ => rfl

/-! ## Two limits -/

/-- Two parsers that have seen the same names, of which the first has the lower limit. -/
def limits (c : Context) (otherDepth : Nat) : Companions where
  left := c
  otherDepth := otherDepth
  Interners := Eq
  shown := id
  intern_shown := by
    rintro i _ text rfl
    rfl
  intern_interners := by
    rintro i _ text rfl
    rfl
  Lower := True

/-- Under the lower of two limits a source is parsed exactly as under the higher one, with the same
    tree or the same errors and the same uniques drawn, or it is refused for reaching that limit. -/
theorem parseWith_depth_le (p : Phrase) {d d' : Nat} (hle : d ≤ d') (supply : Supply)
    (label src : String) :
    let out := parseWith d supply p.rule label src
    let out' := parseWith d' supply p.rule label src
    out = out' ∨ ∃ span, out.result = .error (.single label src ⟨span, .tooDeep d⟩) := by
  intro out out'
  by_cases herrors : (lexSkippingComments src).errors = []
  · let C := limits (sourceContext d src) d'
    have hstart : C.States (.start (sourceContext d src) (.ofSupply supply))
        (.start (sourceContext d' src) (.ofSupply supply)) :=
      ⟨rfl, rfl, rfl, fun _ => sourceContext_ordered d src⟩
    have hrooms : C.Rooms d d' := .inl ⟨trivial, hle⟩
    have hreplies := (Companions.Agrees.phrase p hrooms).whole _ _ hstart
    generalize hrun : (p.rule d).whole C.left _ = reply,
      hrun' : (p.rule d').whole C.right _ = reply' at hreplies
    cases hreplies with
    | @ok a a' s s' hvalue hstates =>
      have hsame : a = a' := by
        rw [← p.mapNames_id a, ← p.mapNames_id a']
        exact hvalue
      have hinterner : s.interner = s'.interner := hstates.interners
      have hout : out = _ := parseWith_of_ok herrors hrun
      have hout' : out' = _ := parseWith_of_ok herrors hrun'
      left
      rw [hout, hout', hsame, hinterner]
    | @error e s s' hstates =>
      have hinterner : s.interner = s'.interner := hstates.interners
      have hout : out = _ := parseWith_of_error herrors hrun
      have hout' : out' = _ := parseWith_of_error herrors hrun'
      left
      rw [hout, hout', hinterner]
    | @stopped e s _ _ hcause =>
      have hout : out = _ := parseWith_of_error herrors hrun
      right
      rcases e with ⟨span, cause⟩
      obtain rfl : cause = .tooDeep d := hcause
      exact ⟨span, by rw [hout]⟩
  · left
    exact (parseWith_of_lexErrors herrors).trans (parseWith_of_lexErrors herrors).symm

/-- The limit 2 is too low for `[f [g x]]`; from 3 on the limit makes no difference. -/
theorem nested_application_depth_le :
    let src := "[f [g x]]"
    let out := fun d => parseWith d .empty Phrase.term.rule "t" src
    (∃ span, (out 2).result = .error (.single "t" src ⟨span, .tooDeep 2⟩)) ∧
      (out 3).result.isOk = true ∧ out 3 = out 4 := by
  intro src out
  have hlow : (out 2).result.isOk = false := by decide +kernel
  have hhigh : (out 3).result.isOk = true := by decide +kernel
  refine ⟨?_, hhigh, ?_⟩
  · rcases parseWith_depth_le .term (by decide : 2 ≤ 3) .empty "t" src with hsame | hdeep
    · have hsame' : out 2 = out 3 := hsame
      rw [hsame', hhigh] at hlow
      cases hlow
    · exact hdeep
  · rcases parseWith_depth_le .term (by decide : 3 ≤ 4) .empty "t" src with hsame | ⟨span, hdeep⟩
    · exact hsame
    · have hdeep' : (out 3).result = _ := hdeep
      rw [hdeep'] at hhigh
      cases hhigh

end Phrase

end FOmega
