import FOmega.Proofs.DepthLimit
import FOmega.Proofs.Unambiguous

/-!
# What the limit on nesting asks for

The nesting level of a phrase counts the phrases that stand inside each other. A rule opens one
level for each of them, and no more, except in a product without items: there it looks for an item
one level further down, and a limit that is just reached stops it before it can see that there is
none. So a sentence is read exactly when its nesting level is within the limit and no empty product
stands at the limit itself, and otherwise the parse fails for reaching the limit.
-/

namespace FOmega

open FOmega.Parser

/-! ## Nesting levels -/

mutual

/-- The number of phrases on the longest path into a type. Of kinds this is the depth. -/
def TypeDerivation.level : TypeDerivation → Nat
  | .var _ => 1
  | .lam _ _ _ k d _ => max k.depth d.level + 1
  | .all _ _ _ k d _ => max k.depth d.level + 1
  | .ifix _ _ d e _ => max d.level e.level + 1
  | .fn _ _ d e _ => max d.level e.level + 1
  | .con _ _ _ _ => 1
  | .prod _ _ ds _ => TypeDerivation.maxLevel ds + 1
  | .app _ d e es _ => max d.level (max e.level (TypeDerivation.maxLevel es)) + 1

/-- The largest level of types in a row. -/
def TypeDerivation.maxLevel : List TypeDerivation → Nat
  | [] => 0
  | d :: ds => max d.level (TypeDerivation.maxLevel ds)

end

mutual

/-- The number of phrases on the longest path into a term. Of constants this is the depth. -/
def TermDerivation.level : TermDerivation → Nat
  | .var _ => 1
  | .lam _ _ _ t d _ => max t.level d.level + 1
  | .abs _ _ _ k d _ => max k.depth d.level + 1
  | .iwrap _ _ t u d _ => max t.level (max u.level d.level) + 1
  | .unwrap _ _ d _ => d.level + 1
  | .error _ _ t _ => t.level + 1
  | .con _ _ k _ => k.depth + 1
  | .builtin _ _ _ _ => 1
  | .prod _ _ ds _ => TermDerivation.maxLevel ds + 1
  | .proj _ _ _ d _ => d.level + 1
  | .apply _ d e es _ => max d.level (max e.level (TermDerivation.maxLevel es)) + 1
  | .inst _ d t ts _ => max d.level (max t.level (TypeDerivation.maxLevel ts)) + 1

/-- The largest level of terms in a row. -/
def TermDerivation.maxLevel : List TermDerivation → Nat
  | [] => 0
  | d :: ds => max d.level (TermDerivation.maxLevel ds)

end

/-! ## The levels of empty products -/

/-- Levels as they are counted from one phrase further out. -/
def deeper (levels : List Nat) : List Nat :=
  levels.map (· + 1)

mutual

/-- The levels at which products without items stand in a type, its own level being the first. -/
def TypeDerivation.emptyLevels : TypeDerivation → List Nat
  | .var _ => []
  | .lam _ _ _ _ d _ => deeper d.emptyLevels
  | .all _ _ _ _ d _ => deeper d.emptyLevels
  | .ifix _ _ d e _ => deeper (d.emptyLevels ++ e.emptyLevels)
  | .fn _ _ d e _ => deeper (d.emptyLevels ++ e.emptyLevels)
  | .con _ _ _ _ => []
  | .prod _ _ [] _ => [1]
  | .prod _ _ (d :: ds) _ => deeper (d.emptyLevels ++ TypeDerivation.allEmptyLevels ds)
  | .app _ d e es _ =>
    deeper (d.emptyLevels ++ (e.emptyLevels ++ TypeDerivation.allEmptyLevels es))

/-- The levels of empty products in types in a row. -/
def TypeDerivation.allEmptyLevels : List TypeDerivation → List Nat
  | [] => []
  | d :: ds => d.emptyLevels ++ TypeDerivation.allEmptyLevels ds

end

mutual

/-- The levels at which products without items stand in a term, its own level being the first. -/
def TermDerivation.emptyLevels : TermDerivation → List Nat
  | .var _ => []
  | .lam _ _ _ t d _ => deeper (t.emptyLevels ++ d.emptyLevels)
  | .abs _ _ _ _ d _ => deeper d.emptyLevels
  | .iwrap _ _ t u d _ => deeper (t.emptyLevels ++ (u.emptyLevels ++ d.emptyLevels))
  | .unwrap _ _ d _ => deeper d.emptyLevels
  | .error _ _ t _ => deeper t.emptyLevels
  | .con _ _ _ _ => []
  | .builtin _ _ _ _ => []
  | .prod _ _ [] _ => [1]
  | .prod _ _ (d :: ds) _ => deeper (d.emptyLevels ++ TermDerivation.allEmptyLevels ds)
  | .proj _ _ _ d _ => deeper d.emptyLevels
  | .apply _ d e es _ =>
    deeper (d.emptyLevels ++ (e.emptyLevels ++ TermDerivation.allEmptyLevels es))
  | .inst _ d t ts _ =>
    deeper (d.emptyLevels ++ (t.emptyLevels ++ TypeDerivation.allEmptyLevels ts))

/-- The levels of empty products in terms in a row. -/
def TermDerivation.allEmptyLevels : List TermDerivation → List Nat
  | [] => []
  | d :: ds => d.emptyLevels ++ TermDerivation.allEmptyLevels ds

end

/-! ## Depth, measured by levels -/

/-- A depth that is within a limit when a level is and the limit is not among the levels of empty
    products. -/
def Measured (depth level : Nat) (emptyLevels : List Nat) : Prop :=
  ∀ n, depth ≤ n ↔ level ≤ n ∧ n ∉ emptyLevels

namespace Measured

variable {depth level depth' level' : Nat} {empties empties' : List Nat}

theorem self (depth : Nat) : Measured depth depth [] :=
  fun n => by simp

theorem max (h : Measured depth level empties) (h' : Measured depth' level' empties') :
    Measured (Nat.max depth depth') (Nat.max level level') (empties ++ empties') := by
  intro n
  rw [Nat.max_le, Nat.max_le, List.mem_append, not_or, h n, h' n]
  exact and_and_and_comm

/-- One phrase further out everything is one level deeper, and no limit below one suffices. -/
theorem deeper (h : Measured depth level empties) :
    Measured (depth + 1) (level + 1) (deeper empties) := by
  intro n
  cases n with
  | zero => simp
  | succ n =>
    have hmem : n + 1 ∈ FOmega.deeper empties ↔ n ∈ empties := by simp [FOmega.deeper]
    rw [Nat.add_le_add_iff_right, Nat.add_le_add_iff_right, hmem]
    exact h n

end Measured

theorem TypeDerivation.maxDepth_measured {ds : List TypeDerivation}
    (h : ∀ d ∈ ds, Measured d.depth d.level d.emptyLevels) :
    Measured (maxDepth ds) (maxLevel ds) (allEmptyLevels ds) := by
  induction ds with
  | nil => exact .self 0
  | cons d ds ih =>
    obtain ⟨hd, hds⟩ := List.forall_mem_cons.mp h
    exact hd.max (ih hds)

theorem TypeDerivation.depth_measured (d : TypeDerivation) :
    Measured d.depth d.level d.emptyLevels := by
  induction d with
  | var x => exact .self 1
  | con o w b c => exact .self 1
  | lam o w x k d c ih | all o w x k d c ih => exact ((Measured.self k.depth).max ih).deeper
  | ifix o w d e c ihd ihe | fn o w d e c ihd ihe => exact (ihd.max ihe).deeper
  | app o d e es c ihd ihe ihes => exact (ihd.max (ihe.max (maxDepth_measured ihes))).deeper
  | prod o w ds c ih =>
    cases ds with
    | nil =>
      -- here, and only here, a level is opened in which no phrase stands
      intro n
      simp only [depth, maxDepth, level, maxLevel, emptyLevels, List.mem_singleton]
      omega
    | cons d ds =>
      have hpos : 1 ≤ maxDepth (d :: ds) :=
        Nat.le_trans d.depth_pos (Nat.le_max_left _ (maxDepth ds))
      rw [depth, Nat.max_eq_right hpos]
      exact (maxDepth_measured ih).deeper

theorem TermDerivation.maxDepth_measured {ds : List TermDerivation}
    (h : ∀ d ∈ ds, Measured d.depth d.level d.emptyLevels) :
    Measured (maxDepth ds) (maxLevel ds) (allEmptyLevels ds) := by
  induction ds with
  | nil => exact .self 0
  | cons d ds ih =>
    obtain ⟨hd, hds⟩ := List.forall_mem_cons.mp h
    exact hd.max (ih hds)

theorem TermDerivation.depth_measured (d : TermDerivation) :
    Measured d.depth d.level d.emptyLevels := by
  induction d with
  | var x => exact .self 1
  | lam o w x t d c ih => exact (t.depth_measured.max ih).deeper
  | abs o w x k d c ih => exact ((Measured.self k.depth).max ih).deeper
  | iwrap o w t u d c ih => exact (t.depth_measured.max (u.depth_measured.max ih)).deeper
  | unwrap o w d c ih | proj o w n d c ih => exact ih.deeper
  | error o w t c => exact t.depth_measured.deeper
  | con o w k c => exact (Measured.self k.depth).deeper
  | builtin o w b c => exact .self 1
  | apply o d e es c ihd ihe ihes => exact (ihd.max (ihe.max (maxDepth_measured ihes))).deeper
  | inst o d t ts c ih =>
    have hargs := TypeDerivation.maxDepth_measured fun t (_ : t ∈ ts) => t.depth_measured
    exact (ih.max (t.depth_measured.max hargs)).deeper
  | prod o w ds c ih =>
    cases ds with
    | nil =>
      intro n
      simp only [depth, maxDepth, level, maxLevel, emptyLevels, List.mem_singleton]
      omega
    | cons d ds =>
      have hpos : 1 ≤ maxDepth (d :: ds) :=
        Nat.le_trans d.depth_pos (Nat.le_max_left _ (maxDepth ds))
      rw [depth, Nat.max_eq_right hpos]
      exact (maxDepth_measured ih).deeper

namespace Phrase

/-- The nesting level of a derivation. A program has that of its term. -/
def level : (p : Phrase) → p.Derivation → Nat
  | program => fun d => TermDerivation.level d.term
  | term => TermDerivation.level
  | type => TypeDerivation.level
  | kind => KindDerivation.depth
  | constant => ConstantDerivation.depth

/-- The levels at which empty products stand in a derivation. -/
def emptyLevels : (p : Phrase) → p.Derivation → List Nat
  | program => fun d => TermDerivation.emptyLevels d.term
  | term => TermDerivation.emptyLevels
  | type => TypeDerivation.emptyLevels
  | kind => fun _ => []
  | constant => fun _ => []

variable {p : Phrase}

theorem depth_measured (d : p.Derivation) : Measured (p.depth d) (p.level d) (p.emptyLevels d) := by
  cases p with
  | program => exact TermDerivation.depth_measured d.term
  | term => exact TermDerivation.depth_measured d
  | type => exact TypeDerivation.depth_measured d
  | kind => exact .self (KindDerivation.depth d)
  | constant => exact .self (ConstantDerivation.depth d)

/-! ## Sentences under a limit -/

/-- A sentence is only read if the limit is at least its depth, since it has no other derivation. -/
theorem depth_le_of_whole {c : Context} {i : Interner} {d : p.Derivation}
    (htokens : p.tokens d = c.tokens) {a : p.Answer} {s : State}
    (h : (p.rule c.maxDepth).whole c (.start c i) = .ok a s) : p.depth d ≤ c.maxDepth := by
  obtain ⟨e, hdepth, htokens', -⟩ := whole_derives h
  rw [eq_of_tokens_eq (htokens.trans htokens'.symm)]
  exact hdepth

/-- A sentence that is too deep stops the parse at the limit. With a limit as high as its depth it
    would be read, so the lower limit can only make a difference by being reached. -/
theorem whole_of_depth_gt {c : Context} {i : Interner} (hordered : Ordered c c.tokens)
    {d : p.Derivation} (htokens : p.tokens d = c.tokens) (hdepth : c.maxDepth < p.depth d) :
    ∃ e s, (p.rule c.maxDepth).whole c (.start c i) = .error e s ∧
      e.cause = .tooDeep c.maxDepth := by
  let C := limits c (p.depth d)
  have hstart : C.States (.start c i) (.start C.right i) := ⟨rfl, rfl, rfl, fun _ => hordered⟩
  have hrooms : C.Rooms c.maxDepth (p.depth d) := .inl ⟨trivial, Nat.le_of_lt hdepth⟩
  have hreplies := (Companions.Agrees.phrase p hrooms).whole _ _ hstart
  obtain ⟨b, s', hread, -⟩ := whole_read (c := C.right) (i := i) d (Nat.le_refl _) htokens
  have hright : (p.rule (p.depth d)).whole C.right (.start C.right i) = .ok b s' := hread
  rw [hright] at hreplies
  generalize hrun : (p.rule c.maxDepth).whole C.left (.start c i) = reply at hreplies
  cases hreplies with
  | ok hvalue hstates => exact absurd (depth_le_of_whole htokens hrun) (Nat.not_le.mpr hdepth)
  | stopped hlower hcause => exact ⟨_, _, hrun, hcause⟩

/-- The limit on nesting is exact up to empty products. A sentence is read exactly when its nesting
    level is within the limit and it has no empty product just at the limit; otherwise the parse
    fails, and for reaching the limit. -/
theorem parse_reads_within_limit (p : Phrase) (maxDepth : Nat) (supply : Supply)
    (label src : String) (herrors : (lexSkippingComments src).errors = []) (d : p.Derivation)
    (htokens : p.tokens d = (lexSkippingComments src).tokens) :
    let out := parseWith maxDepth supply p.rule label src
    let fits := p.level d ≤ maxDepth ∧ maxDepth ∉ p.emptyLevels d
    ((∃ a, out.result = .ok a) ↔ fits) ∧
      (¬ fits → ∃ span, out.result = .error (.single label src ⟨span, .tooDeep maxDepth⟩)) := by
  intro out fits
  have hfits : p.depth d ≤ maxDepth ↔ fits := depth_measured d maxDepth
  rw [← hfits]
  refine ⟨⟨?_, ?_⟩, ?_⟩
  · rintro ⟨a, hresult⟩
    obtain ⟨-, s, hwhole⟩ := parseWith_eq_ok_iff.mp hresult
    exact depth_le_of_whole (c := sourceContext maxDepth src) htokens hwhole
  · intro hdepth
    obtain ⟨a, s, hwhole, -⟩ := whole_read (c := sourceContext maxDepth src)
      (i := .ofSupply supply) d hdepth htokens
    exact ⟨a, parseWith_eq_ok_iff.mpr ⟨herrors, s, hwhole⟩⟩
  · intro hdepth
    obtain ⟨⟨span, cause⟩, s, hwhole, hcause⟩ :=
      whole_of_depth_gt (c := sourceContext maxDepth src) (i := .ofSupply supply)
        (sourceContext_ordered maxDepth src) htokens (Nat.not_le.mp hdepth)
    obtain rfl : cause = .tooDeep maxDepth := hcause
    have hout : out = _ := parseWith_of_error herrors hwhole
    exact ⟨span, by rw [hout]⟩

/-- The phrase `(prod)`, which has nothing inside it. -/
def emptyProduct : TermDerivation :=
  .prod ⟨⟨.lparen, ⟨0, 1⟩, "("⟩, rfl⟩ ⟨⟨.ident, ⟨1, 4⟩, "prod"⟩, rfl, rfl⟩ []
    ⟨⟨.rparen, ⟨5, 1⟩, ")"⟩, rfl⟩

/-- The phrase `(prod)` is one level deep. It stops at the limit one and is read under the limit
    two. -/
theorem emptyProduct_read_within_two :
    let out := fun limit => parseWith limit .empty term.rule "t" "(prod)"
    (∃ span, (out 1).result = .error (.single "t" "(prod)" ⟨span, .tooDeep 1⟩)) ∧
      ∃ t, (out 2).result = .ok t := by
  intro out
  have herrors : (lexSkippingComments "(prod)").errors = [] := by decide +kernel
  have htokens : emptyProduct.tokens = (lexSkippingComments "(prod)").tokens := by decide +kernel
  have hfits : ¬ (1 ≤ 1 ∧ 1 ∉ [1]) := by decide
  have hfits' : 1 ≤ 2 ∧ 2 ∉ [1] := by decide
  exact ⟨(parse_reads_within_limit term 1 .empty "t" _ herrors emptyProduct htokens).2 hfits,
    (parse_reads_within_limit term 2 .empty "t" _ herrors emptyProduct htokens).1.mpr hfits'⟩

/-- A nesting level within the limit is not enough: `(prod)` has the level one and is refused under
    the limit one. -/
theorem emptyProduct_refused_at_its_level :
    (lexSkippingComments "(prod)").errors = [] ∧
      emptyProduct.tokens = (lexSkippingComments "(prod)").tokens ∧ emptyProduct.level ≤ 1 ∧
        ¬ ∃ t, (parseWith 1 .empty Grammar.term "t" "(prod)").result = .ok t := by
  refine ⟨by decide +kernel, by decide +kernel, Nat.le_refl 1, ?_⟩
  rintro ⟨t, ht⟩
  have hrefused : (parseWith 1 .empty Grammar.term "t" "(prod)").result.isOk = false := by
    decide +kernel
  rw [ht] at hrefused
  cases hrefused

end Phrase

end FOmega
