import FOmega.Proofs.BlockComment
import FOmega.Proofs.Sentence
import Mathlib.Data.List.DropRight
import Mathlib.Data.Prod.Lex
import Mathlib.Order.Monotone.Basic

/-!
# Lines and columns

A position is found by walking over the characters of a source. At an offset between characters the
walk has passed exactly the characters before the offset, so the line counts the line feeds among
them and the column counts the characters since the last one. Every character moves the position
forward, by lines first and then by columns, so positions are in the order of their offsets. The
lexical errors of a source stand at increasing offsets between characters, the comment that is never
closed after all others at the end. Their report lists them in that order.
-/

namespace FOmega

namespace Position

variable {p : Position} {before after : List Char} {c : Char}

/-! ## The order of positions -/

/-- The line, and within the line the column. -/
def key (p : Position) : Nat ×ₗ Nat :=
  toLex (p.line, p.column)

theorem key_lt_advance (p : Position) (c : Char) : p.key < (p.advance c).key := by
  rw [key, key, Prod.Lex.toLex_lt_toLex]
  unfold advance
  split
  · exact .inl (Nat.lt_succ_self p.line)
  · exact .inr ⟨rfl, Nat.lt_succ_self p.column⟩

/-- Characters move a position forward. -/
theorem key_lt_foldl (p : Position) {cs : List Char} (h : cs ≠ []) :
    p.key < (cs.foldl advance p).key := by
  induction cs generalizing p with
  | nil => exact absurd rfl h
  | cons c cs ih =>
    have hfirst := key_lt_advance p c
    cases cs with
    | nil => exact hfirst
    | cons d ds => exact hfirst.trans (ih (p.advance c) (List.cons_ne_nil d ds))

/-! ## The walk over a source -/

/-- Up to an offset between characters, the walk passes the characters before it. -/
theorem walk_byteLength (p : Position) (before after : List Char) :
    walk p (byteLength before) (before ++ after) = before.foldl advance p := by
  induction before generalizing p with
  | nil => cases after <;> rfl
  | cons c before ih =>
    have hpos := c.utf8Size_pos
    have hne : c.utf8Size + byteLength before ≠ 0 := by omega
    rw [byteLength, List.cons_append, walk, if_neg hne, Nat.add_sub_cancel_left, ih,
      List.foldl_cons]

/-- The place after a text from the start counts its line feeds, and the characters after the last
    one. -/
theorem foldl_advance_start (cs : List Char) : cs.foldl advance start =
    ⟨1 + cs.count '\n', 1 + (cs.rtakeWhile (· ≠ '\n')).length⟩ := by
  induction cs using List.reverseRecOn with
  | nil => rfl
  | append_singleton cs c ih =>
    rw [List.foldl_append, ih, List.foldl_cons, List.foldl_nil, advance]
    by_cases hc : c = '\n'
    · subst hc
      simp [List.rtakeWhile_concat_neg, Nat.add_assoc]
    · simp [hc, List.rtakeWhile_concat_pos, Nat.add_assoc]

variable {src : String}

/-- A text before an offset stands at the start of the source. -/
theorem ofOffset_byteLength (h : src.toList = before ++ after) :
    ofOffset src (byteLength before) = before.foldl advance start := by
  rw [ofOffset, h, walk_byteLength]

end Position

/-! ## Offsets between characters -/

/-- The offsets of a source that lie between two of its characters, or at its start or end. -/
def boundaries (src : String) : Set Nat :=
  {o | String.Pos.Raw.IsValid src ⟨o⟩}

theorem mem_boundaries {src : String} {o : Nat} : o ∈ boundaries src ↔
    ∃ before after, src.toList = before ++ after ∧ byteLength before = o := by
  rw [boundaries, Set.mem_ofPred_eq, String.Pos.Raw.isValid_iff_exists_append]
  constructor
  · rintro ⟨before, after, rfl, hpos⟩
    refine ⟨before.toList, after.toList, String.toList_append, ?_⟩
    rw [byteLength_toList]
    exact (congrArg String.Pos.Raw.byteIdx hpos).symm
  · rintro ⟨before, after, hsrc, rfl⟩
    refine ⟨String.ofList before, String.ofList after, ?_, ?_⟩
    · rw [← String.ofList_append, ← hsrc, String.ofList_toList]
    · rw [byteLength_eq_utf8Len, ← String.utf8ByteSize_ofList]
      rfl

namespace Position

variable {src : String}

theorem ofOffset_eq {o : Nat} (h : o ∈ boundaries src) :
    let before := (String.Pos.Raw.extract src ⟨0⟩ ⟨o⟩).toList
    ofOffset src o = ⟨1 + before.count '\n', 1 + (before.rtakeWhile (· ≠ '\n')).length⟩ := by
  obtain ⟨before, after, hsrc, rfl⟩ := mem_boundaries.mp h
  have hat : At src ⟨0, byteLength before⟩ before := ⟨[], after, hsrc, rfl, rfl⟩
  have hextract := hat.extract_eq
  rw [Span.stop, Nat.zero_add] at hextract
  rw [hextract, String.toList_ofList, ofOffset_byteLength hsrc, foldl_advance_start]

/-- A later offset has a later position, because the characters between the two move it forward. -/
theorem strictMonoOn_ofOffset (src : String) :
    StrictMonoOn (fun o => (ofOffset src o).key) (boundaries src) := by
  intro o ho o' ho' hlt
  obtain ⟨before, after, hsrc, rfl⟩ := mem_boundaries.mp ho
  obtain ⟨before', after', hsrc', rfl⟩ := mem_boundaries.mp ho'
  rcases List.prefix_or_prefix_of_prefix ⟨after, hsrc.symm⟩ ⟨after', hsrc'.symm⟩ with
    ⟨between, rfl⟩ | ⟨between, rfl⟩
  · have hne : between ≠ [] := by
      rintro rfl
      simp at hlt
    simp only [ofOffset_byteLength hsrc, ofOffset_byteLength hsrc', List.foldl_append]
    exact key_lt_foldl _ hne
  · rw [byteLength_append] at hlt
    omega

theorem injOn_ofOffset (src : String) : Set.InjOn (ofOffset src) (boundaries src) := by
  intro o ho o' ho' heq
  exact (strictMonoOn_ofOffset src).injOn ho ho' (congrArg key heq)

end Position

/-! ## Lexical errors in order -/

open Lexer

/-- No piece comes after a block comment that is never closed. -/
theorem cuts_pairwise_ne_unterminated (offset : Nat) (cs : List Char) :
    (cuts offset cs).Pairwise fun x _ => x.verdict ≠ .unterminated := by
  fun_induction cuts offset cs with
  | case1 => exact List.Pairwise.nil
  | case2 offset c cs p text ih =>
    refine List.pairwise_cons.mpr ⟨?_, ih⟩
    intro y hy hunterminated
    have hafter : cs.drop p.more = [] := after_unterminated hunterminated offset
    rw [hafter, cuts] at hy
    cases hy

theorem error?_eq_some {x : Cut} {total : Nat} {e : LexError} (h : x.error? total = some e) :
    (x.verdict = .invalid ∧ e.span = x.span) ∨
      (x.verdict = .unterminated ∧ e.span = ⟨total, 0⟩) := by
  unfold Cut.error? at h
  split at h
  · next hverdict =>
    cases h
    exact .inl ⟨hverdict, rfl⟩
  · next hverdict =>
    cases h
    exact .inr ⟨hverdict, rfl⟩
  · cases h

/-- The errors of a source stand between characters. -/
theorem offset_mem_boundaries {src : String} {e : LexError} (he : e ∈ (lex src).errors) :
    e.span.offset ∈ boundaries src := by
  rw [lex, lexFrom_eq_cuts] at he
  obtain ⟨x, hx, hxe⟩ := List.mem_filterMap.mp he
  rcases error?_eq_some hxe with ⟨-, hspan⟩ | ⟨-, hspan⟩
  · rw [hspan]
    exact (at_of_mem_cuts hx).isValid_offset
  · rw [hspan]
    exact mem_boundaries.mpr ⟨src.toList, [], (List.append_nil _).symm, rfl⟩

/-- The errors of a source stand at increasing offsets. -/
theorem errors_increasing (src : String) :
    (lex src).errors.Pairwise fun e e' => e.span.offset < e'.span.offset := by
  have hcuts : (cuts 0 src.toList).Pairwise fun x y => x.verdict ≠ .unterminated ∧
      x.span.offset < y.span.offset ∧ x.span.offset < byteLength src.toList := by
    refine ((cuts_pairwise 0 src.toList).and
      (cuts_pairwise_ne_unterminated 0 src.toList)).imp_of_mem ?_
    rintro x y hx - ⟨hle, hverdict⟩
    have hstart : x.span.offset < x.span.stop := Nat.lt_add_of_pos_right (mem_cuts hx).1
    have hstop := (at_of_mem_cuts hx).stop_le
    rw [← byteLength_toList] at hstop
    exact ⟨hverdict, by omega, by omega⟩
  rw [lex, lexFrom_eq_cuts]
  refine hcuts.filterMap _ ?_
  rintro x y ⟨hverdict, hlt, hinside⟩ e he e' he'
  obtain ⟨-, hspan⟩ := (error?_eq_some he).resolve_right fun h => hverdict h.1
  rw [hspan]
  rcases error?_eq_some he' with ⟨-, hspan'⟩ | ⟨-, hspan'⟩
  · rwa [hspan']
  · rwa [hspan']

/-- The entries of the report of lexical errors are in the order of their positions. -/
theorem Report.ofLexErrors_increasing (label src : String) :
    (Report.ofLexErrors label src (lex src).errors).errors.Pairwise
      fun e e' => e.position.key < e'.position.key := by
  refine List.Pairwise.map _ ?_ ((errors_increasing src).imp_of_mem (S := fun e e' =>
    (Position.ofOffset src e.span.offset).key < (Position.ofOffset src e'.span.offset).key) ?_)
  · exact fun _ _ h => h
  · intro e e' he he' hlt
    exact Position.strictMonoOn_ofOffset src (offset_mem_boundaries he)
      (offset_mem_boundaries he') hlt

/-- At every offset between characters, the line is one more than the line feeds before it, and the
    column one more than the characters since the last of them. Positions are in the order of such
    offsets, by line and then by column, so no two have the same. A source with lexical errors is
    reported with just these errors, in their order and at increasing positions, and no unique is
    drawn. -/
theorem positions_exact_and_ordered (src : String) :
    (∀ o, String.Pos.Raw.IsValid src ⟨o⟩ →
      let before := (String.Pos.Raw.extract src ⟨0⟩ ⟨o⟩).toList
      Position.ofOffset src o =
        ⟨1 + before.count '\n', 1 + (before.rtakeWhile (· ≠ '\n')).length⟩) ∧
    StrictMonoOn (fun o => (Position.ofOffset src o).key) {o | String.Pos.Raw.IsValid src ⟨o⟩} ∧
    Set.InjOn (Position.ofOffset src) {o | String.Pos.Raw.IsValid src ⟨o⟩} ∧
    ((lex src).errors ≠ [] → ∀ {α : Type} (maxDepth : Nat) (supply : Supply)
      (rule : Nat → Parser α) (label : String),
      let out := parseWith maxDepth supply rule label src
      out.supply = supply ∧ ∃ report, out.result = .error report ∧ report.label = label ∧
        report.errors.map LocatedError.error =
          (lex src).errors.map (fun e => ⟨e.span, .lexical e.kind⟩) ∧
        (∀ e ∈ report.errors, e.position = Position.ofOffset src e.error.span.offset) ∧
        report.errors.Pairwise fun e e' => e.position.key < e'.position.key) := by
  refine ⟨fun o ho => Position.ofOffset_eq ho, Position.strictMonoOn_ofOffset src,
    Position.injOn_ofOffset src, ?_⟩
  intro herrors α maxDepth supply rule label out
  have hout : out = _ := parseWith_of_lexErrors herrors
  rw [hout]
  refine ⟨rfl, _, rfl, rfl, ?_, ?_, Report.ofLexErrors_increasing label src⟩
  · exact List.map_map
  · intro e he
    obtain ⟨x, -, rfl⟩ := List.mem_map.mp he
    rfl

/-- In `é#`, a line feed and `{- $`, the sign in the first line and the comment that is never closed
    are reported at the second column and at the end of the second line, though the first letter has
    two bytes. -/
theorem sign_and_comment_positions :
    let src := "é#\n\x7b- $"
    String.Pos.Raw.IsValid src ⟨2⟩ ∧ String.Pos.Raw.IsValid src ⟨8⟩ ∧
      Position.ofOffset src 2 = ⟨1, 2⟩ ∧ Position.ofOffset src 8 = ⟨2, 5⟩ ∧
      (Position.ofOffset src 2).key < (Position.ofOffset src 8).key ∧
      (lex src).errors ≠ [] ∧
      let out := parseWith 1 ⟨7⟩ Grammar.term "t" src
      out.supply = ⟨7⟩ ∧ ∃ report, out.result = .error report ∧
        report.errors.map LocatedError.error =
          [⟨⟨2, 1⟩, .lexical .invalidToken⟩, ⟨⟨8, 0⟩, .lexical .unterminatedComment⟩] := by
  intro src
  obtain ⟨hexact, hmono, -, hreport⟩ := positions_exact_and_ordered src
  have hsign : String.Pos.Raw.IsValid src ⟨2⟩ :=
    mem_boundaries.mpr ⟨['é'], "#\n\x7b- $".toList, by decide, by decide⟩
  have hend : String.Pos.Raw.IsValid src ⟨8⟩ :=
    mem_boundaries.mpr ⟨src.toList, [], by decide, by decide⟩
  have herrors : (lex src).errors =
      [⟨.invalidToken, ⟨2, 1⟩⟩, ⟨.unterminatedComment, ⟨8, 0⟩⟩] := by
    decide +kernel
  have hne : (lex src).errors ≠ [] := by simp [herrors]
  obtain ⟨hsupply, report, hresult, -, hentries, -⟩ := hreport hne 1 ⟨7⟩ Grammar.term "t"
  rw [herrors] at hentries
  refine ⟨hsign, hend, (hexact 2 hsign).trans ?_, (hexact 8 hend).trans ?_,
    hmono hsign hend (by decide), hne, hsupply, report, hresult, hentries⟩
  · decide +kernel
  · decide +kernel

end FOmega
