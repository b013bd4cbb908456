import FOmega.Proofs.Pieces
import Mathlib.Data.String.Basic

/-!
# Nothing of a source is lost

The lexer cuts a source into pieces one after the other. Its tokens and its invalid stretches are
pieces where they stand, with only blanks between them, up to the end of the source or to the block
comment that is never closed. So each token is the text at its span and the longest match there, and
each invalid stretch starts where there is no match, or where the match is a literal without a
value.
-/

namespace FOmega

open Lexer (Verdict Piece piece isBlank Judged Longest Spells Undecodable CommentRest TokenClass)

/-! ## Bytes of a text -/

theorem byteLength_append (as bs : List Char) :
    byteLength (as ++ bs) = byteLength as + byteLength bs := by
  induction as with
  | nil => simp [byteLength]
  | cons a as ih =>
    rw [List.cons_append, byteLength, ih, byteLength]
    omega

theorem byteLength_eq_utf8Len (cs : List Char) : byteLength cs = String.utf8Len cs := by
  induction cs with
  | nil => rfl
  | cons c cs ih => rw [byteLength, ih, String.utf8Len_cons, Nat.add_comm]

theorem byteLength_toList (src : String) : byteLength src.toList = src.utf8ByteSize := by
  rw [byteLength_eq_utf8Len, String.utf8Len_toList]

/-- The text stands at the span. -/
def At (src : String) (s : Span) (w : List Char) : Prop :=
  ∃ before after, src.toList = before ++ w ++ after ∧ byteLength before = s.offset ∧
    byteLength w = s.len

namespace At

variable {src : String} {s : Span} {w : List Char}

theorem extract_eq (h : At src s w) :
    String.Pos.Raw.extract src ⟨s.offset⟩ ⟨s.stop⟩ = String.ofList w := by
  obtain ⟨before, after, hsrc, hbefore, hw⟩ := h
  have hextract := String.extract_of_valid before w after
  rw [← hsrc, String.ofList_toList, ← byteLength_eq_utf8Len, ← byteLength_eq_utf8Len, hbefore, hw]
    at hextract
  exact hextract

theorem isValid_offset (h : At src s w) : String.Pos.Raw.IsValid src ⟨s.offset⟩ := by
  obtain ⟨before, after, hsrc, hbefore, -⟩ := h
  refine String.Pos.Raw.isValid_iff_exists_append.mpr
    ⟨String.ofList before, String.ofList (w ++ after), ?_, ?_⟩
  · rw [← String.ofList_append, ← List.append_assoc, ← hsrc, String.ofList_toList]
  · rw [← hbefore, byteLength_eq_utf8Len, ← String.utf8ByteSize_ofList]
    rfl

theorem isValid_stop (h : At src s w) : String.Pos.Raw.IsValid src ⟨s.stop⟩ := by
  obtain ⟨before, after, hsrc, hbefore, hw⟩ := h
  refine isValid_offset (s := ⟨s.stop, 0⟩) (w := []) ⟨before ++ w, after, ?_, ?_, rfl⟩
  · rw [List.append_nil, hsrc]
  · rw [byteLength_append, hbefore, hw, Span.stop]

theorem stop_le (h : At src s w) : s.stop ≤ src.utf8ByteSize := by
  obtain ⟨before, after, hsrc, hbefore, hw⟩ := h
  rw [← byteLength_toList, hsrc, byteLength_append, byteLength_append, hbefore, hw]
  exact Nat.le_add_right _ _

end At

namespace Lexer

/-- A piece has a first character, and the source goes on right after it. -/
theorem byteLength_piece (c : Char) (cs : List Char) (n : Nat) :
    0 < byteLength (c :: cs.take n) ∧
      byteLength (c :: cs.take n) + byteLength (cs.drop n) = byteLength (c :: cs) := by
  have hpos := c.utf8Size_pos
  refine ⟨?_, ?_⟩
  · rw [byteLength]
    omega
  · rw [← byteLength_append, List.cons_append, List.take_append_drop]

/-! ## All pieces of a source -/

/-- A piece where it stands: what it is, its text, and what follows it. -/
structure Cut where
  offset : Nat
  verdict : Verdict
  text : List Char
  after : List Char

namespace Cut

/-- The bytes of the piece. -/
def span (x : Cut) : Span :=
  ⟨x.offset, byteLength x.text⟩

/-- The token that the piece is. -/
def token? (x : Cut) : Option Token :=
  match x.verdict with
  | .token kind => some ⟨kind, x.span, String.ofList x.text⟩
  | _ => none

/-- The error that the piece is, in a source of the given size. -/
def error? (total : Nat) (x : Cut) : Option LexError :=
  match x.verdict with
  | .invalid => some ⟨.invalidToken, x.span⟩
  | .unterminated => some ⟨.unterminatedComment, ⟨total, 0⟩⟩
  | _ => none

/-- The span of the piece, if it is a token or invalid. -/
def reported? (x : Cut) : Option Span :=
  match x.verdict with
  | .token _ => some x.span
  | .invalid => some x.span
  | _ => none

theorem span_of_token? {x : Cut} {t : Token} (h : x.token? = some t) : x.span = t.span := by
  unfold token? at h
  split at h
  · cases h
    rfl
  · cases h

theorem span_of_reported? {x : Cut} {s : Span} (h : x.reported? = some s) : x.span = s := by
  unfold reported? at h
  split at h
  · exact Option.some.inj h
  · exact Option.some.inj h
  · cases h

end Cut

/-- The pieces of the rest of a source that starts at an offset. -/
def cuts (offset : Nat) : List Char → List Cut
  | [] => []
  | c :: cs =>
    let p := piece c cs
    let text := c :: cs.take p.more
    ⟨offset, p.verdict, text, cs.drop p.more⟩ :: cuts (offset + byteLength text) (cs.drop p.more)
termination_by cs => cs.length
decreasing_by
  simp only [List.length_drop, List.length_cons]
  omega

/-- The tokens and errors of a source are those of its pieces. -/
theorem lexFrom_eq_cuts (total offset : Nat) (cs : List Char) :
    lexFrom total offset cs =
      ⟨(cuts offset cs).filterMap Cut.token?, (cuts offset cs).filterMap (Cut.error? total)⟩ := by
  fun_induction lexFrom total offset cs with
  | case1 offset => simp [cuts]
  | case2 offset c cs p text span rest hverdict ih
  | case3 offset c cs p text span rest kind hverdict ih
  | case4 offset c cs p text span rest hverdict ih
  | case5 offset c cs p text span rest hverdict ih =>
    have hpiece : (piece c cs).verdict = _ := hverdict
    rw [cuts]
    simp only [rest, ih, List.filterMap_cons, Cut.token?, Cut.error?, hpiece]
    rfl

/-- The first piece of a source that starts at an offset. -/
def firstCut (offset : Nat) (c : Char) (cs : List Char) : Cut :=
  ⟨offset, (piece c cs).verdict, c :: cs.take (piece c cs).more, cs.drop (piece c cs).more⟩

/-- The lexer finds what the first piece is, and goes on right after it. -/
theorem lexFrom_cons (total offset : Nat) (c : Char) (cs : List Char) :
    let x := firstCut offset c cs
    let later := lexFrom total x.span.stop x.after
    lexFrom total offset (c :: cs) =
      ⟨x.token?.toList ++ later.tokens, (x.error? total).toList ++ later.errors⟩ := by
  intro x later
  have hverdict : x.verdict = (piece c cs).verdict := rfl
  rw [lexFrom, Cut.token?, Cut.error?, hverdict]
  cases (piece c cs).verdict <;> rfl

/-- Every piece stands in the source at its offset, and is what the patterns say. -/
theorem mem_cuts {x : Cut} {offset : Nat} {cs : List Char} (hx : x ∈ cuts offset cs) :
    0 < x.span.len ∧ Judged (x.text ++ x.after) x.verdict x.text ∧
      ∃ before, cs = before ++ (x.text ++ x.after) ∧ x.offset = offset + byteLength before := by
  fun_induction cuts offset cs with
  | case1 => cases hx
  | case2 offset c cs p text ih =>
    have hwhole : text ++ cs.drop p.more = c :: cs := by
      rw [List.cons_append, List.take_append_drop]
    rcases List.mem_cons.mp hx with rfl | hx
    · refine ⟨(byteLength_piece c cs p.more).1, ?_, [], hwhole.symm, rfl⟩
      rw [hwhole]
      exact piece_right c cs
    · obtain ⟨hpos, hjudged, before, hbefore, hoffset⟩ := ih hx
      refine ⟨hpos, hjudged, text ++ before, ?_, ?_⟩
      · rw [List.append_assoc, ← hbefore, hwhole]
      · rw [hoffset, byteLength_append, Nat.add_assoc]

theorem at_of_mem_cuts {src : String} {x : Cut} (hx : x ∈ cuts 0 src.toList) :
    At src x.span x.text := by
  obtain ⟨-, -, before, hbefore, hoffset⟩ := mem_cuts hx
  refine ⟨before, x.after, ?_, ?_, rfl⟩
  · rw [hbefore, List.append_assoc]
  · rw [Cut.span, hoffset, Nat.zero_add]

/-- Every piece ends before the next one starts. -/
theorem cuts_pairwise (offset : Nat) (cs : List Char) :
    (cuts offset cs).Pairwise fun x y => x.span.stop ≤ y.span.offset := by
  fun_induction cuts offset cs with
  | case1 => exact List.Pairwise.nil
  | case2 offset c cs p text ih =>
    refine List.pairwise_cons.mpr ⟨?_, ih⟩
    intro y hy
    obtain ⟨-, -, before, -, hoffset⟩ := mem_cuts hy
    rw [Cut.span, Span.stop, Cut.span, hoffset]
    exact Nat.le_add_right _ _

end Lexer

/-! ## Tokens and errors of a source -/

open Lexer

theorem mem_tokens {src : String} {t : Token} (ht : t ∈ (lex src).tokens) :
    ∃ x ∈ cuts 0 src.toList, x.verdict = .token t.kind ∧ x.span = t.span ∧
      x.text = t.text.toList := by
  rw [lex, lexFrom_eq_cuts] at ht
  obtain ⟨x, hx, hxt⟩ := List.mem_filterMap.mp ht
  unfold Cut.token? at hxt
  split at hxt
  · next kind hverdict =>
    cases hxt
    exact ⟨x, hx, hverdict, rfl, String.toList_ofList.symm⟩
  · cases hxt

/-- A token other than a block comment matches the pattern of its class and has the value of its
    text. -/
theorem mem_pattern_of_token {src : String} {t : Token} (ht : t ∈ (lex src).tokens)
    (hblock : t.kind ≠ .blockComment) :
    t.text.toList ∈ t.kind.tokenClass.pattern ∧ Spells t.text.toList t.kind := by
  obtain ⟨x, hx, hverdict, -, htext⟩ := mem_tokens ht
  have hjudged := (mem_cuts hx).2.1
  rw [hverdict, htext] at hjudged
  generalize t.kind = kind, t.text.toList = w at hjudged hblock ⊢
  cases hjudged with
  | token _ hlongest hvalue => exact ⟨hlongest.mem, hvalue⟩
  | comment => exact absurd rfl hblock

theorem comment_of_judged {source w : List Char} (h : Judged source (.token .blockComment) w) :
    ∃ v, w = '{' :: '-' :: v ∧ CommentRest v := by
  cases h with
  | token hblock => exact absurd rfl hblock
  | comment _ hrest => exact ⟨_, rfl, hrest⟩

/-- A block comment has the bytes of its opening and those that the scan reads after it. -/
theorem comment_scanned {src : String} {t : Token} (ht : t ∈ (lex src).tokens)
    (hblock : t.kind = .blockComment) : ∃ n, t.span.len = 2 + n ∧
      commentEnd? 1 0 ((utf8 src.toList).drop (t.span.offset + 2)) = some n := by
  obtain ⟨x, hx, hverdict, hspan, -⟩ := mem_tokens ht
  obtain ⟨-, hjudged, before, hsrc, hoffset⟩ := mem_cuts hx
  rw [hverdict, hblock] at hjudged
  obtain ⟨w, htext, hrest⟩ := comment_of_judged hjudged
  have hlen : x.span.len = 2 + byteLength w := by
    rw [Cut.span, htext, byteLength, byteLength, ← Nat.add_assoc]
    rfl
  have hstart : x.span.offset = byteLength before := by
    rw [Cut.span, hoffset, Nat.zero_add]
  refine ⟨byteLength w, hspan ▸ hlen, ?_⟩
  rw [← hspan, hstart, hsrc, htext, List.cons_append, List.cons_append, drop_utf8_opening]
  exact commentEnd?_of_commentRest hrest x.after

/-- A token is not empty, and it ends within the source. -/
theorem token_bounds {src : String} {t : Token} (ht : t ∈ (lex src).tokens) :
    0 < t.span.len ∧ t.span.stop ≤ byteLength src.toList := by
  obtain ⟨x, hx, -, hspan, -⟩ := mem_tokens ht
  rw [← hspan, byteLength_toList]
  exact ⟨(mem_cuts hx).1, (at_of_mem_cuts hx).stop_le⟩

/-- Every token ends before the next one starts. -/
theorem tokens_apart (src : String) :
    (lex src).tokens.Pairwise fun t t' => t.span.stop ≤ t'.span.offset := by
  rw [lex, lexFrom_eq_cuts]
  refine (cuts_pairwise 0 src.toList).filterMap _ ?_
  intro x y hle t ht t' ht'
  rwa [← Cut.span_of_token? ht, ← Cut.span_of_token? ht']

theorem mem_errors {src : String} {e : LexError} (he : e ∈ (lex src).errors)
    (hkind : e.kind = .invalidToken) :
    ∃ x ∈ cuts 0 src.toList, x.verdict = .invalid ∧ x.span = e.span := by
  rw [lex, lexFrom_eq_cuts] at he
  obtain ⟨x, hx, hxe⟩ := List.mem_filterMap.mp he
  unfold Cut.error? at hxe
  split at hxe
  · next hverdict =>
    cases hxe
    exact ⟨x, hx, hverdict, rfl⟩
  · cases hxe
    cases hkind
  · cases hxe

/-- Every token is the longest match of all patterns where it starts, of its own class and with the
    value that its text denotes. A block comment is the match of its opening, followed by the one
    text that ends the comment. Every invalid stretch starts where no pattern matches, or where the
    longest match is a literal that denotes nothing. -/
theorem lex_longest_match (src : String) :
    (∀ t ∈ (lex src).tokens, ∃ before after,
      src.toList = before ++ (t.text.toList ++ after) ∧ byteLength before = t.span.offset ∧
      Spells t.text.toList t.kind ∧
      ∃ w, Longest (t.text.toList ++ after) t.kind.tokenClass w ∧
        (t.kind ≠ .blockComment → t.text.toList = w) ∧
        (t.kind = .blockComment → ∃ rest, CommentRest rest ∧ t.text.toList = w ++ rest ∧
          ∀ rest', CommentRest rest' → rest' <+: rest ++ after → rest' = rest)) ∧
    ∀ e ∈ (lex src).errors, e.kind = .invalidToken → ∃ before rest,
      src.toList = before ++ rest ∧ byteLength before = e.span.offset ∧ rest ≠ [] ∧
      ((∀ k w, w <+: rest → w ∉ TokenClass.pattern k) ∨
        ∃ k w, Longest rest k w ∧ Undecodable k w) := by
  refine ⟨?_, ?_⟩
  · intro t ht
    obtain ⟨x, hx, hverdict, hspan, htext⟩ := mem_tokens ht
    obtain ⟨-, hjudged, before, hbefore, hoffset⟩ := mem_cuts hx
    rw [hverdict, htext] at hjudged
    refine ⟨before, x.after, htext ▸ hbefore, ?_, ?_⟩
    · rw [← hspan, Cut.span, hoffset, Nat.zero_add]
    generalize t.kind = kind, t.text.toList = w at hjudged ⊢
    cases hjudged with
    | token hblock hlongest hvalue =>
      exact ⟨hvalue, w, hlongest, fun _ => rfl, fun h => absurd h hblock⟩
    | comment hlongest hrest =>
      refine ⟨.valueless (by simp) (by simp) (by simp), _, hlongest, fun h => absurd rfl h,
        fun _ => ⟨_, hrest, rfl, ?_⟩⟩
      rintro rest' hrest' ⟨s, hs⟩
      exact hrest'.unique hrest hs
  · intro e he hkind
    obtain ⟨x, hx, hverdict, hspan⟩ := mem_errors he hkind
    obtain ⟨hpos, hjudged, before, hbefore, hoffset⟩ := mem_cuts hx
    rw [hverdict] at hjudged
    refine ⟨before, x.text ++ x.after, hbefore, ?_, ?_, ?_⟩
    · rw [← hspan, Cut.span, hoffset, Nat.zero_add]
    · intro hnil
      rw [Cut.span, (List.append_eq_nil_iff.mp hnil).1] at hpos
      exact absurd hpos (Nat.lt_irrefl 0)
    · cases hjudged with
      | nothing hunmatched => exact .inl hunmatched
      | literal hlongest hcontent => exact .inr ⟨_, _, hlongest, hcontent⟩

/-! ## Spans of a source -/

/-- Only blanks stand from one offset of a source to another. -/
def OnlyBlanks (src : String) (start stop : Nat) : Prop :=
  start ≤ stop ∧ ∀ c ∈ (String.Pos.Raw.extract src ⟨start⟩ ⟨stop⟩).toList, isBlank c = true

/-- The spans follow one another from an offset on, with only blanks before each of them and after
    the last one up to the cut. -/
def Spaced (src : String) (cut : Nat) : Nat → List Span → Prop
  | start, [] => OnlyBlanks src start cut
  | start, s :: ss => OnlyBlanks src start s.offset ∧ Spaced src cut s.stop ss

/-- How a source of the given errors ends: it is read to its end, or to the opening of a block
    comment that is never closed, which is the last error. -/
def Ends (src : String) (errors : List LexError) (cut : Nat) : Prop :=
  (cut = src.utf8ByteSize ∧ ∀ e ∈ errors, e.kind = .invalidToken) ∨
    ∃ es, errors = es ++ [⟨.unterminatedComment, ⟨src.utf8ByteSize, 0⟩⟩] ∧
      (∀ e ∈ es, e.kind = .invalidToken) ∧ cut + 2 ≤ src.utf8ByteSize ∧
      String.Pos.Raw.IsValid src ⟨cut⟩ ∧
      String.Pos.Raw.extract src ⟨cut⟩ ⟨cut + 2⟩ = String.ofList ['{', '-']

theorem OnlyBlanks.of_gap {src : String} {before gap after : List Char}
    (hsrc : src.toList = before ++ gap ++ after) (hgap : ∀ c ∈ gap, isBlank c = true) :
    OnlyBlanks src (byteLength before) (byteLength (before ++ gap)) := by
  have hat : At src ⟨byteLength before, byteLength gap⟩ gap := ⟨before, after, hsrc, rfl, rfl⟩
  have hextract := hat.extract_eq
  rw [Span.stop, ← byteLength_append] at hextract
  refine ⟨?_, ?_⟩
  · rw [byteLength_append]
    exact Nat.le_add_right _ _
  · rw [hextract, String.toList_ofList]
    exact hgap

theorem Ends.cons {src : String} {errors : List LexError} {cut : Nat} {span : Span}
    (h : Ends src errors cut) : Ends src (⟨.invalidToken, span⟩ :: errors) cut := by
  rcases h with ⟨hcut, hall⟩ | ⟨es, rfl, hall, hopen⟩
  · exact .inl ⟨hcut, List.forall_mem_cons.mpr ⟨rfl, hall⟩⟩
  · exact .inr ⟨⟨.invalidToken, span⟩ :: es, rfl, List.forall_mem_cons.mpr ⟨rfl, hall⟩, hopen⟩

theorem Ends.cut_le {src : String} {errors : List LexError} {cut : Nat} (h : Ends src errors cut) :
    cut ≤ src.utf8ByteSize := by
  rcases h with ⟨hcut, -⟩ | ⟨-, -, -, hcut, -⟩
  · exact Nat.le_of_eq hcut
  · omega

theorem blank_of_judged {source w : List Char} (h : Judged source .blank w) :
    ∀ c ∈ w, isBlank c = true := by
  cases h with
  | blank hlongest => exact (mem_oneOrMore.mp hlongest.mem).2

theorem opening_of_judged {source w : List Char} (h : Judged source .unterminated w) :
    w = source ∧ ['{', '-'] <+: source := by
  cases h with
  | unterminated hlongest => exact ⟨rfl, hlongest.starts⟩

/-- What was read ends in a gap of blanks after the last span. From there on the pieces are spaced,
    through to the end. -/
theorem cuts_spaced (src : String) (offset : Nat) (cs : List Char) : ∀ before gap : List Char,
    src.toList = before ++ gap ++ cs → (∀ c ∈ gap, isBlank c = true) →
    offset = byteLength (before ++ gap) →
    ∃ cut, Spaced src cut (byteLength before) ((cuts offset cs).filterMap Cut.reported?) ∧
      Ends src ((cuts offset cs).filterMap (Cut.error? src.utf8ByteSize)) cut := by
  fun_induction cuts offset cs with
  | case1 offset =>
    intro before gap hsrc hgap hoffset
    refine ⟨byteLength (before ++ gap), OnlyBlanks.of_gap hsrc hgap, .inl ⟨?_, by simp⟩⟩
    rw [← byteLength_toList, hsrc, List.append_nil]
  | case2 offset c cs p text ih =>
    intro before gap hsrc hgap hoffset
    have hwhole : text ++ cs.drop p.more = c :: cs := by
      rw [List.cons_append, List.take_append_drop]
    have hjudged : Judged (c :: cs) p.verdict text := piece_right c cs
    have hsrc' : src.toList = before ++ gap ++ text ++ cs.drop p.more := by
      rw [List.append_assoc, hwhole, hsrc]
    have hoffset' : offset + byteLength text = byteLength (before ++ gap ++ text) := by
      rw [hoffset, ← byteLength_append]
    have hblanks : OnlyBlanks src (byteLength before) offset := by
      rw [hoffset]
      exact OnlyBlanks.of_gap hsrc hgap
    -- After a token or an invalid stretch the next gap is empty.
    have hnext := ih (before ++ gap ++ text) [] (by rw [List.append_nil, hsrc'])
      (by simp) (by rw [List.append_nil, hoffset'])
    rw [← hoffset'] at hnext
    cases hverdict : p.verdict with
    | blank =>
      rw [hverdict] at hjudged
      have hgap' : ∀ c ∈ gap ++ text, isBlank c = true := by
        intro d hd
        rcases List.mem_append.mp hd with hd | hd
        · exact hgap d hd
        · exact blank_of_judged hjudged d hd
      obtain ⟨cut, hspaced, hends⟩ := ih before (gap ++ text)
        (by rw [hsrc', List.append_assoc before]) hgap' (by rw [hoffset', List.append_assoc])
      exact ⟨cut, hspaced, hends⟩
    | token kind =>
      obtain ⟨cut, hspaced, hends⟩ := hnext
      exact ⟨cut, ⟨hblanks, hspaced⟩, hends⟩
    | invalid =>
      obtain ⟨cut, hspaced, hends⟩ := hnext
      exact ⟨cut, ⟨hblanks, hspaced⟩, hends.cons⟩
    | unterminated =>
      rw [hverdict] at hjudged
      obtain ⟨htext, rest, hopen⟩ := opening_of_judged hjudged
      have hrest : cs.drop p.more = [] := List.append_right_eq_self.mp (hwhole.trans htext.symm)
      have hat : At src ⟨offset, 2⟩ ['{', '-'] :=
        ⟨before ++ gap, rest, by rw [hsrc, ← hopen, ← List.append_assoc], hoffset.symm, rfl⟩
      refine ⟨offset, ?_, .inr ⟨[], ?_, by simp, hat.stop_le, hat.isValid_offset,
        hat.extract_eq⟩⟩
      · rw [hrest, cuts]
        exact hblanks
      · rw [hrest, cuts]
        rfl

/-- Spaced spans are disjoint and stand before the cut. -/
theorem Spaced.disjoint {src : String} {cut start : Nat} {ss : List Span}
    (h : Spaced src cut start ss) :
    start ≤ cut ∧ (∀ s ∈ ss, start ≤ s.offset ∧ s.stop ≤ cut) ∧
      ss.Pairwise fun a b => a.stop ≤ b.offset := by
  induction ss generalizing start with
  | nil => exact ⟨h.1, by simp, List.Pairwise.nil⟩
  | cons s ss ih =>
    obtain ⟨hblanks, hrest⟩ := h
    obtain ⟨hcut, hbounds, hpairs⟩ := ih hrest
    have hstart : start ≤ s.offset := hblanks.1
    have hstop : s.offset ≤ s.stop := Nat.le_add_right _ _
    refine ⟨by omega, ?_, List.pairwise_cons.mpr ⟨fun b hb => (hbounds b hb).1, hpairs⟩⟩
    intro b hb
    rcases List.mem_cons.mp hb with rfl | hb
    · exact ⟨hstart, hcut⟩
    · have hbound := hbounds b hb
      omega

/-- The spans that a source reports: those of its tokens and of its invalid stretches. -/
def Lexed.reported (l : Lexed) : List Span :=
  l.tokens.map Token.span ++ (l.errors.filter fun e => e.kind = .invalidToken).map LexError.span

/-- The pieces give the reported spans in the order of the source. -/
theorem reported_perm (total : Nat) (xs : List Cut) :
    (xs.filterMap Cut.reported?).Perm
      (Lexed.reported ⟨xs.filterMap Cut.token?, xs.filterMap (Cut.error? total)⟩) := by
  induction xs with
  | nil => exact List.Perm.nil
  | cons x xs ih =>
    obtain ⟨offset, verdict, text, after⟩ := x
    cases verdict with
    | blank => exact ih
    | unterminated => exact ih
    | token kind => exact ih.cons _
    | invalid => exact (ih.cons _).trans List.perm_middle.symm

/-- The lexer loses nothing of a source. Its tokens and invalid stretches, in the order of the
    source, are disjoint and not empty, start and end between characters, and have only blanks
    between them and around them, up to a cut. Each token has the text at its span. The cut is the
    end of the source, or the opening of a block comment that is never closed: that is the last
    error then, and the only one of its kind. -/
theorem lex_covers_source (src : String) : ∃ spans cut,
    spans.Perm (lex src).reported ∧ Spaced src cut 0 spans ∧ Ends src (lex src).errors cut ∧
    cut ≤ src.utf8ByteSize ∧ spans.Pairwise (fun a b => a.stop ≤ b.offset) ∧
    (∀ s ∈ spans, 0 < s.len ∧ s.stop ≤ cut ∧
      String.Pos.Raw.IsValid src ⟨s.offset⟩ ∧ String.Pos.Raw.IsValid src ⟨s.stop⟩) ∧
    ∀ t ∈ (lex src).tokens,
      t.text = String.Pos.Raw.extract src ⟨t.span.offset⟩ ⟨t.span.stop⟩ := by
  obtain ⟨cut, hspaced, hends⟩ := cuts_spaced src 0 src.toList [] [] rfl (by simp) rfl
  obtain ⟨-, hbounds, hpairs⟩ := hspaced.disjoint
  refine ⟨(cuts 0 src.toList).filterMap Cut.reported?, cut, ?_, hspaced, ?_, hends.cut_le, hpairs,
    ?_, ?_⟩
  · rw [lex, lexFrom_eq_cuts]
    exact reported_perm _ _
  · rw [lex, lexFrom_eq_cuts, byteLength_toList]
    exact hends
  · intro s hs
    have hcut := (hbounds s hs).2
    obtain ⟨x, hx, hxs⟩ := List.mem_filterMap.mp hs
    obtain rfl := Cut.span_of_reported? hxs
    have hat := at_of_mem_cuts hx
    exact ⟨(mem_cuts hx).1, hcut, hat.isValid_offset, hat.isValid_stop⟩
  · intro t ht
    obtain ⟨x, hx, -, hspan, htext⟩ := mem_tokens ht
    have hextract := (at_of_mem_cuts hx).extract_eq
    rw [hspan, htext, String.ofList_toList] at hextract
    exact hextract.symm

end FOmega
