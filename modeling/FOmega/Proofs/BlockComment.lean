import FOmega.Proofs.Excerpt
import Mathlib.Order.Bounds.Basic
import Mathlib.Order.CompletePartialOrder

/-!
# Block comments are the well-nested ones

A block comment is an opening, items and an end, where an item is a block comment or a character
that starts neither an opening nor an end. The least language of this form is that of the comments
which the lexer takes: it keeps the number of comments that are open, and what it reads from some
place on are the ends of all of them, the innermost first. So where the lexer comes to an opening,
the scan of the bytes after it finds the end of a well-nested comment at that place, between two
characters, and the lexer goes on from there; if there is no such comment, the scan finds no end and
the source ends in an error.
-/

namespace FOmega

namespace Lexer

variable {v w cs rest : List Char} {c : Char} {n : Nat}

/-! ## The language of block comments -/

/-- What follows the opening of a comment where the given texts are the comments inside it: items
    and the end. An item is a comment, or a character that starts neither an opening nor an end
    together with the character after it. -/
inductive Body (inner : Language Char) : List Char → Prop where
  | close : Body inner ['-', '}']
  | nest {u w : List Char} (comment : u ∈ inner) (rest : Body inner w) : Body inner (u ++ w)
  | other {c d : Char} {w : List Char} (opens : ¬ (c = '{' ∧ d = '-'))
    (closes : ¬ (c = '-' ∧ d = '}')) (rest : Body inner (d :: w)) : Body inner (c :: d :: w)

/-- What can follow the opening of a comment where the given texts are the comments inside it. -/
def bodies (inner : Language Char) : Language Char :=
  {w | Body inner w}

/-- The comments in which the given texts are the comments inside. -/
def commentsAround (inner : Language Char) : Language Char :=
  exactly ['{', '-'] * bodies inner

/-- The well-nested block comments. -/
def blockComments : Language Char :=
  exactly ['{', '-'] * commentRests

theorem mem_commentsAround {inner : Language Char} :
    w ∈ commentsAround inner ↔ ∃ v, Body inner v ∧ w = '{' :: '-' :: v :=
  mem_exactly_mul

theorem mem_blockComments : w ∈ blockComments ↔ ∃ v, CommentRest v ∧ w = '{' :: '-' :: v :=
  mem_exactly_mul

/-- If the comments around some texts are among these, so are the well-nested comments. -/
theorem CommentRest.body {inner : Language Char} (hinner : commentsAround inner ≤ inner)
    (h : CommentRest v) : Body inner v := by
  induction h with
  | close => exact .close
  | nest _ _ ihu ihw =>
    rw [← List.cons_append, ← List.cons_append]
    exact .nest (hinner (mem_commentsAround.mpr ⟨_, ihu, rfl⟩)) ihw
  | other hopens hcloses _ ih => exact .other hopens hcloses ih

theorem Body.commentRest (h : Body blockComments v) : CommentRest v := by
  induction h with
  | close => exact .close
  | nest hu _ ih =>
    obtain ⟨u, hrest, rfl⟩ := mem_blockComments.mp hu
    exact .nest hrest ih
  | other hopens hcloses _ ih => exact .other hopens hcloses ih

theorem blockComments_least : IsLeast {C | C = commentsAround C} blockComments := by
  have hle : commentsAround blockComments ≤ blockComments := by
    intro w hw
    obtain ⟨v, hv, rfl⟩ := mem_commentsAround.mp hw
    exact mem_blockComments.mpr ⟨v, hv.commentRest, rfl⟩
  have hge : ∀ C, commentsAround C ≤ C → blockComments ≤ commentsAround C := by
    intro C hC w hw
    obtain ⟨v, hv, rfl⟩ := mem_blockComments.mp hw
    exact mem_commentsAround.mpr ⟨v, hv.body hC, rfl⟩
  refine ⟨le_antisymm (hge _ hle) hle, ?_⟩
  intro C hC
  have hC : C = commentsAround C := hC
  exact (hge C hC.ge).trans hC.ge

/-- A source starts with one block comment at most. -/
theorem blockComments_unique (hv : v ∈ blockComments) (hw : w ∈ blockComments)
    (hvs : v <+: rest) (hws : w <+: rest) : v = w := by
  obtain ⟨v, hvrest, rfl⟩ := mem_blockComments.mp hv
  obtain ⟨w, hwrest, rfl⟩ := mem_blockComments.mp hw
  obtain ⟨r, hr⟩ := hvs
  obtain ⟨s, hs⟩ := hws
  have heq := hr.trans hs.symm
  simp only [List.cons_append, List.cons.injEq, true_and] at heq
  rw [hvrest.unique hwrest heq]

/-! ## What the lexer finds at an opening -/

/-- A comment is the first piece, with what stands after it left. -/
theorem firstCut_of_comment (hw : '{' :: '-' :: w ∈ blockComments) (offset : Nat)
    (after : List Char) : firstCut offset '{' ('-' :: (w ++ after)) =
      ⟨offset, .token .blockComment, '{' :: '-' :: w, after⟩ := by
  obtain ⟨v, hv, heq⟩ := mem_blockComments.mp hw
  simp only [List.cons.injEq, true_and] at heq
  subst heq
  simp [firstCut, piece, bracePiece_of_end (blockEnd?_of_commentRest hv after).1]

theorem mem_blockComments_of_blockEnd? (h : blockEnd? 0 cs = some n) :
    '{' :: '-' :: cs.take n ∈ blockComments :=
  mem_blockComments.mpr ⟨_, commentRest_of_blockEnd? h, rfl⟩

/-- The lexer finds no end of a comment exactly where there is no comment. -/
theorem blockEnd?_eq_none_iff :
    blockEnd? 0 cs = none ↔ ∀ w ∈ blockComments, ¬ w <+: '{' :: '-' :: cs := by
  constructor
  · intro hnone w hw hstart
    obtain ⟨v, hv, rfl⟩ := mem_blockComments.mp hw
    obtain ⟨after, hafter⟩ := hstart
    obtain rfl : cs = v ++ after := by simpa using hafter.symm
    simp [(blockEnd?_of_commentRest hv after).1] at hnone
  · intro h
    by_contra hsome
    obtain ⟨n, hend⟩ := Option.ne_none_iff_exists'.mp hsome
    refine h _ (mem_blockComments_of_blockEnd? hend) ?_
    simp [List.cons_prefix_cons, List.take_prefix]

/-- Where there is no comment, the whole source is one piece. -/
theorem firstCut_of_unclosed (h : ∀ w ∈ blockComments, ¬ w <+: '{' :: '-' :: cs) (offset : Nat) :
    firstCut offset '{' ('-' :: cs) = ⟨offset, .unterminated, '{' :: '-' :: cs, []⟩ := by
  simp [firstCut, piece, bracePiece_of_no_end (blockEnd?_eq_none_iff.mpr h)]

theorem lexFrom_of_comment (hw : '{' :: '-' :: w ∈ blockComments) (total offset : Nat)
    (after : List Char) :
    let later := lexFrom total (offset + byteLength ('{' :: '-' :: w)) after
    lexFrom total offset ('{' :: '-' :: (w ++ after)) =
      ⟨⟨.blockComment, ⟨offset, byteLength ('{' :: '-' :: w)⟩, String.ofList ('{' :: '-' :: w)⟩ ::
        later.tokens, later.errors⟩ := by
  intro later
  rw [lexFrom_cons, firstCut_of_comment hw]
  rfl

theorem lexFrom_of_unclosed (h : ∀ w ∈ blockComments, ¬ w <+: '{' :: '-' :: cs)
    (total offset : Nat) :
    lexFrom total offset ('{' :: '-' :: cs) = ⟨[], [⟨.unterminatedComment, ⟨total, 0⟩⟩]⟩ := by
  rw [lexFrom_cons, firstCut_of_unclosed h]
  simp [lexFrom, Cut.token?, Cut.error?]

/-- A block comment that is never closed is the last piece. -/
theorem after_unterminated (h : (piece c cs).verdict = .unterminated) (offset : Nat) :
    (firstCut offset c cs).after = [] := by
  have hjudged := piece_right c cs
  rw [Right, h] at hjudged
  have hwhole := (List.cons.inj (opening_of_judged hjudged).1).2
  exact List.drop_eq_nil_iff.mpr (List.take_eq_self_iff cs |>.mp hwhole)

/-! ## The places of a source to which the lexer comes -/

/-- The places to which the lexer comes, piece by piece: how many bytes it has read, and what is
    left. -/
inductive Reaches (src : String) : Nat → List Char → Prop where
  | start : Reaches src 0 src.toList
  | next {offset : Nat} {c : Char} {cs : List Char} (before : Reaches src offset (c :: cs)) :
    Reaches src (firstCut offset c cs).span.stop (firstCut offset c cs).after

namespace Reaches

variable {src : String} {offset : Nat}

/-- What is left is the end of the source from the offset on. -/
theorem source_eq (h : Reaches src offset rest) :
    ∃ before, src.toList = before ++ rest ∧ byteLength before = offset := by
  induction h with
  | start => exact ⟨[], rfl, rfl⟩
  | @next offset c cs _ ih =>
    obtain ⟨before, hsrc, hoffset⟩ := ih
    refine ⟨before ++ (firstCut offset c cs).text, ?_, ?_⟩
    · simp [hsrc, firstCut]
    · simp [byteLength_append, hoffset, Cut.span, Span.stop, firstCut]

/-- The bytes of the source after the first two of what is left are those of its other characters. -/
theorem drop_utf8 (h : Reaches src offset ('{' :: '-' :: cs)) :
    (utf8 src.toList).drop (offset + 2) = utf8 cs := by
  obtain ⟨before, hsrc, rfl⟩ := h.source_eq
  rw [hsrc]
  exact drop_utf8_opening before cs

/-- What the lexer finds are the tokens and invalid stretches before a place to which it comes, and
    then what it finds from there on. -/
theorem lex_eq (h : Reaches src offset rest) : ∃ tokens errors,
    (∀ t ∈ tokens, t.span.stop ≤ offset) ∧
    (rest ≠ [] → ∀ e ∈ errors, e.kind = .invalidToken ∧ e.span.stop ≤ offset) ∧
    let later := lexFrom src.utf8ByteSize offset rest
    lex src = ⟨tokens ++ later.tokens, errors ++ later.errors⟩ := by
  induction h with
  | start =>
    refine ⟨[], [], by simp, by simp, ?_⟩
    rw [lex, byteLength_toList]
    rfl
  | @next offset c cs _ ih =>
    obtain ⟨tokens, errors, htokens, herrors, hlex⟩ := ih
    have herrors := herrors (List.cons_ne_nil c cs)
    have hstop : offset ≤ (firstCut offset c cs).span.stop := Nat.le_add_right _ _
    refine ⟨tokens ++ (firstCut offset c cs).token?.toList,
      errors ++ ((firstCut offset c cs).error? src.utf8ByteSize).toList, ?_, ?_, ?_⟩
    · intro t ht
      simp only [List.mem_append, Option.mem_toList] at ht
      rcases ht with ht | ht
      · exact (htokens t ht).trans hstop
      · rw [Cut.span_of_token? ht]
    · intro hafter e he
      simp only [List.mem_append, Option.mem_toList] at he
      rcases he with he | he
      · exact ⟨(herrors e he).1, (herrors e he).2.trans hstop⟩
      · cases hverdict : (piece c cs).verdict with
        | unterminated => exact absurd (after_unterminated hverdict offset) hafter
        | invalid =>
          simp only [Cut.error?, firstCut, hverdict, Option.some.injEq] at he
          subst he
          exact ⟨rfl, Nat.le_refl _⟩
        | blank | token kind => simp [Cut.error?, firstCut, hverdict] at he
    · rw [hlex, lexFrom_cons]
      simp only [List.append_assoc]

end Reaches

end Lexer

open Lexer

/-- The lexer takes exactly the well-nested block comments, which are the least language of comments
    that are an opening, items and an end. Wherever it comes to an opening, there is at most one
    such comment. If there is one, the scan of the bytes after the opening ends with it, which is
    between characters; it becomes one token after what was found before, and the lexer goes on right
    after it. If there is none, the scan finds no end, and the lexer reports the comment at the end
    of the source, after what was found before, and nothing else. -/
theorem lex_takes_nested_comments :
    IsLeast {C | C = commentsAround C} blockComments ∧
    ∀ (src : String) (offset : Nat) (rest : List Char), Reaches src offset rest →
      ['{', '-'] <+: rest →
      let scanned := commentEnd? 1 0 ((utf8 src.toList).drop (offset + 2))
      ∃ tokens errors,
      (∀ t ∈ tokens, t.span.stop ≤ offset) ∧
      (∀ e ∈ errors, e.kind = .invalidToken ∧ e.span.stop ≤ offset) ∧
      (∀ w ∈ blockComments, w <+: rest →
        (∀ v ∈ blockComments, v <+: rest → v = w) ∧
        ∃ n, scanned = some n ∧ byteLength w = 2 + n ∧
          String.Pos.Raw.IsValid src ⟨offset + (2 + n)⟩ ∧
          Reaches src (offset + (2 + n)) (rest.drop w.length) ∧
          let comment : Token := ⟨.blockComment, ⟨offset, 2 + n⟩, String.ofList w⟩
          let later := lexFrom src.utf8ByteSize (offset + (2 + n)) (rest.drop w.length)
          lex src = ⟨tokens ++ comment :: later.tokens, errors ++ later.errors⟩) ∧
      ((∀ w ∈ blockComments, ¬ w <+: rest) → scanned = none ∧
        lex src = ⟨tokens, errors ++ [⟨.unterminatedComment, ⟨src.utf8ByteSize, 0⟩⟩]⟩) := by
  refine ⟨blockComments_least, ?_⟩
  intro src offset rest h hopen scanned
  obtain ⟨cs, hrest⟩ := hopen
  obtain rfl : rest = '{' :: '-' :: cs := hrest.symm
  have hscanned : scanned = commentEnd? 1 0 (utf8 cs) := by
    simp only [scanned, h.drop_utf8]
  obtain ⟨tokens, errors, htokens, herrors, hlex⟩ := h.lex_eq
  refine ⟨tokens, errors, htokens, herrors (by simp), ?_, ?_⟩
  · intro w hw hstart
    obtain ⟨before, hsrc, hoffset⟩ := h.source_eq
    obtain ⟨v, hv, rfl⟩ := mem_blockComments.mp hw
    obtain ⟨after, hafter⟩ := hstart
    obtain rfl : cs = v ++ after := by simpa using hafter.symm
    have hat : At src ⟨offset, byteLength ('{' :: '-' :: v)⟩ ('{' :: '-' :: v) :=
      ⟨before, after, by simp [hsrc], hoffset, rfl⟩
    have hnext : Reaches src (offset + byteLength ('{' :: '-' :: v)) after := by
      have hstep := h.next
      rwa [firstCut_of_comment hw] at hstep
    have hdrop : ('{' :: '-' :: (v ++ after)).drop ('{' :: '-' :: v).length = after := by simp
    have hbytes : byteLength ('{' :: '-' :: v) = 2 + byteLength v := by
      rw [byteLength, byteLength, ← Nat.add_assoc]
      rfl
    rw [hdrop]
    refine ⟨?_, byteLength v, hscanned.trans (commentEnd?_of_commentRest hv after), hbytes, ?_, ?_,
      ?_⟩
    · intro u hu hustart
      exact blockComments_unique hu hw hustart ⟨after, by simp⟩
    · rw [← hbytes]
      exact hat.isValid_stop
    · rwa [← hbytes]
    · rw [hlex, lexFrom_of_comment hw, ← hbytes]
  · intro hnone
    refine ⟨?_, ?_⟩
    · rw [hscanned, commentEnd?_utf8, blockEnd?_eq_none_iff.mpr hnone]
      rfl
    · rw [hlex, lexFrom_of_unclosed hnone, List.append_nil]

/-- After an opening parenthesis, `{- {-é-} --}` is one comment of thirteen bytes, while in
    `{- {-} -}` the end belongs to the inner comment and the outer one is never closed. -/
theorem lex_takes_nested_comments_overlapping :
    let nested := "\x7b- \x7b-é-\x7d --\x7d"
    let unclosed := "\x7b- \x7b-\x7d -\x7d"
    (Reaches ("(" ++ nested) 1 nested.toList ∧ nested.toList ∈ blockComments ∧
      commentEnd? 1 0 ((utf8 ("(" ++ nested).toList).drop (1 + 2)) = some 11 ∧
      ∃ tokens errors, lex ("(" ++ nested) =
        ⟨tokens ++ [⟨.blockComment, ⟨1, 13⟩, nested⟩], errors⟩) ∧
    Reaches ("(" ++ unclosed) 1 unclosed.toList ∧
      (∀ w ∈ blockComments, ¬ w <+: unclosed.toList) ∧
      ∃ tokens errors, lex ("(" ++ unclosed) =
        ⟨tokens, errors ++ [⟨.unterminatedComment, ⟨10, 0⟩⟩]⟩ := by
  intro nested unclosed
  have hreach : ∀ text : String, Reaches ("(" ++ text) 1 text.toList := by
    intro text
    have hstart : Reaches ("(" ++ text) 0 ("(" ++ text).toList := .start
    have hsrc : ("(" ++ text).toList = '(' :: text.toList := by simp
    rw [hsrc] at hstart
    exact hstart.next
  have hnested : nested.toList ∈ blockComments := by
    have hopening : nested.toList = '{' :: '-' :: (nested.toList.drop 2).take 10 := by decide
    rw [hopening]
    exact mem_blockComments_of_blockEnd? (by decide)
  have hunclosed : ∀ w ∈ blockComments, ¬ w <+: unclosed.toList := by
    have hopening : unclosed.toList = '{' :: '-' :: unclosed.toList.drop 2 := by decide
    rw [hopening]
    exact blockEnd?_eq_none_iff.mp (by decide)
  obtain ⟨tokens, errors, -, -, hcomment, -⟩ :=
    lex_takes_nested_comments.2 _ 1 _ (hreach nested) (by decide)
  obtain ⟨-, n, hscanned, hlen, -, -, hlex⟩ := hcomment _ hnested (List.prefix_refl _)
  obtain rfl : n = 11 := by
    have hbytes : byteLength nested.toList = 13 := by decide
    omega
  obtain ⟨tokens', errors', -, -, -, hlex'⟩ :=
    lex_takes_nested_comments.2 _ 1 _ (hreach unclosed) (by decide)
  refine ⟨⟨hreach nested, hnested, hscanned, tokens, errors, ?_⟩, hreach unclosed, hunclosed,
    tokens', errors', (hlex' hunclosed).2⟩
  rw [List.drop_length, lexFrom] at hlex
  simpa only [String.ofList_toList, List.append_nil] using hlex

end FOmega
