import FOmega.Proofs.Excerpt

/-!
# Sources joined by a line feed

No token goes over the end of a line once it is complete: a line feed ends numbers, identifiers and
line comments, and a literal or block comment that is closed stays as it is. Only a run of blanks is
prolonged, and blanks are no tokens. So where a source without lexical errors is followed by a line
feed and another source, the lexer finds the tokens of the first and then, further on, what it finds
in the second alone.
-/

namespace FOmega

open Text.Decimal (isDigit)

/-! ## Results further on -/

/-- The error so many bytes further on. -/
def LexError.shift (n : Nat) (e : LexError) : LexError :=
  { e with span := e.span.shift n }

/-- What is found so many bytes further on. -/
def Lexed.shift (n : Nat) (l : Lexed) : Lexed :=
  ⟨l.tokens.map (Token.shift n), l.errors.map (LexError.shift n)⟩

theorem Lexed.withoutComments_shift (n : Nat) (l : Lexed) :
    (l.shift n).withoutComments = l.withoutComments.shift n := by
  simp only [Lexed.withoutComments, Lexed.shift, List.filter_map]
  rfl

namespace Lexer

variable {p : Char → Bool} {cs blanks : List Char} {c : Char} {n : Nat}

section

variable (n total offset : Nat) (c : Char) (cs : List Char)

theorem token?_firstCut_shift : (firstCut (offset + n) c cs).token? =
    (firstCut offset c cs).token?.map (Token.shift n) := by
  unfold Cut.token? firstCut
  cases (piece c cs).verdict <;> rfl

theorem error?_firstCut_shift : (firstCut (offset + n) c cs).error? (total + n) =
    ((firstCut offset c cs).error? total).map (LexError.shift n) := by
  unfold Cut.error? firstCut
  cases (piece c cs).verdict <;> rfl

theorem stop_firstCut_shift :
    (firstCut (offset + n) c cs).span.stop = (firstCut offset c cs).span.stop + n := by
  simp only [Cut.span, Span.stop, firstCut]
  omega

end

/-- A source that starts further on, and is longer by as much, gives the same further on. -/
theorem lexFrom_shift (n total offset : Nat) (cs : List Char) :
    lexFrom (total + n) (offset + n) cs = (lexFrom total offset cs).shift n := by
  fun_induction cuts offset cs with
  | case1 offset => simp [lexFrom, Lexed.shift]
  | case2 offset c cs p text ih =>
    have hlater : lexFrom (total + n) ((firstCut offset c cs).span.stop + n)
          (firstCut offset c cs).after =
        (lexFrom total (firstCut offset c cs).span.stop (firstCut offset c cs).after).shift n :=
      ih
    have hafter : (firstCut (offset + n) c cs).after = (firstCut offset c cs).after := rfl
    rw [lexFrom_cons, lexFrom_cons, token?_firstCut_shift, error?_firstCut_shift,
      stop_firstCut_shift, hafter, hlater]
    simp only [Lexed.shift, List.map_append, Option.toList_map]

/-! ## Blanks in front of a source -/

theorem piece_of_isBlank (h : isBlank c = true) (cs : List Char) :
    piece c cs = ⟨.blank, count isBlank cs⟩ := by
  simp only [isBlank, Bool.or_eq_true, beq_iff_eq, or_assoc] at h
  rcases h with rfl | rfl | rfl | rfl | rfl <;> rfl

/-- The blanks with which a source starts change nothing but the offset. -/
theorem lexFrom_drop_blanks (total offset : Nat) (cs : List Char) :
    lexFrom total (offset + byteLength (cs.take (count isBlank cs))) (cs.drop (count isBlank cs)) =
      lexFrom total offset cs := by
  cases cs with
  | nil => rfl
  | cons c cs =>
    by_cases hc : isBlank c = true
    · have hcount : count isBlank (c :: cs) = count isBlank cs + 1 := by simp [count, hc]
      rw [hcount, lexFrom_cons]
      simp [firstCut, piece_of_isBlank hc, Cut.token?, Cut.error?, Cut.span, Span.stop]
    · have hcount : count isBlank (c :: cs) = 0 := by simp [count, hc]
      rw [hcount]
      rfl

theorem lexFrom_blanks (h : ∀ c ∈ blanks, isBlank c = true) (total offset : Nat)
    (cs : List Char) :
    lexFrom total offset (blanks ++ cs) = lexFrom total (offset + byteLength blanks) cs := by
  have hcount : count isBlank (blanks ++ cs) = blanks.length + count isBlank cs := by
    simp [count, List.takeWhile_append_of_pos h]
  rw [← lexFrom_drop_blanks total offset, hcount, List.take_length_add_append,
    List.drop_length_add_append, byteLength_append, ← Nat.add_assoc, lexFrom_drop_blanks]

/-! ## Pieces before a line feed -/

/-- The piece that a function finds at the start of a source lies within the source, and stays the
    same when a line feed and more characters follow. -/
structure Complete (find : List Char → Piece) (cs : List Char) : Prop where
  within : (find cs).more ≤ cs.length
  stays : ∀ rest, find (cs ++ '\n' :: rest) = find cs

theorem count_le_length (p : Char → Bool) (cs : List Char) : count p cs ≤ cs.length :=
  (List.takeWhile_prefix p).length_le

theorem count_append_newline (hp : p '\n' = false) (cs rest : List Char) :
    count p (cs ++ '\n' :: rest) = count p cs := by
  unfold count
  rw [List.takeWhile_append]
  split
  next hall => simp [hp, hall]
  next => rfl

theorem complete_int (c : Char) (cs : List Char) : Complete (intPiece c) cs where
  within := count_le_length isDigit cs
  stays rest := by
    have hdigit : isDigit '\n' = false := by decide
    simp only [intPiece, count_append_newline hdigit,
      List.take_append_of_le_length (count_le_length isDigit cs)]

theorem complete_minus (hv : (minusPiece cs).verdict.Clean) : Complete minusPiece cs := by
  cases cs with
  | nil => exact hv.elim
  | cons c cs =>
    by_cases hminus : c = '-'
    · subst hminus
      refine ⟨?_, ?_⟩
      · simp [minusPiece, count_le_length]
      · simp [minusPiece, count_append_newline]
    · by_cases hdigit : isDigit c = true
      · have hint := complete_int '-' (c :: cs)
        have hpiece : ∀ ds, minusPiece (c :: ds) = intPiece '-' (c :: ds) := by
          simp [minusPiece, hdigit]
        refine ⟨?_, ?_⟩
        · rw [hpiece]
          exact hint.within
        · intro rest
          rw [List.cons_append, hpiece, hpiece]
          exact hint.stays rest
      · simp [minusPiece, hdigit, Verdict.Clean] at hv

/-- A comment that is closed is closed at the same place whatever follows. -/
theorem blockEnd?_append (h : blockEnd? 0 cs = some n) (rest : List Char) :
    blockEnd? 0 (cs ++ rest) = some n := by
  have hend := (blockEnd?_of_commentRest (commentRest_of_blockEnd? h) (cs.drop n ++ rest)).1
  rw [← List.append_assoc, List.take_append_drop] at hend
  rw [hend, List.length_take_of_le (blockEnd?_le h)]

theorem complete_brace (hv : (bracePiece cs).verdict.Clean) : Complete bracePiece cs := by
  cases cs with
  | nil => exact ⟨by simp [bracePiece], by simp [bracePiece]⟩
  | cons c cs =>
    by_cases hminus : c = '-'
    · subst hminus
      cases hend : blockEnd? 0 cs with
      | none => simp [bracePiece_of_no_end hend, Verdict.Clean] at hv
      | some n =>
        refine ⟨?_, ?_⟩
        · simp [bracePiece_of_end hend, blockEnd?_le hend]
        · intro rest
          rw [List.cons_append, bracePiece_of_end hend, bracePiece_of_end (blockEnd?_append hend _)]
    · exact ⟨by simp [bracePiece, hminus], by simp [bracePiece, hminus]⟩

section Quoted

/- How far a quoted literal reaches is found by a function that knows the contents of a class. -/
variable {quote : Char} {contents : Language Char} {ending : List Char → Bool × Nat}
  (hending : ∀ {v}, v ∈ contents → ∀ rest, ending (v ++ quote :: rest) = (true, v.length + 1))
  (hcontents : ∀ {cs n}, ending cs = (true, n) →
    ∃ v ∈ contents, ∃ rest, cs = v ++ quote :: rest ∧ n = v.length + 1)

include hending hcontents

/-- A literal that is closed is closed at the same place, with the same content, whatever
    follows. -/
theorem ending_append (h : ending cs = (true, n)) :
    n ≤ cs.length ∧ ∀ rest, ending (cs ++ rest) = (true, n) ∧
      (cs ++ rest).take (n - 1) = cs.take (n - 1) := by
  obtain ⟨v, hv, after, rfl, rfl⟩ := hcontents h
  refine ⟨by simp, ?_⟩
  intro rest
  refine ⟨?_, by simp⟩
  rw [List.append_assoc, List.cons_append]
  exact hending hv (after ++ rest)

end Quoted

theorem complete_string (hv : (stringPiece cs).verdict.Clean) : Complete stringPiece cs := by
  cases hend : stringEnd cs with
  | mk closed n =>
    cases closed with
    | false => simp [stringPiece, hend, Verdict.Clean] at hv
    | true =>
      obtain ⟨hle, hlonger⟩ := ending_append stringEnd_of_items items_of_stringEnd hend
      refine ⟨?_, ?_⟩
      · simp only [stringPiece, hend]
        split <;> exact hle
      · intro rest
        simp only [stringPiece, hend, hlonger]

theorem complete_char (hv : (charPiece cs).verdict.Clean) : Complete charPiece cs := by
  cases hend : charEnd cs with
  | mk closed n =>
    cases closed with
    | false => simp [charPiece, hend, Verdict.Clean] at hv
    | true =>
      obtain ⟨hle, hlonger⟩ := ending_append charEnd_of_item item_of_charEnd hend
      refine ⟨?_, ?_⟩
      · simp only [charPiece, hend]
        split <;> exact hle
      · intro rest
        simp only [charPiece, hend, hlonger]

theorem complete_delimiter (kind : TokenKind) (cs : List Char) :
    Complete (fun _ => ⟨.token kind, 0⟩) cs :=
  ⟨Nat.zero_le _, fun _ => rfl⟩

theorem complete_ident (cs : List Char) :
    Complete (fun cs => ⟨.token .ident, count isIdentRest cs⟩) cs where
  within := count_le_length isIdentRest cs
  stays rest := by
    have hident : isIdentRest '\n' = false := by decide
    rw [count_append_newline hident]

/-- A token is complete before a line feed. -/
theorem complete_piece (hv : (piece c cs).verdict.Clean)
    (hblank : (piece c cs).verdict ≠ .blank) : Complete (piece c) cs := by
  unfold piece at hv hblank ⊢
  split
  case h_5 => exact complete_brace hv
  case h_8 => exact complete_minus hv
  case h_9 => exact complete_string hv
  case h_10 => exact complete_char hv
  case h_11 =>
    by_cases hblanks : isBlank c = true
    · simp_all
    · by_cases hdigit : isDigit c = true
      · simpa [hblanks, hdigit] using complete_int c cs
      · by_cases hletter : Text.isLetter c = true
        · simpa [hblanks, hdigit, hletter] using complete_ident cs
        · simp_all [Verdict.Clean]
  all_goals exact complete_delimiter _ cs

/-! ## The seam -/

/-- The first token of a source is found again where a line feed and more characters follow. -/
theorem lexFrom_token_append_newline (hv : (piece c cs).verdict.Clean)
    (hblank : (piece c cs).verdict ≠ .blank) (total offset : Nat) (rest : List Char) :
    let x := firstCut offset c cs
    let later := lexFrom total x.span.stop (x.after ++ '\n' :: rest)
    lexFrom total offset (c :: cs ++ '\n' :: rest) =
      ⟨x.token?.toList ++ later.tokens, later.errors⟩ := by
  intro x later
  obtain ⟨hwithin, hstays⟩ := complete_piece hv hblank
  have hcut : firstCut offset c (cs ++ '\n' :: rest) =
      ⟨x.offset, x.verdict, x.text, x.after ++ '\n' :: rest⟩ := by
    simp only [x, firstCut, hstays, List.take_append_of_le_length hwithin,
      List.drop_append_of_le_length hwithin]
  have hclean : x.error? total = none := error?_eq_none_iff.mpr hv
  rw [List.cons_append, lexFrom_cons, hcut]
  show Lexed.mk (x.token?.toList ++ later.tokens) ((x.error? total).toList ++ later.errors) = _
  rw [hclean, Option.toList_none, List.nil_append]

/-- Where a source has no lexical errors up to a line feed, the lexer comes to the line feed with
    the tokens that it finds there at the end, and goes on right after it. -/
theorem lexFrom_append_newline (total total' offset : Nat) (cs rest : List Char)
    (h : (lexFrom total' offset cs).errors = []) :
    lexFrom total offset (cs ++ '\n' :: rest) =
      let later := lexFrom total (offset + byteLength cs + 1) rest
      ⟨(lexFrom total' offset cs).tokens ++ later.tokens, later.errors⟩ := by
  fun_induction cuts offset cs with
  | case1 offset =>
    have hblank : ∀ c ∈ ['\n'], isBlank c = true := by simp [isBlank]
    have hseam := lexFrom_blanks hblank total offset rest
    rw [lexFrom]
    exact hseam
  | case2 offset c cs p text ih =>
    have hwhole : text ++ cs.drop p.more = c :: cs := by
      rw [List.cons_append, List.take_append_drop]
    have hoffset : offset + byteLength text + byteLength (cs.drop p.more) =
        offset + byteLength (c :: cs) := by
      rw [Nat.add_assoc, ← byteLength_append, hwhole]
    rw [hoffset] at ih
    by_cases hblank : (piece c cs).verdict = .blank
    -- A run of blanks goes over the seam, which changes no token.
    · have htext : ∀ d ∈ text, isBlank d = true := by
        have hjudged := piece_right c cs
        rw [Right, hblank] at hjudged
        exact blank_of_judged hjudged
      rw [← hwhole, lexFrom_blanks htext] at h
      rw [← hwhole, List.append_assoc, lexFrom_blanks htext, lexFrom_blanks htext, hwhole]
      exact ih h
    · rw [lexFrom_cons, List.append_eq_nil_iff] at h
      obtain ⟨hfirst, hlater⟩ := h
      have hv : (piece c cs).verdict.Clean :=
        error?_eq_none_iff.mp (Option.toList_eq_nil_iff.mp hfirst)
      have hnext : lexFrom total (firstCut offset c cs).span.stop
          ((firstCut offset c cs).after ++ '\n' :: rest) = _ := ih hlater
      rw [lexFrom_token_append_newline hv hblank, lexFrom_cons, hnext]
      simp only [List.append_assoc]
      rfl

end Lexer

open Lexer

/-- A comment that is never closed is reported at the end of the source. -/
theorem span_of_unterminated {src : String} {e : LexError} (he : e ∈ (lex src).errors)
    (hkind : e.kind = .unterminatedComment) : e.span = ⟨src.utf8ByteSize, 0⟩ := by
  rw [lex, lexFrom_eq_cuts, byteLength_toList] at he
  obtain ⟨x, -, hxe⟩ := List.mem_filterMap.mp he
  unfold Cut.error? at hxe
  split at hxe
  · cases hxe
    cases hkind
  · cases hxe
    rfl
  · cases hxe

/-- Where a source without lexical errors is followed by a line feed and another source, the lexer
    finds the tokens of the first, and then the tokens and the errors of the second, further on by
    the bytes before it; a comment that is never closed is reported at the end of the whole. The
    same holds without comments. -/
theorem lex_append_newline (a b : String) (ha : (lex a).errors = []) :
    let n := a.utf8ByteSize + 1
    lex (a ++ "\n" ++ b) =
        ⟨(lex a).tokens ++ (lex b).tokens.map (Token.shift n),
          (lex b).errors.map (LexError.shift n)⟩ ∧
      lexSkippingComments (a ++ "\n" ++ b) =
        ⟨(lexSkippingComments a).tokens ++ (lexSkippingComments b).tokens.map (Token.shift n),
          (lexSkippingComments b).errors.map (LexError.shift n)⟩ ∧
      ∀ e ∈ (lex b).errors, e.kind = .unterminatedComment →
        (e.shift n).span = ⟨(a ++ "\n" ++ b).utf8ByteSize, 0⟩ := by
  intro n
  have hsize : (a ++ "\n" ++ b).utf8ByteSize = b.utf8ByteSize + n := by
    rw [String.utf8ByteSize_append, String.utf8ByteSize_append, Nat.add_comm]
    rfl
  have hlex : lex (a ++ "\n" ++ b) =
      ⟨(lex a).tokens ++ ((lex b).shift n).tokens, ((lex b).shift n).errors⟩ := by
    have hjoin := lexFrom_append_newline (b.utf8ByteSize + n) _ 0 a.toList b.toList ha
    have hlater := lexFrom_shift n b.utf8ByteSize 0 b.toList
    have hsource : (a ++ "\n" ++ b).toList = a.toList ++ '\n' :: b.toList := by
      simp
    rw [Nat.zero_add, byteLength_toList] at hjoin
    rw [Nat.zero_add] at hlater
    rw [lex, byteLength_toList, hsize, hsource, hjoin, hlater, lex, lex, byteLength_toList,
      byteLength_toList]
  refine ⟨hlex, ?_, ?_⟩
  · have hskip : lexSkippingComments (a ++ "\n" ++ b) =
        ⟨(lex a).withoutComments.tokens ++ ((lex b).shift n).withoutComments.tokens,
          ((lex b).shift n).withoutComments.errors⟩ := by
      rw [lexSkippingComments, hlex, Lexed.withoutComments, List.filter_append]
      rfl
    rw [hskip, Lexed.withoutComments_shift]
    rfl
  · intro e he hkind
    rw [LexError.shift, span_of_unterminated he hkind, hsize]
    rfl

/-- A line comment before the seam ends there, and the comment after it is never closed. -/
theorem lex_append_newline_in_comment :
    (lex "x -- y").errors = [] ∧
      lex "x -- y\n'a' \x7b- z" =
        ⟨[⟨.ident, ⟨0, 1⟩, "x"⟩, ⟨.lineComment, ⟨2, 4⟩, "-- y"⟩, ⟨.char 'a', ⟨7, 3⟩, "'a'"⟩],
          [⟨.unterminatedComment, ⟨15, 0⟩⟩]⟩ ∧
      lexSkippingComments "x -- y\n'a' \x7b- z" =
        ⟨[⟨.ident, ⟨0, 1⟩, "x"⟩, ⟨.char 'a', ⟨7, 3⟩, "'a'"⟩],
          [⟨.unterminatedComment, ⟨15, 0⟩⟩]⟩ := by
  have hfirst : lex "x -- y" = ⟨[⟨.ident, ⟨0, 1⟩, "x"⟩, ⟨.lineComment, ⟨2, 4⟩, "-- y"⟩], []⟩ := by
    decide +kernel
  have hsecond : lex "'a' \x7b- z" =
      ⟨[⟨.char 'a', ⟨0, 3⟩, "'a'"⟩], [⟨.unterminatedComment, ⟨8, 0⟩⟩]⟩ := by
    decide +kernel
  have hclean : (lex "x -- y").errors = [] := by rw [hfirst]
  obtain ⟨hjoin, hskip, -⟩ := lex_append_newline "x -- y" "'a' \x7b- z" hclean
  rw [hfirst, hsecond] at hjoin
  simp only [lexSkippingComments, hfirst, hsecond] at hskip
  exact ⟨hclean, hjoin, hskip⟩

end FOmega
