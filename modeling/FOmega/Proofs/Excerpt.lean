import FOmega.Proofs.Coverage
import FOmega.Proofs.Outline

/-!
# The tokens of an excerpt

A piece of a source stays the same piece if the source is cut off somewhere after it: what matched
still matches, and nothing longer can match in a shorter source. So a part of a source that starts
where one token starts and ends where another one ends has, on its own, the same tokens in the same
places, counted from its start.
-/

namespace FOmega

namespace Lexer

variable {source source' w w' cs cs' rest : List Char} {k k' : TokenClass} {v v' : Verdict}
  {c : Char}

/-! ## Longest matches in shorter sources -/

theorem Longest.of_shorter (h : Longest source k w) (hw : w <+: source')
    (hsource : source' <+: source) : Longest source' k w :=
  ⟨hw, h.mem, fun k' w' hw' => h.longest k' w' (hw'.trans hsource)⟩

theorem Longest.unique (h : Longest source k w) (h' : Longest source k' w') :
    k' = k ∧ w' = w := by
  obtain ⟨hle, hclass⟩ := h.longest k' w' h'.starts h'.mem
  obtain ⟨hge, -⟩ := h'.longest k w h.starts h.mem
  have hlength : w'.length = w.length := Nat.le_antisymm hle hge
  have hstarts : w' <+: w := List.prefix_of_prefix_length_le h'.starts h.starts hle
  exact ⟨hclass hlength, hstarts.eq_of_length hlength⟩

theorem tokenClass_ne_blank (kind : TokenKind) : kind.tokenClass ≠ .blank := by
  cases kind <;> simp [TokenKind.tokenClass]

theorem eq_blockComment_of_tokenClass {kind : TokenKind} (h : kind.tokenClass = .blockComment) :
    kind = .blockComment := by
  cases kind <;> first | rfl | cases h

/-! ## A text has one value -/

theorem Spells.int_unique {n n' : Int} (h : Spells w (.int n)) (h' : Spells w (.int n')) :
    n' = n := by
  have hminus : ¬ Text.Decimal.isDigit '-' = true := by decide
  cases h with
  | natural hdigits =>
    cases h' with
    | natural => rfl
    | negative => exact absurd (hdigits '-' List.mem_cons_self) hminus
    | valueless hint => exact absurd rfl (hint _)
  | negative hdigits =>
    cases h' with
    | natural hother => exact absurd (hother '-' List.mem_cons_self) hminus
    | negative => rfl
    | valueless hint => exact absurd rfl (hint _)
  | valueless hint => exact absurd rfl (hint _)

theorem Spells.string_iff {s : String} : Spells w (.string s) ↔
    ∃ cs vs, w = '"' :: (cs ++ ['"']) ∧ s = String.ofList vs ∧ Text.Escape.read? cs = some vs := by
  constructor
  · intro h
    cases h with
    | string hcontent => exact ⟨_, _, rfl, rfl, Text.Escape.read?_eq_some_iff.mpr hcontent⟩
    | valueless _ hstring => exact absurd rfl (hstring _)
  · rintro ⟨cs, vs, rfl, rfl, hread⟩
    exact .string (Text.Escape.read?_eq_some_iff.mp hread)

theorem Spells.char_iff {v : Char} : Spells w (.char v) ↔
    ∃ cs, w = '\'' :: (cs ++ ['\'']) ∧ Text.Escape.readChar? cs = some v := by
  constructor
  · intro h
    cases h with
    | char hcontent => exact ⟨_, rfl, Text.Escape.readChar?_eq_some_iff.mpr hcontent⟩
    | valueless _ _ hchar => exact absurd rfl (hchar _)
  · rintro ⟨cs, rfl, hread⟩
    exact .char (Text.Escape.readChar?_eq_some_iff.mp hread)

theorem quoted_inj {quote : Char} {u v : List Char}
    (h : quote :: (u ++ [quote]) = quote :: (v ++ [quote])) : u = v :=
  List.append_cancel_right (List.cons.inj h).2

/-- A text has one value of each class. -/
theorem Spells.unique {kind kind' : TokenKind} (h : Spells w kind) (h' : Spells w kind')
    (hclass : kind'.tokenClass = kind.tokenClass) : kind' = kind := by
  cases kind <;> cases kind' <;> first | rfl | cases hclass
  case int.int n n' => rw [Spells.int_unique h h']
  case string.string s s' =>
    obtain ⟨cs, vs, rfl, rfl, hread⟩ := Spells.string_iff.mp h
    obtain ⟨cs', vs', hw, rfl, hread'⟩ := Spells.string_iff.mp h'
    obtain rfl := quoted_inj hw
    cases hread.symm.trans hread'
    rfl
  case char.char v v' =>
    obtain ⟨cs, rfl, hread⟩ := Spells.char_iff.mp h
    obtain ⟨cs', hw, hread'⟩ := Spells.char_iff.mp h'
    obtain rfl := quoted_inj hw
    cases hread.symm.trans hread'
    rfl

/-- A literal that has a value does not lack one. -/
theorem Undecodable.not_spells {kind : TokenKind} (h : Undecodable kind.tokenClass w) :
    ¬ Spells w kind := by
  intro hvalue
  generalize hk : kind.tokenClass = k at h
  cases h with
  | string hcontent =>
    cases kind <;> cases hk
    obtain ⟨cs, vs, hw, rfl, hread⟩ := Spells.string_iff.mp hvalue
    obtain rfl := quoted_inj hw
    exact hcontent ⟨vs, Text.Escape.read?_eq_some_iff.mp hread⟩
  | char hcontent =>
    cases kind <;> cases hk
    obtain ⟨cs, hw, hread⟩ := Spells.char_iff.mp hvalue
    obtain rfl := quoted_inj hw
    exact hcontent ⟨_, Text.Escape.readChar?_eq_some_iff.mp hread⟩

/-! ## Pieces of shorter sources -/

/-- Blanks and tokens. -/
def Verdict.Clean : Verdict → Prop
  | .blank => True
  | .token _ => True
  | .invalid => False
  | .unterminated => False

theorem Judged.of_shorter (h : Judged source v w) (hv : v.Clean) (hw : w <+: source')
    (hsource : source' <+: source) : Judged source' v w := by
  cases h with
  | blank hlongest => exact .blank (hlongest.of_shorter hw hsource)
  | token hblock hlongest hvalue => exact .token hblock (hlongest.of_shorter hw hsource) hvalue
  | @comment w hlongest hrest =>
    have hopening : ['{', '-'] <+: '{' :: '-' :: w := ⟨w, rfl⟩
    exact .comment (hlongest.of_shorter (hopening.trans hw) hsource) hrest
  | nothing => exact hv.elim
  | literal => exact hv.elim
  | unterminated => exact hv.elim

/-- A source starts with one blank or token only, if it does not start with a block comment that is
    never closed. -/
theorem Judged.unique (h : Judged source v w) (h' : Judged source v' w') (hw : w <+: source)
    (hw' : w' <+: source) (hv : v.Clean) (hv' : v' ≠ .unterminated) : v' = v ∧ w' = w := by
  cases h with
  | blank hlongest =>
    cases h' with
    | blank hlongest' => exact ⟨rfl, (hlongest.unique hlongest').2⟩
    | token _ hlongest' => exact absurd (hlongest.unique hlongest').1 (tokenClass_ne_blank _)
    | comment hlongest' => cases (hlongest.unique hlongest').1
    | nothing hunmatched => exact absurd hlongest.mem (hunmatched _ _ hlongest.starts)
    | literal hlongest' hcontent =>
      obtain ⟨rfl, -⟩ := hlongest.unique hlongest'
      cases hcontent
    | unterminated => exact absurd rfl hv'
  | token hblock hlongest hvalue =>
    cases h' with
    | blank hlongest' => exact absurd (hlongest'.unique hlongest).1 (tokenClass_ne_blank _)
    | token _ hlongest' hvalue' =>
      obtain ⟨hclass, rfl⟩ := hlongest.unique hlongest'
      rw [hvalue.unique hvalue' hclass]
      exact ⟨rfl, rfl⟩
    | comment hlongest' =>
      have hclass := (hlongest'.unique hlongest).1
      exact absurd (eq_blockComment_of_tokenClass hclass) hblock
    | nothing hunmatched => exact absurd hlongest.mem (hunmatched _ _ hlongest.starts)
    | literal hlongest' hcontent =>
      obtain ⟨rfl, rfl⟩ := hlongest.unique hlongest'
      exact absurd hvalue hcontent.not_spells
    | unterminated => exact absurd rfl hv'
  | comment hlongest hrest =>
    cases h' with
    | blank hlongest' => cases (hlongest.unique hlongest').1
    | token hblock hlongest' =>
      have hclass := (hlongest.unique hlongest').1
      exact absurd (eq_blockComment_of_tokenClass hclass) hblock
    | comment _ hrest' =>
      obtain ⟨r, hr⟩ := hw
      obtain ⟨r', hr'⟩ := hw'
      have hsame := hr.trans hr'.symm
      simp only [List.cons_append, List.cons.injEq, true_and] at hsame
      rw [hrest.unique hrest' hsame]
      exact ⟨rfl, rfl⟩
    | nothing hunmatched => exact absurd hlongest.mem (hunmatched _ _ hlongest.starts)
    | literal hlongest' hcontent =>
      obtain ⟨rfl, -⟩ := hlongest.unique hlongest'
      cases hcontent
    | unterminated => exact absurd rfl hv'
  | nothing => exact hv.elim
  | literal => exact hv.elim
  | unterminated => exact hv.elim

/-- Where a source starts with a blank or a token, the lexer does not find a block comment that is
    never closed. -/
theorem piece_ne_unterminated (h : Judged (c :: cs) v w) (hw : w <+: c :: cs) (hv : v.Clean) :
    (piece c cs).verdict ≠ .unterminated := by
  intro hverdict
  obtain ⟨u, hpiece⟩ : ∃ u, Judged (c :: cs) (piece c cs).verdict u := ⟨_, piece_right c cs⟩
  rw [hverdict] at hpiece
  cases hpiece with
  | unterminated hopening =>
    cases h with
    | blank hlongest => cases (hlongest.unique hopening).1
    | token hblock hlongest =>
      have hclass := (hopening.unique hlongest).1
      exact absurd (eq_blockComment_of_tokenClass hclass) hblock
    | @comment w _ hrest =>
      obtain ⟨rest, heq⟩ := hw
      obtain ⟨rfl, rfl⟩ := List.cons.inj heq
      have hend := (blockEnd?_of_commentRest hrest rest).1
      have hbrace : piece '{' ('-' :: (w ++ rest)) = ⟨.token .blockComment, w.length + 1⟩ :=
        bracePiece_of_end hend
      cases (congrArg Piece.verdict hbrace).symm.trans hverdict
    | nothing => exact hv.elim
    | literal => exact hv.elim
    | unterminated => exact hv.elim

/-- A blank or token stays what it is when the source is cut off after it. -/
theorem piece_of_shorter (hv : (piece c cs).verdict.Clean)
    (htake : cs.take (piece c cs).more <+: cs') (hsource : cs' <+: cs) :
    (piece c cs').verdict = (piece c cs).verdict ∧
      cs'.take (piece c cs').more = cs.take (piece c cs).more := by
  have hw : c :: cs.take (piece c cs).more <+: c :: cs' := List.cons_prefix_cons.mpr ⟨rfl, htake⟩
  have hjudged : Judged (c :: cs') (piece c cs).verdict (c :: cs.take (piece c cs).more) :=
    (piece_right c cs).of_shorter hv hw (List.cons_prefix_cons.mpr ⟨rfl, hsource⟩)
  have hw' : c :: cs'.take (piece c cs').more <+: c :: cs' :=
    List.cons_prefix_cons.mpr ⟨rfl, List.take_prefix _ _⟩
  obtain ⟨hverdict, htext⟩ := hjudged.unique (piece_right c cs') hw hw' hv
    (piece_ne_unterminated hjudged hw hv)
  exact ⟨hverdict, (List.cons.inj htext).2⟩

/-! ## Parts of the pieces of a source -/

/-- The pieces from some piece on are the pieces of what is left there. -/
theorem cuts_append {offset : Nat} {xs ys : List Cut} (h : cuts offset cs = xs ++ ys) :
    ∃ rest, cs = xs.flatMap Cut.text ++ rest ∧
      cuts (offset + byteLength (xs.flatMap Cut.text)) rest = ys := by
  induction xs generalizing offset cs with
  | nil => exact ⟨cs, rfl, h⟩
  | cons x xs ih =>
    cases cs with
    | nil =>
      rw [cuts] at h
      cases h
    | cons c cs =>
      rw [cuts] at h
      obtain ⟨rfl, hrest⟩ := List.cons.inj h
      obtain ⟨rest, hcs, hys⟩ := ih hrest
      refine ⟨rest, ?_, ?_⟩
      · rw [List.flatMap_cons, List.append_assoc, ← hcs]
        simp
      · rw [List.flatMap_cons, byteLength_append, ← Nat.add_assoc]
        exact hys

theorem offset_of_cuts {offset : Nat} {x : Cut} {xs : List Cut} (h : cuts offset cs = x :: xs) :
    x.offset = offset := by
  cases cs with
  | nil =>
    rw [cuts] at h
    cases h
  | cons c cs =>
    rw [cuts] at h
    obtain ⟨rfl, -⟩ := List.cons.inj h
    rfl

end Lexer

/-- The span so many bytes further on. -/
def Span.shift (n : Nat) (s : Span) : Span :=
  ⟨s.offset + n, s.len⟩

/-- The token so many bytes further on. -/
def Token.shift (n : Nat) (t : Token) : Token :=
  { t with span := t.span.shift n }

namespace Lexer

/-- The first piece is found again where the source is cut off further on. -/
theorem cuts_of_shorter {c : Char} {cs left : List Char} (hv : (piece c cs).verdict.Clean)
    (hsource : cs.take (piece c cs).more ++ left <+: cs) (offset : Nat) :
    cuts offset (c :: cs.take (piece c cs).more ++ left) =
      ⟨offset, (piece c cs).verdict, c :: cs.take (piece c cs).more, left⟩ ::
        cuts (offset + byteLength (c :: cs.take (piece c cs).more)) left := by
  obtain ⟨hverdict, htake⟩ := piece_of_shorter hv (List.prefix_append _ left) hsource
  have hsplit := List.take_append_drop (piece c (cs.take (piece c cs).more ++ left)).more
    (cs.take (piece c cs).more ++ left)
  rw [htake] at hsplit
  have hdrop := List.append_cancel_left hsplit
  rw [List.cons_append, cuts]
  simp only [hverdict, htake, hdrop]

/-- Pieces in a row that are all blanks or tokens are the pieces of their text on its own, at other
    offsets. -/
theorem cuts_excerpt (offset n : Nat) {cs : List Char} {ys zs : List Cut}
    (h : cuts (offset + n) cs = ys ++ zs) (hclean : ∀ y ∈ ys, y.verdict.Clean) :
    ((cuts offset (ys.flatMap Cut.text)).filterMap Cut.token?).map (Token.shift n) =
        ys.filterMap Cut.token? ∧
      ∀ x ∈ cuts offset (ys.flatMap Cut.text), x.verdict.Clean := by
  induction ys generalizing offset cs with
  | nil =>
    rw [List.flatMap_nil, cuts]
    exact ⟨rfl, List.forall_mem_nil _⟩
  | cons y ys ih =>
    cases cs with
    | nil =>
      rw [cuts] at h
      cases h
    | cons c cs =>
      rw [cuts] at h
      obtain ⟨rfl, hrest⟩ := List.cons.inj h
      obtain ⟨hhead, htail⟩ := List.forall_mem_cons.mp hclean
      obtain ⟨after, hafter, -⟩ := cuts_append hrest
      have hsource : cs.take (piece c cs).more ++ ys.flatMap Cut.text <+: cs :=
        ⟨after, by rw [List.append_assoc, ← hafter, List.take_append_drop]⟩
      rw [Nat.add_right_comm] at hrest
      obtain ⟨htokens, hothers⟩ := ih _ hrest htail
      rw [List.flatMap_cons, cuts_of_shorter hhead hsource]
      refine ⟨?_, List.forall_mem_cons.mpr ⟨hhead, hothers⟩⟩
      cases hkind : (piece c cs).verdict with
      | blank => exact htokens
      | token kind => exact congrArg (List.cons _) htokens
      | invalid | unterminated =>
        rw [hkind] at hhead
        exact hhead.elim

theorem error?_eq_none_iff {total : Nat} {x : Cut} :
    x.error? total = none ↔ x.verdict.Clean := by
  unfold Cut.error?
  cases x.verdict <;> simp [Verdict.Clean]

end Lexer

open Lexer

/-! ## Excerpts of a source -/

/-- Some images in a row come from elements in a row, of which the first and the last have the first
    and the last of these images. -/
theorem exists_infix_of_filterMap {α β : Type} {f : α → Option β} {l : List α} {u : List β}
    (hu : u <:+: l.filterMap f) (hne : u ≠ []) :
    ∃ xs ys zs, l = xs ++ (ys ++ zs) ∧ ys.filterMap f = u ∧ ys.head?.bind f = u.head? ∧
      ys.getLast?.bind f = u.getLast? := by
  obtain ⟨before, after, h⟩ := hu
  obtain ⟨t, u, rfl⟩ := List.exists_cons_of_ne_nil hne
  rw [List.append_assoc, List.cons_append] at h
  obtain ⟨xs, rest, rfl, -, hrest⟩ := List.filterMap_eq_append_iff.mp h.symm
  obtain ⟨gap, y, rest, rfl, -, hy, hrest⟩ := List.filterMap_eq_cons_iff.mp hrest
  rcases List.eq_nil_or_concat u with rfl | ⟨u, t', rfl⟩
  · refine ⟨xs ++ gap, [y], rest, ?_, ?_, hy, hy⟩
    · simp
    · simp [hy]
  · rw [List.concat_eq_append, List.append_assoc] at hrest
    obtain ⟨middle, rest, rfl, hmiddle, hrest⟩ := List.filterMap_eq_append_iff.mp hrest
    obtain ⟨gap', y', zs, rfl, hgap', hy', -⟩ := List.filterMap_eq_cons_iff.mp hrest
    have hnone : gap'.filterMap f = [] := List.filterMap_eq_nil_iff.mpr hgap'
    refine ⟨xs ++ gap, y :: (middle ++ gap' ++ [y']), zs, ?_, ?_, hy, ?_⟩
    · simp
    · simp [hy, hy', hmiddle, hnone]
    · rw [← List.cons_append, List.getLast?_concat, List.concat_eq_append, ← List.cons_append,
        List.getLast?_concat]
      exact hy'

/-- The token that the piece is, if it is no comment. -/
def Lexer.Cut.word? (x : Cut) : Option Token :=
  x.token?.filter fun t => !t.kind.isComment

theorem filterMap_word? (xs : List Cut) :
    xs.filterMap Cut.word? = (xs.filterMap Cut.token?).filter fun t => !t.kind.isComment :=
  List.filter_filterMap.symm

theorem lexSkippingComments_eq_cuts (src : String) :
    lexSkippingComments src = ⟨(cuts 0 src.toList).filterMap Cut.word?,
      (cuts 0 src.toList).filterMap (Cut.error? (byteLength src.toList))⟩ := by
  rw [lexSkippingComments, lex, lexFrom_eq_cuts, filterMap_word?]
  rfl

theorem Lexer.Cut.span_of_word? {x : Cut} {t : Token} (h : x.word? = some t) : x.span = t.span :=
  span_of_token? (Option.filter_eq_some_iff.mp h).1

/-- Pieces in a row whose first and last are words take the span of these words. -/
theorem spanOf_words {offset : Nat} {cs : List Char} {ys zs : List Cut} {u : List Token}
    (h : cuts offset cs = ys ++ zs) (hne : u ≠ []) (hhead : ys.head?.bind Cut.word? = u.head?)
    (hlast : ys.getLast?.bind Cut.word? = u.getLast?) :
    spanOf u = ⟨offset, byteLength (ys.flatMap Cut.text)⟩ := by
  obtain ⟨first, last, hfirst, hend⟩ := Outline.exists_ends hne
  rw [hfirst] at hhead
  rw [hend] at hlast
  obtain ⟨y, hy, hword⟩ := Option.bind_eq_some_iff.mp hhead
  obtain ⟨y', hy', hword'⟩ := Option.bind_eq_some_iff.mp hlast
  have hstart : first.span.offset = offset := by
    obtain ⟨others, rfl⟩ := List.head?_eq_some_iff.mp hy
    rw [← Cut.span_of_word? hword]
    exact offset_of_cuts h
  have hstop : last.span.stop = offset + byteLength (ys.flatMap Cut.text) := by
    obtain ⟨before, rfl⟩ := List.getLast?_eq_some_iff.mp hy'
    rw [List.append_assoc] at h
    obtain ⟨rest, -, hrest⟩ := cuts_append h
    have hoffset : y'.offset = _ := offset_of_cuts hrest
    rw [← Cut.span_of_word? hword', Span.stop, Cut.span, hoffset, List.flatMap_append,
      byteLength_append, List.flatMap_singleton, Nat.add_assoc]
  rw [spanOf_eq hfirst hend, Span.through, hstart, hstop, Nat.max_eq_left (Nat.le_add_right _ _),
    Nat.add_sub_cancel_left]

/-- The part of a source from the first through the last of some tokens in a row has these tokens on
    its own, at offsets that are counted from its start. -/
theorem lexSkippingComments_excerpt {src : String} {u : List Token}
    (herrors : (lexSkippingComments src).errors = []) (hu : u <:+: (lexSkippingComments src).tokens)
    (hne : u ≠ []) :
    let part := String.Pos.Raw.extract src ⟨(spanOf u).offset⟩ ⟨(spanOf u).stop⟩
    (lexSkippingComments part).errors = [] ∧
      (lexSkippingComments part).tokens.map (Token.shift (spanOf u).offset) = u := by
  intro part
  rw [lexSkippingComments_eq_cuts] at herrors hu
  have hclean : ∀ x ∈ cuts 0 src.toList, x.verdict.Clean := fun x hx =>
    error?_eq_none_iff.mp (List.filterMap_eq_nil_iff.mp herrors x hx)
  obtain ⟨xs, ys, zs, hsplit, hwords, hhead, hlast⟩ := exists_infix_of_filterMap hu hne
  obtain ⟨rest, hsrc, hrest⟩ := cuts_append hsplit
  obtain ⟨after, hafter, -⟩ := cuts_append hrest
  have hspan := spanOf_words hrest hne hhead hlast
  rw [Nat.zero_add] at hspan
  have hat : At src (spanOf u) (ys.flatMap Cut.text) := by
    rw [hspan]
    exact ⟨xs.flatMap Cut.text, after, by rw [List.append_assoc, ← hafter, hsrc], rfl, rfl⟩
  have hpart : part = String.ofList (ys.flatMap Cut.text) := hat.extract_eq
  have hexcerpt : ∀ y ∈ ys, y.verdict.Clean := by
    intro y hy
    refine hclean y ?_
    rw [hsplit]
    exact List.mem_append_right _ (List.mem_append_left _ hy)
  obtain ⟨htokens, hothers⟩ := cuts_excerpt 0 _ hrest hexcerpt
  rw [hpart, lexSkippingComments_eq_cuts, String.toList_ofList]
  refine ⟨?_, ?_⟩
  · exact List.filterMap_eq_nil_iff.mpr fun x hx => error?_eq_none_iff.mpr (hothers x hx)
  · have hoffset : (spanOf u).offset = byteLength (xs.flatMap Cut.text) := by rw [hspan]
    rw [hoffset]
    show ((cuts 0 (ys.flatMap Cut.text)).filterMap Cut.word?).map _ = u
    rw [filterMap_word?, ← hwords, filterMap_word?, ← htokens, List.filter_map]
    rfl

end FOmega
