import FOmega.Proofs.CommentScan
import FOmega.Proofs.Lexeme

/-!
# The pieces of a source

The lexer looks at the first character and then at what follows it. The piece that it takes is the
one that the patterns say: a blank or a token that is the longest match, a comment to its end, or an
invalid stretch where nothing matches or the match is a literal without a value. A first character
starts lexemes of one class only, but for the minus sign, which starts integers and line comments,
and the opening brace, which starts block comments too.
-/

namespace FOmega

open Text.Escape (isHexDigit Unescapes)
open Text.Decimal (isDigit)
open scoped Computability

namespace Lexer

variable {L : Language Char} {u v w cs rest : List Char} {c : Char} {k : TokenClass} {n : Nat}

/-! ## Right pieces -/

/-- The text is taken from the source for what the verdict says it is: a longest match with its
    value, the opening of a block comment and what belongs to it, or an invalid stretch, either
    where nothing matches or where the longest match is a literal without a value. -/
inductive Judged (source : List Char) : Verdict → List Char → Prop where
  | blank {w : List Char} (longest : Longest source .blank w) : Judged source .blank w
  | token {kind : TokenKind} {w : List Char} (block : kind ≠ .blockComment)
    (longest : Longest source kind.tokenClass w) (value : Spells w kind) :
    Judged source (.token kind) w
  | comment {w : List Char} (longest : Longest source .blockComment ['{', '-'])
    (rest : CommentRest w) : Judged source (.token .blockComment) ('{' :: '-' :: w)
  | nothing {w : List Char} (unmatched : ∀ k v, v <+: source → v ∉ TokenClass.pattern k) :
    Judged source .invalid w
  | literal {k : TokenClass} {w : List Char} (longest : Longest source k w)
    (content : Undecodable k w) : Judged source .invalid w
  | unterminated (longest : Longest source .blockComment ['{', '-']) :
    Judged source .unterminated source

/-- The piece taken from a source is the one that the patterns say. -/
def Right (c : Char) (cs : List Char) (p : Piece) : Prop :=
  Judged (c :: cs) p.verdict (c :: cs.take p.more)

/-! ## Which classes a character can start -/

theorem toNat_of_isBlank (h : isBlank c = true) : c.toNat ≤ 32 := by
  simp only [isBlank, Bool.or_eq_true, beq_iff_eq, or_assoc] at h
  rcases h with rfl | rfl | rfl | rfl | rfl <;> decide

theorem toNat_of_isDigit (h : isDigit c = true) : 48 ≤ c.toNat ∧ c.toNat ≤ 57 := by
  simp only [isDigit, Bool.and_eq_true, decide_eq_true_eq] at h
  exact h

theorem toNat_of_isLetter (h : Text.isLetter c = true) : 65 ≤ c.toNat := by
  have hranges : Text.Letter.ranges = (65, 90) :: Text.Letter.ranges.tail := rfl
  by_contra hlt
  rw [Text.isLetter, hranges, Text.inRanges, if_pos (by omega)] at h
  cases h

theorem lead_of_isBlank (h : isBlank c = true) (k : TokenClass) (hk : k.leads c = true) :
    k = .blank := by
  have hle := toNat_of_isBlank h
  cases k with
  | blank => rfl
  | int =>
    rcases Bool.or_eq_true_iff.mp hk with hminus | hdigit
    · obtain rfl := beq_iff_eq.mp hminus
      exact absurd h (by decide)
    · have hbounds := toNat_of_isDigit hdigit
      omega
  | ident =>
    have hletter := toNat_of_isLetter hk
    omega
  | _ =>
    obtain rfl := beq_iff_eq.mp hk
    exact absurd h (by decide)

theorem lead_of_isDigit (h : isDigit c = true) (k : TokenClass) (hk : k.leads c = true) :
    k = .int := by
  have hbounds := toNat_of_isDigit h
  cases k with
  | int => rfl
  | blank =>
    have hblank := toNat_of_isBlank hk
    omega
  | ident =>
    have hletter := toNat_of_isLetter hk
    omega
  | _ =>
    obtain rfl := beq_iff_eq.mp hk
    exact absurd h (by decide)

theorem lead_of_isLetter (h : Text.isLetter c = true) (k : TokenClass) (hk : k.leads c = true) :
    k = .ident := by
  have hle := toNat_of_isLetter h
  cases k with
  | ident => rfl
  | blank =>
    have hblank := toNat_of_isBlank hk
    omega
  | int =>
    rcases Bool.or_eq_true_iff.mp hk with hminus | hdigit
    · obtain rfl := beq_iff_eq.mp hminus
      exact absurd h (by decide)
    · have hbounds := toNat_of_isDigit hdigit
      omega
  | _ =>
    obtain rfl := beq_iff_eq.mp hk
    exact absurd h (by decide)

theorem lead_minus (k : TokenClass) (hk : k.leads '-' = true) : k = .lineComment ∨ k = .int := by
  revert hk
  cases k <;> decide

theorem lead_brace (k : TokenClass) (hk : k.leads '{' = true) :
    k = .blockComment ∨ k = .lbrace := by
  revert hk
  cases k <;> decide

/-! ## Runs and single characters -/

/-- A delimiter is the longest match at a character that starts nothing else. -/
theorem longest_delimiter (hpattern : k.pattern = exactly [c])
    (hlead : ∀ k' : TokenClass, k'.leads c = true → k' = k) : Longest (c :: cs) k [c] := by
  refine Longest.of_lead hlead (List.nil_prefix) (hpattern ▸ rfl) ?_
  intro v _ hmem
  rw [hpattern] at hmem
  have hv : v = [] := by
    cases hmem
    rfl
  rw [hv]

theorem right_delimiter {kind : TokenKind} (hpattern : kind.tokenClass.pattern = exactly [c])
    (hlead : ∀ k : TokenClass, k.leads c = true → k = kind.tokenClass)
    (hvalue : Spells [c] kind) (hblock : kind ≠ .blockComment) : Right c cs ⟨.token kind, 0⟩ :=
  .token hblock (longest_delimiter hpattern hlead) hvalue

/-- The characters that follow in a class are the longest match of a first character and any number
    of these. -/
theorem longest_run {p : Char → Bool} (hlead : ∀ k' : TokenClass, k'.leads c = true → k' = k)
    (hpattern : ∀ v, c :: v ∈ k.pattern ↔ ∀ d ∈ v, p d = true) :
    Longest (c :: cs) k (c :: cs.take (count p cs)) := by
  have htake := take_count p cs
  refine Longest.of_lead hlead (List.take_prefix _ _) ?_ ?_
  · rw [htake]
    exact (hpattern _).mpr fun d hd => List.mem_takeWhile_imp hd
  · intro v hv hmem
    rw [htake]
    exact length_le_count hv ((hpattern v).mp hmem)

/-! ## Quoted literals -/

theorem isHexDigit_ne (h : isHexDigit c = true) : c ≠ '"' ∧ c ≠ '\\' ∧ c ≠ '}' := by
  refine ⟨?_, ?_, ?_⟩ <;> (rintro rfl; exact absurd h (by decide))

theorem stringEnd_plain (hquote : c ≠ '"') (hslash : c ≠ '\\') :
    stringEnd (c :: cs) = ((stringEnd cs).1, (stringEnd cs).2 + 1) := by
  rw [stringEnd] <;> simp [hslash, hquote, Prod.map]

theorem stringEnd_escape (hc : c ≠ '\n') (hcs : cs ≠ ['{']) :
    stringEnd ('\\' :: c :: cs) = ((stringEnd cs).1, (stringEnd cs).2 + 2) := by
  rw [stringEnd] <;> simp [hc, hcs, Prod.map]

theorem stringEnd_run (h : ∀ c ∈ u, c ≠ '"' ∧ c ≠ '\\') (cs : List Char) :
    stringEnd (u ++ cs) = ((stringEnd cs).1, (stringEnd cs).2 + u.length) := by
  induction u with
  | nil => rfl
  | cons c u ih =>
    obtain ⟨hc, hu⟩ := List.forall_mem_cons.mp h
    rw [List.cons_append, stringEnd_plain hc.1 hc.2, ih hu, List.length_cons, Nat.add_assoc]

/-- A string goes on after a code point, which is an escaped letter and then plain characters. -/
theorem stringEnd_codePoint (h : ∀ c ∈ u, c ≠ '"' ∧ c ≠ '\\') (cs : List Char) :
    stringEnd ('\\' :: 'u' :: '{' :: (u ++ ['}']) ++ cs) =
      ((stringEnd cs).1, (stringEnd cs).2 + ('\\' :: 'u' :: '{' :: (u ++ ['}'])).length) := by
  have hplain : ∀ c ∈ '{' :: (u ++ ['}']), c ≠ '"' ∧ c ≠ '\\' := by
    intro c hc
    simp only [List.mem_cons, List.mem_append, List.not_mem_nil, or_false] at hc
    rcases hc with rfl | hc | rfl
    · decide
    · exact h c hc
    · decide
  have hrun := stringEnd_run hplain cs
  have hstep : stringEnd ('\\' :: 'u' :: ('{' :: (u ++ ['}']) ++ cs)) = _ :=
    stringEnd_escape (by decide) (by simp)
  simp only [List.cons_append] at hrun hstep ⊢
  rw [hstep, hrun]
  simp [Nat.add_assoc]

/-- A string goes on after an item. -/
theorem stringEnd_item (hu : u ∈ quotedItem '"') (hcs : '"' ∈ cs) :
    stringEnd (u ++ cs) = ((stringEnd cs).1, (stringEnd cs).2 + u.length) := by
  rcases mem_quotedItem.mp hu with ⟨c, hquote, hslash, rfl⟩ | ⟨hex, -, hhex, rfl⟩ | ⟨c, hc, rfl⟩
  · exact stringEnd_plain hquote hslash
  · exact stringEnd_codePoint (fun c hc => ⟨(isHexDigit_ne (hhex c hc)).1,
      (isHexDigit_ne (hhex c hc)).2.1⟩) cs
  · refine stringEnd_escape hc ?_
    rintro rfl
    simp at hcs

theorem stringEnd_of_items (hv : v ∈ (quotedItem '"')∗) (rest : List Char) :
    stringEnd (v ++ '"' :: rest) = (true, v.length + 1) := by
  obtain ⟨us, rfl, hus⟩ := Language.mem_kstar.mp hv
  clear hv
  induction us with
  | nil => rfl
  | cons u us ih =>
    obtain ⟨hu, hus⟩ := List.forall_mem_cons.mp hus
    rw [List.flatten_cons, List.append_assoc, stringEnd_item hu (by simp), ih hus,
      List.length_append]
    simp only [Prod.mk.injEq, true_and]
    omega

theorem append_mem_kstar (hu : u ∈ L) (hv : v ∈ L∗) : u ++ v ∈ L∗ := by
  obtain ⟨us, rfl, hus⟩ := Language.mem_kstar.mp hv
  exact Language.mem_kstar.mpr ⟨u :: us, rfl, List.forall_mem_cons.mpr ⟨hu, hus⟩⟩

theorem eq_of_map_add {r : Bool × Nat} {i : Nat} (h : r.map id (· + i) = (true, n)) :
    ∃ m, r = (true, m) ∧ n = m + i := by
  obtain ⟨b, m⟩ := r
  cases h
  exact ⟨m, rfl, rfl⟩

/-- What is read of a closed string are items and a quote. -/
theorem items_of_stringEnd (h : stringEnd cs = (true, n)) :
    ∃ v ∈ (quotedItem '"')∗, ∃ rest, cs = v ++ '"' :: rest ∧ n = v.length + 1 := by
  fun_induction stringEnd cs generalizing n with
  | case2 rest =>
    cases h
    exact ⟨[], Language.nil_mem_kstar _, rest, rfl, rfl⟩
  | case6 c cs hline _ ih =>
    obtain ⟨m, hm, rfl⟩ := eq_of_map_add h
    obtain ⟨v, hv, rest, rfl, rfl⟩ := ih hm
    have hitem : ['\\', c] ∈ quotedItem '"' := mem_quotedItem.mpr (.inr (.inr ⟨c, hline, rfl⟩))
    exact ⟨['\\', c] ++ v, append_mem_kstar hitem hv, rest, rfl, rfl⟩
  | case7 c cs hquote hend _ _ hescape ih =>
    obtain ⟨m, hm, rfl⟩ := eq_of_map_add h
    obtain ⟨v, hv, rest, rfl, rfl⟩ := ih hm
    have hslash : c ≠ '\\' := by
      rintro rfl
      cases v with
      | nil => exact hescape _ _ rfl rfl
      | cons d v => exact hescape _ _ rfl rfl
    have hitem : [c] ∈ quotedItem '"' := mem_quotedItem.mpr (.inl ⟨c, hquote, hslash, rfl⟩)
    exact ⟨[c] ++ v, append_mem_kstar hitem hv, rest, rfl, rfl⟩
  | _ => cases h

theorem charEnd_of_item (hv : v ∈ quotedItem '\'') (rest : List Char) :
    charEnd (v ++ '\'' :: rest) = (true, v.length + 1) := by
  rcases mem_quotedItem.mp hv with ⟨c, hquote, hslash, rfl⟩ | ⟨hex, hne, hhex, rfl⟩ | ⟨c, hc, rfl⟩
  · simp [charEnd, hquote, hslash]
  · have hcount : count isHexDigit (hex ++ '}' :: '\'' :: rest) = hex.length := by
      rw [count, List.takeWhile_append_of_pos hhex, List.takeWhile_cons_of_neg (by decide),
        List.append_nil]
    have hpos : hex.length ≠ 0 := by simpa using hne
    have hsource : '\\' :: 'u' :: '{' :: (hex ++ ['}']) ++ '\'' :: rest =
        '\\' :: 'u' :: '{' :: (hex ++ '}' :: '\'' :: rest) := by simp
    rw [hsource, charEnd]
    simp [hcount, hpos]
  · simp [charEnd, hc]

theorem item_of_charEnd (h : charEnd cs = (true, n)) :
    ∃ v ∈ quotedItem '\'', ∃ rest, cs = v ++ '\'' :: rest ∧ n = v.length + 1 := by
  unfold charEnd at h
  split at h
  · next cs =>
    simp only at h
    split at h
    · cases h
    · next hpos =>
      split at h
      · next rest hdrop =>
        cases h
        have hsplit := List.take_append_drop (count isHexDigit cs) cs
        rw [hdrop, take_count] at hsplit
        have hne : cs.takeWhile isHexDigit ≠ [] := by
          simpa [count] using hpos
        have hitem : _ ∈ quotedItem '\'' := mem_quotedItem.mpr
          (.inr (.inl ⟨_, hne, fun d hd => List.mem_takeWhile_imp hd, rfl⟩))
        refine ⟨_, hitem, rest, ?_, ?_⟩
        · conv_lhs => rw [← hsplit]
          simp
        · simp [count]
      · cases h
  · next c rest =>
    split at h
    · cases h
    · next hline =>
      cases h
      exact ⟨['\\', c], mem_quotedItem.mpr (.inr (.inr ⟨c, hline, rfl⟩)), rest, rfl, rfl⟩
  · next c rest _ =>
    split at h
    · cases h
    · next hne =>
      cases h
      simp only [Bool.or_eq_true, decide_eq_true_eq, not_or] at hne
      exact ⟨[c], mem_quotedItem.mpr (.inl ⟨c, hne.1, hne.2, rfl⟩), rest, rfl, rfl⟩
  · cases h

theorem take_closing (quote : Char) (v rest : List Char) :
    (v ++ quote :: rest).take (v.length + 1) = v ++ [quote] := by
  rw [List.append_cons, List.take_left' (by rw [List.length_append, List.length_singleton])]

section Quoted

/- A quoted literal is its content between two quotes. How far it reaches is found by a function
   that knows the contents of a class. -/
variable {quote : Char} {contents : Language Char} {ending : List Char → Bool × Nat}
  (hlead : ∀ k' : TokenClass, k'.leads quote = true → k' = k)
  (hpattern : ∀ {w}, w ∈ k.pattern ↔ ∃ v ∈ contents, w = quote :: (v ++ [quote]))
  (hending : ∀ {v}, v ∈ contents → ∀ rest, ending (v ++ quote :: rest) = (true, v.length + 1))

include hlead hpattern hending

theorem longest_quoted (hv : v ∈ contents) (rest : List Char) :
    Longest (quote :: (v ++ quote :: rest)) k (quote :: (v ++ [quote])) := by
  refine Longest.of_lead hlead ⟨rest, by simp⟩ (hpattern.mpr ⟨v, hv, rfl⟩) ?_
  rintro w ⟨rest', hw⟩ hmem
  obtain ⟨v', hv', heq⟩ := hpattern.mp hmem
  obtain rfl : w = v' ++ [quote] := (List.cons.inj heq).2
  have hend := hending hv rest
  rw [← hw, List.append_assoc, List.singleton_append, hending hv' rest'] at hend
  have hlength : v'.length + 1 = v.length + 1 := (Prod.mk.inj hend).2
  simp only [List.length_append, List.length_singleton]
  omega

/-- An unclosed literal matches nothing. -/
theorem right_unclosed (h : (ending cs).1 = false) (n : Nat) : Right quote cs ⟨.invalid, n⟩ := by
  refine .nothing ?_
  intro k' w hw hmem
  obtain ⟨c, u, rfl, hc⟩ := exists_lead hmem
  obtain ⟨rfl, rest, rfl⟩ := List.cons_prefix_cons.mp hw
  obtain rfl := hlead k' hc
  obtain ⟨v, hv, heq⟩ := hpattern.mp hmem
  obtain rfl : u = v ++ [c] := (List.cons.inj heq).2
  rw [List.append_assoc, List.singleton_append, hending hv] at h
  cases h

theorem right_closed {kind : TokenKind} (hclass : kind.tokenClass = k)
    (hblock : kind ≠ .blockComment) (hv : v ∈ contents) (rest : List Char)
    (hvalue : Spells (quote :: (v ++ [quote])) kind) :
    Right quote (v ++ quote :: rest) ⟨.token kind, v.length + 1⟩ := by
  have hlongest := longest_quoted hlead hpattern hending hv rest
  subst hclass
  unfold Right
  rw [take_closing]
  exact .token hblock hlongest hvalue

theorem right_undecodable (hv : v ∈ contents) (rest : List Char)
    (hcontent : Undecodable k (quote :: (v ++ [quote]))) :
    Right quote (v ++ quote :: rest) ⟨.invalid, v.length + 1⟩ := by
  have hlongest := longest_quoted hlead hpattern hending hv rest
  unfold Right
  rw [take_closing]
  exact .literal hlongest hcontent

end Quoted

/-! ## Block comments -/

/-- The ends of block comments. -/
def commentRests : Language Char :=
  {w | CommentRest w}

/-- Where `outer` comments are open around the innermost one, the comment ends with the ends of all
    of them, the innermost first. -/
theorem commentRests_of_blockEnd? {outer : Nat} (h : blockEnd? outer cs = some n) :
    cs.take n ∈ commentRests ^ (outer + 1) := by
  fun_induction blockEnd? outer cs generalizing n with
  | case1 outer cs ih =>
    obtain ⟨m, hm, rfl⟩ := Option.map_eq_some_iff.mp h
    have hmem := ih hm
    rw [pow_succ', pow_succ'] at hmem
    obtain ⟨u, hu, _, ⟨v, hv, w, hw, rfl⟩, heq⟩ := hmem
    rw [pow_succ']
    refine ⟨_, CommentRest.nest hu hv, w, hw, ?_⟩
    simp only [List.take_succ_cons, ← heq]
    simp
  | case2 cs =>
    cases h
    rw [zero_add, pow_one]
    exact CommentRest.close
  | case3 outer cs ih =>
    obtain ⟨m, hm, rfl⟩ := Option.map_eq_some_iff.mp h
    have hmem := ih hm
    rw [pow_succ']
    exact ⟨_, CommentRest.close, _, hmem, rfl⟩
  | case4 outer c cs hopen hclose hcloseOuter ih =>
    obtain ⟨m, hm, rfl⟩ := Option.map_eq_some_iff.mp h
    have hmem := ih hm
    rw [pow_succ'] at hmem ⊢
    obtain ⟨u, hu, w, hw, heq⟩ := hmem
    refine ⟨c :: u, ?_, w, hw, by simp [← heq]⟩
    -- The character after this one is the first of what is left of the comment.
    obtain ⟨d, u, rfl⟩ : ∃ d u', u = d :: u' := by
      cases hu <;> exact ⟨_, _, rfl⟩
    obtain ⟨cs, rfl⟩ : ∃ cs', cs = d :: cs' := by
      cases cs with
      | nil => simp at heq
      | cons d' cs =>
        cases m with
        | zero => simp at heq
        | succ m =>
          simp only [List.take_succ_cons, List.cons_append, List.cons.injEq] at heq
          exact ⟨cs, by rw [heq.1]⟩
    refine CommentRest.other ?_ ?_ hu
    · rintro ⟨rfl, rfl⟩
      exact hopen cs rfl rfl
    · rintro ⟨rfl, rfl⟩
      cases outer with
      | zero => exact hclose cs rfl rfl rfl
      | succ outer => exact hcloseOuter outer cs rfl rfl rfl
  | case5 => cases h

theorem commentRest_of_blockEnd? (h : blockEnd? 0 cs = some n) : CommentRest (cs.take n) := by
  have hrest := commentRests_of_blockEnd? h
  rw [zero_add, pow_one] at hrest
  exact hrest

/-- What belongs to a comment is read to its end. Where comments are open around it, reading goes on
    for the next of them. -/
theorem blockEnd?_of_commentRest (h : CommentRest w) (rest : List Char) :
    blockEnd? 0 (w ++ rest) = some w.length ∧
      ∀ outer, blockEnd? (outer + 1) (w ++ rest) =
        (blockEnd? outer rest).map (· + w.length) := by
  induction h generalizing rest with
  | close => exact ⟨rfl, fun _ => rfl⟩
  | @nest u w _ _ ihu ihw =>
    have hopen : ∀ outer, blockEnd? outer ('{' :: '-' :: (u ++ w) ++ rest) =
        ((blockEnd? outer (w ++ rest)).map (· + u.length)).map (· + 2) := by
      intro outer
      rw [← (ihu (w ++ rest)).2 outer, List.cons_append, List.cons_append, List.append_assoc,
        blockEnd?]
    obtain ⟨hlast, hmore⟩ := ihw rest
    have hlength : ('{' :: '-' :: (u ++ w)).length = w.length + u.length + 2 := by
      simp only [List.length_cons, List.length_append]
      omega
    refine ⟨?_, fun outer => ?_⟩
    · rw [hopen, hlast, hlength]
      rfl
    · rw [hopen, hmore, hlength]
      cases blockEnd? outer rest with
      | none => rfl
      | some n =>
        show some (n + w.length + u.length + 2) = some (n + (w.length + u.length + 2))
        rw [Nat.add_assoc n, Nat.add_assoc n]
  | @other c d w hopens hcloses _ ih =>
    have hstep : ∀ outer, blockEnd? outer (c :: d :: w ++ rest) =
        (blockEnd? outer (d :: w ++ rest)).map (· + 1) := by
      intro outer
      rw [List.cons_append, List.cons_append, blockEnd?]
      · rintro cs rfl heq
        exact hopens ⟨rfl, (List.cons.inj heq).1⟩
      · rintro tail - rfl heq
        exact hcloses ⟨rfl, (List.cons.inj heq).1⟩
      · rintro n cs - rfl heq
        exact hcloses ⟨rfl, (List.cons.inj heq).1⟩
    obtain ⟨hlast, hmore⟩ := ih rest
    refine ⟨?_, fun outer => ?_⟩
    · rw [hstep, hlast]
      rfl
    · rw [hstep, hmore]
      cases blockEnd? outer rest with
      | none => rfl
      | some n => rfl

/-- The scan for the end reads the bytes of what belongs to the comment. -/
theorem commentEnd?_of_commentRest (h : CommentRest w) (rest : List Char) :
    commentEnd? 1 0 (utf8 (w ++ rest)) = some (byteLength w) := by
  rw [commentEnd?_utf8, (blockEnd?_of_commentRest h rest).1]
  simp

/-- The opening of a block comment is the longest match where it stands. -/
theorem longest_opening (rest : List Char) :
    Longest ('{' :: '-' :: rest) .blockComment ['{', '-'] where
  starts := ⟨rest, rfl⟩
  mem := rfl
  longest := by
    intro k' w' hw' hmem
    obtain ⟨c, v, rfl, hc⟩ := exists_lead hmem
    obtain ⟨rfl, -⟩ := List.cons_prefix_cons.mp hw'
    rcases lead_brace k' hc with rfl | rfl <;> cases hmem <;> decide

/-! ## The first piece of a source -/

theorem right_string : Right '"' cs (stringPiece cs) := by
  have hlead : ∀ k : TokenClass, k.leads '"' = true → k = .string := by
    intro k
    cases k <;> decide
  unfold stringPiece
  split
  · next n hend =>
    exact right_unclosed hlead mem_string stringEnd_of_items (by rw [hend]) n
  · next n hend =>
    obtain ⟨v, hv, rest, rfl, rfl⟩ := items_of_stringEnd hend
    rw [Nat.add_sub_cancel, List.take_left]
    split
    · next value hread =>
      refine right_closed hlead mem_string stringEnd_of_items rfl (by simp) hv rest ?_
      exact .string (Text.Escape.read?_eq_some_iff.mp hread)
    · next hread =>
      refine right_undecodable hlead mem_string stringEnd_of_items hv rest ?_
      exact .string (Text.Escape.read?_eq_none_iff.mp hread)

theorem right_char : Right '\'' cs (charPiece cs) := by
  have hlead : ∀ k : TokenClass, k.leads '\'' = true → k = .char := by
    intro k
    cases k <;> decide
  unfold charPiece
  split
  · next n hend =>
    exact right_unclosed hlead mem_char charEnd_of_item (by rw [hend]) n
  · next n hend =>
    obtain ⟨v, hv, rest, rfl, rfl⟩ := item_of_charEnd hend
    rw [Nat.add_sub_cancel, List.take_left]
    split
    · next value hread =>
      refine right_closed hlead mem_char charEnd_of_item rfl (by simp) hv rest ?_
      exact .char (Text.Escape.readChar?_eq_some_iff.mp hread)
    · next hread =>
      refine right_undecodable hlead mem_char charEnd_of_item hv rest (.char ?_)
      rintro ⟨value, hvalue⟩
      rw [Text.Escape.readChar?_eq_some_iff.mpr hvalue] at hread
      cases hread

theorem right_int (h : isDigit c = true) : Right c cs (intPiece c cs) := by
  have hdigits : ∀ d ∈ c :: cs.take (count isDigit cs), isDigit d = true := by
    rw [take_count]
    exact List.forall_mem_cons.mpr ⟨h, fun d hd => List.mem_takeWhile_imp hd⟩
  have hvalue : Text.Decimal.signedValue (c :: cs.take (count isDigit cs)) =
      (Nat.ofDigitChars 10 (c :: cs.take (count isDigit cs)) 0 : Int) := by
    unfold Text.Decimal.signedValue
    split
    · next heq =>
      obtain ⟨rfl, -⟩ := List.cons.inj heq
      exact absurd h (by decide)
    · rfl
  refine .token (by simp) ?_ ?_
  · refine longest_run (lead_of_isDigit h) ?_
    intro v
    refine mem_int.trans ?_
    constructor
    · rintro ⟨ds, -, hds, rfl | heq⟩
      · exact (List.forall_mem_cons.mp hds).2
      · obtain ⟨rfl, rfl⟩ := List.cons.inj heq
        exact hds
    · intro hv
      exact ⟨c :: v, List.cons_ne_nil _ _, List.forall_mem_cons.mpr ⟨h, hv⟩, .inl rfl⟩
  · rw [hvalue]
    exact .natural hdigits

theorem minus_mem_int (h : '-' :: v ∈ TokenClass.int.pattern) :
    v ≠ [] ∧ ∀ d ∈ v, isDigit d = true := by
  obtain ⟨ds, hne, hds, rfl | heq⟩ := mem_int.mp h
  · exact absurd (hds '-' List.mem_cons_self) (by decide)
  · obtain rfl : v = ds := (List.cons.inj heq).2
    exact ⟨hne, hds⟩

theorem minus_mem_lineComment (h : '-' :: v ∈ TokenClass.lineComment.pattern) :
    ∃ u, (∀ c ∈ u, (c != '\n') = true) ∧ v = '-' :: u := by
  obtain ⟨u, hu, heq⟩ := mem_lineComment.mp h
  exact ⟨u, hu, (List.cons.inj heq).2⟩

/-- A minus sign before a digit starts an integer, and no comment. -/
theorem longest_negative (h : isDigit c = true) :
    Longest ('-' :: c :: cs) .int ('-' :: (c :: cs).take (count isDigit (c :: cs))) := by
  have htake := take_count isDigit (c :: cs)
  have hdigits : ∀ d ∈ (c :: cs).takeWhile isDigit, isDigit d = true :=
    fun d hd => List.mem_takeWhile_imp hd
  have hne : (c :: cs).takeWhile isDigit ≠ [] := by
    rw [List.takeWhile_cons_of_pos h]
    exact List.cons_ne_nil _ _
  refine ⟨List.cons_prefix_cons.mpr ⟨rfl, List.take_prefix _ _⟩, ?_, ?_⟩
  · rw [htake]
    exact mem_int.mpr ⟨_, hne, hdigits, .inr rfl⟩
  · intro k' w' hw' hmem
    obtain ⟨d, v, rfl, hd⟩ := exists_lead hmem
    obtain ⟨rfl, hv⟩ := List.cons_prefix_cons.mp hw'
    rcases lead_minus k' hd with rfl | rfl
    · obtain ⟨u, -, rfl⟩ := minus_mem_lineComment hmem
      obtain ⟨rfl, -⟩ := List.cons_prefix_cons.mp hv
      exact absurd h (by decide)
    · have hle := length_le_count hv (minus_mem_int hmem).2
      rw [htake]
      exact ⟨Nat.succ_le_succ hle, fun _ => rfl⟩

/-- Two minus signs start a comment, and no integer. -/
theorem longest_lineComment : Longest ('-' :: '-' :: cs) .lineComment
    ('-' :: '-' :: cs.take (count (· ≠ '\n') cs)) := by
  have htake := take_count (· ≠ '\n') cs
  refine ⟨?_, ?_, ?_⟩
  · exact List.cons_prefix_cons.mpr ⟨rfl, List.cons_prefix_cons.mpr ⟨rfl, List.take_prefix _ _⟩⟩
  · rw [htake]
    refine mem_lineComment.mpr ⟨_, ?_, rfl⟩
    intro d hd
    simpa using List.mem_takeWhile_imp hd
  · intro k' w' hw' hmem
    obtain ⟨d, v, rfl, hd⟩ := exists_lead hmem
    obtain ⟨rfl, hv⟩ := List.cons_prefix_cons.mp hw'
    rcases lead_minus k' hd with rfl | rfl
    · obtain ⟨u, hu, rfl⟩ := minus_mem_lineComment hmem
      obtain ⟨-, hu'⟩ := List.cons_prefix_cons.mp hv
      have hle : u.length ≤ count (· ≠ '\n') cs := length_le_count hu' (by simpa using hu)
      rw [htake]
      exact ⟨Nat.succ_le_succ (Nat.succ_le_succ hle), fun _ => rfl⟩
    · obtain ⟨hne, hdigits⟩ := minus_mem_int hmem
      cases v with
      | nil => exact absurd rfl hne
      | cons d v =>
        obtain ⟨rfl, -⟩ := List.cons_prefix_cons.mp hv
        exact absurd (hdigits '-' List.mem_cons_self) (by decide)

/-- A minus sign before anything else matches nothing. -/
theorem not_mem_of_minus (hminus : ∀ d ∈ cs.head?, d ≠ '-' ∧ isDigit d = false) (k : TokenClass)
    (hw : w <+: '-' :: cs) : w ∉ k.pattern := by
  intro hmem
  obtain ⟨d, v, rfl, hd⟩ := exists_lead hmem
  obtain ⟨rfl, rest, rfl⟩ := List.cons_prefix_cons.mp hw
  rcases lead_minus k hd with rfl | rfl
  · obtain ⟨u, -, rfl⟩ := minus_mem_lineComment hmem
    exact (hminus '-' rfl).1 rfl
  · obtain ⟨hne, hv⟩ := minus_mem_int hmem
    cases v with
    | nil => exact absurd rfl hne
    | cons d v =>
      have hdigit := (hminus d rfl).2
      rw [hv d List.mem_cons_self] at hdigit
      cases hdigit

theorem right_minus : Right '-' cs (minusPiece cs) := by
  unfold minusPiece
  split
  · next cs =>
    exact .token (by simp) longest_lineComment (.valueless (by simp) (by simp) (by simp))
  · next c cs hminus =>
    split
    · next hdigit =>
      refine .token (by simp) (longest_negative hdigit) (.negative ?_)
      intro d hd
      have hd : d ∈ (c :: cs).take (count isDigit (c :: cs)) := hd
      rw [take_count] at hd
      exact List.mem_takeWhile_imp hd
    · next hdigit =>
      refine .nothing ?_
      intro k w hw
      refine not_mem_of_minus ?_ k hw
      rintro d ⟨⟩
      exact ⟨hminus, by simpa using hdigit⟩
  · refine .nothing ?_
    intro k w hw
    exact not_mem_of_minus (by simp) k hw

theorem right_brace : Right '{' cs (bracePiece cs) := by
  by_cases hopen : ∃ rest, cs = '-' :: rest
  · obtain ⟨rest, rfl⟩ := hopen
    cases hend : blockEnd? 0 rest with
    | some n =>
      rw [bracePiece_of_end hend]
      exact .comment (longest_opening rest) (commentRest_of_blockEnd? hend)
    | none =>
      rw [bracePiece_of_no_end hend]
      have htaken : ('-' :: rest).take (rest.length + 1) = '-' :: rest := by simp
      unfold Right
      rw [htaken]
      exact .unterminated (longest_opening rest)
  · rw [bracePiece_of_no_minus (fun rest heq => hopen ⟨rest, heq⟩)]
    refine .token (by simp) ?_ (.valueless (by simp) (by simp) (by simp))
    refine ⟨⟨cs, rfl⟩, rfl, ?_⟩
    intro k' w' hw' hmem
    obtain ⟨d, v, rfl, hd⟩ := exists_lead hmem
    obtain ⟨rfl, hv⟩ := List.cons_prefix_cons.mp hw'
    rcases lead_brace k' hd with rfl | rfl
    · cases hmem
      obtain ⟨rest, rfl⟩ := hv
      exact absurd ⟨rest, rfl⟩ hopen
    · cases hmem
      exact ⟨Nat.le_refl _, fun _ => rfl⟩

/-- The first piece of any source is right. -/
theorem piece_right (c : Char) (cs : List Char) : Right c cs (piece c cs) := by
  unfold piece
  split
  case h_5 => exact right_brace
  case h_8 => exact right_minus
  case h_9 => exact right_string
  case h_10 => exact right_char
  case h_11 hminus _ _ =>
    split
    · next hblank =>
      refine .blank (longest_run (lead_of_isBlank hblank) ?_)
      intro v
      rw [TokenClass.pattern, mem_oneOrMore]
      simp [hblank]
    · next hblank =>
      split
      · next hdigit => exact right_int hdigit
      · next hdigit =>
        split
        · next hletter =>
          refine .token (by simp) (longest_run (lead_of_isLetter hletter) ?_)
            (.valueless (by simp) (by simp) (by simp))
          intro v
          refine mem_ident.trans ?_
          simp [hletter]
        · next hletter =>
          have hlead : ∀ k : TokenClass, k.leads c = false := by
            intro k
            cases k with
            | blank => exact Bool.eq_false_iff.mpr hblank
            | int =>
              exact Bool.or_eq_false_iff.mpr
                ⟨beq_eq_false_iff_ne.mpr hminus, Bool.eq_false_iff.mpr hdigit⟩
            | ident => exact Bool.eq_false_iff.mpr hletter
            | _ => exact beq_eq_false_iff_ne.mpr (by assumption)
          exact .nothing fun k w hw => not_mem_of_lead hlead k hw
  all_goals
    refine right_delimiter rfl ?_ (.valueless (by simp) (by simp) (by simp)) (by simp)
    intro k
    cases k <;> decide

end Lexer

end FOmega
