import FOmega.Token.Lexer

/-!
# Scanning bytes for the end of a block comment

The lexer scans the bytes of the source for the end of a block comment. The delimiters are characters
of one byte, and no byte of a longer character is one of theirs. So the scan meets a delimiter exactly
where a reader of characters does, its depth is the number of comments that the reader has open, and
the bytes it has read up to the end are those of the characters read up to there. In particular the
end lies between two characters.
-/

namespace FOmega

/-! ## The bytes of characters -/

@[simp] theorem utf8_nil : utf8 [] = [] :=
  rfl

theorem utf8_cons (c : Char) (cs : List Char) : utf8 (c :: cs) = String.utf8EncodeChar c ++ utf8 cs :=
  rfl

theorem length_utf8 (cs : List Char) : (utf8 cs).length = byteLength cs := by
  induction cs with
  | nil => rfl
  | cons c cs ih =>
    rw [utf8_cons, List.length_append, String.length_utf8EncodeChar, ih]
    rfl

theorem utf8EncodeChar_of_lt {c : Char} (h : c.toNat < 128) :
    String.utf8EncodeChar c = [c.toUInt8] := by
  have hone : c.val.toNat ≤ 127 := Nat.le_of_lt_succ h
  simp only [String.utf8EncodeChar, hone, if_true]
  rfl

/-- After the bytes of the first characters come those of the others. -/
theorem drop_utf8 (before after : List Char) :
    (utf8 (before ++ after)).drop (byteLength before) = utf8 after := by
  rw [utf8, List.flatMap_append, ← length_utf8]
  exact List.drop_left

/-- After the opening of a comment come the bytes of the characters after it. -/
theorem drop_utf8_opening (before after : List Char) :
    (utf8 (before ++ '{' :: '-' :: after)).drop (byteLength before + 2) = utf8 after := by
  rw [← List.drop_drop, drop_utf8]
  rfl

/-- A character of one byte is the only one with its byte. -/
theorem eq_of_mem_utf8EncodeChar {c d : Char} (hd : d.toNat < 128)
    (h : d.toUInt8 ∈ String.utf8EncodeChar c) : c = d := by
  have hbyte : d.toUInt8.toNat = d.toNat := Nat.mod_eq_of_lt (Nat.lt_trans hd (by decide))
  simp only [String.utf8EncodeChar] at h
  split at h
  · next hone =>
    have hlt : c.val.toNat < 2 ^ 8 := by omega
    rw [List.mem_singleton.mp h, UInt8.toNat_ofNat', Nat.mod_eq_of_lt hlt] at hbyte
    exact Char.toNat_inj.mp hbyte
  · -- Every byte of a character of several bytes has its highest bit set.
    have hhigh : ∀ n, d.toUInt8 = UInt8.ofNat n → n % 256 < 128 := by
      intro n hn
      rw [hn, UInt8.toNat_ofNat'] at hbyte
      omega
    split at h
    · simp only [List.mem_cons, List.not_mem_nil, or_false] at h
      rcases h with h | h <;> have hlow := hhigh _ h <;> omega
    · split at h
      · simp only [List.mem_cons, List.not_mem_nil, or_false] at h
        rcases h with h | h | h <;> have hlow := hhigh _ h <;> omega
      · simp only [List.mem_cons, List.not_mem_nil, or_false] at h
        rcases h with h | h | h | h <;> have hlow := hhigh _ h <;> omega

/-- The bytes of a text start with a given character of one byte if its characters do. -/
theorem head?_utf8 {d : Char} (hd : d.toNat < 128) (cs : List Char) :
    (utf8 cs).head? = some d.toUInt8 ↔ cs.head? = some d := by
  cases cs with
  | nil => simp
  | cons c cs =>
    rw [utf8_cons]
    constructor
    · intro h
      obtain ⟨b, bytes, hbytes⟩ : ∃ b bytes, String.utf8EncodeChar c = b :: bytes := by
        refine List.exists_cons_of_length_pos ?_
        rw [String.length_utf8EncodeChar]
        exact c.utf8Size_pos
      rw [hbytes, List.cons_append, List.head?_cons, Option.some.injEq] at h
      have hmem : d.toUInt8 ∈ String.utf8EncodeChar c := by simp [hbytes, h]
      rw [eq_of_mem_utf8EncodeChar hd hmem, List.head?_cons]
    · intro h
      cases h
      rw [utf8EncodeChar_of_lt hd]
      rfl

namespace Lexer

variable {depth i outer n : Nat} {c : Char} {cs : List Char}

/-! ## Steps of the scan -/

/-- The scan goes on by one byte where no delimiter starts. -/
theorem commentEnd?_cons {a : UInt8} {bytes : List UInt8}
    (hopen : ¬ (a = '{'.toUInt8 ∧ bytes.head? = some '-'.toUInt8))
    (hclose : ¬ (a = '-'.toUInt8 ∧ bytes.head? = some '}'.toUInt8)) (depth i : Nat) :
    commentEnd? depth i (a :: bytes) = commentEnd? depth (i + 1) bytes := by
  cases bytes with
  | nil => rfl
  | cons b bytes =>
    rw [List.head?_cons, Option.some.injEq] at hopen hclose
    rw [commentEnd?, if_neg hopen, if_neg hclose]

theorem commentEnd?_append {run : List UInt8}
    (h : ∀ a ∈ run, a ≠ '{'.toUInt8 ∧ a ≠ '-'.toUInt8) (depth i : Nat) (bytes : List UInt8) :
    commentEnd? depth i (run ++ bytes) = commentEnd? depth (i + run.length) bytes := by
  induction run generalizing i with
  | nil => rfl
  | cons a run ih =>
    obtain ⟨ha, hrun⟩ := List.forall_mem_cons.mp h
    rw [List.cons_append, commentEnd?_cons (fun hopen => ha.1 hopen.1) (fun hclose => ha.2 hclose.1),
      ih hrun, List.length_cons, Nat.add_assoc, Nat.add_comm 1]

/-- The scan goes on by one character where no delimiter starts. -/
theorem commentEnd?_char (hopen : ¬ (c = '{' ∧ cs.head? = some '-'))
    (hclose : ¬ (c = '-' ∧ cs.head? = some '}')) (depth i : Nat) :
    commentEnd? depth i (utf8 (c :: cs)) = commentEnd? depth (i + c.utf8Size) (utf8 cs) := by
  rw [utf8_cons, ← String.length_utf8EncodeChar c]
  by_cases hc : c = '{' ∨ c = '-'
  · -- A character that could start a delimiter is a single byte.
    have hone : String.utf8EncodeChar c = [c.toUInt8] := by
      rcases hc with rfl | rfl <;> rfl
    have hopen' : ¬ (c.toUInt8 = '{'.toUInt8 ∧ (utf8 cs).head? = some '-'.toUInt8) := by
      rw [head?_utf8 (by decide)]
      rcases hc with rfl | rfl
      · exact fun h => hopen ⟨rfl, h.2⟩
      · exact fun h => absurd h.1 (by decide)
    have hclose' : ¬ (c.toUInt8 = '-'.toUInt8 ∧ (utf8 cs).head? = some '}'.toUInt8) := by
      rw [head?_utf8 (by decide)]
      rcases hc with rfl | rfl
      · exact fun h => absurd h.1 (by decide)
      · exact fun h => hclose ⟨rfl, h.2⟩
    rw [hone]
    exact commentEnd?_cons hopen' hclose' depth i
  · refine commentEnd?_append (fun a ha => ⟨?_, ?_⟩) depth i (utf8 cs)
    · rintro rfl
      exact hc (.inl (eq_of_mem_utf8EncodeChar (by decide) ha))
    · rintro rfl
      exact hc (.inr (eq_of_mem_utf8EncodeChar (by decide) ha))

theorem commentEnd?_opening (depth i : Nat) (cs : List Char) :
    commentEnd? depth i (utf8 ('{' :: '-' :: cs)) = commentEnd? (depth + 1) (i + 2) (utf8 cs) :=
  rfl

/-- The end of a comment closes the innermost one, and the scan ends with the outermost one. -/
theorem commentEnd?_closing (outer i : Nat) (cs : List Char) :
    commentEnd? (outer + 1) i (utf8 ('-' :: '}' :: cs)) =
      if outer = 0 then some (i + 2) else commentEnd? outer (i + 2) (utf8 cs) :=
  rfl

/-! ## The same scan over characters -/

/-- The number of characters up to and including the end of a block comment, where `outer` comments
    are open around the innermost one; none if they are not all closed. -/
def blockEnd? : (outer : Nat) → List Char → Option Nat
  | outer, '{' :: '-' :: cs => (blockEnd? (outer + 1) cs).map (· + 2)
  | 0, '-' :: '}' :: _ => some 2
  | outer + 1, '-' :: '}' :: cs => (blockEnd? outer cs).map (· + 2)
  | outer, _ :: cs => (blockEnd? outer cs).map (· + 1)
  | _, [] => none

/-- The bytes that the scan reads are those of the characters up to the end of the comment. -/
theorem commentEnd?_utf8 (outer i : Nat) (cs : List Char) :
    commentEnd? (outer + 1) i (utf8 cs) =
      (blockEnd? outer cs).map fun n => i + byteLength (cs.take n) := by
  have hopening : '{'.utf8Size + '-'.utf8Size = 2 := rfl
  have hclosing : '-'.utf8Size + '}'.utf8Size = 2 := rfl
  fun_induction blockEnd? outer cs generalizing i with
  | case1 outer cs ih =>
    rw [commentEnd?_opening, ih, Option.map_map]
    refine congrArg (Option.map · _) (funext fun n => ?_)
    simp only [Function.comp_apply, List.take_succ_cons, byteLength]
    omega
  | case2 cs => rw [commentEnd?_closing, if_pos rfl]; rfl
  | case3 outer cs ih =>
    rw [commentEnd?_closing, if_neg (Nat.succ_ne_zero outer), ih, Option.map_map]
    refine congrArg (Option.map · _) (funext fun n => ?_)
    simp only [Function.comp_apply, List.take_succ_cons, byteLength]
    omega
  | case4 outer c cs hopen hclose hcloseOuter ih =>
    have hopen' : ¬ (c = '{' ∧ cs.head? = some '-') := by
      rintro ⟨rfl, hhead⟩
      obtain ⟨rest, rfl⟩ := List.head?_eq_some_iff.mp hhead
      exact hopen rest rfl rfl
    have hclose' : ¬ (c = '-' ∧ cs.head? = some '}') := by
      rintro ⟨rfl, hhead⟩
      obtain ⟨rest, rfl⟩ := List.head?_eq_some_iff.mp hhead
      cases outer with
      | zero => exact hclose rest rfl rfl rfl
      | succ outer => exact hcloseOuter outer rest rfl rfl rfl
    rw [commentEnd?_char hopen' hclose', ih, Option.map_map]
    refine congrArg (Option.map · _) (funext fun n => ?_)
    simp only [Function.comp_apply, List.take_succ_cons, byteLength]
    omega
  | case5 => rfl

theorem blockEnd?_le (h : blockEnd? outer cs = some n) : n ≤ cs.length := by
  fun_induction blockEnd? outer cs generalizing n with
  | case1 outer cs ih | case3 outer cs ih | case4 outer c cs _ _ _ ih =>
    obtain ⟨m, hm, rfl⟩ := Option.map_eq_some_iff.mp h
    have hle := ih hm
    simp only [List.length_cons]
    omega
  | case2 cs =>
    cases h
    simp
  | case5 => cases h

/-- The characters that begin within the bytes of the first ones are the first ones. -/
theorem charsWithin_byteLength (h : n ≤ cs.length) : charsWithin (byteLength (cs.take n)) cs = n := by
  induction cs generalizing n with
  | nil =>
    obtain rfl := Nat.le_zero.mp h
    rfl
  | cons c cs ih =>
    cases n with
    | zero => rfl
    | succ n =>
      have hpos := c.utf8Size_pos
      rw [List.take_succ_cons, byteLength, charsWithin, Nat.add_sub_cancel_left,
        ih (Nat.le_of_succ_le_succ h)]
      omega

theorem bracePiece_of_end (h : blockEnd? 0 cs = some n) :
    bracePiece ('-' :: cs) = ⟨.token .blockComment, n + 1⟩ := by
  simp [bracePiece, commentEnd?_utf8, h, charsWithin_byteLength (blockEnd?_le h)]

theorem bracePiece_of_no_end (h : blockEnd? 0 cs = none) :
    bracePiece ('-' :: cs) = ⟨.unterminated, cs.length + 1⟩ := by
  simp [bracePiece, commentEnd?_utf8, h]

theorem bracePiece_of_no_minus (h : ∀ rest, cs ≠ '-' :: rest) :
    bracePiece cs = ⟨.token .lbrace, 0⟩ := by
  unfold bracePiece
  split
  · next rest => exact absurd rfl (h rest)
  · rfl

end Lexer

end FOmega
