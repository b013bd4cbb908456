import FOmega.Text.Escape
import Mathlib.Data.List.TakeWhile
import Mathlib.Data.Nat.Digits.Defs

/-!
# What an escaped text stands for

The meaning of an escaped text is a relation with one rule for each form of an item, and reading
finds a text exactly if the relation has one. What writing makes of a text means that text, so it is
read back.
-/

namespace FOmega.Text.Escape

variable {cs vs digits : List Char} {c v : Char}

/-! ## Code points -/

/-- The text gives the code point of the character in hexadecimal: one or more digits, which one
    plus sign may precede. -/
def CodePoint (cs : List Char) (v : Char) : Prop :=
  ∃ digits, digits ≠ [] ∧ (∀ d ∈ digits, isHexDigit d = true) ∧
    (cs = digits ∨ cs = '+' :: digits) ∧ Nat.ofDigits 16 (digits.reverse.map hexDigit) = v.toNat

theorem hexValue_eq_ofDigits (digits : List Char) :
    hexValue digits = Nat.ofDigits 16 (digits.reverse.map hexDigit) := by
  rw [hexValue, Nat.ofDigits_eq_foldr, List.foldr_map, List.foldr_reverse]
  simp [Nat.add_comm]

theorem unsigned_cases (cs : List Char) : cs = unsigned cs ∨ cs = '+' :: unsigned cs := by
  unfold unsigned
  split <;> simp

theorem unsigned_of_digits (h : ∀ d ∈ digits, isHexDigit d = true) : unsigned digits = digits := by
  unfold unsigned
  split
  · next ds =>
    have hplus := h '+' List.mem_cons_self
    exact absurd hplus (by decide)
  · rfl

theorem codePoint?_eq_some_iff : codePoint? cs = some v ↔ CodePoint cs v := by
  constructor
  · intro h
    simp only [codePoint?] at h
    split at h
    · next hcond =>
      simp only [Bool.and_eq_true, Bool.not_eq_true', List.isEmpty_eq_false_iff, List.all_eq_true,
        decide_eq_true_eq] at hcond
      refine ⟨unsigned cs, hcond.1.1, hcond.1.2, unsigned_cases cs, ?_⟩
      rw [← hexValue_eq_ofDigits, ← Option.some.inj h, Char.ofNat, dif_pos hcond.2]
      rfl
    · cases h
  · rintro ⟨digits, hne, hdigits, hcs, hvalue⟩
    have hunsigned : unsigned cs = digits := by
      rcases hcs with rfl | rfl
      · exact unsigned_of_digits hdigits
      · rfl
    have hhex : hexValue digits = v.toNat := (hexValue_eq_ofDigits digits).trans hvalue
    have hvalid : v.toNat.isValidChar := v.valid
    have hall : digits.all isHexDigit = true := List.all_eq_true.mpr hdigits
    simp only [codePoint?, hunsigned, hhex, hall, decide_eq_true hvalid, Char.ofNat_toNat,
      List.isEmpty_eq_false_iff.mpr hne]
    rfl

theorem CodePoint.ne_brace (h : CodePoint cs v) : ∀ d ∈ cs, d ≠ '}' := by
  rintro d hd rfl
  obtain ⟨digits, -, hdigits, rfl | rfl, -⟩ := h
  · exact absurd (hdigits '}' hd) (by decide)
  · have hmem : '}' ∈ digits := by simpa using hd
    exact absurd (hdigits '}' hmem) (by decide)

/-! ## Meaning -/

/-- The escaped text on the left stands for the text on the right. A code point may be ended by the
    end of the text instead of its brace. -/
inductive Unescapes : List Char → List Char → Prop where
  | nil : Unescapes [] []
  | plain {c : Char} {cs vs : List Char} (ne : c ≠ '\\') (rest : Unescapes cs vs) :
    Unescapes (c :: cs) (c :: vs)
  | escape {c : Char} {cs vs : List Char} (ne : c ≠ 'u') (rest : Unescapes cs vs) :
    Unescapes ('\\' :: c :: cs) (escaped c :: vs)
  | codePoint {hex cs vs : List Char} {v : Char} (point : CodePoint hex v)
    (rest : Unescapes cs vs) : Unescapes ('\\' :: 'u' :: '{' :: (hex ++ '}' :: cs)) (v :: vs)
  | lastCodePoint {hex : List Char} {v : Char} (point : CodePoint hex v) :
    Unescapes ('\\' :: 'u' :: '{' :: hex) [v]

/-- A text is what stands before its first closing brace, and that brace with what follows it, if it
    has one. -/
theorem beforeBrace_cases (cs : List Char) :
    cs = cs.takeWhile (· ≠ '}') ++ '}' :: afterBrace cs ∨
      (cs = cs.takeWhile (· ≠ '}') ∧ afterBrace cs = []) := by
  have hsplit := List.takeWhile_append_dropWhile (p := (· ≠ '}')) (l := cs)
  unfold afterBrace
  cases hrest : cs.dropWhile (· ≠ '}') with
  | nil =>
    rw [hrest, List.append_nil] at hsplit
    exact .inr ⟨hsplit.symm, rfl⟩
  | cons d ds =>
    have hd := List.head?_dropWhile_not (· ≠ '}') cs
    rw [hrest] at hd hsplit
    obtain rfl : d = '}' := by simpa using hd
    exact .inl hsplit.symm

theorem takeWhile_codePoint (h : ∀ d ∈ cs, d ≠ '}') (rest : List Char) :
    (cs ++ '}' :: rest).takeWhile (· ≠ '}') = cs ∧ afterBrace (cs ++ '}' :: rest) = rest := by
  have hall : ∀ d ∈ cs, decide (d ≠ '}') = true := by simpa using h
  refine ⟨?_, ?_⟩
  · rw [List.takeWhile_append_of_pos hall]
    simp
  · rw [afterBrace, List.dropWhile_append_of_pos hall]
    simp

theorem takeWhile_lastCodePoint (h : ∀ d ∈ cs, d ≠ '}') :
    cs.takeWhile (· ≠ '}') = cs ∧ afterBrace cs = [] := by
  have hall : ∀ d ∈ cs, decide (d ≠ '}') = true := by simpa using h
  refine ⟨List.takeWhile_eq_self_iff.mpr hall, ?_⟩
  rw [afterBrace, List.dropWhile_eq_nil_iff.mpr hall]
  rfl

theorem unescapes_of_read? (h : read? cs = some vs) : Unescapes cs vs := by
  fun_induction read? cs generalizing vs with
  | case1 =>
    cases h
    exact .nil
  | case2 cs ih =>
    obtain ⟨v, hv, h⟩ := Option.bind_eq_some_iff.mp h
    obtain ⟨ws, hws, rfl⟩ := Option.map_eq_some_iff.mp h
    have hpoint := codePoint?_eq_some_iff.mp hv
    rcases beforeBrace_cases cs with hcs | ⟨hcs, hafter⟩
    · rw [hcs]
      exact .codePoint hpoint (ih hws)
    · -- The end of the text ends the code point, so nothing else follows.
      rw [hafter, read?] at hws
      cases hws
      rw [hcs]
      exact .lastCodePoint hpoint
  | case3 => cases h
  | case4 c cs _ hne ih =>
    obtain ⟨ws, hws, rfl⟩ := Option.map_eq_some_iff.mp h
    exact .escape hne (ih hws)
  | case5 => cases h
  | case6 c cs _ _ hescape hend ih =>
    obtain ⟨ws, hws, rfl⟩ := Option.map_eq_some_iff.mp h
    refine .plain ?_ (ih hws)
    rintro rfl
    cases cs with
    | nil => exact hend rfl rfl
    | cons d ds => exact hescape d ds rfl rfl

theorem read?_of_unescapes (h : Unescapes cs vs) : read? cs = some vs := by
  induction h with
  | nil => simp [read?]
  | plain hne _ ih => simp [read?, hne, ih]
  | escape hne _ ih => simp [read?, hne, ih]
  | @codePoint hex cs vs v hpoint _ ih =>
    obtain ⟨htake, hafter⟩ := takeWhile_codePoint hpoint.ne_brace cs
    rw [read?, htake, hafter, codePoint?_eq_some_iff.mpr hpoint, ih]
    rfl
  | @lastCodePoint hex v hpoint =>
    obtain ⟨htake, hafter⟩ := takeWhile_lastCodePoint hpoint.ne_brace
    rw [read?, htake, hafter, codePoint?_eq_some_iff.mpr hpoint, read?]
    rfl

/-- Reading finds what a text stands for, and fails if it stands for nothing. -/
theorem read?_eq_some_iff : read? cs = some vs ↔ Unescapes cs vs :=
  ⟨unescapes_of_read?, read?_of_unescapes⟩

theorem read?_eq_none_iff : read? cs = none ↔ ¬ ∃ vs, Unescapes cs vs := by
  simp only [Option.eq_none_iff_forall_ne_some, ← read?_eq_some_iff, not_exists, ne_eq]

theorem readChar?_eq_some_iff : readChar? cs = some v ↔ Unescapes cs [v] := by
  rw [← read?_eq_some_iff, readChar?]
  split
  · next h => simp [h]
  · next hne => simpa using hne v

/-! ## Writing -/

theorem hexValue_append_singleton (digits : List Char) (d : Char) :
    hexValue (digits ++ [d]) = 16 * hexValue digits + hexDigit d := by
  simp [hexValue, List.foldl_append]

theorem hexDigit_digitChar :
    ∀ n < 16, hexDigit n.digitChar = n ∧ isHexDigit n.digitChar = true := by
  decide

/-- The hexadecimal digits of a number are digits, and they denote the number. -/
theorem hexValue_toDigits (n : Nat) :
    hexValue (Nat.toDigits 16 n) = n ∧ ∀ d ∈ Nat.toDigits 16 n, isHexDigit d = true := by
  induction n using Nat.strongRecOn with
  | ind n ih =>
    rw [Nat.toDigits_eq_if (by decide)]
    split
    · next hlt =>
      have hdigit := hexDigit_digitChar n hlt
      simp [hexValue, hdigit]
    · next hge =>
      obtain ⟨hvalue, hdigits⟩ := ih (n / 16) (by omega)
      have hlast := hexDigit_digitChar (n % 16) (by omega)
      refine ⟨?_, ?_⟩
      · rw [hexValue_append_singleton, hvalue, hlast.1]
        omega
      · intro d hd
        rcases List.mem_append.mp hd with hd | hd
        · exact hdigits d hd
        · rw [List.mem_singleton.mp hd]
          exact hlast.2

theorem codePoint_toDigits (c : Char) : CodePoint (Nat.toDigits 16 c.toNat) c := by
  obtain ⟨hvalue, hdigits⟩ := hexValue_toDigits c.toNat
  refine ⟨_, Nat.toDigits_ne_nil, hdigits, .inl rfl, ?_⟩
  rw [← hexValue_eq_ofDigits, hvalue]

/-- The escaped form of a character, before a text, stands for the character before what the text
    stands for. -/
theorem unescapes_char (c : Char) (h : Unescapes cs vs) : Unescapes (char c ++ cs) (c :: vs) := by
  unfold char
  split
  case h_7 hbackslash =>
    split
    · exact .plain hbackslash h
    · have hpoint := Unescapes.codePoint (codePoint_toDigits c) h
      simpa using hpoint
  all_goals exact .escape (by decide) h

theorem unescapes_write (cs : List Char) : Unescapes (write cs) cs := by
  induction cs with
  | nil => exact .nil
  | cons c cs ih =>
    rw [write, List.flatMap_cons]
    exact unescapes_char c ih

end FOmega.Text.Escape
