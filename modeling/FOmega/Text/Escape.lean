/-!
# Escapes in quoted literals

A literal stands between quotes. Writing escapes tab, carriage return, line feed, both quotes and
the backslash by a letter or by themselves, keeps printable ASCII, and gives every other character
as `\u{…}` with its code point in lower-case hexadecimal. Reading takes more spellings than writing
produces: `\0`, an escaped character that needs no escape, and a code point in either case, with
leading zeros or a leading plus sign, that may also be ended by the end of the literal.
-/

namespace FOmega.Text.Escape

/-! ## Writing -/

/-- The escaped form of one character. -/
def char (c : Char) : List Char :=
  match c with
  | '\t' => ['\\', 't']
  | '\r' => ['\\', 'r']
  | '\n' => ['\\', 'n']
  | '\'' => ['\\', '\'']
  | '"' => ['\\', '"']
  | '\\' => ['\\', '\\']
  | c =>
    if ' ' ≤ c && c ≤ '~' then [c]
    else '\\' :: 'u' :: '{' :: (Nat.toDigits 16 c.toNat ++ ['}'])

/-- The escaped form of a text. -/
def write (cs : List Char) : List Char :=
  cs.flatMap char

/-! ## Reading -/

/-- Holds of the ASCII digits and the letters `a` to `f` in either case. -/
def isHexDigit (c : Char) : Bool :=
  ('0' ≤ c && c ≤ '9') || ('a' ≤ c && c ≤ 'f') || ('A' ≤ c && c ≤ 'F')

/-- The value of one hexadecimal digit. -/
def hexDigit (c : Char) : Nat :=
  if c ≤ '9' then c.toNat - '0'.toNat
  else if c ≤ 'F' then c.toNat - 'A'.toNat + 10
  else c.toNat - 'a'.toNat + 10

/-- The number that a run of hexadecimal digits denotes. -/
def hexValue (digits : List Char) : Nat :=
  digits.foldl (fun n c => 16 * n + hexDigit c) 0

/-- The digits of a code point, which one plus sign may precede. -/
def unsigned : List Char → List Char
  | '+' :: digits => digits
  | digits => digits

/-- The character with the given hexadecimal code point, if the text is a non-empty run of digits
    and the number is a Unicode scalar value. -/
def codePoint? (cs : List Char) : Option Char :=
  let digits := unsigned cs
  if !digits.isEmpty && digits.all isHexDigit && decide (hexValue digits).isValidChar then
    some (Char.ofNat (hexValue digits))
  else none

/-- The character that a backslash and `c` stand for, unless `c` opens a code point. -/
def escaped (c : Char) : Char :=
  match c with
  | 'n' => '\n'
  | 'r' => '\r'
  | 't' => '\t'
  | '0' => '\x00'
  | c => c

/-- What follows a code point: the text after the first closing brace. -/
def afterBrace (cs : List Char) : List Char :=
  (cs.dropWhile (· ≠ '}')).tail

/-- A code point's text is followed by no more than was there. -/
theorem length_afterBrace_le (cs : List Char) : (afterBrace cs).length ≤ cs.length := by
  have h := (List.dropWhile_suffix (l := cs) (· ≠ '}')).length_le
  simp only [afterBrace, List.length_tail]
  omega

/-- The text that an escaped text stands for. It is refused if a backslash ends it, if `\u` is not
    followed by an opening brace, or if the text up to the closing brace, or up to the end when
    there is none, is no code point. -/
def read? : List Char → Option (List Char)
  | [] => some []
  | '\\' :: 'u' :: '{' :: cs =>
    (codePoint? (cs.takeWhile (· ≠ '}'))).bind fun c => (read? (afterBrace cs)).map (c :: ·)
  | '\\' :: 'u' :: _ => none
  | '\\' :: c :: cs => (read? cs).map (escaped c :: ·)
  | ['\\'] => none
  | c :: cs => (read? cs).map (c :: ·)
termination_by cs => cs.length
decreasing_by
  all_goals simp only [List.length_cons]
  · have := length_afterBrace_le cs
    omega
  all_goals omega

/-- The one character that an escaped text stands for. -/
def readChar? (cs : List Char) : Option Char :=
  match read? cs with
  | some [c] => some c
  | _ => none

end FOmega.Text.Escape
