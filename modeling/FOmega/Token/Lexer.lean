import FOmega.Token
import FOmega.Text.Decimal
import FOmega.Text.Escape
import FOmega.Text.Letter
import FOmega.Text.Numeral

/-!
# From source text to tokens

The lexer cuts a source into pieces from left to right. A piece is a run of blanks, a token, an
invalid stretch, or a block comment that is never closed, which ends the work. Where a literal is
started but not completed, the invalid stretch covers what was read of it; where nothing can start
at all, it covers one character. The end of a block comment is looked for among the bytes of what is
left, all else among the characters.
-/

namespace FOmega

/-! ## Results -/

/-- Why a stretch of the source is no token. -/
inductive LexErrorKind where
  | invalidToken
  | unterminatedComment
  deriving DecidableEq

/-- The report of a lexical error. -/
def LexErrorKind.message : LexErrorKind → String
  | invalidToken => "invalid token"
  | unterminatedComment => "unterminated block comment"

/-- A lexical error and its place. -/
structure LexError where
  kind : LexErrorKind
  span : Span
  deriving DecidableEq

/-- The tokens and the errors of a source, each in the order of the source. -/
structure Lexed where
  tokens : List Token
  errors : List LexError
  deriving DecidableEq

/-- The tokens that are no comments, and all errors. -/
def Lexed.withoutComments (l : Lexed) : Lexed :=
  ⟨l.tokens.filter fun t => !t.kind.isComment, l.errors⟩

namespace Lexer

/-! ## Character classes -/

/-- The characters that only separate tokens: blank, tab, carriage return, line feed and form
    feed. -/
def isBlank (c : Char) : Bool :=
  c == ' ' || c == '\t' || c == '\r' || c == '\n' || c == '\x0c'

/-- The characters that may follow the first letter of an identifier. -/
def isIdentRest (c : Char) : Bool :=
  Text.isLetter c || Text.isNumeral c || c == '_' || c == '\''

/-! ## Pieces -/

/-- What a piece of the source is. -/
inductive Verdict where
  | blank
  | token (kind : TokenKind)
  | invalid
  | unterminated
  deriving DecidableEq

/-- A piece of the source: what it is, and how many characters it has beyond its first. -/
structure Piece where
  verdict : Verdict
  more : Nat
  deriving DecidableEq

/-- The number of leading characters in a class. -/
def count (p : Char → Bool) (cs : List Char) : Nat :=
  (cs.takeWhile p).length

/-- The number of characters that begin within the first `n` bytes of a text. -/
def charsWithin : (n : Nat) → List Char → Nat
  | 0, _ => 0
  | _, [] => 0
  | n, c :: cs => charsWithin (n - c.utf8Size) cs + 1

/-- Scans bytes for the end of a block comment, two at a time, where `depth` comments are open and
    `i` bytes are read. The end closes all of them; it is given by the number of bytes read up to
    and including it. There is none if less than two bytes are left before. -/
def commentEnd? : (depth i : Nat) → List UInt8 → Option Nat
  | depth, i, a :: b :: bytes =>
    if a = '{'.toUInt8 ∧ b = '-'.toUInt8 then commentEnd? (depth + 1) (i + 2) bytes
    else if a = '-'.toUInt8 ∧ b = '}'.toUInt8 then
      if depth - 1 = 0 then some (i + 2) else commentEnd? (depth - 1) (i + 2) bytes
    else commentEnd? depth (i + 1) (b :: bytes)
  | _, _, _ => none

/-- How far a string reaches after its opening quote, and whether it is closed there. It cannot go
    past a backslash before a line feed or before the end, which then still belongs to it. Nor does
    it go on after the backslash of a code point that the end cuts off right at its opening
    brace. -/
def stringEnd : List Char → Bool × Nat
  | [] => (false, 0)
  | '"' :: _ => (true, 1)
  | ['\\'] => (false, 1)
  | '\\' :: '\n' :: _ => (false, 1)
  | ['\\', 'u', '{'] => (false, 1)
  | '\\' :: _ :: cs => (stringEnd cs).map id (· + 2)
  | _ :: cs => (stringEnd cs).map id (· + 1)

/-- A string literal, from the characters after its opening quote. -/
def stringPiece (cs : List Char) : Piece :=
  match stringEnd cs with
  | (false, n) => ⟨.invalid, n⟩
  | (true, n) =>
    match Text.Escape.read? (cs.take (n - 1)) with
    | some value => ⟨.token (.string (String.ofList value)), n⟩
    | none => ⟨.invalid, n⟩

/-- How far a character literal reaches after its opening quote, and whether it is closed there.
    Only a code point without its closing brace and quote is read in part. -/
def charEnd : List Char → Bool × Nat
  | '\\' :: 'u' :: '{' :: cs =>
    let n := count Text.Escape.isHexDigit cs
    if n = 0 then (false, 0)
    else match cs.drop n with
      | '}' :: '\'' :: _ => (true, n + 5)
      | _ => (false, n + 3)
  | '\\' :: c :: '\'' :: _ => if c = '\n' then (false, 0) else (true, 3)
  | c :: '\'' :: _ => if c = '\'' || c = '\\' then (false, 0) else (true, 2)
  | _ => (false, 0)

/-- A character literal, from the characters after its opening quote. -/
def charPiece (cs : List Char) : Piece :=
  match charEnd cs with
  | (false, n) => ⟨.invalid, n⟩
  | (true, n) =>
    match Text.Escape.readChar? (cs.take (n - 1)) with
    | some value => ⟨.token (.char value), n⟩
    | none => ⟨.invalid, n⟩

/-- An integer, given its first character and what follows. -/
def intPiece (c : Char) (cs : List Char) : Piece :=
  let n := count Text.Decimal.isDigit cs
  ⟨.token (.int (Text.Decimal.signedValue (c :: cs.take n))), n⟩

/-- What a minus sign starts: a line comment, a negative integer or nothing. -/
def minusPiece (cs : List Char) : Piece :=
  match cs with
  | '-' :: cs => ⟨.token .lineComment, count (· ≠ '\n') cs + 1⟩
  | c :: _ => if Text.Decimal.isDigit c then intPiece '-' cs else ⟨.invalid, 0⟩
  | [] => ⟨.invalid, 0⟩

/-- What an opening brace starts: a block comment or an instantiation. -/
def bracePiece (cs : List Char) : Piece :=
  match cs with
  | '-' :: rest =>
    match commentEnd? 1 0 (utf8 rest) with
    | some n => ⟨.token .blockComment, charsWithin n rest + 1⟩
    | none => ⟨.unterminated, cs.length⟩
  | _ => ⟨.token .lbrace, 0⟩

/-- The piece at the start of a non-empty source. -/
def piece (c : Char) (cs : List Char) : Piece :=
  match c with
  | '(' => ⟨.token .lparen, 0⟩
  | ')' => ⟨.token .rparen, 0⟩
  | '[' => ⟨.token .lbracket, 0⟩
  | ']' => ⟨.token .rbracket, 0⟩
  | '{' => bracePiece cs
  | '}' => ⟨.token .rbrace, 0⟩
  | '.' => ⟨.token .dot, 0⟩
  | '-' => minusPiece cs
  | '"' => stringPiece cs
  | '\'' => charPiece cs
  | c =>
    if isBlank c then ⟨.blank, count isBlank cs⟩
    else if Text.Decimal.isDigit c then intPiece c cs
    else if Text.isLetter c then ⟨.token .ident, count isIdentRest cs⟩
    else ⟨.invalid, 0⟩

/-! ## The whole source -/

/-- The tokens and errors of the rest of a source that starts at `offset`, where the whole source
    has `total` bytes. -/
def lexFrom (total offset : Nat) : List Char → Lexed
  | [] => ⟨[], []⟩
  | c :: cs =>
    let p := piece c cs
    let taken := c :: cs.take p.more
    let span : Span := ⟨offset, byteLength taken⟩
    let rest := lexFrom total span.stop (cs.drop p.more)
    match p.verdict with
    | .blank => rest
    | .token kind => ⟨⟨kind, span, String.ofList taken⟩ :: rest.tokens, rest.errors⟩
    | .invalid => ⟨rest.tokens, ⟨.invalidToken, span⟩ :: rest.errors⟩
    | .unterminated => ⟨rest.tokens, ⟨.unterminatedComment, ⟨total, 0⟩⟩ :: rest.errors⟩
termination_by cs => cs.length
decreasing_by
  simp only [List.length_drop, List.length_cons]
  omega

end Lexer

/-- The tokens of a source, comments included, and its lexical errors. -/
def lex (src : String) : Lexed :=
  Lexer.lexFrom (byteLength src.toList) 0 src.toList

/-- The tokens of a source without comments, and its lexical errors. -/
def lexSkippingComments (src : String) : Lexed :=
  (lex src).withoutComments

end FOmega
