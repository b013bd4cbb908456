import FOmega.Text.Decimal

/-!
# Places in a source text

Offsets and lengths count UTF-8 bytes. A line and column count from one, the column in characters.
-/

namespace FOmega

/-- The number of bytes of a text given as its characters. -/
def byteLength : List Char → Nat
  | [] => 0
  | c :: cs => c.utf8Size + byteLength cs

/-- The UTF-8 bytes of a text given as its characters. -/
def utf8 (cs : List Char) : List UInt8 :=
  cs.flatMap String.utf8EncodeChar

/-- A run of bytes of the source. -/
structure Span where
  offset : Nat
  len : Nat
  deriving DecidableEq

namespace Span

/-- The offset right after the span. -/
def stop (s : Span) : Nat :=
  s.offset + s.len

/-- The span from the start of `a` to the end of `b`, empty if `b` ends before `a` starts. -/
def through (a b : Span) : Span :=
  ⟨a.offset, max b.stop a.offset - a.offset⟩

end Span

/-- A place as an editor shows it. -/
structure Position where
  line : Nat
  column : Nat
  deriving DecidableEq

namespace Position

/-- The first place of a text. -/
def start : Position :=
  ⟨1, 1⟩

/-- The place after the character `c`. -/
def advance (p : Position) (c : Char) : Position :=
  if c = '\n' then ⟨p.line + 1, 1⟩ else ⟨p.line, p.column + 1⟩

/-- The place reached from `p` by every character that starts before `offset` bytes have passed. -/
def walk : Position → Nat → List Char → Position
  | p, _, [] => p
  | p, offset, c :: cs =>
    if offset = 0 then p else walk (p.advance c) (offset - c.utf8Size) cs

/-- The place of a byte offset. An offset inside a character counts as the place after it, one past
    the end as the end. -/
def ofOffset (src : String) (offset : Nat) : Position :=
  walk start offset src.toList

/-- A place is written as line and column with a colon between. -/
def text (p : Position) : String :=
  Text.Decimal.text p.line ++ ":" ++ Text.Decimal.text p.column

end Position

end FOmega
