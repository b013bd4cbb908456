import FOmega.Span

/-!
# Tokens

A token is a lexeme of the source with its span and its spelling. Literal tokens also hold the value
they denote.
-/

namespace FOmega

/-- What a token is. Literals of different values, but not identifiers of different spelling, are
    different kinds of token. -/
inductive TokenKind where
  | lineComment
  | blockComment
  | lparen
  | rparen
  | lbracket
  | rbracket
  | lbrace
  | rbrace
  | dot
  | int (value : Int)
  | string (value : String)
  | char (value : Char)
  | ident
  deriving DecidableEq

namespace TokenKind

/-- Holds of the two kinds of comment. -/
def isComment : TokenKind → Bool
  | lineComment => true
  | blockComment => true
  | _ => false

/-- What is reported as expected where a token of this kind could have stood. -/
def describe : TokenKind → String
  | lineComment => "comment"
  | blockComment => "comment"
  | lparen => "`(`"
  | rparen => "`)`"
  | lbracket => "`[`"
  | rbracket => "`]`"
  | lbrace => "`\x7b`"
  | rbrace => "`\x7d`"
  | dot => "`.`"
  | int _ => "integer"
  | string _ => "string"
  | char _ => "character"
  | ident => "identifier"

end TokenKind

/-- A lexeme of the source. -/
structure Token where
  kind : TokenKind
  span : Span
  text : String
  deriving DecidableEq

/-- What is reported as found where this token stands. -/
def Token.describe (t : Token) : String :=
  match t.kind with
  | .lineComment => "comment"
  | .blockComment => "comment"
  | .int _ => "integer `" ++ t.text ++ "`"
  | .string _ => "string " ++ t.text
  | .char _ => "character " ++ t.text
  | .ident => "identifier `" ++ t.text ++ "`"
  | _ => "`" ++ t.text ++ "`"

end FOmega
