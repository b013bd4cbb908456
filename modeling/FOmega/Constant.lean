import FOmega.Builtin
import FOmega.Text.Decimal
import FOmega.Text.Escape

/-!
# Constants

A constant is a value of a built-in type. Its text is a literal that reads back as the constant.
-/

namespace FOmega

/-- A value of a built-in type. -/
inductive Constant where
  | integer (value : Int)
  | char (value : Char)
  | string (value : String)
  | unit
  | bool (value : Bool)
  deriving DecidableEq

namespace Constant

/-- The type of a constant. -/
def builtinType : Constant → BuiltinType
  | integer _ => .integer
  | char _ => .char
  | string _ => .string
  | unit => .unit
  | bool _ => .bool

/-- The literal of a constant. -/
def text : Constant → String
  | integer n => Text.Decimal.signedText n
  | char c => String.ofList ('\'' :: (Text.Escape.char c ++ ['\'']))
  | string s => String.ofList ('"' :: (Text.Escape.write s.toList ++ ['"']))
  | unit => "unit"
  | bool true => "True"
  | bool false => "False"

end Constant

end FOmega
