/-!
# Built-in types and functions

Both sets are closed. A built-in is recognised by its whole spelling.
-/

namespace FOmega

/-- The built-in types. -/
inductive BuiltinType where
  | integer
  | char
  | string
  | unit
  | bool
  deriving DecidableEq

namespace BuiltinType

/-- Every built-in type. -/
def all : List BuiltinType :=
  [integer, char, string, unit, bool]

/-- How a built-in type is spelled. -/
def text : BuiltinType → String
  | integer => "integer"
  | char => "char"
  | string => "string"
  | unit => "unit"
  | bool => "bool"

/-- The built-in type with the given spelling. -/
def ofText? (s : String) : Option BuiltinType :=
  all.find? fun b => b.text == s

end BuiltinType

/-- The built-in functions. -/
inductive BuiltinFunction where
  | addInteger
  | subtractInteger
  | multiplyInteger
  | divideInteger
  | quotientInteger
  | remainderInteger
  | modInteger
  | lessThanInteger
  | lessThanEqualsInteger
  | greaterThanInteger
  | greaterThanEqualsInteger
  | equalsInteger
  | appendString
  | equalsString
  | equalsChar
  | charToString
  | ifThenElse
  | trace
  deriving DecidableEq

namespace BuiltinFunction

/-- Every built-in function. -/
def all : List BuiltinFunction :=
  [addInteger, subtractInteger, multiplyInteger, divideInteger, quotientInteger, remainderInteger,
    modInteger, lessThanInteger, lessThanEqualsInteger, greaterThanInteger,
    greaterThanEqualsInteger, equalsInteger, appendString, equalsString, equalsChar, charToString,
    ifThenElse, trace]

/-- How a built-in function is spelled. -/
def text : BuiltinFunction → String
  | addInteger => "addInteger"
  | subtractInteger => "subtractInteger"
  | multiplyInteger => "multiplyInteger"
  | divideInteger => "divideInteger"
  | quotientInteger => "quotientInteger"
  | remainderInteger => "remainderInteger"
  | modInteger => "modInteger"
  | lessThanInteger => "lessThanInteger"
  | lessThanEqualsInteger => "lessThanEqualsInteger"
  | greaterThanInteger => "greaterThanInteger"
  | greaterThanEqualsInteger => "greaterThanEqualsInteger"
  | equalsInteger => "equalsInteger"
  | appendString => "appendString"
  | equalsString => "equalsString"
  | equalsChar => "equalsChar"
  | charToString => "charToString"
  | ifThenElse => "ifThenElse"
  | trace => "trace"

/-- The built-in function with the given spelling. -/
def ofText? (s : String) : Option BuiltinFunction :=
  all.find? fun b => b.text == s

end BuiltinFunction

end FOmega
