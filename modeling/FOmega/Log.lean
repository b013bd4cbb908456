import FOmega.Text.Decimal

/-!
# Log records

What the library notes about its work. Functions that note something return their records, in order.
-/

namespace FOmega

/-- One note. -/
inductive LogRecord where
  | interned (text : String) (unique : Nat)
  | lexicalErrors (label : String) (count : Nat)
  | parsed (label : String) (tokens names : Nat) (succeeded : Bool)
  | renamed (uniques : Nat)
  | collected (binders occurrences : Nat)
  deriving DecidableEq

/-- A record as its severity and a message. -/
def LogRecord.text : LogRecord → String
  | interned text unique => "TRACE: intern " ++ text ++ " -> " ++ Text.Decimal.text unique
  | lexicalErrors label count =>
    "DEBUG: " ++ label ++ ": " ++ Text.Decimal.text count ++ " lexical error(s)"
  | parsed label tokens names succeeded =>
    "DEBUG: " ++ label ++ ": " ++ Text.Decimal.text tokens ++ " tokens, " ++
      Text.Decimal.text names ++ " distinct names, " ++ (if succeeded then "ok" else "failed")
  | renamed uniques =>
    "DEBUG: establish_scoping: " ++ Text.Decimal.text uniques ++ " fresh uniques"
  | collected binders occurrences =>
    "DEBUG: collect_scope_info: " ++ Text.Decimal.text binders ++ " binders, " ++
      Text.Decimal.text occurrences ++ " occurrences"

end FOmega
