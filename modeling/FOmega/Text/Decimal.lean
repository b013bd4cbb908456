/-!
# Decimal numerals

Numbers are written in base ten without leading zeros, negative ones after a minus sign, and read
back digit by digit.
-/

namespace FOmega.Text.Decimal

/-- Holds of the ten ASCII digits. -/
def isDigit (c : Char) : Bool :=
  '0' ≤ c && c ≤ '9'

/-- The number that a run of digits denotes; leading zeros are allowed. -/
def value (digits : List Char) : Nat :=
  digits.foldl (fun n c => 10 * n + (c.toNat - '0'.toNat)) 0

/-- The digits of a number, without leading zeros. -/
def digits (n : Nat) : List Char :=
  Nat.toDigits 10 n

/-- The integer that digits after an optional minus sign denote. -/
def signedValue : List Char → Int
  | '-' :: digits => -(value digits : Int)
  | digits => value digits

/-- The digits of an integer, after a minus sign if it is negative. -/
def signedDigits : Int → List Char
  | .ofNat n => digits n
  | .negSucc n => '-' :: digits (n + 1)

/-- The text of a number. -/
def text (n : Nat) : String :=
  String.ofList (digits n)

/-- The text of an integer. -/
def signedText (n : Int) : String :=
  String.ofList (signedDigits n)

end FOmega.Text.Decimal
