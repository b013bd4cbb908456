/-!
# Sets of code points as ranges

A character class of a standard is a long list of ranges of code points. The ranges stand in
increasing order, so a search may stop at the first one that starts beyond the code point.
-/

namespace FOmega.Text

/-- Holds when `n` lies in one of the ranges, given as first and last member in increasing order. -/
def inRanges : List (Nat × Nat) → Nat → Bool
  | [], _ => false
  | (first, last) :: ranges, n =>
    if n < first then false else if n ≤ last then true else inRanges ranges n

end FOmega.Text
