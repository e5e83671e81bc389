/-!
# Classes of characters given by ranges of code points

A class is a list of ranges in ascending order, so a look-up ends at the first range that starts
beyond the character. A run is a range that takes every first or every second code point, the
form in which capital and small letters alternate.
-/
namespace GrammarServer.Text

/-- Whether a code point lies in one of the ranges, which are in ascending order. -/
def inRanges : List (Nat × Nat) → Nat → Bool
  | [], _ => false
  | (first, last) :: rest, n =>
    if n < first then false else if n ≤ last then true else inRanges rest n

/-- Whether a code point is met by one of the runs `(first, last, step)`, in ascending order. -/
def inRuns : List (Nat × Nat × Nat) → Nat → Bool
  | [], _ => false
  | (first, last, step) :: rest, n =>
    if n < first then false
    else if n ≤ last then (n - first) % step == 0 else inRuns rest n

end GrammarServer.Text
