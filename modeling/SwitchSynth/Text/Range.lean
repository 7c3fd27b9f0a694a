/-!
# Classes of characters as ranges

A class of characters is a list of ranges of code points, in increasing order.
-/

namespace SwitchSynth.Text

/-- Ranges of code points, both ends included, in increasing order. -/
abbrev Ranges := List (Nat × Nat)

/-- The ranges of a class whose code points come in runs: from a code point on, so many are outside and so many inside,
in turn. -/
def Ranges.ofRuns (start : Nat) : List Nat → Ranges
  | outside :: inside :: runs =>
    (start + outside, start + outside + inside - 1) :: ofRuns (start + outside + inside) runs
  | _ => []

/-- Whether a code point lies in one of the ranges; ranges beyond it are not looked at. -/
def Ranges.has : Ranges → Nat → Bool
  | [], _ => false
  | (lo, hi) :: rest, n => if n < lo then false else n ≤ hi || Ranges.has rest n

end SwitchSynth.Text
