/-!
Sets of characters given as ascending lists of code point ranges.

Every character class of the library that reaches beyond ASCII is such a list. The ranges of a
list ascend and do not touch, so the search stops at the first range that starts beyond the
character.
-/

namespace Reflow

/-- A set of code points: where each range starts and how many there are in it, in ascending
order. -/
abbrev Ranges := List (Nat × Nat)

namespace Ranges

def contains : Ranges → Nat → Bool
  | [], _ => false
  | (lo, count) :: rest, n =>
    if n < lo then false
    else if n < lo + count then true
    else contains rest n

def startOf? : Ranges → Nat → Option Nat
  | [], _ => none
  | (lo, count) :: rest, n =>
    if n < lo then none
    else if n < lo + count then some lo
    else startOf? rest n

end Ranges

end Reflow
