import Reflow.Text.Basic

/-!
Recognisers and replacement rules.

A *recogniser* looks at a text from its start and answers how many characters it accepts, or that
it accepts none of it. Recognisers are combined in sequence and by ordered choice; none of them
reads a text twice, so the answer is always the only one there is.

A *rule* looks at a position of a text, that is, at the character before it and the text from it,
and answers how many characters to take and what to put in their place. `Rule.apply` applies a
rule from left to right; what a rule has taken is not looked at again.
-/

namespace Reflow

/-- How many characters at the start of a text are accepted, if any are. -/
abbrev Recogniser := Text → Option Nat

namespace Recogniser

def exactly (s : Text) : Recogniser := fun t =>
  if s.isPrefixOf t then some s.length else none

def one (p : Char → Bool) : Recogniser
  | [] => none
  | c :: _ => if p c then some 1 else none

/-- All characters up to the first that does not satisfy `p`; maybe none. -/
def many (p : Char → Bool) : Recogniser := fun t => some (t.takeWhile p).length

def through (s : Text) : Recogniser := fun t =>
  (Text.cut? s t).map fun (before, _) => before.length + s.length

def andThen (r s : Recogniser) : Recogniser := fun t => do
  let n ← r t
  let m ← s (t.drop n)
  return n + m

def sequence : List Recogniser → Recogniser
  | [] => fun _ => some 0
  | r :: rs => andThen r (sequence rs)

def orElse (r s : Recogniser) : Recogniser := fun t => (r t).or (s t)

/-- Accepts the empty text exactly where `r` accepts nothing. -/
def absent (r : Recogniser) : Recogniser := fun t => if (r t).isSome then none else some 0

def optional (r : Recogniser) : Recogniser := fun t => some ((r t).getD 0)

/-- The first place at which the recogniser accepts: what stands before it, and the text from
it. -/
def find? (r : Recogniser) : Text → Option (Text × Text)
  | [] => if (r []).isSome then some ([], []) else none
  | c :: cs =>
    if (r (c :: cs)).isSome then some ([], c :: cs)
    else (find? r cs).map fun (before, rest) => (c :: before, rest)

end Recogniser

/-- A replacement rule: from the character before a position and the text from it, how many
characters to take and what to put there. -/
abbrev Rule := Option Char → Text → Option (Nat × Text)

namespace Rule

def ofText (f : Text → Option (Nat × Text)) : Rule := fun _ t => f t

/-- Apply a rule from left to right to a text that stands after `before`. -/
def applyAfter (rule : Rule) (before : Option Char) : Text → Text
  | [] => []
  | c :: cs =>
    match rule before (c :: cs) with
    | some (n + 1, new) => new ++ applyAfter rule (c :: cs)[n]? (cs.drop n)
    | _ => c :: applyAfter rule (some c) cs
termination_by t => t.length
decreasing_by all_goals (simp; try omega)

def apply (rule : Rule) (t : Text) : Text := rule.applyAfter none t

end Rule

end Reflow
