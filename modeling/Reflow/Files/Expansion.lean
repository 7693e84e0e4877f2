import Reflow.Files.Pattern
import Reflow.Text.Integer

/-!
Ranges that run backwards in an ignore line.

Before an ignore line is put to use it is expanded: wildcards, double stars and characters with a
meaning of their own become longer forms. A range between brackets whose first character comes after
its last cannot be expanded, and the message about it gives the place of the range in the expansion.
Here the places are counted without writing the expansion down: every function takes the place at
which its part begins, and answers with the place at which it ends, or with the first such range.
-/

namespace Reflow.Files

/-- A range that runs backwards, with its ends as the expansion writes them. -/
structure BackwardRange where
  first : Text
  last : Text
  place : Nat
deriving DecidableEq, Repr

def BackwardRange.message (r : BackwardRange) : Text :=
  "bad character range ".toList ++ r.first ++ ['-'] ++ r.last ++ " at position ".toList
    ++ Text.ofInt r.place

def doubleStar : Text := ['*', '*']

namespace Expansion

def special : Text := "()[]\x7b\x7d?*+-|^$\\.&~# \t\n\r\x0b\x0c".toList

def ofChar (c : Char) : Nat := if special.contains c then 2 else 1

def inBrackets (c : Char) : Text := if c = '\\' then ['\\', '\\'] else [c]

def ofRanges (place : Nat) : Text → Except BackwardRange Nat
  | lo :: '-' :: hi :: rest =>
    if hi < lo then .error ⟨inBrackets lo, inBrackets hi, place⟩
    else ofRanges (place + (inBrackets lo).length + 1 + (inBrackets hi).length) rest
  | c :: rest => ofRanges (place + (inBrackets c).length) rest
  | [] => .ok place

/-- A name. A star becomes a class and a sign of repetition, a question mark a class; a bracket that
is none is a character. -/
def ofName (place : Nat) : Text → Except BackwardRange Nat
  | [] => .ok place
  | '\\' :: rest =>
    match rest with
    | [] => .ok place
    | c :: cs => ofName (place + ofChar c) cs
  | c :: cs =>
    if c = '*' then ofName (place + "[^/]*".length) cs
    else if c = '?' then ofName (place + "[^/]".length) cs
    else if c = '[' then
      match Pattern.bracket? Pattern.isIgnoreNegation cs with
      | some b => do
        let last ← ofRanges (place + if b.negated then 2 else 1) b.inner
        ofName (last + 1) (cs.drop b.size)
      | none => ofName (place + ofChar c) cs
    else ofName (place + ofChar c) cs
termination_by t => t.length
decreasing_by all_goals (simp; try omega)

/-- Names with slashes between them. `first` is said of the first name of the line, and `slashed`
says that a name needs a slash before it. -/
def ofNames (first slashed : Bool) (place : Nat) : List Text → Except BackwardRange Nat
  | [] => .ok place
  | name :: rest =>
    if name = doubleStar then
      ofNames false (!first) (place + "(?:.+/)?".length) rest
    else
      let start := if slashed then place + 1 else place
      if name = ['*'] then ofNames false true (start + "[^/]+".length) rest
      else do ofNames false true (← ofName start name) rest

end Expansion

end Reflow.Files
