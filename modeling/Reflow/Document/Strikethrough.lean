import Reflow.Text.Basic
import Reflow.Text.Punctuation

/-!
Strikethrough.

Struck text stands between two equal runs of one or two tildes. It holds no tilde, and neither
starts nor ends with a blank. A run that touches punctuation on its inner side must have a blank,
punctuation or the end of the text on its outer side.
-/

namespace Reflow.Document

/-- A candidate: the number of tildes on either side, and the text between them. -/
structure Struck where
  tildes : Nat
  inner : Text
deriving DecidableEq, Repr

namespace Struck

def length (s : Struck) : Nat := s.tildes + s.inner.length + s.tildes

/-- The character may stand on the outer side of a run whose inner side is punctuation. -/
def isOuter (c : Option Char) : Bool :=
  match c with
  | none => true
  | some c => isBlank c || isPunctuation c

/-- Next to punctuation on the inner side, the outer side is a blank, punctuation or the end. -/
def isFlanking (inner outer : Option Char) : Bool :=
  !inner.any isPunctuation || isOuter outer

end Struck

/-- The struck text at the start of a text, and what follows it; `before` is the character in
front. -/
def struck? (before : Option Char) (t : Text) : Option (Struck × Text) :=
  if before == some '~' then none
  else
    let tildes := (t.takeWhile (· == '~')).length
    let inner := (t.drop tildes).takeWhile (· != '~')
    let after := (t.drop tildes).drop inner.length
    let closing := (after.takeWhile (· == '~')).length
    let sound := (tildes == 1 || tildes == 2) && closing == tildes &&
      inner.head?.any (!isBlank ·) && inner.getLast?.any (!isBlank ·)
    if sound then some (⟨tildes, inner⟩, after.drop closing) else none

structure StruckSpan extends Struck where
  start : Nat
deriving DecidableEq, Repr

/-- All struck texts of a text that stands at offset `start` after `before`. A candidate that is not
flanked as it must be is passed over as a whole. -/
def struckFrom (start : Nat) (before : Option Char) : Text → List StruckSpan
  | [] => []
  | c :: cs =>
    match struck? before (c :: cs) with
    | some (s, _) =>
      let rest := cs.drop (s.length - 1)
      let found := struckFrom (start + s.length) (some '~') rest
      if Struck.isFlanking s.inner.head? before
          && Struck.isFlanking s.inner.getLast? rest.head? then
        { s with start } :: found
      else found
    | none => struckFrom (start + 1) (some c) cs
termination_by t => t.length
decreasing_by all_goals (simp; try omega)

def strikethroughs (t : Text) : List StruckSpan := struckFrom 0 none t

end Reflow.Document
