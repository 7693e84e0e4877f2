import Reflow.Tag.Kind
import Reflow.Text.Recogniser

/-!
Adjacent tags.

A closing delimiter directly followed by an opening delimiter of the same kind would read as one
word. `separate` puts a space between the two so that the tags are words of their own, and `rejoin`
takes such a space out again.
-/

namespace Reflow.Tag

/-- The kind whose closing delimiter, then `gap`, then opening delimiter begin the text. -/
def seamKind? (gap : Text) (t : Text) : Option TagKind :=
  TagKind.all.find? fun k => (k.closing ++ gap ++ k.opening).isPrefixOf t

/-- Give the seams that have `old` between the delimiters `new` instead. -/
def reseam (old new : Text) : Rule := .ofText fun t =>
  (seamKind? old t).map fun k =>
    ((k.closing ++ old ++ k.opening).length, k.closing ++ new ++ k.opening)

/-- Put a space between adjacent tags of one kind. -/
def separate (t : Text) : Text := (reseam [] [' ']).apply t

/-- Take out a single space between tags of one kind. -/
def rejoin (t : Text) : Text := (reseam [' '] []).apply t

end Reflow.Tag
