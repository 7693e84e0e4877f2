import Reflow.Text.Basic

/-!
Taking off the indentation that all lines of a text share.
-/

namespace Reflow.Text

def isIndentChar (c : Char) : Bool := c == ' ' || c == '\t'

def margin (line : Text) : Text := line.takeWhile isIndentChar

def commonStart : Text → Text → Text
  | a :: s, b :: t => if a = b then a :: commonStart s t else []
  | _, _ => []

/-- What the margins of all lines that hold more than a margin have in common. -/
def sharedMargin (lines : List Text) : Text :=
  match (lines.filter fun l => !l.all isIndentChar).map margin with
  | [] => []
  | m :: ms => ms.foldl commonStart m

def dropMargin (m line : Text) : Text := if line.startsWith m then line.drop m.length else line

/-- Take off the indentation that all lines share. Lines of spaces and tabs alone become empty and
do not count. -/
def dedent (t : Text) : Text :=
  let lines := (lines t).map fun l => if l.all isIndentChar then [] else l
  unlines (lines.map (dropMargin (sharedMargin lines)))

end Reflow.Text
