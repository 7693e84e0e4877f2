import Reflow.Block.Line
import Reflow.Tag.Line
import Reflow.Text.Recogniser

/-!
Line breaks that tags need.

A tag line next to a list item or table row has to be separated from it by an empty line, or the
tag would be read as part of the item. `spaceBlocks` inserts these lines into a whole document.
Two further passes set right what wrapping may leave behind: `spaceClosings` takes the indentation
off closing tags and separates them from block content, and `breakClosings` puts a closing tag that
follows the end of a many-line tag on a line of its own.
-/

namespace Reflow.Tag

/-! ## Empty lines between tags and block content -/

/-- One of two adjacent lines is a tag and the other is block content. -/
def needsSpace (previous line : Text) : Bool :=
  (isTagOnly previous && Block.isContent line) || (Block.isContent previous && isTagOnly line)

def spaceAfter (previous : Text) : List Text → List Text
  | [] => []
  | line :: rest =>
    if needsSpace previous line then [] :: line :: spaceAfter line rest
    else line :: spaceAfter line rest

def spaceLines : List Text → List Text
  | [] => []
  | line :: rest => line :: spaceAfter line rest

/-- Insert an empty line wherever a tag line meets block content. -/
def spaceBlocks (t : Text) : Text := Text.unlines (spaceLines (Text.lines t))

/-! ## Closing tags -/

def spaceClosingsAfter (previous : Option Text) : List Text → List Text
  | [] => []
  | line :: rest =>
    if isClosing line then
      let closing := Text.stripLeft line
      if (previous.map Block.isContent).getD false then
        [] :: closing :: spaceClosingsAfter (some closing) rest
      else closing :: spaceClosingsAfter (some closing) rest
    else line :: spaceClosingsAfter (some line) rest

/-- Unindent closing tags, and put an empty line before each that follows block content. -/
def spaceClosings (t : Text) : Text := Text.unlines (spaceClosingsAfter none (Text.lines t))

def closingSeam (k : TagKind) : Recogniser := fun t => do
  let gap ← Recogniser.sequence [.exactly k.closing, .many isBlank] t
  let _ ← Recogniser.sequence [.exactly k.opening, .many isBlank, .exactly ['/']] (t.drop gap)
  return gap

def anyClosingSeam : Recogniser := fun t => TagKind.all.findSome? fun k => closingSeam k t

def cutAtClosing? (line : Text) : Option (Text × Text) := do
  let (before, rest) ← anyClosingSeam.find? line
  let gap ← anyClosingSeam rest
  return (before ++ rest.take gap, rest.drop gap)

/-- A line that continues an earlier one is cut in front of a closing tag that follows the end of
a tag. -/
def breakClosing (line : Text) : List Text :=
  if startsLine line then [line]
  else
    match cutAtClosing? line with
    | some (before, closing) => [Text.stripRight before, Text.stripLeft closing]
    | none => [line]

/-- Put a closing tag that follows the end of a many-line tag on a line of its own. -/
def breakClosings (t : Text) : Text :=
  match Text.lines t with
  | [] => []
  | first :: rest => Text.unlines (first :: rest.flatMap breakClosing)

end Reflow.Tag
