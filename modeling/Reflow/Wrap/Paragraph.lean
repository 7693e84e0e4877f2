import Reflow.Text.Measure
import Reflow.Wrap.Escape
import Reflow.Wrap.Splitter

/-!
Wrapping one paragraph.

Words are put on a line as long as they fit, a space before each but the first. The first line
starts at one column and the lines after it at another. A width that is not positive means that the
text is not wrapped at all.
-/

namespace Reflow.Wrap

structure Settings where
  /-- Runs of blanks become one space before the text is cut into words. -/
  collapseBlanks : Bool := true
  /-- Blanks at the ends of a line are dropped. -/
  trimLines : Bool := true
  splitter : Splitter := .markup
  measure : Measure := .codePoints
  /-- Words that would change the meaning of a line they start are escaped. -/
  markdown : Bool := false
deriving DecidableEq, Repr

structure Columns where
  /-- The last column that a line may reach. -/
  width : Int
  /-- The column at which the first line starts. -/
  first : Int := 0
  /-- The column at which the other lines start. -/
  later : Int := 0
deriving DecidableEq, Repr

/-- Put words on lines. `current` holds the words of the line under way, which has reached
`column`. -/
def breakWords (size : Text → Nat) (escape : Text → Text) (cols : Columns) (current : List Text)
    (column : Int) : List Text → List (List Text)
  | [] => if current.isEmpty then [] else [current]
  | word :: rest =>
    let space : Int := if current.isEmpty then 0 else 1
    if column + size word + space ≤ cols.width then
      breakWords size escape cols (current ++ [word]) (column + (size word + space)) rest
    else if current.isEmpty then
      breakWords size escape cols [word] (cols.later + size word) rest
    else
      current ::
        breakWords size escape cols [escape word] (cols.later + size (escape word)) rest

def Settings.prepare (s : Settings) (t : Text) : Text :=
  if s.collapseBlanks then Text.collapse t else t

def Settings.trim (s : Settings) (t : Text) : Text := if s.trimLines then Text.strip t else t

def Settings.escape (s : Settings) (word : Text) : Text :=
  if s.markdown then escapeWord word else word

def paragraphLines (s : Settings) (cols : Columns) (t : Text) : List Text :=
  let prepared := s.prepare t
  if cols.width ≤ 0 then
    let whole := s.trim prepared
    if whole.isEmpty then [] else [whole]
  else
    (breakWords s.measure.of s.escape cols [] cols.first (s.splitter.words prepared)).map
      fun ws => s.trim (Text.unwords ws)

structure Indents where
  first : Text := []
  later : Text := []
deriving DecidableEq, Repr

def Indents.apply (i : Indents) : List Text → List Text
  | [] => []
  | line :: rest => (i.first ++ line) :: rest.map (i.later ++ ·)

/-- Wrap a paragraph that starts at column `column`. The first indent is written only if the
paragraph starts its own line. -/
def paragraphAt (s : Settings) (width column : Int) (indents : Indents) (t : Text) : Text :=
  let cols : Columns :=
    { width, first := column + s.measure.of indents.first, later := s.measure.of indents.later }
  let written : Indents := if column = 0 then indents else { indents with first := [] }
  Tag.rejoin (Text.unlines (written.apply (paragraphLines s cols t)))

def paragraph (s : Settings) (width : Int) (indents : Indents) (t : Text) : Text :=
  paragraphAt s width 0 indents t

end Reflow.Wrap
