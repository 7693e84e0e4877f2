import Reflow.Text.Basic

/-!
Front matter.

A document may start with a block of metadata between two lines of three dashes. Blank lines before
it do not count. If the block is never closed, the whole document is front matter.
-/

namespace Reflow

structure FrontMatter where
  block : Text
  content : Text
deriving DecidableEq, Repr

namespace FrontMatter

def fence : Text := ['-', '-', '-']

def isFence (line : Text) : Bool := Text.strip line == fence

/-- The lines through the first fence, and the lines after it. -/
def closeAt? : List Text → Option (List Text × List Text)
  | [] => none
  | line :: rest =>
    if isFence line then some ([line], rest)
    else (closeAt? rest).map fun (block, content) => (line :: block, content)

/-- Cut a document into front matter and content. The block keeps its fences and ends in a line
feed. -/
def split (t : Text) : FrontMatter :=
  match (Text.splitLines t).dropWhile Text.isBlankText with
  | [] => ⟨[], t⟩
  | first :: rest =>
    if isFence first then
      match closeAt? rest with
      | some (block, content) => ⟨Text.unlines (first :: block) ++ ['\n'], Text.unlines content⟩
      | none => ⟨t, []⟩
    else ⟨[], t⟩

end FrontMatter

end Reflow
