import Reflow.Document.Render
import Reflow.Document.Transform
import Reflow.FrontMatter
import Reflow.Text.Dedent
import Reflow.Wrap.LineWrapper

/-!
Formatting a Markdown text.

Front matter is set aside, the rest is trimmed and given the empty lines that tags need, read into a
document, transformed, and written again. How Markdown is read is not part of this library: a
reader is a parameter.
-/

namespace Reflow.Document

structure Style where
  width : Int := Wrap.defaultWidth
  semantic : Bool := false
  cleanups : Bool := false
  quotes : Bool := false
  ellipses : Bool := false
  spacing : ListSpacing := .preserve
  dedent : Bool := true
deriving DecidableEq, Repr

namespace Style

def wrapper (s : Style) : Wrap.LineWrapper :=
  if s.semantic then Wrap.bySentence { width := s.width, markdown := true }
  else Wrap.toWidth .codePoints true s.width

def transforms (s : Style) : List Transform :=
  (if s.cleanups then [.cleanUp] else []) ++ (if s.quotes then [.quotes] else []) ++
    (if s.ellipses then [.ellipses] else [])

def body (t : Text) : Text :=
  let parts := FrontMatter.split t
  if parts.block.isEmpty then t else parts.content

def source (s : Style) (t : Text) : Text :=
  let content := body t
  let level := if s.dedent then Text.dedent content else content
  Tag.spaceBlocks (Text.strip level ++ ['\n'])

def writeWith (s : Style) (wrap : Wrap.LineWrapper) (n : Node) : Except LengthChanged Text := do
  let n' ← applyAll s.transforms n
  return render { wrap, spacing := s.spacing } n'

/-- Format a Markdown text, its front matter kept as it is. The line wrapper stands in for the one of
the style. -/
def formatWith (s : Style) (wrap : Wrap.LineWrapper) (read : Text → Node) (t : Text) :
    Except LengthChanged Text := do
  let written ← s.writeWith wrap (read (s.source t))
  return (FrontMatter.split t).block ++ written

def format (s : Style) (read : Text → Node) (t : Text) : Except LengthChanged Text :=
  s.formatWith s.wrapper read t

end Style

end Reflow.Document
