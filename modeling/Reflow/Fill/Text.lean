import Reflow.Fill.Style
import Reflow.Wrap.LineWrapper

/-!
Filling plain text of any number of paragraphs.
-/

namespace Reflow.Fill

/-- Cut at runs of two or more line feeds, and trim the pieces. -/
def paragraphs (t : Text) : List Text := (gather t).map Text.strip
where
  gather : Text → List Text
    | [] => [[]]
    | '\n' :: '\n' :: rest =>
      match rest with
      | '\n' :: _ => gather ('\n' :: rest)
      | _ => [] :: gather rest
    | c :: cs =>
      match gather cs with
      | [] => [[c]]
      | p :: ps => (c :: p) :: ps

structure Settings where
  style : Style := .wrap
  width : Int := Wrap.defaultWidth
  /-- Stands in front of every line, before the indent of the style. -/
  extraIndent : Text := []
  /-- Stands in the empty lines between paragraphs. -/
  emptyIndent : Text := []
  column : Int := 0
  splitter : Wrap.Splitter := .markup
  measure : Measure := .codePoints
deriving DecidableEq, Repr

namespace Settings

def indentLines (s : Settings) (t : Text) : Text :=
  let indent := match s.style with
    | .indentOnly => s.extraIndent ++ Style.defaultIndent
    | _ => s.extraIndent
  match Text.splitLines t with
  | [] => s.emptyIndent
  | lines => Text.unlines (lines.map (indent ++ ·))

def wrapParagraph (s : Settings) (indents : Wrap.Indents) (t : Text) : Text :=
  Wrap.paragraphAt
    { collapseBlanks := s.style.collapsesBlanks, splitter := s.splitter, measure := s.measure }
    (s.width - s.measure.of indents.later) s.column indents t

/-- Wrap paragraphs. Those after the first lose the hanging first line. -/
def wrapParagraphs (s : Settings) (t : Text) : Text :=
  let later := s.extraIndent ++ s.style.laterIndent
  let first := s.extraIndent ++ s.style.firstIndent
  let inner := if s.style.hangsFirstParagraphOnly then later else first
  let wrapped := match paragraphs t with
    | [] => []
    | p :: ps => s.wrapParagraph ⟨first, later⟩ p :: ps.map (s.wrapParagraph ⟨inner, later⟩)
  Text.joinWith (['\n'] ++ Text.strip s.emptyIndent ++ ['\n']) wrapped

def fill (s : Settings) (t : Text) : Text :=
  if s.style.wraps then s.wrapParagraphs t else s.indentLines t

end Settings

def plain (width : Int) (t : Text) : Text := Settings.fill { width } t

end Reflow.Fill
