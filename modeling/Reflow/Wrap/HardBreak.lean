import Reflow.Wrap.Paragraph

/-!
Hard line breaks of Markdown.

A backslash or two spaces before a line feed are a break that must stay. The text is cut at such
breaks, its segments are wrapped one by one, and every break is written as a backslash.
-/

namespace Reflow.Wrap

abbrev LineWrapper := Text → Indents → Text

def hardSegments : Text → List Text
  | [] => [[]]
  | '\\' :: '\n' :: rest => [] :: hardSegments rest
  | ' ' :: ' ' :: '\n' :: rest => [] :: hardSegments rest
  | c :: cs =>
    match hardSegments cs with
    | [] => [[c]]
    | segment :: rest => (c :: segment) :: rest

def wrapLaterSegments (wrap : LineWrapper) (indent : Text) : List Text → Text
  | [] => []
  | segment :: rest =>
    ['\\', '\n'] ++ wrap segment ⟨indent, indent⟩ ++ wrapLaterSegments wrap indent rest

def keepHardBreaks (wrap : LineWrapper) : LineWrapper := fun t indents =>
  match hardSegments t with
  | [] => []
  | segment :: rest => wrap segment indents ++ wrapLaterSegments wrap indents.later rest

end Reflow.Wrap
