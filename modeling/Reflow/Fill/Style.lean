import Reflow.Text.Quoted

/-!
Styles of filling plain text.
-/

namespace Reflow.Fill

inductive Style where
  /-- Leave the lines as they are. -/
  | none
  /-- Wrap, and keep blanks inside paragraphs. -/
  | wrap
  /-- Wrap and collapse blanks. -/
  | wrapFull
  | wrapIndent
  | indentOnly
  | hangingIndent
  /-- Wrap, and indent all lines but the first by the two columns of a Markdown item. -/
  | markdownItem
deriving DecidableEq, Repr

namespace Style

def all : List Style :=
  [.none, .wrap, .wrapFull, .wrapIndent, .indentOnly, .hangingIndent, .markdownItem]

def name : Style → String
  | none => "none"
  | wrap => "wrap"
  | wrapFull => "wrap_full"
  | wrapIndent => "wrap_indent"
  | indentOnly => "indent_only"
  | hangingIndent => "hanging_indent"
  | markdownItem => "markdown_item"

def ofName? (s : String) : Option Style := all.find? fun style => style.name == s

def unknownMessage (s : String) : Text := Text.quoted s.toList ++ " is not a valid Wrap".toList

def defaultIndent : Text := Text.repeated 4 ' '

def firstIndent : Style → Text
  | indentOnly | wrapIndent => defaultIndent
  | _ => []

def laterIndent : Style → Text
  | markdownItem => Text.repeated 2 ' '
  | indentOnly | wrapIndent | hangingIndent => defaultIndent
  | _ => []

def wraps : Style → Bool
  | none | indentOnly => false
  | _ => true

def hangsFirstParagraphOnly : Style → Bool
  | hangingIndent | markdownItem => true
  | _ => false

def collapsesBlanks : Style → Bool
  | wrapFull | wrapIndent | hangingIndent => true
  | _ => false

end Style

end Reflow.Fill
