import Reflow.Text.Basic
import Reflow.Text.Numeral

/-!
Words that must not start a line of Markdown.

A word that would turn the line it starts into a list item, a quote or a heading is written with a
backslash: in front of a bullet, a quote mark or a run of hash signs, and in front of the point or
parenthesis after a number.
-/

namespace Reflow.Wrap

def dropFinalNewline (t : Text) : Text :=
  match t.reverse with
  | '\n' :: rest => rest.reverse
  | _ => t

def isNumberMarker (word : Text) : Bool :=
  let afterDigits := word.dropWhile isAsciiDigit
  word.head?.any isAsciiDigit && (afterDigits == ['.'] || afterDigits == [')'])

def isBareMarker (word : Text) : Bool :=
  word == ['-'] || word == ['*'] || word == ['+'] || word == ['>'] ||
    (word.all (· == '#') && !word.isEmpty)

/-- The word with a backslash where it would otherwise start a list item, quote or heading. -/
def escapeWord (word : Text) : Text :=
  let bare := dropFinalNewline word
  if isNumberMarker bare then word.dropLast ++ ['\\'] ++ word.getLast?.toList
  else if isBareMarker bare then '\\' :: word
  else word

end Reflow.Wrap
