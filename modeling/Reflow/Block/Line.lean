import Reflow.Text.Basic
import Reflow.Text.Numeral

/-!
Lines that look like block content.

A single line is enough to tell a table row from a list item, and both from prose: a row starts
with a pipe, a bullet item with one of `-`, `*`, `+` and a space or tab, a numbered item with one to
nine digits, a point or parenthesis, and a space or tab. Blanks at the start do not count.
-/

namespace Reflow.Block

def isTableRow (line : Text) : Bool := (Text.stripLeft line).startsWith ['|']

def startsWithGap : Text → Bool
  | c :: _ => c == ' ' || c == '\t'
  | [] => false

def startsWithMarkerEnd : Text → Bool
  | c :: rest => (c == '.' || c == ')') && startsWithGap rest
  | [] => false

def dropDigits : Nat → Text → Text
  | n + 1, c :: cs => if isDigitLike c then dropDigits n cs else c :: cs
  | _, t => t

def maxMarkerDigits : Nat := 9

def isListItem (line : Text) : Bool :=
  match Text.stripLeft line with
  | [] => false
  | c :: rest =>
    if c == '-' || c == '*' || c == '+' then startsWithGap rest
    else isDigitLike c && startsWithMarkerEnd (dropDigits (maxMarkerDigits - 1) rest)

def isContent (line : Text) : Bool := isTableRow line || isListItem line

end Reflow.Block
