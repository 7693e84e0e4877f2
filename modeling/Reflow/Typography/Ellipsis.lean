import Reflow.Typography.Quotes

/-!
Ellipses.

Three points become one ellipsis character where they stand at the start of a line, after a word
character or after an opening quote, blanks in between allowed, and are followed by a word
character, the end of the text, or a mark with one of these after it. A word character that touches
the points gets a space between.
-/

namespace Reflow.Typography

def isEllipsisLead (c : Char) : Bool :=
  isWordChar c || c == '"' || c == '\'' || c == '“' || c == '‘'

def isEllipsisFollower (c : Char) : Bool :=
  ['.', ',', ':', ';', '?', '!', ')', '-', '—', '"', '\'', '”', '’'].contains c

/-- Three points with what surrounds them: the blanks before, the mark and the blanks after, and
what comes next. -/
structure Points where
  before : Text
  mark : Text
  after : Text
  next : Text
deriving DecidableEq, Repr

def points? (t : Text) : Option Points :=
  match t.dropWhile isBlank with
  | '.' :: '.' :: '.' :: rest =>
    let mark := match rest with
      | c :: _ => if isEllipsisFollower c then [c] else []
      | [] => []
    let tail := rest.drop mark.length
    some ⟨t.takeWhile isBlank, mark, tail.takeWhile isBlank, tail.dropWhile isBlank⟩
  | _ => none

def Points.length (p : Points) : Nat := p.before.length + 3 + p.mark.length + p.after.length

def Points.isConvertible (p : Points) : Bool :=
  match p.next with
  | [] => true
  | c :: _ => isWordChar c

def Points.plain (p : Points) : Text := p.before ++ ['.', '.', '.'] ++ p.mark ++ p.after

/-- The blanks before the ellipsis, or a space after a word character that touches the points. -/
def Points.gapBefore (p : Points) (lead : Option Char) : Text :=
  if lead.any isWordChar && p.before.isEmpty then [' '] else p.before

/-- The blanks after the ellipsis, or a space before a word character that touches the points. -/
def Points.gapAfter (p : Points) : Text :=
  if p.next.head?.any isWordChar && p.after.isEmpty && p.mark.isEmpty then [' '] else p.after

def Points.write (p : Points) (lead : Option Char) : Text :=
  if p.isConvertible then p.gapBefore lead ++ ['…'] ++ p.mark ++ p.gapAfter else p.plain

/-- Points at the start of a line, or after a character they may follow. -/
def ellipsisRule : Rule := fun before t =>
  let atStart := if atLineStart before then points? t else none
  match atStart with
  | some p => some (p.length, p.write none)
  | none =>
    match t with
    | c :: cs =>
      if isEllipsisLead c then (points? cs).map fun p => (p.length + 1, c :: p.write (some c))
      else none
    | [] => none

def writeEllipses (t : Text) : Text := ellipsisRule.apply t

end Reflow.Typography
