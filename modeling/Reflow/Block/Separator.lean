import Reflow.Text.Basic

/-!
Separator rows of tables.

A separator row is a pipe followed by one or more cells, each closed by a pipe. A cell is a run of
dashes with an optional colon at either end and blanks around it; the colons give the alignment of
the column. `normalise` writes every cell with three dashes.
-/

namespace Reflow.Block

inductive Alignment where
  | plain
  | left
  | right
  | center
deriving DecidableEq, Repr

namespace Alignment

def ofCell (cell : Text) : Alignment :=
  match cell.startsWith [':'], cell.endsWith [':'] with
  | true, true => center
  | true, false => left
  | false, true => right
  | false, false => plain

def cell : Alignment → Text
  | plain => ['-', '-', '-']
  | left => [':', '-', '-', '-']
  | right => ['-', '-', '-', ':']
  | center => [':', '-', '-', '-', ':']

end Alignment

def delimiterRow (columns : List Alignment) : Text :=
  ['|', ' '] ++ Text.joinWith [' ', '|', ' '] (columns.map Alignment.cell) ++ [' ', '|']

def isOptionalColon (t : Text) : Bool := t == [] || t == [':']

/-- Without blanks at its ends, the text is a run of dashes with an optional colon at either end. -/
def isDelimiterCell (cell : Text) : Bool :=
  let inner := Text.strip cell
  let afterColon : Text := if inner.startsWith [':'] then inner.drop 1 else inner
  let afterDashes : Text := afterColon.dropWhile (· == '-')
  afterColon.startsWith ['-'] && isOptionalColon afterDashes

/-- The cells of a row that starts and ends with a pipe: what stands between the pipes. -/
def cells? (row : Text) : Option (List Text) :=
  match Text.splitOn '|' row with
  | [] :: rest =>
    match rest.reverse with
    | [] :: inner => if inner.isEmpty then none else some inner.reverse
    | _ => none
  | _ => none

def isSeparator (line : Text) : Bool :=
  match cells? (Text.strip line) with
  | some cells => cells.all isDelimiterCell
  | none => false

/-- Write a separator row with three dashes in every cell; any other line stays as it is. -/
def normaliseSeparator (line : Text) : Text :=
  match cells? (Text.strip line) with
  | some cells =>
    if cells.all isDelimiterCell then
      delimiterRow (cells.map fun cell => Alignment.ofCell (Text.strip cell))
    else line
  | none => line

theorem normaliseSeparator_of_not {line : Text} (h : isSeparator line = false) :
    normaliseSeparator line = line := by
  unfold isSeparator at h
  unfold normaliseSeparator
  split
  · next cells hcells =>
    rw [hcells] at h
    simp [h]
  · rfl

end Reflow.Block
