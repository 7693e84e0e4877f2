import Reflow.Block.Separator
import Reflow.Tag.Spacing
import Reflow.Wrap.HardBreak

/-!
Wrapping around tags and tables.

A line feed next to a tag or a table row is part of the layout and stays. The lines of a text are
gathered into segments that end at such line feeds, and each segment is wrapped on its own. Table
rows are never wrapped, and a many-line HTML comment is kept as it is.
-/

namespace Reflow.Wrap

/-- The line feed between two adjacent lines stays. List items count only in a text that has
tags. -/
def isBoundary (hasTags : Bool) (previous line : Text) : Bool :=
  Tag.endsLine previous || Tag.startsUnindented line ||
    Block.isTableRow line || (hasTags && Block.isListItem line) ||
    Block.isTableRow previous || (hasTags && Block.isListItem previous)

/-- Gather lines after `previous` into segments; `current` holds the lines of the segment under
way, `previous` the last of them. -/
def segmentsFrom (hasTags : Bool) (current : List Text) (previous : Text) :
    List Text → List (List Text)
  | [] => [current]
  | line :: rest =>
    if isBoundary hasTags previous line then current :: segmentsFrom hasTags [line] line rest
    else segmentsFrom hasTags (current ++ [line]) line rest

def hasTags (lines : List Text) : Bool := lines.any fun l => Tag.endsLine l || Tag.startsLine l

/-- Cut lines into the segments between line feeds that stay. -/
def segments (lines : List Text) : List (List Text) :=
  match lines with
  | [] => []
  | first :: rest => segmentsFrom (hasTags lines) [first] first rest

def verbatim (indents : Indents) (lines : List Text) : Text := Text.unlines (indents.apply lines)

/-- A table row with its indent; separator rows are normalised, blank lines stay as they are. -/
def indentRow (indent line : Text) : Text :=
  if Text.isBlankText line then line else indent ++ Block.normaliseSeparator line

def tableRows (indents : Indents) : List Text → List Text
  | [] => []
  | line :: rest => indentRow indents.first line :: rest.map (indentRow indents.later)

def wrapSegment (wrap : LineWrapper) (indents : Indents) (segment : List Text) : Text :=
  if Tag.isMultilineComment (Text.unlines segment) then verbatim indents segment
  else if segment.all fun l => Text.isBlankText l || Block.isTableRow l then
    Text.unlines (tableRows indents segment)
  else wrap (Text.unlines segment) indents

def segmentsNeedSpace (previous segment : List Text) : Bool :=
  ((previous.getLast?.map Tag.endsLine).getD false && segment.any Block.isContent) ||
    (previous.any Block.isContent && (segment.head?.map Tag.startsUnindented).getD false)

def wrapSegmentsAfter (wrap : LineWrapper) (indent : Text) (previous : List Text) :
    List (List Text) → List Text
  | [] => []
  | segment :: rest =>
    let wrapped := wrapSegment wrap ⟨indent, indent⟩ segment
    let following := wrapSegmentsAfter wrap indent segment rest
    if segmentsNeedSpace previous segment then [] :: wrapped :: following
    else wrapped :: following

def keepTagLines (wrap : LineWrapper) : LineWrapper := fun t indents =>
  if t.contains '\n' && Tag.isMultilineComment t then verbatim indents (Text.lines t)
  else
    match segments (Text.lines t) with
    | first :: second :: rest =>
      let parts :=
        wrapSegment wrap indents first
          :: wrapSegmentsAfter wrap indents.later first (second :: rest)
      Tag.breakClosings (Tag.spaceClosings (Text.unlines parts))
    | _ => Tag.breakClosings (wrap t indents)

end Reflow.Wrap
