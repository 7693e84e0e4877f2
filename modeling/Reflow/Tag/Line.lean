import Reflow.Tag.Kind

/-!
Lines and tags.

What a line of prose has to do with tags: whether it starts or ends with one, whether it consists
of tags only, whether it starts with a closing tag, and whether a whole text is one HTML comment
that spans several lines. Blanks at the ends of a line do not count, except that an indented line
continues the line before it and so never stands as a tag of its own.
-/

namespace Reflow.Tag

def opens (t : Text) : Bool := TagKind.all.any fun k => t.startsWith k.opening

def closes (t : Text) : Bool := TagKind.all.any fun k => t.endsWith k.closing

def endsLine (line : Text) : Bool := closes (Text.stripRight line)

def startsLine (line : Text) : Bool := opens (Text.stripLeft line)

def isIndented : Text → Bool
  | c :: _ => isBlank c
  | [] => false

def startsUnindented (line : Text) : Bool := !isIndented line && startsLine line

def isTagOnly (line : Text) : Bool :=
  !isIndented line && opens (Text.strip line) && closes (Text.strip line)

def isClosing (line : Text) : Bool :=
  TagKind.all.any fun k => (Text.stripLeft line).startsWith (k.opening ++ [' ', '/'])

/-- The text is one HTML comment and spans several lines: it opens and closes the comment, and the
only closing delimiter is the one at its end. -/
def isMultilineComment (t : Text) : Bool :=
  let inner := Text.strip t
  let close := TagKind.htmlComment.closing
  inner.contains '\n' && inner.startsWith TagKind.htmlComment.opening &&
    match Text.cut? close inner with
    | some (_, after) => after.isEmpty
    | none => false

end Reflow.Tag
