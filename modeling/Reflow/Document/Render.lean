import Reflow.Block.Separator
import Reflow.Document.Fence
import Reflow.Wrap.HardBreak
import Reflow.Text.Quoted

/-!
Writing a document as normalised Markdown.

The writer walks the tree from left to right and carries a small state: what the next line starts
with, what the lines after it start with, whether the next item needs a blank line before it,
whether the next blank line has already been written, and the inline text of the paragraph so far.
Blocks are written with the line starts of the containers around them. A container adds to the line
starts for its children and takes its addition off again.
-/

namespace Reflow.Document

/-! ## Inline pieces -/

def quoteTitle (title : Text) : Text :=
  let inner := Text.dropEndWhile (· == '"') (title.dropWhile (· == '"'))
  ['"'] ++ Text.replaceAll ['"'] ['\\', '"'] inner ++ ['"']

def ideographRanges : Ranges :=
  [(0x2E80, 352), (0x3040, 240), (0x3200, 256), (0x3400, 6592), (0x4E00, 20992), (0xF900, 512)]

def isIdeograph (c : Char) : Bool := ideographRanges.contains c.toNat

def isAsciiAlphanumeric (c : Char) : Bool :=
  ('a' ≤ c && c ≤ 'z') || ('A' ≤ c && c ≤ 'Z') || isAsciiDigit c

def needsGap (a b : Char) : Bool :=
  (isIdeograph a && isAsciiAlphanumeric b) || (isAsciiAlphanumeric a && isIdeograph b)

def spaceIdeographs : Text → Text
  | a :: b :: rest =>
    if needsGap a b then a :: ' ' :: spaceIdeographs (b :: rest)
    else a :: spaceIdeographs (b :: rest)
  | t => t

/-- A code span; one that starts or ends with a backtick gets two on either side. -/
def codeSpan (code : Text) : Text :=
  if code.head? == some '`' || code.getLast? == some '`' then
    ['`', '`', ' '] ++ code ++ [' ', '`', '`']
  else ['`'] ++ code ++ ['`']

/-! ## Settings and state -/

inductive ListSpacing where
  | preserve
  | loose
  | tight
deriving DecidableEq, Repr

namespace ListSpacing

def name : ListSpacing → String
  | preserve => "preserve"
  | loose => "loose"
  | tight => "tight"

def ofName? (s : String) : Option ListSpacing := [preserve, loose, tight].find? fun l => l.name == s

def unknownMessage (s : String) : Text :=
  Text.quoted s.toList ++ " is not a valid ListSpacing".toList

end ListSpacing

structure Writer where
  wrap : Wrap.LineWrapper
  spacing : ListSpacing := .preserve

structure WriterState where
  /-- What the next line starts with. -/
  lead : Text := []
  /-- What the lines after it start with. -/
  indent : Text := []
  /-- The next item of a loose list needs no blank line before it. -/
  itemBreakDone : Bool := true
  /-- The next blank line has been written already. -/
  blankLineDone : Bool := false
  /-- The inline text of the paragraph so far. -/
  inlineText : Text := []
  inHeading : Bool := false
  /-- The list under way has no blank lines between items. -/
  tight : Bool := false
  /-- The link targets of the document, once one has been entered. -/
  references : Option (List Reference) := none
deriving DecidableEq, Repr

namespace WriterState

def nextBlock (s : WriterState) : WriterState := { s with lead := s.indent }

/-- Inside a container: `lead` stands in front of its first line, `indent` in front of the
others. -/
def enter (s : WriterState) (lead indent : Text) : WriterState :=
  { s with lead := s.lead ++ lead, indent := s.indent ++ indent }

/-- Outside the container again, with the line starts of `outer`. -/
def leave (s outer : WriterState) : WriterState :=
  { s with lead := outer.lead, indent := outer.indent }

def addInline (s : WriterState) (t : Text) : WriterState :=
  { s with inlineText := s.inlineText ++ t }

end WriterState

abbrev Written := Text × WriterState

/-! ## Blocks without children -/

def writeBlankLine (s : WriterState) : Written :=
  if s.blankLineDone then ([], { s with blankLineDone := false })
  else
    let line := if Text.isBlankText s.lead then [] else s.lead
    (line ++ ['\n'], { s with itemBreakDone := true }.nextBlock)

def writeThematicBreak (s : WriterState) : Written :=
  (s.lead ++ "* * *\n".toList, s.nextBlock)

def Target.shownTitle (t : Target) : Option Text :=
  match t.title with
  | none => none
  | some title => if title.isEmpty then none else some (quoteTitle title)

def titleSuffix : Option Text → Text
  | none => []
  | some title => ' ' :: title

def writeLinkDefinition (r : Reference) (s : WriterState) : Written :=
  (s.lead ++ ['['] ++ r.label ++ [']', ':', ' '] ++ r.target.address ++
      titleSuffix r.target.shownTitle ++ ['\n'],
    { s with itemBreakDone := true }.nextBlock)

def infoLine (info : FenceInfo) : Text :=
  if info.language.isEmpty then []
  else if info.extra.isEmpty then info.language
  else info.language ++ [' '] ++ info.extra

/-- A line of code; an empty one keeps only the visible part of what lines start with. -/
def codeLine (indent line : Text) : Text :=
  if line.isEmpty then Text.stripRight indent else indent ++ line

def writeCode (info : FenceInfo) (fence : Fence) (code : Text) (s : WriterState) : Written :=
  let body := Text.dropEndNewlines code
  let mark := Text.repeated (max fence.length (minFenceLength fence.char body)) fence.char
  let lines := (s.lead ++ mark ++ infoLine info) ::
    (Text.splitLines body).map (codeLine s.indent) ++ [s.indent ++ mark]
  (Text.unlines lines ++ ['\n'],
    { s with blankLineDone := false, itemBreakDone := false }.nextBlock)

def codeOf (children : List Node) : Text :=
  match children with
  | .text _ t :: _ => t
  | _ => []

/-- The fence of code that had none, or one of unknown shape. -/
def defaultFence : Fence := ⟨'`', minFence⟩

/-! ## Inline nodes without children -/

/-- An escaped character. A point needs its backslash only after a number at the start of a
paragraph. -/
def writeLiteral (t : Text) (s : WriterState) : Written :=
  let escaped := '\\' :: t
  let soFar := Text.stripLeft s.inlineText
  if t != ['.'] then (escaped, s.addInline escaped)
  else if s.inHeading then (t, s.addInline t)
  else if !soFar.isEmpty && soFar.all isDigitLike then (escaped, s.addInline escaped)
  else (t, s.addInline t)

/-- Raw text, with spaces between ideographs and Latin letters. -/
def writeRawText (t : Text) (s : WriterState) : Written :=
  let spaced := spaceIdeographs t
  (spaced, s.addInline spaced)

/-- A link by its label, if the document defines its target, and by its address otherwise. -/
def linkText (references : List Reference) (text : Text) (target : Target) : Text :=
  let title := target.shownTitle
  match references.find? fun r => r.target = ⟨target.address, title⟩ with
  | some r =>
    if r.label = text then ['['] ++ r.label ++ [']', '[', ']']
    else ['['] ++ text ++ [']', '['] ++ r.label ++ [']']
  | none => ['['] ++ text ++ [']', '('] ++ target.address ++ titleSuffix title ++ [')']

def imageText (text : Text) (target : Target) : Text :=
  ['!', '['] ++ text ++ [']', '('] ++ target.address ++ titleSuffix target.shownTitle ++ [')']

def writeLeaf (kind : Kind) (s : WriterState) : Written :=
  match kind with
  | .blankLine => writeBlankLine s
  | .thematicBreak => writeThematicBreak s
  | .htmlBlock body => (s.lead ++ body, s.nextBlock)
  | .linkDefinition r => writeLinkDefinition r s
  | .footnoteReference label => (['[', '^'] ++ label ++ [']'], s)
  | .lineBreak soft => (if soft then ['\n'] else ['\\', '\n'], s)
  | .autolink address => (['<'] ++ address ++ ['>'], s)
  | .bareUrl address => (address, s)
  | _ => ([], s)

def writeText (kind : Kind) (t : Text) (s : WriterState) : Written :=
  match kind with
  | .rawText => writeRawText t s
  | .codeSpan => (codeSpan t, s)
  | .inlineHtml => (t, s)
  | .literal => writeLiteral t s
  | .autolink address => (['<'] ++ address ++ ['>'], s)
  | .bareUrl address => (address, s)
  -- what these hold is not shown
  | .footnoteReference _ | .lineBreak _ => writeLeaf kind s
  | _ => (t, s)

/-! ## Blocks with children

Each function below gets the written children and the state after them. -/

def withBox (checked : Option Bool) (t : Text) : Text :=
  match checked with
  | none => t
  | some done => ['[', if done then 'x' else ' ', ']', ' '] ++ Text.stripLeft t

def beginParagraph (s : WriterState) : WriterState :=
  { s with blankLineDone := false, itemBreakDone := false, inlineText := [] }

def endParagraph (w : Writer) (checked : Option Bool) (t : Text) (s : WriterState) : Written :=
  (w.wrap (withBox checked t) ⟨s.lead, s.indent⟩ ++ ['\n'], { s with inlineText := [] }.nextBlock)

def beginHeading (s : WriterState) : WriterState := { s with inHeading := true, inlineText := [] }

/-- A heading and the blank line after it, which is left out after a hard line break. -/
def endHeading (level : Nat) (t : Text) (s : WriterState) : Written :=
  let line := s.lead ++ Text.repeated level '#' ++ [' '] ++ t ++ ['\n']
  let after := { s with inHeading := false, inlineText := [] }.nextBlock
  if t.endsWith ['\\'] then (line, after)
  else (line ++ ['\n'], { after with blankLineDone := true, itemBreakDone := true })

def quoteMark : Text := ['>', ' ']

/-- A quote in which `t` has been written; `outer` is the state before it. -/
def endQuote (t : Text) (outer s : WriterState) : Written :=
  (Text.dropEndNewlines t ++ ['\n'], { (s.leave outer).nextBlock with itemBreakDone := false })

def alertLine (label : Text) : Text := ['>', ' ', '[', '!'] ++ label ++ [']', '\n']

def endFootnote (t : Text) (outer s : WriterState) : Written :=
  (Text.dropEndNewlines t ++ ['\n', '\n'], { (s.leave outer).nextBlock with itemBreakDone := true })

def tableDelimiters (delimiters : List Text) : Text :=
  Block.delimiterRow (delimiters.map Block.Alignment.ofCell) ++ ['\n']

def rowText (cells : List Text) : Text :=
  ['|', ' '] ++ Text.joinWith [' ', '|', ' '] cells ++ [' ', '|', '\n']

def canBeTight (items : List Node) : Bool :=
  items.all fun item =>
    match item with
    | .branch ⟨.listItem, _⟩ cs => cs.length ≤ 1
    | _ => true

def isTight (w : Writer) (shape : ListShape) (items : List Node) : Bool :=
  match w.spacing with
  | .preserve => shape.tight
  | .tight => canBeTight items
  | .loose => false

def itemMarker (shape : ListShape) (index : Nat) : Text :=
  if shape.ordered then (toString ((index : Int) + shape.start)).toList ++ ['.', ' ']
  else shape.bullet ++ [' ']

def itemIndent (shape : ListShape) (index : Nat) : Text :=
  if shape.ordered then Text.repeated (itemMarker shape index).length ' ' else [' ', ' ']

/-- The blank line before an item of a loose list, where one is needed. -/
def beginItem (s : WriterState) : Written :=
  if s.tight then ([], s)
  else if s.itemBreakDone then ([], { s with itemBreakDone := false })
  else (Text.strip s.indent ++ ['\n'], s)

/-! ## The walk -/

mutual

def write (w : Writer) (n : Node) (s : WriterState) : Written :=
  match n with
  | .leaf h => writeLeaf h.kind s
  | .text h t => writeText h.kind t s
  | .branch h cs =>
    match h.kind with
    | .paragraph checked =>
      let (t, s) := writeAll w cs (beginParagraph s)
      endParagraph w checked t s
    | .heading level | .underlinedHeading level =>
      let (t, s) := writeAll w cs (beginHeading s)
      endHeading level t s
    | .list shape =>
      let inside := { s with blankLineDone := false, tight := isTight w shape cs }
      let (t, after) := writeItems w shape 0 cs inside
      (t, { after with tight := s.tight }.nextBlock)
    | .listItem =>
      let (gap, s) := beginItem s
      let (t, s) := writeAll w cs s
      (gap ++ t, s)
    | .quote =>
      let (t, after) := writeAll w cs ({ s with blankLineDone := false }.enter quoteMark quoteMark)
      endQuote t s after
    | .alert label =>
      let (t, after) := writeAll w cs ({ s with blankLineDone := false }.enter quoteMark quoteMark)
      let (quoted, after) := endQuote t s after
      (alertLine label ++ quoted, after)
    | .footnoteDefinition label =>
      let (t, after) :=
        writeAll w cs (s.enter (['[', '^'] ++ label ++ [']', ':', ' ']) (Text.repeated 4 ' '))
      endFootnote t s after
    | .indentedCode => writeCode ⟨[], []⟩ defaultFence (codeOf cs) s
    | .fencedCode info => writeCode info defaultFence (codeOf cs) s
    | .fencedBlock info fence => writeCode info fence (codeOf cs) s
    | .table delimiters =>
      match cs with
      | [] => (tableDelimiters delimiters, s)
      | header :: rows =>
        let (first, s) := write w header s
        let (rest, s) := writeAll w rows s
        (first ++ tableDelimiters delimiters ++ rest, s)
    | .tableRow =>
      let (cells, s) := writeCells w cs s
      (rowText cells, s)
    | .tableCell =>
      let (t, s) := writeAll w cs s
      (Text.replaceAll ['|'] ['\\', '|'] t, s)
    | .emphasis =>
      let (t, s) := writeAll w cs s
      (['*'] ++ t ++ ['*'], s)
    | .strong =>
      let (t, s) := writeAll w cs s
      (['*', '*'] ++ t ++ ['*', '*'], s)
    | .strikethrough =>
      let (t, s) := writeAll w cs s
      (['~', '~'] ++ t ++ ['~', '~'], s)
    | .link target =>
      let (t, s) := writeAll w cs s
      (linkText (s.references.getD []) t target, s)
    | .image target =>
      let (t, s) := writeAll w cs s
      (imageText t target, s)
    | .autolink address => (['<'] ++ address ++ ['>'], s)
    | .bareUrl address => (address, s)
    | _ => writeAll w cs s

def writeAll (w : Writer) (ns : List Node) (s : WriterState) : Written :=
  match ns with
  | [] => ([], s)
  | n :: rest =>
    let (t, s) := write w n s
    let (ts, s) := writeAll w rest s
    (t ++ ts, s)

def writeItems (w : Writer) (shape : ListShape) (index : Nat) (ns : List Node) (s : WriterState) :
    Written :=
  match ns with
  | [] => ([], s)
  | n :: rest =>
    let (t, after) := write w n (s.enter (itemMarker shape index) (itemIndent shape index))
    let (ts, last) := writeItems w shape (index + 1) rest (after.leave s)
    (t ++ ts, last)

def writeCells (w : Writer) (ns : List Node) (s : WriterState) : List Text × WriterState :=
  match ns with
  | [] => ([], s)
  | n :: rest =>
    let (t, s) := write w n s
    let (ts, s) := writeCells w rest s
    (t :: ts, s)

end

def Node.references (n : Node) : List Reference :=
  match n.kind with
  | .document references => references
  | _ => []

/-- The state in which a document is entered: line starts are empty, and the first document ever
entered gives the link targets. -/
def WriterState.begin (s : WriterState) (n : Node) : WriterState :=
  { s with lead := [], indent := [], references := s.references.or (some n.references) }

/-- Write a document with a writer that may have written others before. -/
def writeAgain (w : Writer) (n : Node) (s : WriterState) : Written := write w n (s.begin n)

def render (w : Writer) (n : Node) : Text := (writeAgain w n {}).1

end Reflow.Document
