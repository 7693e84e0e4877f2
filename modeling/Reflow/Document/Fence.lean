import Reflow.Document.Node
import Reflow.Text.Punctuation

/-!
Fenced code.

A fence is a run of three or more backticks or tildes on a line of its own. This module says how
long a fence must be so that no line of the code can close it, and reads the lines of a fenced code
block up to its closing fence.
-/

namespace Reflow.Document

/-! ## How long a fence must be -/

def minFence : Nat := 3

def dropSpaces : Nat → Text → Text
  | n + 1, ' ' :: cs => dropSpaces n cs
  | _, t => t

/-- The length of the run of `char` that a line starts with after at most three spaces. -/
def fenceRun (char : Char) (line : Text) : Nat := ((dropSpaces 3 line).takeWhile (· == char)).length

/-- The longest run of `char`, of three or more, that a line of the code starts with. -/
def longestFence (char : Char) (code : Text) : Nat :=
  ((Text.lines code).map (fenceRun char)).foldl (fun m n => if minFence ≤ n then max m n else m) 0

/-- The least length of a fence of `char` that no line of the code can close. -/
def minFenceLength (char : Char) (code : Text) : Nat := max minFence (longestFence char code + 1)

/-! ## Reading a fenced block -/

def unescape : Text → Text
  | '\\' :: c :: cs => if isAsciiSymbol c then c :: unescape cs else '\\' :: unescape (c :: cs)
  | c :: cs => c :: unescape cs
  | [] => []

def linesWithEnds : Text → List Text
  | [] => []
  | c :: cs =>
    if c = '\n' then ['\n'] :: linesWithEnds cs
    else
      match linesWithEnds cs with
      | [] => [[c]]
      | line :: rest => (c :: line) :: rest

/-- The run of tildes or backticks that a line consists of, at most three spaces before it and
blanks after it apart. -/
def fenceOfLine? (line : Text) : Option Text :=
  match dropSpaces 3 line with
  | [] => none
  | c :: cs =>
    if c == '~' || c == '`' then
      let run := (c :: cs).takeWhile (· == c)
      match ((c :: cs).dropWhile (· == c)).dropWhile fun d => isBlank d && d != '\n' with
      | [] => some run
      | d :: _ => if d = '\n' then some run else none
    else none

/-- Expand tabs to the next multiple of four columns; line ends start at the first column again. -/
def expandTabs (column : Nat) : Text → Text
  | [] => []
  | '\t' :: cs => Text.repeated (4 - column % 4) ' ' ++ expandTabs (column + (4 - column % 4)) cs
  | c :: cs => c :: expandTabs (if c = '\n' || c = '\r' then 0 else column + 1) cs

/-- The least number of leading characters of a line that are `columns` wide with tabs expanded. -/
def charactersOfWidth (columns : Nat) (line : Text) : Option Nat :=
  (List.range (line.length + 1)).find? fun i =>
    decide (columns ≤ (expandTabs 0 (line.take i)).length)

/-- The line feed and what would follow it moved right by any number of spaces. -/
def padBeforeNewline (t : Text) : Text :=
  t.flatMap fun c => if c = '\n' then Text.repeated 99 ' ' ++ ['\n'] else [c]

/-- Take the indentation of the fence off a line of code. A line that is indented less loses all
the blanks it starts with. -/
def removeIndent (indent line : Text) : Text :=
  let wide := expandTabs 0 line
  if wide.startsWith indent then
    line.drop ((charactersOfWidth indent.length line).getD 0)
  else if (padBeforeNewline wide).startsWith indent then line.drop (line.length - 1)
  else Text.stripLeft line

/-- The lines of code up to the closing fence, and how many characters were read, the fence
included. -/
def codeLines (indent fence : Text) : List Text → List Text × Nat
  | [] => ([], 0)
  | line :: rest =>
    if (fenceOfLine? line).any fun run => Text.includes run fence then ([], line.length)
    else
      let (code, read) := codeLines indent fence rest
      (removeIndent indent line :: code, line.length + read)

structure FenceOpening where
  indent : Text
  fence : Text
  info : FenceInfo
deriving DecidableEq, Repr

structure FencedText where
  code : Text
  length : Nat
deriving DecidableEq, Repr

/-- Read a fenced code block from the start of its opening line. A carriage return before a line
feed does not count. -/
def FenceOpening.read (o : FenceOpening) (source : Text) : FencedText :=
  match linesWithEnds (Text.replaceAll ['\r', '\n'] ['\n'] source) with
  | [] => ⟨[], 0⟩
  | first :: rest =>
    let (code, read) := codeLines o.indent o.fence rest
    ⟨code.flatten, first.length + read⟩

def FenceOpening.shape (o : FenceOpening) : Fence := ⟨o.fence.headD '`', o.fence.length⟩

def Node.fenced (info : FenceInfo) (fence : Fence) (code : Text) (span : Option (Nat × Nat)) :
    Node :=
  .branch ⟨.fencedBlock { info with language := unescape info.language } fence, span⟩
    [.text ⟨.rawText, none⟩ code]

end Reflow.Document
