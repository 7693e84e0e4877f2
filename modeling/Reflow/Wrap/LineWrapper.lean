import Reflow.Sentence
import Reflow.Wrap.Tagged

/-!
Line wrappers.

`toWidth` fills lines up to a width. `bySentence` also starts a new line after every sentence,
unless the line is still short: then the next sentence goes on the same line. The Markdown variant
of either keeps hard line breaks and the line feeds next to tags and table rows.
-/

namespace Reflow.Wrap

def defaultWidth : Int := 88

/-- The length below which a line takes up the next sentence, where none is given. -/
def defaultMinLineLength : Int := 20

/-- Keep what Markdown needs kept: hard line breaks, and line feeds next to tags and rows. -/
def forMarkdown (wrap : LineWrapper) : LineWrapper := keepHardBreaks (keepTagLines wrap)

/-! ## Filling to a width -/

def fillToWidth (measure : Measure) (markdown : Bool) (width : Int) : LineWrapper :=
  fun t indents => paragraph { measure, markdown } width indents t

def toWidth (measure : Measure) (markdown : Bool) (width : Int) : LineWrapper :=
  let fill := fillToWidth measure markdown width
  if markdown then forMarkdown fill else fill

/-! ## One sentence to a line -/

inductive SentenceSplitter where
  /-- Words joined by single spaces; sentences shorter than the least length are not ended. -/
  | plain
  /-- The text as it stands, never cut inside inline markup; no least length. -/
  | prose
deriving DecidableEq, Repr

def SentenceSplitter.split : SentenceSplitter → Text → List Text
  | plain, t => Sentence.split t Sentence.defaultMinLength Sentence.isEnd
  | prose, t => Sentence.splitProse t 0 Sentence.isEnd

structure SentenceSettings where
  width : Int := defaultWidth
  minLineLength : Int := defaultMinLineLength
  measure : Measure := .codePoints
  splitter : SentenceSplitter := .prose
  markdown : Bool := false
deriving DecidableEq, Repr

namespace SentenceSettings

def isShort (s : SentenceSettings) (line : Text) : Bool :=
  decide ((s.measure.of line : Int) < s.minLineLength)

def sentenceLines (s : SentenceSettings) (column later : Int) (sentence : Text) : List Text :=
  paragraphLines { markdown := s.markdown } { width := s.width, first := column, later } sentence

/-- Put the lines of the next sentence after the lines so far, of which `last` is the last. If
`last` is short and there is room, the first new line continues it. -/
def joinLines (s : SentenceSettings) (last : Text) : List Text → List Text
  | [] => [last]
  | line :: rest =>
    if s.isShort last && decide ((s.measure.of last : Int) + 1 + s.measure.of line ≤ s.width) then
      (last ++ [' '] ++ line) :: rest
    else last :: line :: rest

def addSentence (s : SentenceSettings) (start later : Int) (lines : List Text) (sentence : Text) :
    List Text :=
  match lines.getLast? with
  | none => s.sentenceLines start later sentence
  | some last =>
    let column := if s.isShort last then start + s.measure.of last else start
    lines.dropLast ++ s.joinLines last (s.sentenceLines column later sentence)

/-- The lines of a text, sentence by sentence. Only the first sentence starts at the first
column. -/
def lines (s : SentenceSettings) (first later : Int) (t : Text) : List Text :=
  match s.splitter.split t with
  | [] => []
  | sentence :: rest =>
    rest.foldl (s.addSentence later later) (s.addSentence first later [] sentence)

end SentenceSettings

def fillBySentence (s : SentenceSettings) : LineWrapper := fun t indents =>
  let flat := t.map fun c => if c = '\n' then ' ' else c
  if s.width ≤ 0 then indents.first ++ Text.unwords (Text.words flat)
  else
    let lines := s.lines (s.measure.of indents.first) (s.measure.of indents.later) flat
    Tag.rejoin (Text.unlines (indents.apply lines))

def bySentence (s : SentenceSettings) : LineWrapper :=
  if s.markdown then forMarkdown (fillBySentence s) else fillBySentence s

end Reflow.Wrap
