import Reflow.Atomic.Span
import Reflow.Text.WordChar

/-!
Typographic quotes.

Straight quotes become curly where this is safe. A quoted stretch is converted when it stands at
the start of a line or after a blank or em dash, holds no quote of its own kind, straight or curly,
and is followed by a blank, the end of the text or one of a few marks. A single quote alone in its
word becomes an apostrophe between word characters, or after a final `s`. Nothing inside a template
tag changes. Each character is replaced by one character or kept.
-/

namespace Reflow.Typography

/-! ## Quoted stretches -/

inductive QuoteKind where
  | double
  | single
deriving DecidableEq, Repr

namespace QuoteKind

def straight : QuoteKind → Char
  | double => '"'
  | single => '\''

def opening : QuoteKind → Char
  | double => '“'
  | single => '‘'

def closing : QuoteKind → Char
  | double => '”'
  | single => '’'

def admits (k : QuoteKind) (c : Char) : Bool :=
  c != k.straight && c != k.opening && c != k.closing

def ofChar? (c : Char) : Option QuoteKind :=
  if c = '"' then some double else if c = '\'' then some single else none

end QuoteKind

/-- The rest of a text after its leading blanks starts with a line feed. -/
def blanksToNewline : Text → Bool
  | [] => false
  | c :: cs => c == '\n' || (isBlank c && blanksToNewline cs)

/-- Two line feeds stand in the text with nothing but blanks between them. -/
def hasParagraphBreak : Text → Bool
  | [] => false
  | c :: cs => (c == '\n' && blanksToNewline cs) || hasParagraphBreak cs

structure Quoted where
  kind : QuoteKind
  inner : Text
deriving DecidableEq, Repr

def quoted? : Text → Option (Quoted × Text)
  | [] => none
  | q :: cs => do
    let k ← QuoteKind.ofChar? q
    match cs.dropWhile k.admits with
    | c :: rest => if c = k.straight then some (⟨k, cs.takeWhile k.admits⟩, rest) else none
    | [] => none

def isQuoteFollower (c : Char) : Bool :=
  isBlank c || ['.', ',', ';', ':', '?', '!', '—', ')'].contains c

/-- The quoted stretch with curly quotes, or as it is if it spans paragraphs. -/
def Quoted.curl (q : Quoted) : Text :=
  if hasParagraphBreak q.inner then [q.kind.straight] ++ q.inner ++ [q.kind.straight]
  else [q.kind.opening] ++ q.inner ++ [q.kind.closing]

def curlQuoted (t : Text) : Option (Nat × Text) := do
  let (q, rest) ← quoted? t
  match rest with
  | [] => return (q.inner.length + 2, q.curl)
  | c :: _ => if isQuoteFollower c then some (q.inner.length + 3, q.curl ++ [c]) else none

def atLineStart : Option Char → Bool
  | none => true
  | some c => c == '\n'

/-- A quoted stretch at the start of a line, or after a blank or em dash. -/
def curlRule : Rule := fun before t =>
  let here := if atLineStart before then curlQuoted t else none
  here.or <|
    match t with
    | c :: cs =>
      if isBlank c || c == '—' then (curlQuoted cs).map fun (n, new) => (n + 1, c :: new)
      else none
    | [] => none

/-! ## Apostrophes -/

def hasInnerApostrophe : Text → Bool
  | a :: q :: b :: rest =>
    (isWordChar a && q == '\'' && isWordChar b) || hasInnerApostrophe (q :: b :: rest)
  | _ => false

/-- Word characters, the last of them an `s`, and a straight single quote at the end. -/
def isPossessive (word : Text) : Bool :=
  match word.reverse with
  | q :: s :: rest => q == '\'' && (s == 's' || s == 'S') && rest.all isWordChar
  | _ => false

def curlApostrophe (c : Char) : Char := if c = '\'' then '’' else c

/-- The word with its straight single quote as an apostrophe, if it has exactly one and that is an
apostrophe. -/
def fixApostrophe (word : Text) : Text :=
  if word.count '\'' = 1 && (hasInnerApostrophe word || isPossessive word) then
    word.map curlApostrophe
  else word

/-! ## The whole text -/

def curlSegment (t : Text) : Text := (Text.runs (curlRule.apply t)).flatMap fixApostrophe

def curlQuotes (t : Text) : Text :=
  (Atomic.pieces Construct.tags t).flatMap fun p =>
    if p.construct.isSome then p.text else curlSegment p.text

end Reflow.Typography
