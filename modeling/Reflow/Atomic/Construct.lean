import Reflow.Tag.Kind
import Reflow.Text.Recogniser

/-!
Atomic constructs.

An atomic construct is a piece of inline markup that must never be broken across lines: a code
span, a link, an autolink, a bare address, a template tag, or an HTML tag. Each construct has a
recogniser that says how far it reaches from a given place. These are heuristics for layout: a link
is whatever looks like one, and nothing is resolved or unescaped.
-/

namespace Reflow

inductive Construct where
  | codeSpan
  | link
  | autolink
  | bareUrl
  | tag (kind : TagKind)
  | tagPair (kind : TagKind)
  | htmlOpen
  | htmlClose
deriving DecidableEq, Repr

namespace Construct

open Recogniser

/-! ## Recognisers -/

/-- A code span that opens with exactly `k` backticks: they are followed by at least one character
and closed by the next `k` backticks in a row. -/
def codeSpanOf (k : Nat) : Recogniser := fun t =>
  match Text.cut? (Text.repeated k '`') (t.drop k) with
  | some (body, _) => if body.isEmpty then none else some (k + body.length + k)
  | none => none

def codeSpanUpTo : Nat → Recogniser
  | 0 => fun _ => none
  | k + 1 => fun t => (codeSpanOf (k + 1) t).or (codeSpanUpTo k t)

/-- A code span; longer opening runs of backticks are tried first. -/
def codeSpanLength : Recogniser := fun t => codeSpanUpTo (t.takeWhile (· == '`')).length t

def bracketed : Recogniser := sequence [exactly ['['], through [']']]

def parenthesised : Recogniser := sequence [exactly ['('], through [')']]

/-- Text in brackets, and a target in parentheses or brackets if there is one. -/
def linkLength : Recogniser := andThen bracketed (optional (orElse parenthesised bracketed))

def isAsciiLetter (c : Char) : Bool := ('a' ≤ c && c ≤ 'z') || ('A' ≤ c && c ≤ 'Z')

def isSchemeChar (c : Char) : Bool :=
  isAsciiLetter c || ('0' ≤ c && c ≤ '9') || c == '+' || c == '.' || c == '-'

def isAddressChar (c : Char) : Bool := !isBlank c && c != '<' && c != '>'

def schemeAutolink : Recogniser :=
  sequence [exactly ['<'], one isAsciiLetter, many isSchemeChar, exactly [':'],
    many isAddressChar, exactly ['>']]

def isMailboxChar (c : Char) : Bool := isAddressChar c && c != '@'

def mailAutolink : Recogniser :=
  sequence [exactly ['<'], one isMailboxChar, many isMailboxChar, exactly ['@'],
    one isAddressChar, many isAddressChar, exactly ['>']]

def isUrlTrailing (c : Char) : Bool :=
  ['?', '!', '.', ',', ':', ';', '*', '_', '~', '\'', '"', ')', ']'].contains c

/-- The rest of a bare address: the characters up to a blank or angle bracket, less the punctuation
at their end; at least one is left. -/
def urlRest : Recogniser := fun t =>
  match Text.dropEndWhile isUrlTrailing (t.takeWhile isAddressChar) with
  | [] => none
  | kept => some kept.length

def urlStart : Recogniser :=
  orElse (exactly "https://".toList) (orElse (exactly "http://".toList) (exactly "www.".toList))

def tagLength (k : TagKind) : Recogniser := sequence [exactly k.opening, through k.closing]

def slash : Recogniser := sequence [many isBlank, exactly ['/']]

/-- What a tag of a pair holds, with its closing delimiter. The first character of the closing
delimiter does not stand anywhere inside; in an HTML comment a single dash may. -/
def pairBody : TagKind → Recogniser
  | .htmlComment => fun t =>
    match Text.cut? ['-', '-'] t with
    | some (body, after) => if after.startsWith ['>'] then some (body.length + 3) else none
    | none => none
  | k => sequence [many (fun c => k.closing.head? != some c), exactly k.closing]

/-- An opening tag and the closing tag that follows it with nothing but blanks between. -/
def tagPairLength (k : TagKind) : Recogniser :=
  sequence [exactly k.opening, absent slash, pairBody k, many isBlank,
    exactly k.opening, slash, pairBody k]

def htmlOpenLength : Recogniser := sequence [exactly ['<'], one isAsciiLetter, through ['>']]

def htmlCloseLength : Recogniser :=
  sequence [exactly ['<', '/'], one isAsciiLetter, through ['>']]

def recogniser : Construct → Recogniser
  | codeSpan => codeSpanLength
  | link => linkLength
  | autolink => orElse schemeAutolink mailAutolink
  | bareUrl => andThen urlStart urlRest
  | tag k => tagLength k
  | tagPair k => tagPairLength k
  | htmlOpen => htmlOpenLength
  | htmlClose => htmlCloseLength

/-! ## Sets of constructs, in order of priority -/

/-- What line wrapping keeps whole. Pairs of tags come before single tags. -/
def wrapping : List Construct :=
  [codeSpan, link] ++ TagKind.all.map tagPair ++ TagKind.all.map tag ++ [htmlOpen, htmlClose]

def prose : List Construct := [codeSpan, link, autolink, bareUrl]

def tags : List Construct := TagKind.all.map tag

def tagPairs : List Construct := TagKind.all.map tagPair

/-! ## Names -/

def tagName : TagKind → String
  | .statement => "jinja_tag"
  | .comment => "jinja_comment"
  | .expression => "jinja_var"
  | .htmlComment => "html_comment"

def name : Construct → String
  | codeSpan => "inline_code_span"
  | link => "markdown_link"
  | autolink => "autolink"
  | bareUrl => "bare_url"
  | tag k => "single_" ++ tagName k
  | tagPair k => "paired_" ++ tagName k
  | htmlOpen => "html_open_tag"
  | htmlClose => "html_close_tag"

def all : List Construct := wrapping ++ [autolink, bareUrl]

def ofName? (s : String) : Option Construct := all.find? fun k => k.name == s

end Construct

end Reflow
