import Reflow.Atomic.Word
import Reflow.Text.WordChar

/-!
Sentences.

A word ends a sentence when it ends in two or more letters, the last one lowercase, and then a
point, question or exclamation mark, with a closing quote or parenthesis directly before or after
the mark if there is one. The letters have to start at the edge of a word. Words are gathered into
sentences until one ends a sentence and the sentence is long enough.
-/

namespace Reflow.Sentence

/-! ## The end of a sentence -/

def isEndMark (c : Char) : Bool := c == '.' || c == '?' || c == '!'

/-- A quote or parenthesis that may stand next to the end mark. -/
def isCloser (c : Char) : Bool := c == '\'' || c == '"' || c == '’' || c == '”' || c == ')'

/-- Read backwards, the text starts with a lowercase letter and a letter, and the letters reach
back to the edge of a word. -/
def endsInLetters (backwards : Text) : Bool :=
  match backwards with
  | last :: before :: _ =>
    isLowercase last && isSentenceLetter before &&
      match backwards.dropWhile isSentenceLetter with
      | c :: _ => !isWordPart c
      | [] => true
  | _ => false

/-- Read backwards, the text starts with an end mark and closer, in either order, and then with the
letters that a sentence ends in. -/
def endsBackwards : Text → Bool
  | c :: rest =>
    if isEndMark c then
      endsInLetters rest ||
        match rest with
        | d :: before => isCloser d && endsInLetters before
        | [] => false
    else
      isCloser c &&
        match rest with
        | d :: before => isEndMark d && endsInLetters before
        | [] => false
  | [] => false

/-- The word ends a sentence. One line feed at its end, and spaces before that, do not count. -/
def isEnd (word : Text) : Bool :=
  match word.reverse with
  | '\n' :: rest => endsBackwards (rest.dropWhile (· == ' '))
  | rest => endsBackwards (rest.dropWhile (· == ' '))

/-! ## Gathering words into sentences -/

def joinedLength (ws : List Text) : Int := ws.flatten.length + ws.length - 1

/-- Gather items into groups: a group ends with an item whose text satisfies `ends`, if the texts of
the group joined by spaces are at least `minLength` long. The last group ends with the items.
`current` holds the items of the group under way. -/
def gather {α : Type} (text : α → Text) (ends : Text → Bool) (minLength : Int)
    (current : List α) : List α → List (List α)
  | [] => if current.isEmpty then [] else [current]
  | item :: rest =>
    let group := current ++ [item]
    if ends (text item) && decide (minLength ≤ joinedLength (group.map text)) then
      group :: gather text ends minLength [] rest
    else gather text ends minLength group rest

def defaultMinLength : Int := 15

def split (t : Text) (minLength : Int) (ends : Text → Bool) : List Text :=
  (gather id ends minLength [] (Text.words t)).map Text.unwords

structure Span where
  text : Text
  start : Nat
deriving DecidableEq, Repr

def Span.stop (s : Span) : Nat := s.start + s.text.length

def slice (t : Text) (start stop : Nat) : Text := (t.drop start).take (stop - start)

def spanOf (t : Text) (group : List Atomic.Word) : Option Span :=
  match group.head?, group.getLast? with
  | some first, some last => some ⟨slice t first.start last.stop, first.start⟩
  | _, _ => none

/-- Sentences as they stand in the text; none is cut inside one of the constructs. -/
def spans (constructs : List Construct) (t : Text) (minLength : Int) (ends : Text → Bool) :
    List Span :=
  (gather Atomic.Word.text ends minLength [] (Atomic.words constructs t)).filterMap (spanOf t)

/-- Sentences as they stand in the text, none cut inside the inline markup of prose. -/
def splitProse (t : Text) (minLength : Int) (ends : Text → Bool) : List Text :=
  (spans Construct.prose t minLength ends).map (·.text)

def first (t : Text) (minLength : Int) : Text :=
  (split t minLength isEnd).headD t

/-- The first `n` sentences; a negative `n` leaves out that many at the end. -/
def firstN (t : Text) (n : Int) (minLength : Int) : List Text :=
  let all := split t minLength isEnd
  if 0 ≤ n then all.take n.toNat else all.take (all.length - n.natAbs)

end Reflow.Sentence
