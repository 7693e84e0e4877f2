import Reflow.Atomic.Span

/-!
Words that keep atomic constructs whole.

A character is *glued* when it lies inside an atomic construct. A word is a maximal run of
characters that are visible or glued: blanks inside a construct do not end a word, and a construct
sticks to the visible characters next to it.
-/

namespace Reflow.Atomic

/-- A character, and whether it is glued to its neighbours. -/
abbrev Mark := Char × Bool

/-- The characters of a piece, glued exactly when the piece is atomic. -/
def Piece.marks (p : Piece) : List Mark := p.text.map fun c => (c, p.construct.isSome)

def marks (constructs : List Construct) (t : Text) : List Mark :=
  (pieces constructs t).flatMap Piece.marks

def isGap (m : Mark) : Bool := isBlank m.1 && !m.2

structure Word where
  text : Text
  start : Nat
deriving DecidableEq, Repr

def Word.stop (w : Word) : Nat := w.start + w.text.length

/-- The maximal runs of characters that are not gaps, the first character standing at `start`. -/
def solidRuns (start : Nat) : List Mark → List Word
  | [] => []
  | m :: ms =>
    if isGap m then solidRuns (start + 1) ms
    else
      match ms, solidRuns (start + 1) ms with
      | next :: _, w :: ws =>
        if isGap next then ⟨[m.1], start⟩ :: w :: ws else ⟨m.1 :: w.text, start⟩ :: ws
      | _, ws => ⟨[m.1], start⟩ :: ws

def words (constructs : List Construct) (t : Text) : List Word :=
  solidRuns 0 (marks constructs t)

end Reflow.Atomic
