import Reflow.Text.Basic

/-!
Patterns of names and paths.

A pattern is a list of pieces. What a pattern means is given by the texts that can be left over
after it: a piece that can take more or less of a text leaves several. A text matches if nothing can
be left of it.
-/

namespace Reflow.Files

inductive CharClass where
  | exactly (c : Char)
  | notSlash
  | notLineFeed
  | anything
  /-- The characters in one of the ranges, or in none of them. -/
  | within (negated : Bool) (ranges : List (Char × Char))
deriving DecidableEq, Repr

def CharClass.accepts : CharClass → Char → Bool
  | exactly d, c => c == d
  | notSlash, c => c != '/'
  | notLineFeed, c => c != '\n'
  | anything, _ => true
  | within negated ranges, c => (ranges.any fun (lo, hi) => lo ≤ c && c ≤ hi) != negated

inductive Piece where
  | one (k : CharClass)
  | many (k : CharClass)
  | optional (inner : List Piece)
deriving Repr

abbrev Pattern := List Piece

namespace Pattern

def restsOfMany (k : CharClass) : Text → List Text
  | [] => [[]]
  | c :: cs => (c :: cs) :: if k.accepts c then restsOfMany k cs else []

mutual

def restsOfPiece : Piece → Text → List Text
  | .one _, [] => []
  | .one k, c :: cs => if k.accepts c then [cs] else []
  | .many k, t => restsOfMany k t
  | .optional inner, t => t :: rests inner t

def rests : List Piece → Text → List Text
  | [], t => [t]
  | p :: ps, t => (restsOfPiece p t).flatMap fun r => rests ps r

end

def accepts (p : Pattern) (t : Text) : Bool := (rests p t).any List.isEmpty

/-! ## Brackets -/

/-- The ranges that stand between brackets: single characters, and two characters with a dash
between them. -/
def ranges : Text → List (Char × Char)
  | lo :: '-' :: hi :: rest => (lo, hi) :: ranges rest
  | c :: rest => (c, c) :: ranges rest
  | [] => []

structure Bracket where
  negated : Bool
  inner : Text
  size : Nat
deriving DecidableEq, Repr

def Bracket.piece (b : Bracket) : Piece := .one (.within b.negated (ranges b.inner))

/-- Read a bracket from after its opening. A bracket that closes at once is a character of the set,
and a bracket that never closes is none. -/
def bracket? (isNegation : Char → Bool) (t : Text) : Option Bracket := do
  let (negated, body) := match t with
    | c :: cs => if isNegation c then (true, cs) else (false, t)
    | [] => (false, t)
  let (first, body) := match body with
    | ']' :: cs => ([']'], cs)
    | _ => ([], body)
  let (inner, rest) ← Text.cut? [']'] body
  return ⟨negated, first ++ inner, t.length - rest.length⟩

def isIgnoreNegation (c : Char) : Bool := c == '!' || c == '^'

end Pattern

end Reflow.Files
