import Reflow.Text.Basic

/-!
Paths and places.

A *place* is a position in the file tree: the names on the way down from the root. A *path* is what
somebody writes to get to a place, from the root or from the working folder. Empty names and single
dots in a path mean nothing and are left out; double dots stay, because what they mean depends on
the tree.
-/

namespace Reflow.Files

/-- A position in the file tree: the names on the way down from the root. -/
abbrev Place := List Text

structure Path where
  fromRoot : Bool
  names : List Text
deriving DecidableEq, Repr, Inhabited

def up : Text := ['.', '.']

namespace Place

def toText (p : Place) : Text := '/' :: Text.joinWith ['/'] p

/-- The place and the places above it, from the root down. -/
def ancestors (p : Place) : List Place := (List.range (p.length + 1)).map p.take

/-- The places above and the place itself, from the place up. -/
def upward (p : Place) : List Place := p.ancestors.reverse

def isBelow (p folder : Place) : Bool := folder.isPrefixOf p && folder.length < p.length

def relativeTo (p folder : Place) : List Text := p.drop folder.length

def le : Place → Place → Bool
  | [], _ => true
  | _ :: _, [] => false
  | a :: p, b :: q => if a = b then le p q else Text.le a b

end Place

namespace Path

def ofText (t : Text) : Path where
  fromRoot := t.head? == some '/'
  names := (Text.splitOn '/' t).filter fun n => n ≠ [] && n ≠ ['.']

def ofPlace (p : Place) : Path := ⟨true, p⟩

def here : Path := ⟨false, []⟩

def toText (p : Path) : Text :=
  if p.fromRoot then Place.toText p.names
  else if p.names.isEmpty then ['.']
  else Text.joinWith ['/'] p.names

/-- The last name; empty for the root and the working folder. -/
def name (p : Path) : Text := p.names.getLast?.getD []

def parent (p : Path) : Path := { p with names := p.names.dropLast }

def child (p : Path) (name : Text) : Path := { p with names := p.names ++ [name] }

/-- The names on the way to the last one; the root counts as a name of its own. -/
def leadingNames (p : Path) : List Text :=
  let above := p.names.dropLast
  if p.fromRoot && !p.names.isEmpty then ['/'] :: above else above

end Path

end Reflow.Files
