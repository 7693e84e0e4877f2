import Reflow.Files.Pattern
import Reflow.Files.Tree

/-!
Wildcards in paths.

A path with wildcards is a list of steps down from a folder. A step names its target, gives a
pattern for its name, or goes to every folder below, the folder itself among them. A pattern follows
links to folders; the step to every folder below does not.
-/

namespace Reflow.Files

def isWildcard (c : Char) : Bool := c = '*' || c = '?' || c = '['

inductive Step where
  | named (name : Text)
  | matching (p : Pattern)
  | everyFolder

/-- A name in which a double star stands beside something else. -/
inductive GlobError where
  | partialDoubleStar
deriving DecidableEq, Repr

def GlobError.message : GlobError → String
  | partialDoubleStar => "Invalid pattern: '**' can only be an entire path component"

namespace Step

def pattern : Text → Pattern
  | [] => []
  | c :: cs =>
    if c = '*' then .many .anything :: pattern cs
    else if c = '?' then .one .anything :: pattern cs
    else if c = '[' then
      match Pattern.bracket? (· == '!') cs with
      | some b => b.piece :: pattern (cs.drop b.size)
      | none => .one (.exactly c) :: pattern cs
    else .one (.exactly c) :: pattern cs
termination_by t => t.length
decreasing_by all_goals (simp; try omega)

def ofText (t : Text) : Except GlobError Step :=
  if t = ['*', '*'] then .ok everyFolder
  else if Text.includes t ['*', '*'] then .error .partialDoubleStar
  else if t.any isWildcard then .ok (matching (pattern t))
  else .ok (named t)

/-- Where steps lead from a folder. Only the last step may lead to something else than a folder. -/
def select (t : Tree) (cwd : Place) : List Step → Path → List Path
  | [], p => [p]
  | step :: rest, p =>
    match step with
    | named name =>
      let q := p.child name
      if if rest.isEmpty then t.has cwd q else t.hasFolder cwd q then select t cwd rest q else []
    | matching pattern =>
      match t.find? cwd p with
      | none => []
      | some place =>
        (t.children place).flatMap fun name =>
          let q := p.child name
          if pattern.accepts name && (rest.isEmpty || t.hasFolder cwd q) then
            select t cwd rest q
          else []
    | everyFolder =>
      match t.find? cwd p with
      | none => []
      | some place =>
        (t.allFolders.filter place.isPrefixOf).flatMap fun folder =>
          select t cwd rest { p with names := p.names ++ Place.relativeTo folder place }

end Step

/-- Split a path with wildcards: the folder before the first wildcard, and the steps from there. -/
def globParts (p : Path) : Except GlobError (Path × List Step) := do
  let root := p.names.takeWhile fun n => !n.any isWildcard
  let steps ← (p.names.drop root.length).mapM Step.ofText
  return (⟨p.fromRoot, root⟩, steps)

def Tree.glob (t : Tree) (cwd : Place) (p : Path) : Except GlobError (List Path) := do
  let (root, steps) ← globParts p
  return if t.hasFolder cwd root then Step.select t cwd steps root else []

end Reflow.Files
