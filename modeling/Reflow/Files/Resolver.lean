import Reflow.Files.Glob
import Reflow.Files.Ignore

/-!
Finding the files to work on.

Inputs are files, folders and paths with wildcards. A folder stands for the files in it, at any
depth, that carry a wanted name and that nothing leaves out: neither the excluded names nor an
ignore file. A file that is named outright is taken in any case, unless the filter says that
exclusion is forced. The answer lists every file once, in the order of the names from the root down.

Ignore files are read at most once: a resolver keeps what it has read.
-/

namespace Reflow.Files

/-! ## What is wanted -/

def defaultIncludes : List Text := ["*.md".toList]

def defaultExcludes : List Text :=
  [ -- version control
    ".git/", ".hg/", ".svn/", ".bzr/", "_darcs/",
    -- environments and caches
    ".venv/", "venv/", "__pycache__/", ".tox/", ".nox/", ".mypy_cache/", ".ruff_cache/",
    ".pytest_cache/", ".eggs/", "*.egg-info/",
    -- what is built
    "build/", "dist/",
    -- packages
    "node_modules/", ".next/", ".nuxt/", ".output/", ".cache/", ".parcel-cache/", ".turbo/",
    -- editors
    ".idea/", ".vscode/", ".vs/", ".fleet/",
    -- coverage
    "coverage/", "htmlcov/", ".coverage/",
    -- what others wrote
    "vendor/", "third_party/", "Pods/", "target/", ".terraform/"].map String.toList

structure Filter where
  toolName : Text := "flowmark".toList
  includes : List Text := defaultIncludes
  moreIncludes : List Text := []
  /-- In place of the default excludes, if given. -/
  excludes : Option (List Text) := none
  moreExcludes : List Text := []
  respectGitignore : Bool := true
  forceExclude : Bool := false
  /-- Larger files are left out; zero stands for no bound. -/
  maxSize : Int := 1048576
deriving DecidableEq, Repr

namespace Filter

def allIncludes (f : Filter) : List Text := f.includes ++ f.moreIncludes

def allExcludes (f : Filter) : List Text := f.excludes.getD defaultExcludes ++ f.moreExcludes

end Filter

inductive ResolveError where
  | notFound (path : Text)
  | glob (e : GlobError)
  | line (e : InvalidLine)
  | loop (path : Text)
deriving DecidableEq, Repr

def ResolveError.message : ResolveError → Text
  | notFound p => "Path not found: ".toList ++ p
  | glob e => e.message.toList
  | line e => e.message
  | loop p => "Symlink loop from ".toList ++ p.quoted

/-! ## Ignore files -/

def activeLines (t : Text) : List Text :=
  (Text.splitLines t).filter fun l =>
    let visible := Text.strip l
    visible ≠ [] && visible.head? ≠ some '#'

/-- What an ignore file says. One that is not text, or that says nothing, is as good as none. -/
def readIgnoreFile (t : Tree) (p : Place) : Except ResolveError (Option IgnoreList) :=
  match t.read [] (.ofPlace p) with
  | .error _ => .ok none
  | .ok text =>
    match activeLines text with
    | [] => .ok none
    | lines =>
      match IgnoreList.ofLines lines with
      | .ok l => .ok (some l)
      | .error e => .error (.line e)

def folderIgnore (t : Tree) (folder : Place) : Except ResolveError (Option IgnoreList) :=
  readIgnoreFile t (folder ++ [".gitignore".toList])

/-- The ignore file of a tool: the nearest one in the folder or above it. -/
def toolIgnore (t : Tree) (toolName : Text) (folder : Place) :
    Except ResolveError (Option IgnoreList) :=
  let name := ['.'] ++ toolName ++ "ignore".toList
  match folder.upward.find? fun p => t.hasFile [] (.ofPlace (p ++ [name])) with
  | some p => readIgnoreFile t (p ++ [name])
  | none => .ok none

/-- The ignore files that were read, by the folder for which they were asked. -/
structure Known where
  folders : List (Place × Option IgnoreList) := []
  tools : List (Place × Option IgnoreList) := []

/-- A search under way: it can fail, and it keeps the ignore files that it has read. -/
abbrev Search := StateT Known (Except ResolveError)

namespace Search

def folderIgnore (t : Tree) (folder : Place) : Search (Option IgnoreList) := do
  match (← get).folders.lookup folder with
  | some l => return l
  | none =>
    let l ← Files.folderIgnore t folder
    modify fun k => { k with folders := (folder, l) :: k.folders }
    return l

def toolIgnore (t : Tree) (toolName : Text) (folder : Place) : Search (Option IgnoreList) := do
  match (← get).tools.lookup folder with
  | some l => return l
  | none =>
    let l ← Files.toolIgnore t toolName folder
    modify fun k => { k with tools := (folder, l) :: k.tools }
    return l

end Search

/-! ## Resolvers -/

structure Resolver where
  filter : Filter
  wanted : IgnoreList
  unwanted : IgnoreList

namespace Resolver

def ofFilter (f : Filter) : Except InvalidLine Resolver := do
  let unwanted ← IgnoreList.ofLines f.allExcludes
  let wanted ← IgnoreList.ofLines f.allIncludes
  return ⟨f, wanted, unwanted⟩

def isTooLarge (r : Resolver) (t : Tree) (cwd : Place) (p : Path) : Bool :=
  r.filter.maxSize ≠ 0 &&
    match t.content? cwd p with
    | some c => (c.size : Int) > r.filter.maxSize
    | none => false

/-! ### Files that are named outright -/

/-- The list leaves out a file that is named outright: by its name, by its path from the working
folder, or by a folder on the way. -/
def coversNamed (l : IgnoreList) (t : Tree) (cwd : Place) (p : Path) : Bool :=
  let place := t.real cwd p
  l.covers p.name
    || (cwd.isPrefixOf place && l.covers (relative place))
    || p.leadingNames.any fun n => l.covers (n ++ ['/'])
where
  relative (place : Place) : Text :=
    Path.toText ⟨false, place.relativeTo cwd⟩

def takesNamed (r : Resolver) (t : Tree) (cwd : Place) (p : Path) : Search Bool := do
  if r.filter.forceExclude then
    if coversNamed r.unwanted t cwd p then return false
    match ← Search.toolIgnore t r.filter.toolName (t.real cwd p.parent) with
    | some l => if coversNamed l t cwd p then return false
    | none => pure ()
  return !r.isTooLarge t cwd p

/-! ### Folders -/

/-- A folder is closed to a walk. The names lead from the root of the walk to the folder; the lists
are those of the folders on the way, and the one of the tool. -/
def closes (r : Resolver) (onTheWay : List IgnoreList) (tool : Option IgnoreList)
    (names : List Text) : Bool :=
  let name := names.getLast?.getD [] ++ ['/']
  let way := Text.joinWith ['/'] names ++ ['/']
  r.unwanted.covers name || r.unwanted.covers way
    || onTheWay.any (·.covers name)
    || tool.any fun l => l.covers name || l.covers way

def takesName (r : Resolver) (onTheWay : List IgnoreList) (tool : Option IgnoreList)
    (name : Text) : Bool :=
  r.wanted.covers name && !(onTheWay.any (·.covers name)) && !(tool.any (·.covers name))

def listsOnTheWay (r : Resolver) (t : Tree) (root : Place) (names : List Text) :
    Search (List IgnoreList) := do
  if r.filter.respectGitignore then
    let lists ← (Place.ancestors names).mapM fun ns => Search.folderIgnore t (root ++ ns)
    return lists.filterMap id
  else return []

/-- The walk gets from its root to the folder that the names lead to: no folder on the way is
closed. -/
def reaches (r : Resolver) (t : Tree) (root : Place) (tool : Option IgnoreList) :
    (above names : List Text) → Search Bool
  | _, [] => return true
  | above, name :: rest => do
    let lists ← r.listsOnTheWay t root above
    if r.closes lists tool (above ++ [name]) then return false
    r.reaches t root tool (above ++ [name]) rest

/-- What the walk of a folder can find: files, and links that do not lead to a folder. -/
def candidates (t : Tree) (root : Place) : List Place :=
  (t.entries.map (·.1)).filter fun p =>
    p.isBelow root && !t.hasFolder [] (.ofPlace p)

def finds (r : Resolver) (t : Tree) (root : Place) (tool : Option IgnoreList) (p : Place) :
    Search Bool := do
  let names := p.relativeTo root
  let folder := names.dropLast
  if ← r.reaches t root tool [] folder then
    let lists ← r.listsOnTheWay t root folder
    return r.takesName lists tool (names.getLast?.getD []) && !r.isTooLarge t [] (.ofPlace p)
  else return false

def target (t : Tree) (p : Place) : Search Place :=
  let place := t.real [] (.ofPlace p)
  if t.isEndless [] (.ofPlace place) then throw (.loop place.toText) else return place

def walk (r : Resolver) (t : Tree) (root : Place) : Search (List Place) := do
  let tool ← Search.toolIgnore t r.filter.toolName root
  let found ← (candidates t root).filterM (r.finds t root tool)
  found.mapM (target t)

/-! ### Wildcards -/

def expand (r : Resolver) (t : Tree) (cwd : Place) (p : Path) : Except GlobError (List Place) := do
  let found ← t.glob cwd p
  return (found.filter fun q =>
    t.hasFile cwd q && r.wanted.covers q.name && !r.isTooLarge t cwd q).map (t.real cwd)

/-! ### Inputs -/

def resolveOne (r : Resolver) (t : Tree) (cwd : Place) (written : Text) :
    Search (List Place) := do
  let p := Path.ofText written
  if t.hasFile cwd p then
    return if ← r.takesNamed t cwd p then [t.real cwd p] else []
  else if t.hasFolder cwd p then
    r.walk t (t.real cwd p)
  else if written.any isWildcard then
    match r.expand t cwd p with
    | .ok found => return found
    | .error e => throw (.glob e)
  else throw (.notFound written)

/-- Add the files that one input stands for to those that were found before. A file that is named
outright and was found already is not asked about again. -/
def gather (r : Resolver) (t : Tree) (cwd : Place) (found : List Place) (written : Text) :
    Search (List Place) := do
  let p := Path.ofText written
  if t.hasFile cwd p && found.contains (t.real cwd p) then return found
  return found ++ (← r.resolveOne t cwd written)

def resolve (r : Resolver) (t : Tree) (cwd : Place) (inputs : List Text) :
    Search (List Place) := do
  let found ← inputs.foldlM (r.gather t cwd) []
  return found.eraseDups.mergeSort Place.le

end Resolver

end Reflow.Files
