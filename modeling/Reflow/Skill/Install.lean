import Reflow.Files.Tree
import Reflow.Skill.Block

/-!
Installing the pages for agents.

A project has up to three surfaces: two folders, each with a page about use and a page about setting
up, and the block in the page of the project. Outside a project the two pages can be put in a folder
of one's own choice. Files of a later format are left alone, and so is a folder in which one of the
two is.
-/

namespace Reflow.Skill

open Files (Tree Place Path)

/-- What keeps a page from being installed: a file that is in the way or holds no text, or a stamp
that is no number. -/
inductive Fault where
  | file (e : Files.Fault)
  | stamp (e : LongStamp)
deriving DecidableEq, Repr

def Fault.message : Fault → Text
  | file e => e.message
  | stamp e => e.message

/-! ## The two pages of a folder -/

structure Pages where
  usage : Text
  setup : Text
deriving DecidableEq, Repr

structure FoundPages where
  usage : Option Text
  setup : Option Text
deriving DecidableEq, Repr

def isNewer (found : Option Text) : Except Fault Bool :=
  (isLater (found.bind stamp?)).mapError .stamp

/-- What is done about pages that are wanted; `occupied` says that something else than a file is at
the place of one of them. -/
def FoundPages.action (f : FoundPages) (wanted : Pages) (occupied : Bool) : Action :=
  if f.usage = some wanted.usage && f.setup = some wanted.setup then .unchanged
  else if f.usage.isSome || f.setup.isSome || occupied then .updated
  else .installed

/-! ## Surfaces -/

inductive Surface where
  | portable
  | claude
  | agentsPage
deriving DecidableEq, Repr

namespace Surface

def all : List Surface := [portable, agentsPage, claude]

def name : Surface → String
  | portable => "portable"
  | claude => "claude"
  | agentsPage => "agents-md"

def ofName? (name : Text) : Option Surface := all.find? fun s => s.name.toList == name

def title : Surface → String
  | portable => ".agents/skills (portable)"
  | claude => ".claude/skills (Claude Code)"
  | agentsPage => "AGENTS.md (flowmark block)"

end Surface

def pagesFolder (base : Place) : Place := base ++ ["skills".toList, "flowmark".toList]

def usagePlace (folder : Place) : Place := folder ++ ["SKILL.md".toList]

def setupPlace (folder : Place) : Place :=
  folder ++ ["references".toList, "project-setup.md".toList]

structure Report where
  surface : Text
  place : Place
  action : Action
deriving DecidableEq, Repr

/-- The text of the file at a place, if there is one. A file that holds no text is a fault. -/
def textAt (t : Tree) (p : Place) : Except Fault (Option Text) :=
  match t.read [] (.ofPlace p) with
  | .ok text => .ok (some text)
  | .error (.undecodable e) => .error (.file (.undecodable e))
  | .error _ => .ok none

/-- Install the two pages in a folder. The page about setting up comes first, so that the other one
never leads nowhere. -/
def installPages (t : Tree) (folder : Place) (title : Text) (wanted : Pages) :
    Except Fault (Tree × Report) := do
  let usage := usagePlace folder
  let setup := setupPlace folder
  let foundUsage ← textAt t usage
  -- where the first page is of a later format the second is not looked at
  if ← isNewer foundUsage then return (t, ⟨title, usage, .blockedNewer⟩)
  let found : FoundPages := ⟨foundUsage, ← textAt t setup⟩
  if ← isNewer found.setup then return (t, ⟨title, setup, .blockedNewer⟩)
  let occupied := t.has [] (.ofPlace usage) || t.has [] (.ofPlace setup)
  let action := found.action wanted occupied
  let writable (p : Place) : Except Fault Unit :=
    match t.obstacle? [] (Path.ofPlace p).parent with
    | some fault => .error (.file fault)
    | none => .ok ()
  if found.usage ≠ some wanted.usage then writable usage
  let t ← if found.setup = some wanted.setup then .ok t
    else (t.write [] (.ofPlace setup) wanted.setup).mapError .file
  let t ← if found.usage = some wanted.usage then .ok t
    else (t.write [] (.ofPlace usage) wanted.usage).mapError .file
  return (t, ⟨title, usage, action⟩)

def updatePageAt (t : Tree) (p : Place) (version : Text) : Except Fault (Tree × Report) := do
  let found ← textAt t p
  let (action, page) ← (updatePage found version).mapError .stamp
  let t ← match page with
    | some text =>
      if page = found then .ok t else (t.write [] (.ofPlace p) text).mapError .file
    | none => .ok t
  return (t, ⟨Surface.agentsPage.title.toList, p, action⟩)

def Surface.install (s : Surface) (t : Tree) (root : Place) (version : Text) (wanted : Pages) :
    Except Fault (Tree × Report) :=
  match s with
  | .portable =>
    installPages t (pagesFolder (root ++ [".agents".toList])) s.title.toList wanted
  | .claude =>
    installPages t (pagesFolder (root ++ [".claude".toList])) s.title.toList wanted
  | .agentsPage => updatePageAt t (root ++ ["AGENTS.md".toList]) version

inductive Target where
  | project (root : Place) (surfaces : List Surface)
  | base (place : Place)
deriving DecidableEq, Repr

def wantedPages (version : Text) : Pages := ⟨usageFile version, setupFile fastVersion⟩

structure Installation where
  tree : Tree
  reports : List Report := []
  fault : Option Fault := none

def installAll (t : Tree) (root : Place) (version : Text) (wanted : Pages) :
    List Surface → Installation
  | [] => { tree := t }
  | s :: rest =>
    match s.install t root version wanted with
    | .ok (t, report) =>
      let done := installAll t root version wanted rest
      { done with reports := report :: done.reports }
    | .error fault => { tree := t, fault := some fault }

def install (t : Tree) (version : Text) : Target → Installation
  | .project root surfaces =>
    installAll t root version (wantedPages version)
      (Surface.all.filter surfaces.contains)
  | .base place =>
    match installPages t (pagesFolder place) place.toText (wantedPages version) with
    | .ok (t, report) => { tree := t, reports := [report] }
    | .error fault => { tree := t, fault := some fault }

/-! ## Reports -/

def line (t : Text) : Text := t ++ ['\n']

namespace Report

def lines (r : Report) : Text :=
  let at' := r.surface ++ [':', ' '] ++ r.place.toText
  match r.action with
  | .blockedNewer =>
    line ("  ‼️  ".toList ++ at' ++ " was generated by a NEWER flowmark.".toList)
      ++ line ("      Upgrade flowmark (e.g. `uv tool install --upgrade flowmark`) and " ++
        "retry.").toList
  | action =>
    let name := action.name.toList
    line ("  ✅ ".toList ++ name ++ Text.repeated (9 - name.length) ' ' ++ [' '] ++ at')

end Report

def isInRepository (t : Tree) (p : Place) : Bool :=
  p.upward.any fun q => t.has [] (.ofPlace (q ++ [".git".toList]))

def outsideNote (root : Place) : Text :=
  line <| "Note: ".toList ++ root.toText ++
    (" is not inside a git repository. Agent skills are best installed at a project root so " ++
     "agents working in that project discover them. Re-run `flowmark --install-skill` from your " ++
     "project directory, or use `--agent-base <DIR>` (e.g. ~/.claude) for an explicit global " ++
     "install.\n").toList

def summary (i : Installation) (target : Target) : Text :=
  line "\nFlowmark skill installation:".toList ++ i.reports.flatMap Report.lines ++ line []
    ++ match target with
      | .project root _ => if isInRepository i.tree root then [] else outsideNote root
      | .base _ => []

def failureNote (fault : Fault) : Text :=
  line ("\n✗ Installation failed: ".toList ++ fault.message)

/-! ## Documentation -/

def shortDocs : Text :=
  page ["# Flowmark Documentation", "", "Run `flowmark --help` for command-line options.", "",
    "For full documentation, visit: https://github.com/jlevy/flowmark"]

def docs (t : Tree) (root : Place) : Except Files.Fault Text :=
  let path := Path.ofPlace (root ++ ["README.md".toList])
  if t.has [] path then t.read [] path else .ok shortDocs

end Reflow.Skill
