import Reflow.Files.Path
import Reflow.Text.Measure
import Reflow.Text.Quoted
import Reflow.Text.Utf8

/-!
File trees.

A tree is the list of its files and symbolic links by their places. Folders are there because
something lies in them, or because they are listed as folders. Paths are followed as an operating
system does: names one by one, double dots to the folder above, links by going on with what they
hold, up to a fixed number of them.
-/

namespace Reflow.Files

/-- What a file holds: a text in UTF-8, or bytes that may be none. -/
inductive Content where
  | text (t : Text)
  | bytes (bs : List UInt8)
deriving DecidableEq, Repr, Inhabited

namespace Content

def size : Content → Nat
  | text t => Measure.utf8Bytes.of t
  | bytes bs => bs.length

def read : Content → Except Utf8.Fault Text
  | text t => .ok (Text.universalNewlines t)
  | bytes bs => (Utf8.decode bs).map Text.universalNewlines

end Content

inductive Entry where
  | file (content : Content)
  | link (target : Path)
deriving DecidableEq, Repr, Inhabited

inductive Found where
  | file (content : Content)
  | link (target : Path)
  | folder
deriving DecidableEq, Repr

inductive Fault where
  | missing (path : Text)
  | isFolder (path : Text)
  | notFolder (path : Text)
  | occupied (path : Text)
  | undecodable (e : Utf8.Fault)
deriving DecidableEq, Repr

def Fault.message : Fault → Text
  | missing p => "[Errno 2] No such file or directory: ".toList ++ p.quoted
  | isFolder p => "[Errno 21] Is a directory: ".toList ++ p.quoted
  | notFolder p => "[Errno 20] Not a directory: ".toList ++ p.quoted
  | occupied p => "[Errno 17] File exists: ".toList ++ p.quoted
  | undecodable e => e.message

structure Tree where
  entries : List (Place × Entry) := []
  /-- Folders that are there even with nothing in them. -/
  folders : List Place := []
deriving Repr, Inhabited

namespace Tree

/-! ## Looking -/

def isFolder (t : Tree) (p : Place) : Bool :=
  p.isEmpty || t.folders.any p.isPrefixOf || t.entries.any fun e => e.1.isBelow p

def at? (t : Tree) (p : Place) : Option Found :=
  match t.entries.lookup p with
  | some (.file c) => some (.file c)
  | some (.link target) => some (.link target)
  | none => if t.isFolder p then some .folder else none

def allFolders (t : Tree) : List Place :=
  ((t.entries.flatMap fun e => Place.ancestors e.1.dropLast) ++
    t.folders.flatMap Place.ancestors).eraseDups

def children (t : Tree) (p : Place) : List Text :=
  (((t.entries.map (·.1)) ++ t.folders).filterMap fun q =>
    if q.isBelow p then q[p.length]? else none).eraseDups

def maxLinks : Nat := 40

inductive Way where
  | place (p : Place)
  /-- Nowhere: something on the way is not there, or is no folder. -/
  | missing
  /-- Nowhere: there are more links on the way than are followed. -/
  | endless
deriving DecidableEq, Repr

structure Crossing where
  folder : Place
  name : Text
  target : Path
  rest : List Text

namespace Crossing

def here (c : Crossing) : Place := c.folder ++ [c.name]

def base (c : Crossing) : Place := if c.target.fromRoot then [] else c.folder

def names (c : Crossing) : List Text := c.target.names ++ c.rest

end Crossing

inductive Stretch where
  | place (p : Place)
  | missing
  | link (c : Crossing)

/-- Follow names from a folder up to the first link. -/
def stretch (t : Tree) (base : Place) : List Text → Stretch
  | [] => .place base
  | name :: rest =>
    if name = up then stretch t base.dropLast rest
    else
      match t.at? (base ++ [name]) with
      | none => .missing
      | some .folder => stretch t (base ++ [name]) rest
      | some (.file _) => if rest.isEmpty then .place (base ++ [name]) else .missing
      | some (.link target) => .link ⟨base, name, target, rest⟩

def follow (t : Tree) (links : Nat) (base : Place) (names : List Text) : Way :=
  match t.stretch base names with
  | .place p => .place p
  | .missing => .missing
  | .link c =>
    match links with
    | 0 => .endless
    | n + 1 => follow t n c.base c.names

/-- Names from a place taken as written, double dots apart. -/
def asWritten (base : Place) (names : List Text) : Place :=
  names.foldl (fun p name => if name = up then p.dropLast else p ++ [name]) base

/-- The first link that names meet, taken as written up to there. -/
def crossing? (t : Tree) (base : Place) : List Text → Option Crossing
  | [] => none
  | name :: rest =>
    if name = up then crossing? t base.dropLast rest
    else
      match t.at? (base ++ [name]) with
      | some (.link target) => some ⟨base, name, target, rest⟩
      | _ => crossing? t (base ++ [name]) rest

/-- Follow names as far as they lead, and take the rest as written. `pending` lists the links of
which the targets are being followed, each with the number of names that come after its target: a
link that is met again before that leads back to itself, and is taken as written too. -/
def realFrom (t : Tree) (links : Nat) (pending : List (Place × Nat)) (base : Place)
    (names : List Text) : Place :=
  match t.crossing? base names with
  | none => asWritten base names
  | some c =>
    let pending := pending.filter fun l => l.2 ≤ c.rest.length
    if pending.any (·.1 = c.here) then asWritten c.here c.rest
    else
      match links with
      | 0 => asWritten c.here c.rest
      | n + 1 => realFrom t n ((c.here, c.rest.length) :: pending) c.base c.names

def start (cwd : Place) (p : Path) : Place := if p.fromRoot then [] else cwd

/-- The place of a path, links followed; it need not exist. -/
def real (t : Tree) (cwd : Place) (p : Path) : Place :=
  t.realFrom maxLinks [] (start cwd p) p.names

def isEndless (t : Tree) (cwd : Place) (p : Path) : Bool :=
  t.follow maxLinks (start cwd p) p.names = .endless

def find? (t : Tree) (cwd : Place) (p : Path) : Option Place :=
  match t.follow maxLinks (start cwd p) p.names with
  | .place place => some place
  | _ => none

def look? (t : Tree) (cwd : Place) (p : Path) : Option Found :=
  (t.find? cwd p).bind t.at?

def content? (t : Tree) (cwd : Place) (p : Path) : Option Content :=
  match t.look? cwd p with
  | some (.file c) => some c
  | _ => none

def hasFile (t : Tree) (cwd : Place) (p : Path) : Bool := (t.content? cwd p).isSome

def hasFolder (t : Tree) (cwd : Place) (p : Path) : Bool := t.look? cwd p == some .folder

def has (t : Tree) (cwd : Place) (p : Path) : Bool := (t.look? cwd p).isSome

def read (t : Tree) (cwd : Place) (p : Path) : Except Fault Text :=
  match t.look? cwd p with
  | some (.file c) =>
    match c.read with
    | .ok text => .ok text
    | .error e => .error (.undecodable e)
  | some _ => .error (.isFolder p.toText)
  | none =>
    -- a file on the way is a fault of its own
    let ways := (List.range p.names.length).map fun n => p.names.take n
    if ways.any fun names => t.hasFile cwd { p with names } then .error (.notFolder p.toText)
    else .error (.missing p.toText)

/-! ## Writing -/

def remove (t : Tree) (p : Place) : Tree where
  entries := t.entries.filter fun e => !p.isPrefixOf e.1
  folders := t.folders.filter fun f => !p.isPrefixOf f

def put (t : Tree) (p : Place) (c : Content) : Tree :=
  let rest := t.remove p
  { rest with entries := rest.entries ++ [(p, .file c)] }

def addFolder (t : Tree) (p : Place) : Tree := { t with folders := p :: t.folders }

/-- The place at which a path is written: links are followed up to the last name, which is taken as
it stands. -/
def target (t : Tree) (cwd : Place) (p : Path) : Place :=
  t.real cwd p.parent ++ [p.name]

/-- What stands in the way of the folder that a path asks for: the first thing above it that is not
a folder, or the thing itself. -/
def obstacle? (t : Tree) (cwd : Place) (folder : Path) : Option Fault :=
  let ways := (List.range folder.names.length).map fun n => folder.names.take (n + 1)
  match ways.find? fun names => t.hasFile cwd { folder with names } with
  | none => none
  | some names =>
    if names.length = folder.names.length then some (.occupied folder.toText)
    else
      let blocked : Path := { folder with names := folder.names.take (names.length + 1) }
      some (.notFolder blocked.toText)

/-- Write a file. The folders above it come about if they are not there; a folder at its place gives
way to it. -/
def write (t : Tree) (cwd : Place) (p : Path) (text : Text) : Except Fault Tree :=
  match t.obstacle? cwd p.parent with
  | some fault => .error fault
  | none => .ok (t.put (t.target cwd p) (.text text))

def backupSuffix : Text := ".orig".toList

def backUp (t : Tree) (cwd : Place) (p : Path) : Tree :=
  let place := t.target cwd p
  let kept := t.target cwd { p with names := p.names.dropLast ++ [p.name ++ backupSuffix] }
  match t.entries.lookup place with
  | some e =>
    let rest := (t.remove place).remove kept
    { rest with entries := rest.entries ++ [(kept, e)] }
  | none => t

/-- The files of the tree and the links that lead to files, with what they hold, in the order of
their names from the root down. -/
def files (t : Tree) : List (Place × Content) :=
  (t.entries.filterMap fun (p, _) =>
    (t.content? [] (.ofPlace p)).map fun c => (p, c)).mergeSort fun a b => a.1.le b.1

end Tree

end Reflow.Files
