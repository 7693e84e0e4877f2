import Reflow.Config.Settings
import Reflow.Config.Toml.Document
import Reflow.Files.Tree

/-!
Configuration files.

The file that counts is the first one found on the way up from the working folder. In each folder a
file of the tool's own goes before the file of the project, and the project's file counts only if it
has a section for the tool. A file that cannot be read is reported and sets nothing.
-/

namespace Reflow.Config

open Files (Tree Place Path Content)

def ownNames : List Text := [".flowmark.toml".toList, "flowmark.toml".toList]

def projectName : Text := "pyproject.toml".toList

def toolsKey : Text := "tool".toList

def sectionKey : Text := "flowmark".toList

/-- A project's file in which something else stands where a table is expected. -/
inductive FileError where
  /-- The tools are no table, and one is asked for its section. -/
  | toolsNotTable (v : Value)
  /-- The section is no table. -/
  | sectionNotTable (v : Value)
  /-- The tools are nothing in which a section could be looked for. -/
  | toolsNotSearchable (v : Value)
  /-- The file is not text. -/
  | undecodable (e : Utf8.Fault)

def FileError.message : FileError → Text
  | toolsNotTable v => ("'" ++ v.kindName ++ "' object has no attribute 'get'").toList
  | sectionNotTable v => ("'" ++ v.kindName ++ "' object has no attribute 'items'").toList
  | toolsNotSearchable v => ("argument of type '" ++ v.kindName ++ "' is not iterable").toList
  | undecodable e => e.message

def toolSection (data : Table) : Except FileError Table :=
  match data.lookup toolsKey with
  | none => .ok []
  | some (.table tools) =>
    match tools.lookup sectionKey with
    | none => .ok []
    | some (.table entries) => .ok entries
    | some v => .error (.sectionNotTable v)
  | some v => .error (.toolsNotTable v)

/-- A project's file has a section for the tool. Where the tools are no table, a text that holds the
name, or a list that does, is taken for one. -/
def hasSection (data : Table) : Except FileError Bool :=
  match data.lookup toolsKey with
  | none => .ok false
  | some (.table tools) => .ok (tools.lookup sectionKey).isSome
  | some (.text t) => .ok (Text.includes t sectionKey)
  | some (.list items) => .ok (items.any fun v => v.text? == some sectionKey)
  | some v => .error (.toolsNotSearchable v)

def load (name shown text : Text) : Except FileError (Settings × List Warning) :=
  match Toml.parse text with
  | none => .ok ({}, [.unreadable shown])
  | some data => do
    let own ← if name = projectName then toolSection data else .ok data
    let (settings, unknown) := Settings.ofTable own
    return (settings, unknown.map .unknownKey)

def fileIn (t : Tree) (folder : Place) : Except FileError (Option Place) :=
  let ofName := fun name => t.content? [] (.ofPlace (folder ++ [name]))
  match ownNames.find? fun name => (ofName name).isSome with
  | some name => .ok (some (folder ++ [name]))
  | none =>
    match ofName projectName with
    | none => .ok none
    | some content =>
      let place := folder ++ [projectName]
      match content.read with
      | .error e => .error (.undecodable e)
      | .ok text =>
        match Toml.parse text with
        | none => .ok none
        | some data => do return if ← hasSection data then some place else none

/-- The file that counts for a folder: the nearest one in it or above it. -/
def find (t : Tree) (folder : Place) : Except FileError (Option Place) :=
  folder.upward.findSomeM? (fileIn t)

def loadAt (t : Tree) (p : Place) : Except FileError (Settings × List Warning) :=
  match t.read [] (.ofPlace p) with
  | .ok text => load (p.getLast?.getD []) p.toText text
  | .error (.undecodable e) => .error (.undecodable e)
  | .error _ => .ok ({}, [.unreadable p.toText])

end Reflow.Config
