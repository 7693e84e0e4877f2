import Reflow.Cli.Run
import Reflow.Files.Difference

/-!
The command line.

The command itself is a function of a file tree. This module reads the part of the disk that the
command can look at, runs it, prints what it has to say, and brings the disk up to date. No reader
for Markdown comes with the library, so the command formats plain text, and for the rest says what
is missing.
-/

namespace Reflow.Main

open Files (Tree Place Path Content Entry)

def systemPath (p : Place) : String := String.ofList p.toText

def placeOf (path : String) : Place := (Path.ofText path.toList).names

def contentOf (bytes : ByteArray) : Content :=
  match String.fromUTF8? bytes with
  | some t => .text t.toList
  | none => .bytes bytes.toList

partial def entriesAt (e : IO.FS.DirEntry) : IO (List (Place × Entry)) := do
  let place := placeOf e.path.toString
  match (← e.path.symlinkMetadata).type with
  | .dir =>
    let inner ← (← e.path.readDir).toList.mapM entriesAt
    return inner.flatten
  | .symlink =>
    let target ← try pure (← IO.FS.realPath e.path).toString catch _ => pure e.path.toString
    return [(place, .link (Path.ofText target.toList))]
  | _ => return [(place, .file (contentOf (← IO.FS.readBinFile e.path)))]

def fileAt (p : Place) : IO (List (Place × Entry)) := do
  try
    return [(p, .file (contentOf (← IO.FS.readBinFile (systemPath p))))]
  catch _ => return []

def folderAt (p : Place) : IO (List (Place × Entry)) := do
  try
    let inner ← (← (← IO.FS.realPath (systemPath p)).readDir).toList.mapM entriesAt
    return inner.flatten
  catch _ => return []

def hasFolder (p : Place) : IO Bool := do
  try
    discard (← IO.FS.realPath (systemPath p)).readDir
    return true
  catch _ => return false

/-- The names that are looked up in the working folder and above it. -/
def namesAbove : List Text :=
  Config.ownNames ++ [Config.projectName, ".flowmarkignore".toList, ".gitignore".toList]

/-- The part of the disk that arguments speak of. Folders are read only if one is named, or a
wildcard. -/
def snapshot (cwd : Place) (arguments : List Text) : IO Tree := do
  let above ← cwd.upward.mapM fun folder => namesAbove.mapM fun name => fileAt (folder ++ [name])
  let repositories ← (cwd.upward.map (· ++ [".git".toList])).filterM hasFolder
  let places := arguments.map fun a =>
    ({} : Tree).real cwd (Path.ofText a)
  let named ← ((cwd ++ ["README.md".toList]) :: places).mapM fileAt
  let walked ← places.filterM hasFolder
  let wild := arguments.any fun a => a.any Files.isWildcard
  let installs := arguments.any fun a => Text.startsWith a "--install".toList
  let walked := if wild || installs then cwd :: walked else walked
  let found ← walked.mapM folderAt
  let entries := above.flatten.flatten ++ named.flatten ++ found.flatten
  return {
    entries := (entries.map (·.1)).eraseDups.filterMap fun p =>
      (entries.lookup p).map fun e => (p, e)
    folders := cwd :: walked ++ repositories }

def apply (d : Files.Difference) : IO Unit := do
  for p in d.removed do
    IO.FS.removeFile (systemPath p)
  for (p, t) in d.written do
    IO.FS.createDirAll (systemPath p.dropLast)
    IO.FS.writeFile (systemPath p) (String.ofList t)

def standardInput (arguments : List Text) : IO Text := do
  if arguments.contains Reformat.dash then return (← (← IO.getStdin).readToEnd).toList
  else return []

def run (arguments : List Text) : IO UInt32 := do
  let cwd := placeOf (← IO.currentDir).toString
  let tree ← snapshot cwd arguments
  let input ← standardInput arguments
  match Cli.run { cwd, home := cwd } tree input arguments with
  | .error e =>
    (← IO.getStderr).putStrLn ("flowmark: error: " ++ String.ofList e.message)
    return 2
  | .ok outcome =>
    apply (tree.difference outcome.tree)
    (← IO.getStdout).putStr (String.ofList outcome.out)
    (← IO.getStderr).putStr (String.ofList outcome.err)
    return outcome.code.toUInt32

end Reflow.Main

def main (arguments : List String) : IO UInt32 := Reflow.Main.run (arguments.map String.toList)
