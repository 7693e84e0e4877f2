import Reflow.Document.Format
import Reflow.Document.Walk
import Reflow.Files.Tree
import Reflow.Fill.Text

/-!
Reformatting files.

Each file is read, formatted, and compared with what was read. The result is written to standard
output, to a file, or in place of the old text, with a copy of that under another name unless this
is not wanted. When only checking, nothing is written. The answer names the files whose text would
change.

A dash stands for standard input.
-/

namespace Reflow.Reformat

open Files (Tree Place Path)

structure Format where
  plaintext : Bool := false
  style : Document.Style := {}
  /-- The kind of what is given for the width, where that is no number. -/
  notWidth : Option String := none
  reader : Option (Text → Document.Node) := none

structure Mode where
  inplace : Bool := false
  noBackup : Bool := false
  check : Bool := false
  /-- The file to write to; none, an empty name or a dash stands for standard output. -/
  output : Option Text := none
deriving DecidableEq, Repr

inductive Failure where
  | stdinInPlace
  | oneOutputForMany
  | noReader
  | textWidth (kind : String)
  | paragraphWidth (kind : String)
  | file (e : Files.Fault)
  | transform (e : Document.LengthChanged)
deriving DecidableEq, Repr

def Failure.message : Failure → Text
  | stdinInPlace => "Cannot use `inplace` with stdin".toList
  | oneOutputForMany =>
    "Cannot specify output file when processing multiple files (use --inplace instead)".toList
  | noReader => "No reader for Markdown at hand (use --plaintext)".toList
  | textWidth kind =>
    ("unsupported operand type(s) for -: '" ++ kind ++ "' and 'int'").toList
  | paragraphWidth kind =>
    ("'<=' not supported between instances of '" ++ kind ++ "' and 'int'").toList
  | file e => e.message
  | transform e => e.message.toList

/-- The failure is one of what was asked for, and not of the files. -/
def Failure.isMisuse : Failure → Bool
  | stdinInPlace => true
  | oneOutputForMany => true
  | file (.undecodable _) => true
  | _ => false

structure Desk where
  tree : Tree
  cwd : Place := []
  /-- What can still be read from standard input. -/
  input : Text := []
  output : Text := []
  sources : List Text := []

/-- Work at a desk: it can fail, and what was done before stays done. -/
abbrev Work := ExceptT Failure (StateM Desk)

def dash : Text := ['-']

def Mode.toStdout (m : Mode) : Bool := m.output.all fun o => o == dash || o.isEmpty

namespace Format

/-- The document has a paragraph, which is laid out to a width. -/
def hasParagraph (n : Document.Node) : Bool :=
  n.descendants.any fun d =>
    match d.kind with
    | .paragraph _ => true
    | _ => false

def apply (f : Format) (t : Text) : Except Failure Text :=
  if f.plaintext then
    match f.notWidth with
    | some kind => .error (.textWidth kind)
    | none => .ok (Fill.plain f.style.width t)
  else
    match f.reader with
    | none => .error .noReader
    | some read =>
      match f.style.format read t, f.notWidth with
      | .error e, _ => .error (.transform e)
      | .ok result, none => .ok result
      | .ok result, some kind =>
        if hasParagraph (read (f.style.source t)) then .error (.paragraphWidth kind) else .ok result

/-- The texts that formatting a text reads as Markdown. -/
def sources (f : Format) (t : Text) : List Text :=
  if f.plaintext || f.reader.isNone then [] else [f.style.source t]

end Format

/-- The text of an input. Standard input is empty once it is read. -/
def readInput (path : Text) : Work Text := do
  let d ← get
  if path = dash then
    set { d with input := [] }
    return d.input
  else
    match d.tree.read d.cwd (Path.ofText path) with
    | .ok t => return t
    | .error e => throw (.file e)

def writeFile (path text : Text) (backup : Bool) : Work Unit := do
  let d ← get
  let p := Path.ofText path
  let t := if backup then d.tree.backUp d.cwd p else d.tree
  match t.write d.cwd p text with
  | .ok t => set { d with tree := t }
  | .error e => throw (.file e)

/-- Reformat one input; the answer says whether its text changes. -/
def reformatOne (f : Format) (m : Mode) (path : Text) : Work Bool := do
  if m.inplace && path = dash && !m.check then throw .stdinInPlace
  let text ← readInput path
  modify fun d => { d with sources := d.sources ++ f.sources text }
  let result ← liftExcept (f.apply text)
  let changes := result ≠ text
  if m.check then return changes
  if m.inplace then writeFile path result (!m.noBackup)
  else if m.toStdout then modify fun d => { d with output := d.output ++ result }
  else writeFile (m.output.getD []) result false
  return changes
where
  liftExcept (e : Except Failure Text) : Work Text :=
    match e with
    | .ok t => pure t
    | .error e => throw e

def reformatEach (f : Format) (m : Mode) : List Text → Work (List Text)
  | [] => return []
  | path :: rest => do
    let changes ← reformatOne f m path
    let more ← reformatEach f m rest
    return if changes then path :: more else more

/-- Reformat inputs. An output file can be named for standard input alone. -/
def reformatAll (f : Format) (m : Mode) (paths : List Text) : Work (List Text) := do
  if paths = [dash] then reformatEach f m paths
  else
    if !m.inplace && !m.check && !m.toStdout then throw .oneOutputForMany
    reformatEach f { m with output := none } paths

end Reflow.Reformat
