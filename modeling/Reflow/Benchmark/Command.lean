import Reflow.Arguments
import Reflow.Files.Tree

/-!
The command that runs the benchmark, up to the point where the clock starts.
-/

namespace Reflow.Benchmark

open Arguments (Grammar Kind)
open Files (Tree Place Path)

inductive Switch where
  | help
  | version
  | compare
  | profile
  | file
  | iterations
  | plain
deriving DecidableEq, Repr

def grammar : Grammar Switch where
  options :=
    let option := fun (s : Switch) (names : List String) (k : Kind) =>
      (⟨s, names.map String.toList, k⟩ : Arguments.Spec Switch)
    [option .help ["-h", "--help"] .flag,
     option .version ["--version", "-v"] .text,
     option .compare ["--compare", "-c"] .text,
     option .profile ["--profile", "-p"] .flag,
     option .file ["--file", "-f"] .text,
     option .iterations ["--iterations", "-n"] .integer,
     option .plain ["--plain"] .flag]

def defaultFile : Text := "tests/testdocs/testdoc.orig.md".toList

inductive Stop where
  | arguments (e : Arguments.Fault)
  | noFile (path : Text)
deriving DecidableEq, Repr

def Stop.message : Stop → Text
  | arguments e => e.message
  | noFile path => "Error: Test file not found: ".toList ++ path

def fileToFormat (t : Tree) (cwd : Place) (arguments : List Text) : Except Stop Path :=
  match grammar.parse arguments with
  | .error e => .error (.arguments e)
  | .ok p =>
    let path := Path.ofText ((p.text? .file).getD defaultFile)
    if t.has cwd path then .ok path else .error (.noFile path.toText)

end Reflow.Benchmark
