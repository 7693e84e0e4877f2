import Reflow.Arguments
import Reflow.Release.Pins
import Reflow.Skill.Install

/-!
Generated pages of the project: the bundle that indexes of skills pick up, and what is asked for
before the main page is generated.
-/

namespace Reflow.Release

open Arguments (Grammar Kind)
open Files (Tree Place Path Fault)

/-! ## The bundle -/

def bundleFolder : Place := ["skills".toList, "flowmark".toList]

/-- Write the bundle for the published versions; the answer lists the places that were written. -/
def writeBundle (t : Tree) (root : Place) : Except Fault (Tree × List Place) := do
  let usage := Skill.usagePlace (root ++ bundleFolder)
  let setup := Skill.setupPlace (root ++ bundleFolder)
  let t ← t.write [] (.ofPlace usage) (Skill.usageFile Skill.publishedVersion)
  let t ← t.write [] (.ofPlace setup) (Skill.setupFile Skill.fastVersion)
  return (t, [usage, setup])

def bundleLines (written : List Place) : Text :=
  written.flatMap fun p => "Generated ".toList ++ p.toText ++ ['\n']

/-! ## The main page -/

inductive ReadmeSwitch where
  | help
  | sharedDocs
  | template
  | output
  | version
  | fastVersion
deriving DecidableEq, Repr

def readmeGrammar : Grammar ReadmeSwitch where
  options :=
    let option := fun (s : ReadmeSwitch) (names : List String) (k : Kind) =>
      (⟨s, names.map String.toList, k⟩ : Arguments.Spec ReadmeSwitch)
    [option .help ["-h", "--help"] .flag,
     option .sharedDocs ["--shared-docs"] .text,
     option .template ["--template"] .text,
     option .output ["--output"] .text,
     option .version ["--flowmark-version"] .text,
     option .fastVersion ["--flowmark-rs-version"] .text]

structure ReadmeRequest where
  sharedDocs : Path
  template : Path
  output : Path
  version : Text
  fastVersion : Text
deriving DecidableEq, Repr

inductive ReadmeStop where
  | arguments (e : Arguments.Fault)
  | file (e : Fault)
  | noVersions (path : Text)
  | noSharedDocs (path : Text)
  | noTemplate (path : Text)

def ReadmeStop.message : ReadmeStop → Text
  | arguments e => e.message
  | file e => e.message
  | noVersions path => "could not find discovery versions in ".toList ++ path
  | noSharedDocs path => "missing shared docs source at ".toList ++ path
  | noTemplate path => "missing wrapper template at ".toList ++ path

def readVersions (t : Tree) (root : Place) : Except ReadmeStop (Text × Text) :=
  let place := root ++ constantsFile
  match t.read [] (.ofPlace place) with
  | .error e => .error (.file e)
  | .ok source =>
    match versions? source with
    | some found => .ok found
    | none => .error (.noVersions place.toText)

/-- Read the arguments of the generator. An empty version counts as none. -/
def readmeRequest (t : Tree) (root : Place) (arguments : List Text) :
    Except ReadmeStop ReadmeRequest := do
  let p ← match readmeGrammar.parse arguments with
    | .ok p => .ok p
    | .error e => .error (ReadmeStop.arguments e)
  let (version, fast) ← readVersions t root
  let path := fun (s : ReadmeSwitch) (names : List String) =>
    match p.text? s with
    | some written => Path.ofText written
    | none => Path.ofPlace (root ++ names.map String.toList)
  let orElse := fun (s : ReadmeSwitch) (default : Text) =>
    match p.text? s with
    | some (c :: cs) => c :: cs
    | _ => default
  return {
    sharedDocs := path .sharedDocs ["docs", "shared", "flowmark-readme-shared.md"]
    template := path .template ["docs", "templates", "python-readme-wrapper.md"]
    output := path .output ["README.md"]
    version := orElse .version version
    fastVersion := orElse .fastVersion fast }

/-- Read the arguments of the generator, and see that its inputs are there. -/
def prepareReadme (t : Tree) (cwd root : Place) (arguments : List Text) :
    Except ReadmeStop ReadmeRequest := do
  let request ← readmeRequest t root arguments
  if !t.has cwd request.sharedDocs then throw (.noSharedDocs request.sharedDocs.toText)
  if !t.has cwd request.template then throw (.noTemplate request.template.toText)
  return request

end Reflow.Release
