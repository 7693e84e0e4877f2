import Reflow.Arguments
import Reflow.Release.Pins

/-!
The check before a release: every shipped page names the version that the source holds, and that is
the version that is released.
-/

namespace Reflow.Release

open Arguments (Grammar)
open Files (Tree Place Path)

inductive CheckSwitch where
  | help
  | expected
  | fromTag
deriving DecidableEq, Repr

def checkGrammar : Grammar CheckSwitch where
  options := [⟨.help, ["-h".toList, "--help".toList], .flag⟩,
    ⟨.expected, ["--expected".toList], .text⟩,
    ⟨.fromTag, ["--from-git-tag".toList], .flag⟩]
  exclusive := [.expected, .fromTag]

def shippedPages : List Place :=
  [["README.md"],
   ["skills", "flowmark", "SKILL.md"],
   [".agents", "skills", "flowmark", "SKILL.md"],
   [".claude", "skills", "flowmark", "SKILL.md"],
   ["AGENTS.md"]].map fun names => names.map String.toList

structure Verdict where
  code : Nat
  out : Text := []
  err : Text := []

inductive CheckStop where
  | arguments (e : Arguments.Fault)
  | file (e : Files.Fault)
  | noVersion (path : Text)
  | noTag

def CheckStop.message : CheckStop → Text
  | arguments e => e.message
  | file e => e.message
  | noVersion path => "could not find DISCOVERY_VERSION in ".toList ++ path
  | noTag => "HEAD is not exactly on a tag: ".toList

def bareVersion : Text → Text
  | 'v' :: rest => rest
  | t => t

def listText (ts : List Text) : Text :=
  ['['] ++ Text.joinWith [',', ' '] (ts.map Text.quoted) ++ [']']

def pageProblem (version : Text) (path page : Text) : Option Text :=
  match stalePins version page with
  | [] => none
  | stale =>
    some (path ++ " pins ".toList ++ listText stale ++ ", expected ".toList ++ version
      ++ " (run `make format`)".toList)

def releaseProblem (version : Text) (released : Option Text) : Option Text :=
  match released with
  | none => none
  | some r =>
    if r = version then none
    else
      some ("DISCOVERY_VERSION is ".toList ++ version.quoted ++ " but the release is ".toList
        ++ r.quoted
        ++ ("; bump DISCOVERY_VERSION in src/flowmark/skill.py and re-run `make " ++
          "format`").toList)

/-- The version that is released: the one expected, or the one of the tag; an empty one is none. -/
def releasedVersion (expected : Option Text) (fromTag : Bool) (tag : Option Text) :
    Except CheckStop (Option Text) :=
  match expected.map bareVersion with
  | some (c :: cs) => .ok (some (c :: cs))
  | _ =>
    if fromTag then
      match tag with
      | some t => .ok (some (bareVersion (Text.strip t)))
      | none => .error .noTag
    else .ok none

def verdict (version : Text) (released : Option Text) : List Text → Verdict
  | [] =>
    let matching : Text := match released with
      | some (c :: cs) => " (matches release ".toList ++ c :: cs ++ [')']
      | _ => []
    { code := 0
      out := "Release pin OK: all shipped artifacts pin flowmark==".toList ++ version ++ matching
        ++ ['\n'] }
  | problems =>
    { code := 1
      err := "Release pin check FAILED:\n".toList
        ++ problems.flatMap fun p => "  - ".toList ++ p ++ ['\n'] }

def check (t : Tree) (root : Place) (tag : Option Text) (arguments : List Text) :
    Except CheckStop Verdict := do
  let p ← match checkGrammar.parse arguments with
    | .ok p => .ok p
    | .error e => .error (CheckStop.arguments e)
  let read := fun (place : Place) =>
    match t.read [] (.ofPlace (root ++ place)) with
    | .ok text => .ok text
    | .error e => .error (CheckStop.file e)
  let source ← read constantsFile
  let version ← match constant? versionConstant source with
    | some v => .ok v
    | none => .error (CheckStop.noVersion (Place.toText (root ++ constantsFile)))
  let pages ← shippedPages.mapM fun place => do
    return pageProblem version (Text.joinWith ['/'] place) (← read place)
  let released ← releasedVersion (p.text? .expected) (p.has .fromTag) tag
  let problems := pages.filterMap id ++ (releaseProblem version released).toList
  return verdict version released problems

end Reflow.Release
