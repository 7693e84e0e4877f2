import Reflow.Files.Tree
import Reflow.Text.Recogniser

/-!
Versions that are written into the files of the project.

The versions to name are two constants of the source. Every page that is shipped names them again,
as what a runner is to fetch.
-/

namespace Reflow.Release

open Files (Tree Place Path)

/-! ## Constants -/

def versionConstant : Text := "DISCOVERY_VERSION".toList

def fastVersionConstant : Text := "FLOWMARK_RS_DISCOVERY_VERSION".toList

def constantHere? (name t : Text) : Option Text :=
  if name.isPrefixOf t then
    match Text.stripLeft (t.drop name.length) with
    | '=' :: rest =>
      match Text.stripLeft rest with
      | '"' :: rest =>
        match Text.cut? ['"'] rest with
        | some (value, _) => if value.isEmpty then none else some value
        | none => none
      | _ => none
    | _ => none
  else none

/-- The text that the constant is set to in a source; `atStart` says that a line starts here. -/
def constantFrom? (name : Text) (atStart : Bool) : Text → Option Text
  | [] => none
  | c :: cs =>
    (if atStart then constantHere? name (c :: cs) else none).or
      (constantFrom? name (c == '\n') cs)

def constant? (name source : Text) : Option Text := constantFrom? name true source

def constantsFile : Place := ["src".toList, "flowmark".toList, "skill.py".toList]

def versions? (source : Text) : Option (Text × Text) := do
  return (← constant? versionConstant source, ← constant? fastVersionConstant source)

/-! ## Pins -/

def pinMark : Text := "flowmark==".toList

def endsPin (c : Char) : Bool := isBlank c || c = '`' || c = ')' || c = '"' || c = '\''

def pinHere? (t : Text) : Option Text :=
  if pinMark.isPrefixOf t then
    match t.drop pinMark.length with
    | d :: rest => if isDecimal d then some (d :: rest.takeWhile fun c => !endsPin c) else none
    | [] => none
  else none

def pins : Text → List Text
  | [] => []
  | c :: cs =>
    match pinHere? (c :: cs) with
    | some version => version :: pins (cs.drop (pinMark.length + version.length - 1))
    | none => pins cs
termination_by t => t.length
decreasing_by all_goals (simp; try omega)

def stalePins (version page : Text) : List Text :=
  ((pins page).filter (· ≠ version)).eraseDups.mergeSort Text.le

end Reflow.Release

