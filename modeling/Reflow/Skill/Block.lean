import Reflow.Skill.Version

/-!
The block about the formatter in a project's page for agents.

The page belongs to the project. Only what stands between the two markers is ours: it is replaced as
a whole, several blocks become one, and everything outside stays. A block with the stamp of a later
format is not touched.
-/

namespace Reflow.Skill

def beginMark : Text := "<!-- BEGIN FLOWMARK INTEGRATION".toList

def endMark : Text := "<!-- END FLOWMARK INTEGRATION -->".toList

def block (version : Text) : Text :=
  beginMark ++ " format=".toList ++ formatStamp ++ " surface=agents-md -->\n".toList
    ++ "## flowmark\n\n".toList
    ++ "Auto-format Markdown with `flowmark` for clean, semantic git diffs.\n\n".toList
    ++ "- Run `flowmark --auto <files>` on Markdown you create or edit.\n".toList
    ++ "- Run `flowmark --docs` for full usage and `flowmark --skill` for the skill.\n".toList
    ++ "- If `flowmark` is not on `PATH`, use a pinned `uvx` runner (never `@latest`).\n".toList
    ++ "- Fast Rust port (recommended): `uvx --from flowmark-rs==".toList ++ fastVersion
    ++ " flowmark`.\n".toList
    ++ "- Python build (library / newest patch): `uvx --from flowmark==".toList ++ version
    ++ " flowmark`.\n\n".toList
    ++ endMark

/-- What stands outside the blocks: before the first, between neighbours, and after the last. A
block that does not end is none. -/
def outside (t : Text) : List Text :=
  match _h : Text.cut? beginMark t with
  | none => [t]
  | some (before, rest) =>
    match _h' : Text.cut? endMark rest with
    | none => [t]
    | some (_, after) => before :: outside after
termination_by t.length
decreasing_by
  have h₁ := Text.cut?_eq_append _h
  have h₂ := Text.cut?_eq_append _h'
  have h₃ : 0 < beginMark.length := by decide
  subst h₂ h₁
  simp
  omega

/-- Put one block in the place of the first, and nothing in the place of the others. -/
def replaceBlocks (t new : Text) : Text :=
  match outside t with
  | before :: after :: rest => before ++ new ++ (after :: rest).flatten
  | _ => t

/-! ## Updating -/

inductive Action where
  | installed
  | updated
  | unchanged
  | blockedNewer
deriving DecidableEq, Repr

def Action.name : Action → String
  | installed => "installed"
  | updated => "updated"
  | unchanged => "unchanged"
  | blockedNewer => "blocked-newer"

def blockStampHere? (t : Text) : Option Text :=
  if beginMark.isPrefixOf t then
    let rest : Text := t.drop beginMark.length
    let blanks := rest.takeWhile isBlank
    if blanks.isEmpty then none else stampHere? (rest.drop blanks.length)
  else none

/-- The stamp of the first block that has one right after its marker. -/
def blockStamp? : Text → Option Text
  | [] => none
  | c :: cs => (blockStampHere? (c :: cs)).or (blockStamp? cs)

def withBlock (page : Option Text) (new : Text) : Text :=
  match page with
  | none => new ++ ['\n']
  | some t =>
    if Text.includes t beginMark then replaceBlocks t new
    else if t.isEmpty then new ++ ['\n']
    else t ++ (if Text.endsWith t ['\n'] then ['\n'] else ['\n', '\n']) ++ new ++ ['\n']

def updatePage (page : Option Text) (version : Text) :
    Except LongStamp (Action × Option Text) := do
  if ← isLater (page.bind blockStamp?) then return (.blockedNewer, page)
  let new := withBlock page (block version)
  if page = some new then return (.unchanged, page)
  return (if page.isSome then .updated else .installed, some new)

end Reflow.Skill
