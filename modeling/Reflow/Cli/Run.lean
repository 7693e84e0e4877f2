import Reflow.Cli.Options
import Reflow.Config.File
import Reflow.Reformat
import Reflow.Skill.Install

/-!
Running the formatter's command.

The command is a function of its arguments, its environment and a file tree. It answers with an exit
code, with what it prints, and with the tree as it leaves it.
-/

namespace Reflow.Cli

open Config (Field)
open Files (Tree Place Path)
open Reformat (Desk dash)
open Skill (line)

structure Environment where
  cwd : Place := []
  home : Place := []
  installed : Option Text := none
  reader : Option (Text → Document.Node) := none

structure Outcome where
  code : Nat := 0
  out : Text := []
  err : Text := []
  tree : Tree
  sources : List Text := []

/-- What keeps the command from coming to an end of its own. -/
inductive Stop where
  | arguments (e : Arguments.Fault)
  | config (e : Config.FileError)
  | resolve (e : Files.ResolveError)
  | misfit (e : Config.Misfit)
  | file (e : Files.Fault)
  | stamp (e : Skill.LongStamp)

def Stop.message : Stop → Text
  | arguments e => e.message
  | config e => e.message
  | resolve e => e.message
  | misfit e => e.message
  | file e => e.message
  | stamp e => e.message

/-! ## Installing pages for agents -/

inductive SurfaceFault where
  | withBase
  | empty
  | unknown (name : Text)
deriving DecidableEq, Repr

def SurfaceFault.message : SurfaceFault → Text
  | withBase =>
    ("Error: --surfaces is incompatible with --agent-base (the latter is an explicit " ++
     "single-base install and writes one skill location).").toList
  | empty =>
    ("Error: --surfaces given an empty value; pass a comma-separated list of: portable, " ++
     "claude, agents-md, all.").toList
  | unknown name =>
    "Error: unknown surface ".toList ++ name.quoted
      ++ "; valid values: portable, claude, agents-md, all.".toList

def surfacesOf (written : Text) : Except SurfaceFault (List Skill.Surface) := do
  let names := ((Text.splitOn ',' written).map Text.strip).filter fun n => !n.isEmpty
  if names.isEmpty then throw .empty
  let chosen ← names.mapM fun n =>
    if n = "all".toList then .ok Skill.Surface.all
    else
      match Skill.Surface.ofName? n with
      | some s => .ok [s]
      | none => .error (SurfaceFault.unknown n)
  return chosen.flatten

def installTarget (env : Environment) (t : Tree) (o : Options) :
    Except SurfaceFault Skill.Target :=
  match o.agentBase, o.surfaces with
  | some _, some _ => .error .withBase
  | some base, none => .ok (.base (t.real env.cwd (Path.ofText base)))
  | none, none => .ok (.project env.cwd Skill.Surface.all)
  | none, some written => do return .project env.cwd (← surfacesOf written)

/-- Install the pages for agents. A page that is there and holds no text stops the command, and so
does one with a stamp that is no number. -/
def installAt (env : Environment) (t : Tree) (target : Skill.Target) : Except Stop Outcome :=
  let done := Skill.install t (Skill.ownVersion env.installed) target
  match done.fault with
  | some (.file (.undecodable e)) => .error (.file (.undecodable e))
  | some (.stamp e) => .error (.stamp e)
  | some fault => .ok { code := 1, err := Skill.failureNote fault, tree := done.tree }
  | none =>
    .ok { code := if done.reports.any (·.action == .blockedNewer) then 1 else 0
          out := Skill.summary done target
          tree := done.tree }

def runInstall (env : Environment) (t : Tree) (o : Options) : Except Stop Outcome :=
  match installTarget env t o with
  | .error fault => .ok { code := 2, err := line fault.message, tree := t }
  | .ok target => installAt env t target

/-! ## Formatting -/

def noInputMessage (o : Options) : Text :=
  let asked := fun (option : String) =>
    ("Error: " ++ option ++ " requires at least one file or directory argument (use '.' for " ++
     "current directory, --help for more options)").toList
  if o.auto then asked "--auto"
  else if o.listFiles then asked "--list-files"
  else
    ("Error: No input specified. Provide files, directories (use '.' for current directory), " ++
     "or '-' for stdin. Use --help for more options.").toList

def needsSearch (t : Tree) (cwd : Place) (inputs : List Text) : Bool :=
  inputs.any fun i =>
    i ≠ dash && (t.hasFolder cwd (Path.ofText i) || i.any Files.isWildcard)

/-- The inputs with folders and wildcards replaced by files. Standard input comes first. -/
def inputs (env : Environment) (t : Tree) (o : Options) : Except Stop (List Text) := do
  if !needsSearch t env.cwd o.files && !o.listFiles && !o.forceExclude then return o.files
  let paths := o.files.filter (· ≠ dash)
  let filter ← o.checkedFilter.mapError Stop.misfit
  let r ← (Files.Resolver.ofFilter filter).mapError fun e => Stop.resolve (.line e)
  let (found, _) ← ((r.resolve t env.cwd paths).run {}).mapError Stop.resolve
  if !found.isEmpty then
    match o.notNumber? .filesMaxSize with
    | some v => throw (.misfit (.notBound v))
    | none => pure ()
  let files := found.map Place.toText
  return if paths.length < o.files.length then dash :: files else files

/-- How the options ask to format. Spacing that nobody knows spaces lists out. -/
def format (env : Environment) (o : Options) : Reformat.Format where
  plaintext := o.plaintext
  notWidth := (o.notNumber? .width).map (·.kindName)
  style := {
    width := o.width
    semantic := o.semantic
    cleanups := o.cleanups
    quotes := o.smartquotes
    ellipses := o.ellipses
    spacing := (Document.ListSpacing.ofName? (String.ofList o.listSpacing)).getD .loose }
  reader := env.reader

def mode (o : Options) : Reformat.Mode where
  inplace := o.inplace
  noBackup := o.nobackup
  check := o.check
  output := some o.output

def changeLine (path : Text) : Text :=
  line ("Would reformat: ".toList ++ if path = dash then "<stdin>".toList else path)

def runFormat (env : Environment) (t : Tree) (input warnings : Text) (o : Options)
    (paths : List Text) : Outcome :=
  let work := Reformat.reformatAll (format env o) (mode o) paths
  let (result, d) := work.run { tree := t, cwd := env.cwd, input }
  let done : Outcome := { out := d.output, err := warnings, tree := d.tree, sources := d.sources }
  match result with
  | .error e =>
    { done with
      code := if e.isMisuse then 1 else 2
      err := warnings ++ line ("Error: ".toList ++ e.message) }
  | .ok changed =>
    if o.check then
      { done with
        code := if changed.isEmpty then 0 else 1
        err := warnings ++ changed.flatMap changeLine }
    else done

def runFiles (env : Environment) (t : Tree) (input : Text) (o : Options) (explicit : List Field) :
    Except Stop Outcome := do
  let (o, warnings) ← match Config.find t env.cwd with
    | .error e => throw (Stop.config e)
    | .ok none => pure (o, [])
    | .ok (some place) =>
      match Config.loadAt t place with
      | .error e => throw (Stop.config e)
      | .ok (settings, warnings) =>
        pure (o.merge settings explicit, warnings.flatMap fun w => line w.message)
  let paths ← inputs env t o
  if o.listFiles then return { out := paths.flatMap line, err := warnings, tree := t }
  return runFormat env t input warnings o paths

/-! ## The command -/

def about : Text :=
  Skill.page ["Flowmark: Better auto-formatting for Markdown and plaintext", "", "Common usage:",
    "  flowmark --auto README.md", "  flowmark --auto docs/", "  flowmark --auto .",
    "  flowmark --list-files .", "", "Agent usage:", "  flowmark --skill",
    "  Agents should run `flowmark --skill` for full Flowmark usage guidance.", "",
    "Use `flowmark --docs` for full documentation."]

def versionLine (installed : Option Text) : Text :=
  line (match installed with
    | some v => 'v' :: v
    | none => "unknown (package not installed)".toList)

def run (env : Environment) (t : Tree) (input : Text) (arguments : List Text) :
    Except Stop Outcome := do
  let (o, explicit) ← match parse arguments with
    | .ok parsed => pure parsed
    | .error e => throw (Stop.arguments e)
  if o.help then return { out := about, tree := t }
  if o.version then return { out := versionLine env.installed, tree := t }
  if o.installSkill then return ← runInstall env t o
  if o.skill then return { out := line (Skill.usage (Skill.ownVersion env.installed)), tree := t }
  if o.docs then
    let docs ← (Skill.docs t env.home).mapError Stop.file
    return { out := line docs, tree := t }
  if o.files.isEmpty then return { code := 1, err := line (noInputMessage o), tree := t }
  runFiles env t input o explicit

end Reflow.Cli
