import Reflow.Arguments
import Reflow.Config.Misfit
import Reflow.Config.Settings
import Reflow.Document.Render
import Reflow.Files.Resolver
import Reflow.Wrap.LineWrapper

/-!
The options of the formatter's command.

What is not said on the command line is taken from the configuration, and else has a default. To
keep what is said, the arguments are read a second time by a grammar that knows only the options
that a configuration can set, and lets everything else pass.
-/

namespace Reflow.Cli

open Arguments (Grammar Spec Kind Parsed)
open Config (Field Misfit Settings Value)

/-! ## Switches -/

inductive Switch where
  | help
  | output
  | width
  | plaintext
  | semantic
  | cleanups
  | smartquotes
  | ellipses
  | listSpacing
  | inplace
  | nobackup
  | check
  | auto
  | moreIncludes
  | excludes
  | moreExcludes
  | noRespectGitignore
  | forceExclude
  | listFiles
  | filesMaxSize
  | version
  | skill
  | installSkill
  | agentBase
  | surfaces
  | docs
deriving DecidableEq, Repr

namespace Switch

def names : Switch → List String
  | help => ["-h", "--help"]
  | output => ["-o", "--output"]
  | width => ["-w", "--width"]
  | plaintext => ["-p", "--plaintext"]
  | semantic => ["-s", "--semantic"]
  | cleanups => ["-c", "--cleanups"]
  | smartquotes => ["--smartquotes"]
  | ellipses => ["--ellipses"]
  | listSpacing => ["--list-spacing"]
  | inplace => ["-i", "--inplace"]
  | nobackup => ["--nobackup"]
  | check => ["--check"]
  | auto => ["--auto"]
  | moreIncludes => ["--extend-include"]
  | excludes => ["--exclude"]
  | moreExcludes => ["--extend-exclude"]
  | noRespectGitignore => ["--no-respect-gitignore"]
  | forceExclude => ["--force-exclude"]
  | listFiles => ["--list-files"]
  | filesMaxSize => ["--files-max-size"]
  | version => ["--version"]
  | skill => ["--skill"]
  | installSkill => ["--install-skill"]
  | agentBase => ["--agent-base"]
  | surfaces => ["--surfaces"]
  | docs => ["--docs"]

def kind : Switch → Kind
  | output => .text
  | width => .integer
  | listSpacing =>
    .choice ([.preserve, .loose, .tight].map fun s => (Document.ListSpacing.name s).toList)
  | moreIncludes => .text
  | excludes => .text
  | moreExcludes => .text
  | filesMaxSize => .integer
  | agentBase => .text
  | surfaces => .text
  | _ => .flag

def spec (s : Switch) : Spec Switch := ⟨s, s.names.map String.toList, s.kind⟩

def all : List Switch :=
  [help, output, width, plaintext, semantic, cleanups, smartquotes, ellipses, listSpacing, inplace,
   nobackup, check, auto, moreIncludes, excludes, moreExcludes, noRespectGitignore, forceExclude,
   listFiles, filesMaxSize, version, skill, installSkill, agentBase, surfaces, docs]

def field? : Switch → Option Field
  | width => some .width
  | semantic => some .semantic
  | cleanups => some .cleanups
  | smartquotes => some .smartquotes
  | ellipses => some .ellipses
  | listSpacing => some .listSpacing
  | moreIncludes => some .moreIncludes
  | excludes => some .excludes
  | moreExcludes => some .moreExcludes
  | noRespectGitignore => some .respectGitignore
  | forceExclude => some .forceExclude
  | filesMaxSize => some .filesMaxSize
  | _ => none

/-- The option as the second reading knows it: any text will do for a choice. -/
def trackedSpec (s : Switch) : Spec Switch :=
  match s.kind with
  | .choice _ => { s.spec with kind := .text }
  | _ => s.spec

end Switch

def grammar : Grammar Switch := { options := Switch.all.map Switch.spec, takesWords := true }

/-- The grammar of the second reading: only the options that a configuration can set. -/
def trackedGrammar : Grammar Switch :=
  { options := (Switch.all.filter fun s => s.field?.isSome).map Switch.trackedSpec }

/-! ## Options -/

structure Options where
  files : List Text := []
  output : Text := ['-']
  width : Int := Wrap.defaultWidth
  plaintext : Bool := false
  semantic : Bool := false
  cleanups : Bool := false
  smartquotes : Bool := false
  ellipses : Bool := false
  inplace : Bool := false
  nobackup : Bool := false
  check : Bool := false
  version : Bool := false
  listSpacing : Text := Document.ListSpacing.preserve.name.toList
  moreIncludes : List Text := []
  excludes : Option (List Text) := none
  moreExcludes : List Text := []
  respectGitignore : Bool := true
  forceExclude : Bool := false
  listFiles : Bool := false
  filesMaxSize : Int := ({} : Files.Filter).maxSize
  skill : Bool := false
  installSkill : Bool := false
  agentBase : Option Text := none
  docs : Bool := false
  surfaces : Option Text := none
  /-- All that is safe to do, in place and without backups. -/
  auto : Bool := false
  help : Bool := false
  /-- Values of the configuration that are not of the kind that their field asks for. -/
  misfits : List (Field × Value) := []
deriving Repr

namespace Options

/-- The options that arguments ask for, before those are added that come as a set. -/
def ofParsed (p : Parsed Switch) : Options where
  files := p.words
  output := (p.text? .output).getD ['-']
  width := (p.integer? .width).getD Wrap.defaultWidth
  plaintext := p.has .plaintext
  semantic := p.has .semantic
  cleanups := p.has .cleanups
  smartquotes := p.has .smartquotes
  ellipses := p.has .ellipses
  inplace := p.has .inplace
  nobackup := p.has .nobackup
  check := p.has .check
  version := p.has .version
  listSpacing := (p.text? .listSpacing).getD Document.ListSpacing.preserve.name.toList
  moreIncludes := p.texts .moreIncludes
  excludes := if p.has .excludes then some (p.texts .excludes) else none
  moreExcludes := p.texts .moreExcludes
  respectGitignore := !p.has .noRespectGitignore
  forceExclude := p.has .forceExclude
  listFiles := p.has .listFiles
  filesMaxSize := (p.integer? .filesMaxSize).getD ({} : Files.Filter).maxSize
  skill := p.has .skill
  installSkill := p.has .installSkill
  agentBase := p.text? .agentBase
  docs := p.has .docs
  surfaces := p.text? .surfaces
  auto := p.has .auto
  help := p.has .help

def withAuto (o : Options) : Options :=
  if o.auto then
    { o with inplace := true, nobackup := true, semantic := true, cleanups := true
             smartquotes := true, ellipses := true }
  else o

def setClosest (o : Options) (f : Field) (v : Value) : Options :=
  match f with
  | .width => { o with width := v.number?.getD o.width }
  | .semantic => { o with semantic := v.isYes }
  | .cleanups => { o with cleanups := v.isYes }
  | .smartquotes => { o with smartquotes := v.isYes }
  | .ellipses => { o with ellipses := v.isYes }
  | .listSpacing => { o with listSpacing := v.text?.getD [] }
  | .includes => o
  | .moreIncludes => { o with moreIncludes := v.texts?.getD o.moreIncludes }
  | .excludes => { o with excludes := v.texts?.or o.excludes }
  | .moreExcludes => { o with moreExcludes := v.texts?.getD o.moreExcludes }
  | .filesMaxSize => { o with filesMaxSize := v.number?.getD o.filesMaxSize }
  | .respectGitignore => { o with respectGitignore := v.isYes }
  | .forceExclude => { o with forceExclude := v.isYes }

/-- Set one field. A value of another kind than the field asks for is kept beside it. -/
def set (o : Options) (f : Field) (v : Value) : Options :=
  let closest := o.setClosest f v
  if f = .includes || f.fits v then closest
  else { closest with misfits := closest.misfits ++ [(f, v)] }

/-- The fields that a configuration may not change when all that is safe is asked for. -/
def isLocked (f : Field) : Bool :=
  f = .semantic || f = .cleanups || f = .smartquotes || f = .ellipses

def merge (o : Options) (settings : Settings) (explicit : List Field) : Options :=
  Field.all.foldl (fun o f =>
    match settings.get? f with
    | none => o
    | some v =>
      if explicit.contains f || (o.auto && isLocked f) then o else o.set f v) o

def filter (o : Options) : Files.Filter where
  moreIncludes := o.moreIncludes
  excludes := o.excludes
  moreExcludes := o.moreExcludes
  respectGitignore := o.respectGitignore
  forceExclude := o.forceExclude
  maxSize := o.filesMaxSize

/-- A setting of patterns: as the configuration gives it, if that is no list of texts. -/
def patternsOf (o : Options) (f : Field) (texts : List Text) : Value :=
  (o.misfits.lookup f).getD (.list (texts.map .text))

def checkedFilter (o : Options) : Except Misfit Files.Filter :=
  if o.misfits.isEmpty then .ok o.filter
  else do
    let excludes ← Value.patterns
      (o.patternsOf .excludes (o.excludes.getD Files.defaultExcludes))
      (o.patternsOf .moreExcludes o.moreExcludes)
    let includes ← Value.patterns (.list (Files.defaultIncludes.map .text))
      (o.patternsOf .moreIncludes o.moreIncludes)
    return { o.filter with includes, moreIncludes := [], excludes, moreExcludes := [] }

def notNumber? (o : Options) (f : Field) : Option Value :=
  (o.misfits.lookup f).filter fun v => !v.isNumber

end Options

def explicitFields (arguments : List Text) : Except Arguments.Fault (List Field) := do
  let p ← trackedGrammar.parseKnown arguments
  return Switch.all.filterMap fun s => if p.has s then s.field? else none

def parse (arguments : List Text) : Except Arguments.Fault (Options × List Field) := do
  let p ← grammar.parse arguments
  let explicit ← explicitFields arguments
  return ((Options.ofParsed p).withAuto, explicit)

end Reflow.Cli
