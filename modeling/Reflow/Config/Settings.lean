import Reflow.Config.Value

/-!
The settings that a configuration gives.

A configuration may group its keys in tables as it likes: the names of the groups mean nothing, and
all keys count as one list. A dash in a key is as good as an underscore. A key that names no setting
is reported and ignored.
-/

namespace Reflow.Config

inductive Field where
  | width
  | semantic
  | cleanups
  | smartquotes
  | ellipses
  | listSpacing
  | includes
  | moreIncludes
  | excludes
  | moreExcludes
  | filesMaxSize
  | respectGitignore
  | forceExclude
deriving DecidableEq, Repr

namespace Field

def all : List Field :=
  [width, semantic, cleanups, smartquotes, ellipses, listSpacing, includes, moreIncludes,
   excludes, moreExcludes, filesMaxSize, respectGitignore, forceExclude]

def name : Field → String
  | width => "width"
  | semantic => "semantic"
  | cleanups => "cleanups"
  | smartquotes => "smartquotes"
  | ellipses => "ellipses"
  | listSpacing => "list_spacing"
  | includes => "include"
  | moreIncludes => "extend_include"
  | excludes => "exclude"
  | moreExcludes => "extend_exclude"
  | filesMaxSize => "files_max_size"
  | respectGitignore => "respect_gitignore"
  | forceExclude => "force_exclude"

def ofKey? (key : Text) : Option Field :=
  let plain : Text := key.map fun c => if c = '-' then '_' else c
  all.find? fun f => f.name.toList == plain

def fits : Field → Value → Bool
  | width, v => v.integer?.isSome
  | filesMaxSize, v => v.integer?.isSome
  | listSpacing, v => v.text?.isSome
  | includes, v => v.texts?.isSome
  | moreIncludes, v => v.texts?.isSome
  | excludes, v => v.texts?.isSome
  | moreExcludes, v => v.texts?.isSome
  | _, .boolean _ => true
  | _, _ => false

end Field

/-- What is set; where a field is set twice, the first entry counts. -/
structure Settings where
  values : List (Field × Value) := []
deriving Inhabited

namespace Settings

def set (s : Settings) (f : Field) (v : Value) : Settings := ⟨(f, v) :: s.values⟩

def get? (s : Settings) (f : Field) : Option Value :=
  match s.values.lookup f with
  | some .unset => none
  | found => found

/-- All keys as one list. Tables directly inside lend their keys; a table inside a table is a value
like any other. -/
def flatten (data : Table) : Table :=
  data.foldl (fun flat (key, v) =>
    match v with
    | .table inner => inner.foldl (fun flat (k, w) => flat.put k w) flat
    | _ => flat.put key v) []

def ofTable (data : Table) : Settings × List Text :=
  (flatten data).foldl (fun (settings, unknown) (key, v) =>
    match Field.ofKey? key with
    | some f => (settings.set f v, unknown)
    | none => (settings, unknown ++ [key])) ({}, [])

end Settings

inductive Warning where
  | unknownKey (key : Text)
  | unreadable (path : Text)
deriving DecidableEq, Repr

def Warning.message : Warning → Text
  | unknownKey key => "Warning: unrecognized config key '".toList ++ key ++ ['\'']
  | unreadable path => "Warning: could not parse config file ".toList ++ path

end Reflow.Config
