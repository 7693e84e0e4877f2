import Reflow.Files.Expansion
import Reflow.Text.Quoted

/-!
Ignore patterns.

A line of an ignore file stands for the paths that it leaves out, or, after an exclamation mark,
takes back in. The last line that matches a path decides. Paths are matched as texts with slashes
between the names; a folder has a slash at its end.

A line of a single name is meant at any depth. A line with a slash before its end is meant from the
folder down. A slash at the end asks for a folder, that is, for something below the name.
-/

namespace Reflow.Files

structure IgnorePattern where
  negated : Bool
  pattern : Pattern
deriving Repr

inductive InvalidLine where
  /-- It stands for nothing: an exclamation mark alone, or a backslash at the end. -/
  | empty (line : Text)
  /-- A range in it runs backwards. -/
  | backward (r : BackwardRange)
deriving DecidableEq, Repr

def InvalidLine.message : InvalidLine → Text
  | empty line => "Invalid git pattern: ".toList ++ line.quoted
  | backward r => r.message

namespace IgnorePattern

/-- The line without blanks around it. A blank at the end that is written after a backslash
stays. -/
def trim (line : Text) : Text :=
  if Text.endsWith line ['\\', ' '] then Text.stripLeft line else Text.strip line

def mergeStars : List Text → List Text
  | a :: b :: rest =>
    if a = doubleStar && b = doubleStar then mergeStars (b :: rest) else a :: mergeStars (b :: rest)
  | names => names

/-- The names of a line, from the folder down. A first slash says that they are just that; a single
name can be at any depth. A last slash asks for anything below. -/
def normalise (names : List Text) : List Text :=
  let anchored := match names with
    | [] :: rest => rest
    | [a] => if a = doubleStar then [a] else [doubleStar, a]
    | [a, []] => if a = doubleStar then [a, []] else [doubleStar, a, []]
    | names => names
  match anchored.getLast? with
  | some [] => if anchored.length > 1 then anchored.dropLast ++ [doubleStar] else anchored
  | _ => anchored

/-- The pattern of one name. A backslash takes the meaning from the character after it, and may not
be the last one. -/
def namePattern : Text → Option Pattern
  | [] => some []
  | '\\' :: rest =>
    match rest with
    | [] => none
    | c :: cs => (namePattern cs).map (.one (.exactly c) :: ·)
  | c :: cs =>
    if c = '*' then (namePattern cs).map (.many .notSlash :: ·)
    else if c = '?' then (namePattern cs).map (.one .notSlash :: ·)
    else if c = '[' then
      match Pattern.bracket? Pattern.isIgnoreNegation cs with
      | some b => (namePattern (cs.drop b.size)).map (b.piece :: ·)
      | none => (namePattern cs).map (.one (.exactly c) :: ·)
    else (namePattern cs).map (.one (.exactly c) :: ·)
termination_by t => t.length
decreasing_by all_goals (simp; try omega)

def anyText : Pattern := [.many .notLineFeed]

def someText : Pattern := .one .notLineFeed :: anyText

def slash : Piece := .one (.exactly '/')

def orBelow : Piece := .optional (slash :: anyText)

/-- The pattern of the names that are left; `first` is said of the first name of the line, and
`slashed` says that a name needs a slash before it. -/
def patternOf (first slashed : Bool) : List Text → Option Pattern
  | [] => some []
  | name :: rest =>
    if name = doubleStar then
      if rest.isEmpty then
        if first then some [.one .notSlash, .many .notSlash, orBelow]
        else some (slash :: anyText)
      else if first then
        (patternOf false false rest).map (.optional (someText ++ [slash]) :: ·)
      else (patternOf false true rest).map (.optional (slash :: someText) :: ·)
    else do
      let own ← if name = ['*'] then some [.one .notSlash, .many .notSlash] else namePattern name
      let after ← patternOf false true rest
      return (if slashed then [slash] else []) ++ own ++ (if rest.isEmpty then [orBelow] else [])
        ++ after

def isAnyFolder (names : List Text) : Bool := names == [doubleStar, []]

/-- Read a line. Comments, empty lines and a slash alone stand for nothing. -/
def ofLine (line : Text) : Except InvalidLine (Option IgnorePattern) := do
  let trimmed := trim line
  if trimmed.isEmpty || trimmed.head? == some '#' || trimmed == ['/'] then return none
  let (negated, body) := match trimmed with
    | '!' :: rest => (true, rest)
    | _ => (false, trimmed)
  let names := mergeStars (Text.splitOn '/' body)
  if isAnyFolder names then return some ⟨negated, someText ++ slash :: anyText⟩
  match normalise names with
  | [] => throw (.empty line)
  | names =>
    match patternOf true false names, Expansion.ofNames true false 1 names with
    | none, _ => throw (.empty line)
    | some _, .error r => throw (.backward r)
    | some pattern, .ok _ => return some ⟨negated, pattern⟩

/-- The pattern takes the path; a line feed may be left at the end. -/
def accepts (p : IgnorePattern) (path : Text) : Bool :=
  (Pattern.rests p.pattern path).any fun rest => rest == [] || rest == ['\n']

end IgnorePattern

abbrev IgnoreList := List IgnorePattern

namespace IgnoreList

def ofLines (lines : List Text) : Except InvalidLine IgnoreList := do
  return (← lines.mapM IgnorePattern.ofLine).filterMap id

/-- A path is matched without a slash, or a dot and a slash, at its start. -/
def normalisePath : Text → Text
  | '/' :: rest => rest
  | '.' :: '/' :: rest => rest
  | path => path

/-- The list leaves the path out: the last pattern that takes it decides. -/
def covers (l : IgnoreList) (path : Text) : Bool :=
  let path := normalisePath path
  l.foldl (fun covered p => if p.accepts path then !p.negated else covered) false

end IgnoreList

end Reflow.Files
