import Reflow.Config.Toml.Entries
import Reflow.Config.Toml.Scalar

/-!
Reading a configuration in the TOML format.

The text is read into statements, one a line, and the statements are carried out in order on a
table. Line ends are line feeds here, whatever they are in the file.
-/

namespace Reflow.Config.Toml

/-! ## Keys and comments -/

def isKeyChar (c : Char) : Bool := c.isAlphanum || c = '-' || c = '_'

def skipComment (t : Text) : Option Text :=
  match t with
  | '#' :: rest =>
    let comment := rest.takeWhile (· ≠ '\n')
    if comment.any isIllegal then none else some (rest.drop comment.length)
  | _ => some t

def skipFill : Text → Option Text
  | [] => some []
  | c :: cs =>
    if isFill c then skipFill cs
    else if c = '#' then
      let comment := cs.takeWhile (· ≠ '\n')
      if comment.any isIllegal then none else skipFill (cs.drop comment.length)
    else some (c :: cs)
termination_by t => t.length
decreasing_by all_goals (simp; try omega)

def keyPart : Reader Text := fun t =>
  match t with
  | [] => none
  | '\'' :: rest => literalString rest
  | '"' :: rest => basicString false rest
  | c :: _ =>
    if isKeyChar c then
      let name := t.takeWhile isKeyChar
      some (name, t.drop name.length)
    else none

def key : (fuel : Nat) → Reader (List Text)
  | 0, _ => none
  | fuel + 1, t => do
    let (part, rest) ← keyPart t
    match skipSpace rest with
    | '.' :: rest =>
      let (parts, rest) ← key fuel (skipSpace rest)
      return (part :: parts, rest)
    | rest => return ([part], rest)

/-! ## Values -/

mutual

def value : (fuel : Nat) → Reader Value
  | 0, _ => none
  | fuel + 1, t =>
    match t with
    | '[' :: rest => do
      let (vs, rest) ← items fuel (← skipFill rest)
      return (.list vs, rest)
    | '\x7b' :: rest =>
      match skipSpace rest with
      | '\x7d' :: rest => some (.table [], rest)
      | rest => do
        let (es, rest) ← pairs fuel [] rest
        return (.table (finishEntries es), rest)
    | _ => scalar t

def items : (fuel : Nat) → Reader (List Value)
  | 0, _ => none
  | fuel + 1, t =>
    match t with
    | ']' :: rest => some ([], rest)
    | _ => do
      let (v, rest) ← value fuel t
      match ← skipFill rest with
      | ']' :: rest => return ([v], rest)
      | ',' :: rest =>
        let (vs, rest) ← items fuel (← skipFill rest)
        return (v :: vs, rest)
      | _ => none

/-- The entries of a table in braces, up to its closing brace, added to those read so far. -/
def pairs : (fuel : Nat) → Entries → Reader Entries
  | 0, _, _ => none
  | fuel + 1, es, t => do
    let (k, v, rest) ← pair fuel t
    let es ← es.write 0 v k
    match skipSpace rest with
    | '\x7d' :: rest => return (es, rest)
    | ',' :: rest => pairs fuel es (skipSpace rest)
    | _ => none

def pair : (fuel : Nat) → Text → Option (List Text × Value × Text)
  | 0, _ => none
  | fuel + 1, t => do
    let (k, rest) ← key fuel t
    match rest with
    | '=' :: rest =>
      let (v, rest) ← value fuel (skipSpace rest)
      return (k, v, rest)
    | _ => none

end

/-! ## Statements -/

inductive Statement where
  | header (names : List Text)
  | listHeader (names : List Text)
  | entry (names : List Text) (v : Value)

def statement (fuel : Nat) : Reader Statement := fun t =>
  match t with
  | '[' :: '[' :: rest => do
    let (k, rest) ← key fuel (skipSpace rest)
    match rest with
    | ']' :: ']' :: rest => return (.listHeader k, rest)
    | _ => none
  | '[' :: rest => do
    let (k, rest) ← key fuel (skipSpace rest)
    match rest with
    | ']' :: rest => return (.header k, rest)
    | _ => none
  | _ => do
    let (k, v, rest) ← pair fuel t
    return (.entry k v, rest)

def statements : (fuel : Nat) → Text → Option (List Statement)
  | 0, _ => none
  | fuel + 1, t =>
    match skipSpace t with
    | [] => some []
    | '\n' :: rest => statements fuel rest
    | '#' :: rest => do
      match ← skipComment ('#' :: rest) with
      | [] => return []
      | _ :: rest => statements fuel rest
    | start => do
      let (s, rest) ← statement fuel start
      match ← skipComment (skipSpace rest) with
      | [] => return [s]
      | '\n' :: rest => return s :: (← statements fuel rest)
      | _ => none

/-! ## Documents -/

structure Progress where
  part : Nat := 0
  names : List Text := []
  entries : Entries := []

def Progress.step (p : Progress) : Statement → Option Progress
  | .header names => do
    let entries ← p.entries.openTable names.dropLast (← names.getLast?)
    return { part := p.part + 1, names, entries }
  | .listHeader names => do
    let entries ← p.entries.addTable names.dropLast (← names.getLast?)
    return { part := p.part + 1, names, entries }
  | .entry names v => do
    let entries ← p.entries.within (Entries.write p.part v names) p.names
    return { p with entries }

/-- Read a text in the TOML format. Every reader takes at least one character before it calls
another one that may not, so the fuel is never used up. -/
def parse (t : Text) : Option Table := do
  let fuel := 2 * t.length + 4
  let read ← statements fuel t
  let done ← read.foldlM Progress.step {}
  return finishEntries done.entries

end Reflow.Config.Toml
