import Reflow.Text.Integer
import Reflow.Text.Quoted

/-!
Arguments of a command.

A grammar lists the options of a command. An option is a flag or takes a value, and has one or more
names: short ones, a dash and a letter, and long ones, two dashes and a word. Values follow as the
next argument, after an equals sign, or, with a short name, right away. Short flags can be joined,
after an equals sign too. A long name can be cut short as long as it stays unique. Two dashes alone
end the options. What belongs to no option are words; they stand together in one place, and later
ones are not recognised.

Arguments are first told apart one by one, and then taken from left to right. The first fault that
is met is reported; arguments that nobody knows are reported last.
-/

namespace Reflow.Arguments

/-! ## Grammars -/

inductive Kind where
  | flag
  | text
  | integer
  | choice (allowed : List Text)
deriving DecidableEq, Repr

/-- An option: what it is known as inside, its names, and what it takes. -/
structure Spec (κ : Type) where
  key : κ
  names : List Text
  kind : Kind

structure Grammar (κ : Type) where
  options : List (Spec κ)
  takesWords : Bool := false
  /-- Options of which at most one may be given. -/
  exclusive : List κ := []

inductive Given where
  | flag
  | text (t : Text)
  | integer (n : Int)
deriving DecidableEq, Repr

structure Parsed (κ : Type) where
  given : List (κ × Given) := []
  words : List Text := []
  unknown : List Text := []

namespace Parsed

variable {κ : Type} [BEq κ]

def all (p : Parsed κ) (k : κ) : List Given :=
  (p.given.filter (·.1 == k)).map (·.2)

def has (p : Parsed κ) (k : κ) : Bool := !(p.all k).isEmpty

def texts (p : Parsed κ) (k : κ) : List Text :=
  (p.all k).filterMap fun
    | .text t => some t
    | _ => none

def text? (p : Parsed κ) (k : κ) : Option Text := (p.texts k).getLast?

def integer? (p : Parsed κ) (k : κ) : Option Int :=
  ((p.all k).filterMap fun
    | .integer n => some n
    | _ => none).getLast?

end Parsed

/-! ## Faults -/

/-- What is wrong with arguments. Options are given by their names with slashes between them. -/
inductive Fault where
  | ambiguous (argument : Text) (names : List Text)
  | missingValue (option : Text)
  | unusedValue (option value : Text)
  | notInteger (option value : Text)
  | notAllowed (option value : Text) (allowed : List Text)
  | conflict (option other : Text)
  | unrecognised (arguments : List Text)
deriving DecidableEq, Repr

def Fault.message : Fault → Text
  | ambiguous a names =>
    "ambiguous option: ".toList ++ a ++ " could match ".toList
      ++ Text.joinWith [',', ' '] names
  | missingValue o => about o ++ "expected one argument".toList
  | unusedValue o v => about o ++ "ignored explicit argument ".toList ++ v.quoted
  | notInteger o v => about o ++ "invalid int value: ".toList ++ v.quoted
  | notAllowed o v allowed =>
    about o ++ "invalid choice: ".toList ++ v.quoted ++ " (choose from ".toList
      ++ Text.joinWith [',', ' '] (allowed.map Text.quoted) ++ [')']
  | conflict o other => about o ++ "not allowed with argument ".toList ++ other
  | unrecognised as => "unrecognized arguments: ".toList ++ Text.unwords as
where
  about (option : Text) : Text := "argument ".toList ++ option ++ [':', ' ']

/-! ## Telling arguments apart -/

variable {κ : Type}

/-- What an argument is. A value that is attached to the name of an option stands with it. -/
inductive Token (κ : Type) where
  | word (t : Text)
  | dashes
  | option (spec : Spec κ) (name : Text) (attached : Option Text)
  | stranger (t : Text)

namespace Spec

def title (s : Spec κ) : Text := Text.joinWith ['/'] s.names

end Spec

namespace Grammar

def find? (g : Grammar κ) (name : Text) : Option (Spec κ) :=
  g.options.find? fun s => s.names.contains name

def allNames (g : Grammar κ) : List (Spec κ × Text) :=
  g.options.flatMap fun s => s.names.map fun n => (s, n)

/-- What stands before and after the first equals sign, if there is one. -/
def atEquals (t : Text) : Text × Option Text :=
  match Text.cut? ['='] t with
  | some (before, after) => (before, some after)
  | none => (t, none)

/-- The options that an argument can mean which is not a name in full. -/
def candidates (g : Grammar κ) (a : Text) : List (Spec κ × Text × Option Text) :=
  if ['-', '-'].isPrefixOf a then
    let (start, attached) := atEquals a
    (g.allNames.filter fun (_, n) => start.isPrefixOf n).map fun (s, n) => (s, n, attached)
  else
    g.allNames.filterMap fun (s, n) =>
      if n = a.take 2 then some (s, n, some (a.drop 2))
      else if a.isPrefixOf n then some (s, n, none)
      else none

/-- The argument reads as a negative number, so it is no option. -/
def isNegativeNumber : Text → Bool
  | '-' :: body =>
    let body := match body.getLast? with
      | some '\n' => body.dropLast
      | _ => body
    let whole := body.takeWhile isDecimal
    match body.drop whole.length with
    | [] => !whole.isEmpty
    | '.' :: rest => !rest.isEmpty && rest.all isDecimal
    | _ => false
  | _ => false

def classify (g : Grammar κ) (a : Text) : Except Fault (Token κ) :=
  if a.head? ≠ some '-' then .ok (.word a)
  else
    match g.find? a with
    | some s => .ok (.option s a none)
    | none =>
      if a.length = 1 then .ok (.word a)
      else
        let (name, attached) := atEquals a
        match attached, g.find? name with
        | some v, some s => .ok (.option s name (some v))
        | _, _ =>
          match g.candidates a with
          | [(s, n, attached)] => .ok (.option s n attached)
          | [] =>
            if isNegativeNumber a || a.contains ' ' then .ok (.word a) else .ok (.stranger a)
          | several => .error (.ambiguous a (several.map fun (_, n, _) => n))

/-- Tell the arguments apart. After two dashes all are words. -/
def tokens (g : Grammar κ) : List Text → Except Fault (List (Token κ))
  | [] => .ok []
  | a :: rest =>
    if a = ['-', '-'] then .ok (.dashes :: rest.map .word)
    else do
      let t ← g.classify a
      return t :: (← g.tokens rest)

/-! ## Taking arguments -/

def convert (s : Spec κ) (value : Text) : Except Fault Given :=
  match s.kind with
  | .flag => .ok .flag
  | .text => .ok (.text value)
  | .integer =>
    match value.integer? with
    | some n => .ok (.integer n)
    | none => .error (.notInteger s.title value)
  | .choice allowed =>
    if allowed.contains value then .ok (.text value)
    else .error (.notAllowed s.title value allowed)

/-- Note what an option was given, unless another one excludes it. -/
def note [BEq κ] (g : Grammar κ) (s : Spec κ) (v : Given) (p : Parsed κ) :
    Except Fault (Parsed κ) :=
  let rivals := if g.exclusive.contains s.key then g.exclusive.filter (· != s.key) else []
  match rivals.find? p.has with
  | some other =>
    let title := ((g.options.find? (·.key == other)).map Spec.title).getD []
    .error (.conflict s.title title)
  | none => .ok { p with given := p.given ++ [(s.key, v)] }

structure Bundle (κ : Type) where
  /-- Options with their values; flags have none. -/
  complete : List (Spec κ × Option Text) := []
  /-- An option that still waits for its value. -/
  waiting : Option (Spec κ) := none

def bare (s : Spec κ) : Bundle κ :=
  match s.kind with
  | .flag => { complete := [(s, none)] }
  | _ => { waiting := some s }

/-- Read the options out of one argument, from an option and the text attached to it. A flag with a
short name passes that text on to the option of its first letter. -/
def unbundle (g : Grammar κ) (s : Spec κ) (isShort : Bool) :
    (value : Text) → Except Fault (Bundle κ)
  | [] =>
    match s.kind with
    | .flag => .error (.unusedValue s.title [])
    | _ => .ok { complete := [(s, some [])] }
  | c :: rest =>
    match s.kind with
    | .flag =>
      match if isShort then g.find? ['-', c] else none with
      | none => .error (.unusedValue s.title (c :: rest))
      | some next =>
        let inner := if rest.isEmpty then .ok (bare next) else g.unbundle next true rest
        inner.map fun b => { b with complete := (s, none) :: b.complete }
    | _ => .ok { complete := [(s, some (c :: rest))] }

def readOption (g : Grammar κ) (s : Spec κ) (name : Text) (attached : Option Text) :
    Except Fault (Bundle κ) :=
  match attached with
  | none => .ok (bare s)
  | some value => g.unbundle s (name[1]? != some '-') value

def noteAll [BEq κ] (g : Grammar κ) (p : Parsed κ) :
    List (Spec κ × Option Text) → Except Fault (Parsed κ)
  | [] => .ok p
  | (s, value) :: rest => do
    let v ← convert s (value.getD [])
    g.noteAll (← g.note s v p) rest

/-- The words at the start of the tokens; two dashes count as one. -/
def leadingWords : List (Token κ) → List Text
  | .word t :: rest => t :: leadingWords rest
  | .dashes :: rest => ['-', '-'] :: leadingWords rest
  | _ => []

/-- Words are taken once, without the first pair of dashes among them; later ones are not known. -/
def addWords (g : Grammar κ) (isFirst : Bool) (ws : List Text) (p : Parsed κ) : Parsed κ :=
  if g.takesWords && isFirst then { p with words := ws.erase ['-', '-'] }
  else { p with unknown := p.unknown ++ ws }

/-- Take the tokens from left to right; `isFirst` says that no words have been taken yet. -/
def take [BEq κ] (g : Grammar κ) (isFirst : Bool) (p : Parsed κ) :
    List (Token κ) → Except Fault (Parsed κ)
  | [] => .ok p
  | .stranger t :: rest => g.take isFirst { p with unknown := p.unknown ++ [t] } rest
  | .option s name attached :: rest => do
    let b ← g.readOption s name attached
    match b.waiting with
    | none =>
      g.take isFirst (← g.noteAll p b.complete) rest
    | some last =>
      match rest with
      | .word value :: rest' =>
        let p ← g.noteAll p (b.complete ++ [(last, some value)])
        g.take isFirst p rest'
      | _ => .error (.missingValue last.title)
  | .word t :: rest =>
    let more := leadingWords rest
    g.take false (g.addWords isFirst (t :: more) p) (rest.drop more.length)
  | .dashes :: rest =>
    let more := leadingWords rest
    g.take false (g.addWords isFirst (['-', '-'] :: more) p) (rest.drop more.length)
termination_by tokens => tokens.length
decreasing_by all_goals (simp; try omega)

/-- Read arguments, and let those pass that nobody knows. -/
def parseKnown [BEq κ] (g : Grammar κ) (arguments : List Text) : Except Fault (Parsed κ) := do
  g.take true {} (← g.tokens arguments)

def parse [BEq κ] (g : Grammar κ) (arguments : List Text) : Except Fault (Parsed κ) := do
  let p ← g.parseKnown arguments
  if p.unknown.isEmpty then return p else throw (.unrecognised p.unknown)

end Grammar

end Reflow.Arguments
