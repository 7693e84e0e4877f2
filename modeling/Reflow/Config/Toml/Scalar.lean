import Reflow.Config.Value

/-!
Strings, numbers, days and times of the TOML format.

A *reader* looks at a text from its start and answers what it found there and the text after it. No
reader says why it fails: a configuration that cannot be read is ignored as a whole.
-/

namespace Reflow.Config.Toml

/-- What stands at the start of a text, and the text after it. -/
abbrev Reader (α : Type) := Text → Option (α × Text)

def isSpace (c : Char) : Bool := c = ' ' || c = '\t'

def isFill (c : Char) : Bool := isSpace c || c = '\n'

/-- Control characters may not stand in comments and strings; the tab may. -/
def isIllegal (c : Char) : Bool := (c.toNat < 0x20 && c ≠ '\t') || c.toNat = 0x7F

def skipSpace (t : Text) : Text := t.dropWhile isSpace

/-! ## Strings -/

def hexValue? (c : Char) : Option Nat :=
  if isAsciiDigit c then some (c.toNat - '0'.toNat)
  else if 'a' ≤ c && c ≤ 'f' then some (c.toNat - 'a'.toNat + 10)
  else if 'A' ≤ c && c ≤ 'F' then some (c.toNat - 'A'.toNat + 10)
  else none

def numberOf (base : Nat) (digits : List Nat) : Nat :=
  digits.foldl (fun n d => n * base + d) 0

def hexChar? (n : Nat) (t : Text) : Option Char := do
  let written : Text := t.take n
  if written.length = n then
    let code := numberOf 16 (← written.mapM hexValue?)
    if code.isValidChar then return Char.ofNat code else none
  else none

/-- What an escape stands for, and how many characters after the backslash it takes. At a line's end
a string of several lines goes on with the next visible character. -/
def escape (severalLines : Bool) (t : Text) : Option (Text × Nat) :=
  match t with
  | [] => none
  | c :: cs =>
    if severalLines && isFill c then
      let blanks := t.takeWhile isSpace
      match t.drop blanks.length with
      | [] => some ([], blanks.length)
      | '\n' :: rest => some ([], blanks.length + 1 + (rest.takeWhile isFill).length)
      | _ => none
    else
      match c with
      | 'b' => some (['\x08'], 1)
      | 't' => some (['\t'], 1)
      | 'n' => some (['\n'], 1)
      | 'f' => some (['\x0c'], 1)
      | 'r' => some (['\r'], 1)
      | '"' => some (['"'], 1)
      | '\\' => some (['\\'], 1)
      | 'u' => (hexChar? 4 cs).map fun d => ([d], 5)
      | 'U' => (hexChar? 8 cs).map fun d => ([d], 9)
      | _ => none

def basicString (severalLines : Bool) : Reader Text
  | [] => none
  | c :: cs =>
    let more := fun (first : Text) (rest : Option (Text × Text)) =>
      rest.map fun (t, after) => (first ++ t, after)
    if c = '"' then
      if !severalLines then some ([], cs)
      else if ['"', '"'].isPrefixOf cs then some ([], cs.drop 2)
      else more [c] (basicString severalLines cs)
    else if c = '\\' then
      match escape severalLines cs with
      | some (new, n) => more new (basicString severalLines (cs.drop n))
      | none => none
    else if isIllegal c && !(severalLines && c = '\n') then none
    else more [c] (basicString severalLines cs)
termination_by t => t.length
decreasing_by all_goals (simp; try omega)

def literalString : Reader Text := fun t => do
  let (inner, rest) ← Text.cut? ['\''] t
  if inner.any isIllegal then none else return (inner, rest)

def literalLines : Reader Text := fun t => do
  let (inner, rest) ← Text.cut? ['\'', '\'', '\''] t
  if inner.any fun c => isIllegal c && c ≠ '\n' then none else return (inner, rest)

/-- A string of several lines may end in one or two quotes of its own before the closing ones. -/
def ownQuotes (quote : Char) : Text × Text → Text × Text
  | (inner, rest) =>
    let own := (rest.take 2).takeWhile (· == quote)
    (inner ++ own, rest.drop own.length)

/-- A string of several lines loses a line feed right after its opening quotes. -/
def dropFirstBreak : Text → Text
  | '\n' :: rest => rest
  | t => t

def string : Reader Text
  | '"' :: '"' :: '"' :: rest =>
    (basicString true (dropFirstBreak rest)).map (ownQuotes '"')
  | '"' :: rest => basicString false rest
  | '\'' :: '\'' :: '\'' :: rest => (literalLines (dropFirstBreak rest)).map (ownQuotes '\'')
  | '\'' :: rest => literalString rest
  | _ => none

/-! ## Numbers -/

def moreDigits (p : Char → Bool) : Text → Nat
  | [] => 0
  | '_' :: d :: rest => if p d then 2 + moreDigits p rest else 0
  | c :: rest => if p c then 1 + moreDigits p rest else 0

def digits (p : Char → Bool) : Text → Option Nat
  | [] => none
  | c :: rest => if p c then some (1 + moreDigits p rest) else none

def isDigitOf (base : Nat) (c : Char) : Bool :=
  match hexValue? c with
  | some v => v < base
  | none => false

def digitsValue (base : Nat) (t : Text) : Nat := numberOf base (t.filterMap hexValue?)

def markedInteger : Reader Value
  | '0' :: mark :: rest => do
    let base ← match mark with
      | 'x' => some 16
      | 'b' => some 2
      | 'o' => some 8
      | _ => none
    let n ← digits (isDigitOf base) rest
    return (.integer (digitsValue base (rest.take n)), rest.drop n)
  | _ => none

def signLength : Text → Nat
  | '+' :: _ => 1
  | '-' :: _ => 1
  | _ => 0

/-- The length of the whole part of a number: a zero alone, or digits that do not start with one. -/
def wholeLength : Text → Option Nat
  | '0' :: _ => some 1
  | t => digits isAsciiDigit t

def fractionLength : Text → Nat
  | '.' :: rest => ((digits isAsciiDigit rest).map (· + 1)).getD 0
  | _ => 0

def exponentLength : Text → Nat
  | [] => 0
  | c :: rest =>
    if c = 'e' || c = 'E' then
      let sign := signLength rest
      ((digits isAsciiDigit (rest.drop sign)).map (· + 1 + sign)).getD 0
    else 0

def number : Reader Value := fun t => do
  let sign := signLength t
  let whole ← wholeLength (t.drop sign)
  let fraction := fractionLength (t.drop (sign + whole))
  let exponent := exponentLength (t.drop (sign + whole + fraction))
  let length := sign + whole + fraction + exponent
  if fraction + exponent = 0 then
    let size : Int := digitsValue 10 ((t.drop sign).take whole)
    return (.integer (if t.head? = some '-' then -size else size), t.drop length)
  else return (.decimal (t.take length), t.drop length)

def specialNumber : Reader Value := fun t => do
  let sign := signLength t
  let word : Text := (t.drop sign).take 3
  if word = ['i', 'n', 'f'] || word = ['n', 'a', 'n'] then
    return (.decimal (t.take (sign + 3)), t.drop (sign + 3))
  else none

/-! ## Days and times -/

def fixedNumber (n : Nat) : Reader Nat := fun t =>
  let written : Text := t.take n
  if written.length = n && written.all isAsciiDigit then some (digitsValue 10 written, t.drop n)
  else none

def twoDigits (lo hi : Nat) : Reader Nat := fun t => do
  let (n, rest) ← fixedNumber 2 t
  if lo ≤ n && n ≤ hi then return (n, rest) else none

def mark (c : Char) (t : Text) : Option Text :=
  match t with
  | [] => none
  | d :: rest => if d = c then some rest else none

def afterTime (t : Text) : Option Text := do
  let (_, t) ← twoDigits 0 23 t
  let (_, t) ← twoDigits 0 59 (← mark ':' t)
  let (_, t) ← twoDigits 0 59 (← mark ':' t)
  match t with
  | '.' :: d :: rest => return if isAsciiDigit d then rest.dropWhile isAsciiDigit else t
  | _ => return t

def afterOffset (t : Text) : Option Text :=
  match t with
  | [] => none
  | c :: rest =>
    if c = 'Z' || c = 'z' then some rest
    else if c = '+' || c = '-' then do
      let (_, t) ← twoDigits 0 23 rest
      let (_, t) ← twoDigits 0 59 (← mark ':' t)
      return t
    else none

def daysIn (year month : Nat) : Nat :=
  if month = 2 then
    if year % 4 = 0 && (year % 100 ≠ 0 || year % 400 = 0) then 29 else 28
  else if month = 4 || month = 6 || month = 9 || month = 11 then 30
  else 31

/-- A day that the calendar has; the first year is year 1. -/
def isDay (year month day : Nat) : Bool := 1 ≤ year && day ≤ daysIn year month

/-- A day, maybe with a time after it. The outer answer is `none` where no day stands; a day that
the calendar does not have is no value at all. -/
def day (t : Text) : Option (Option (Value × Text)) := do
  let (year, rest) ← fixedNumber 4 t
  let (month, rest) ← twoDigits 1 12 (← mark '-' rest)
  let (day, rest) ← twoDigits 1 31 (← mark '-' rest)
  let rest := match rest with
    | c :: cs =>
      if c = 'T' || c = 't' || c = ' ' then
        match afterTime cs with
        | some after => (afterOffset after).getD after
        | none => rest
      else rest
    | [] => rest
  return if isDay year month day then
    some (.moment (t.take (t.length - rest.length)), rest) else none

def time : Reader Value := fun t => do
  let rest ← afterTime t
  return (.moment (t.take (t.length - rest.length)), rest)

def scalar : Reader Value := fun t =>
  match t with
  | [] => none
  | c :: _ =>
    if c = '"' || c = '\'' then (string t).map fun (s, rest) => (.text s, rest)
    else if ['t', 'r', 'u', 'e'].isPrefixOf t then some (.boolean true, t.drop 4)
    else if ['f', 'a', 'l', 's', 'e'].isPrefixOf t then some (.boolean false, t.drop 5)
    else
      match day t with
      | some found => found
      | none => (time t).or <| (markedInteger t).or <| (number t).or (specialNumber t)

end Reflow.Config.Toml
