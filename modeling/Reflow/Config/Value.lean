import Reflow.Text.Integer
import Reflow.Text.Quoted

/-!
Values of a configuration.

A configuration is a table of values. The values are not bound to a type per key: a table keeps what
was written, and whoever asks for a setting decides whether the value will do. Tables keep the order
in which their keys were first written.
-/

namespace Reflow.Config

inductive Value where
  /-- Nothing: a key that is written and left unset. -/
  | unset
  | text (t : Text)
  | integer (n : Int)
  | boolean (b : Bool)
  | decimal (written : Text)
  | moment (written : Text)
  | list (items : List Value)
  | table (entries : List (Text × Value))
deriving Repr, Inhabited

abbrev Table := List (Text × Value)

namespace Table

def put (key : Text) (v : Value) : Table → Table
  | [] => [(key, v)]
  | (k, w) :: rest => if k = key then (k, v) :: rest else (k, w) :: put key v rest

end Table

namespace Value

/-- What messages call the kind of a value. A dash tells a day from a time, a colon a time from a
day. -/
def kindName : Value → String
  | unset => "NoneType"
  | text _ => "str"
  | integer _ => "int"
  | boolean _ => "bool"
  | decimal _ => "float"
  | moment written =>
    if !written.contains '-' then "datetime.time"
    else if written.contains ':' then "datetime.datetime"
    else "datetime.date"
  | list _ => "list"
  | table _ => "dict"

def text? : Value → Option Text
  | text t => some t
  | _ => none

def integer? : Value → Option Int
  | integer n => some n
  | _ => none

/-- The value counts as a yes: it is neither false nor zero nor empty. -/
def isYes : Value → Bool
  | unset => false
  | text t => !t.isEmpty
  | integer n => n ≠ 0
  | boolean b => b
  | decimal written => written.any fun c => '1' ≤ c && c ≤ '9'
  | moment _ => true
  | list items => !items.isEmpty
  | table entries => !entries.isEmpty

def texts? : Value → Option (List Text)
  | list items => items.mapM text?
  | _ => none

/-- The greatest whole number that is not above a number with a fraction, written without an
exponent. -/
def floor? (written : Text) : Option Int := do
  let whole ← Text.integer? (written.takeWhile (· ≠ '.'))
  let fraction := written.dropWhile (· ≠ '.')
  guard (fraction.all fun c => !c.isAlpha)
  let isBelow := written.head? = some '-' && fraction.any fun c => '1' ≤ c && c ≤ '9'
  return if isBelow then whole - 1 else whole

/-- The value as a whole number: a yes counts as one and a no as zero, and a fraction is dropped. -/
def number? : Value → Option Int
  | integer n => some n
  | boolean b => some (if b then 1 else 0)
  | decimal written => floor? written
  | _ => none

def isNumber : Value → Bool
  | integer _ => true
  | boolean _ => true
  | decimal _ => true
  | _ => false

mutual

def shown : Value → Text
  | unset => "None".toList
  | text t => t.quoted
  | integer n => Text.ofInt n
  | boolean b => (if b then "True" else "False").toList
  | decimal written => written
  | moment written => written
  | list items => ['['] ++ Text.joinWith [',', ' '] (shownAll items) ++ [']']
  | table entries => ['\x7b'] ++ Text.joinWith [',', ' '] (shownEntries entries) ++ ['\x7d']

def shownAll : List Value → List Text
  | [] => []
  | v :: rest => shown v :: shownAll rest

def shownEntries : List (Text × Value) → List Text
  | [] => []
  | (key, v) :: rest => (key.quoted ++ [':', ' '] ++ shown v) :: shownEntries rest

end

end Value

end Reflow.Config
