import Reflow.Config.Value

/-!
Tables that are being written.

A file opens tables by headers, and by keys with dots. A header may open a table that so far exists
only because another table lies in it, and no table twice. A table that a key with dots brought
about can be added to by keys with dots in the same section, and is closed from the next header on.
A header in double brackets adds a table to a list of tables, and headers below it mean the last one
of that list. A value that is written in place is closed at once.
-/

namespace Reflow.Config.Toml

inductive Origin where
  /-- Another table lies in it. -/
  | implied
  /-- A key with dots names it, in the section of this number. -/
  | dotted (part : Nat)
  | opened
deriving DecidableEq, Repr

inductive Item where
  | value (v : Value)
  | table (origin : Origin) (entries : List (Text × Item))
  | tables (earlier : List (List (Text × Item))) (last : List (Text × Item))

abbrev Entries := List (Text × Item)

namespace Entries

def get? (key : Text) (es : Entries) : Option Item := es.lookup key

def put (key : Text) (item : Item) : Entries → Entries
  | [] => [(key, item)]
  | (k, old) :: rest => if k = key then (k, item) :: rest else (k, old) :: put key item rest

/-- Change the table that a header leads to; the tables on the way come about if they are not
there. -/
def within (change : Entries → Option Entries) : List Text → Entries → Option Entries
  | [], es => change es
  | k :: ks, es => do
    match es.get? k with
    | none => return es.put k (.table .implied (← within change ks []))
    | some (.table origin inner) => return es.put k (.table origin (← within change ks inner))
    | some (.tables earlier last) => return es.put k (.tables earlier (← within change ks last))
    | some (.value _) => none

def openTable (names : List Text) (key : Text) (es : Entries) : Option Entries :=
  es.within (fun es =>
    match es.get? key with
    | none => some (es.put key (.table .opened []))
    | some (.table .implied inner) => some (es.put key (.table .opened inner))
    | _ => none) names

def addTable (names : List Text) (key : Text) (es : Entries) : Option Entries :=
  es.within (fun es =>
    match es.get? key with
    | none => some (es.put key (.tables [] []))
    | some (.tables earlier last) => some (es.put key (.tables (earlier ++ [last]) []))
    | _ => none) names

/-- Write a value under a key, maybe with dots, in section `part`. No key is written twice. -/
def write (part : Nat) (v : Value) : List Text → Entries → Option Entries
  | [], _ => none
  | [key], es => if (es.get? key).isSome then none else some (es.put key (.value v))
  | k :: ks, es => do
    match es.get? k with
    | none => return es.put k (.table (.dotted part) (← write part v ks []))
    | some (.table origin inner) =>
      if origin = .implied || origin = .dotted part then
        return es.put k (.table (.dotted part) (← write part v ks inner))
      else none
    | _ => none

end Entries

mutual

def Item.finish : Item → Value
  | .value v => v
  | .table _ es => .table (finishEntries es)
  | .tables earlier last => .list (finishTables earlier ++ [.table (finishEntries last)])

def finishEntries : List (Text × Item) → Table
  | [] => []
  | (k, item) :: rest => (k, item.finish) :: finishEntries rest

def finishTables : List (List (Text × Item)) → List Value
  | [] => []
  | es :: rest => .table (finishEntries es) :: finishTables rest

end

end Reflow.Config.Toml
