import Reflow.Text.Basic
import Reflow.Text.Numeral

/-!
Whole numbers in text.

A number may have blanks around it, a sign, digits of any script, and single underscores between
digits. The four separator controls are no blanks here. There is a bound on the number of digits,
leading zeros among them.
-/

namespace Reflow.Text

def digitsValue (t : Text) : Nat :=
  (t.filterMap decimalValue?).foldl (fun n d => 10 * n + d) 0

def maxDigits : Nat := 4300

def natural? (t : Text) : Option Nat :=
  let groups := splitOn '_' t
  let isNumber := groups.all fun group => !group.isEmpty && group.all isDecimal
  if isNumber && groups.flatten.length ≤ maxDigits then some (digitsValue t) else none

def isSeparator (c : Char) : Bool := '\x1c' ≤ c && c ≤ '\x1f'

def isMargin (c : Char) : Bool := isBlank c && !isSeparator c

def integer? (t : Text) : Option Int :=
  match dropEndWhile isMargin (t.dropWhile isMargin) with
  | '-' :: rest => (natural? rest).map fun n => -(n : Int)
  | '+' :: rest => (natural? rest).map fun n => (n : Int)
  | body => (natural? body).map fun n => (n : Int)

def ofInt (n : Int) : Text := (toString n).toList

end Reflow.Text
