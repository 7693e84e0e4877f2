import Reflow.Text.Basic
import Reflow.Text.Printable

/-!
Text in quotes, as messages show it.

The quote is the apostrophe, or the double quote for a text that holds an apostrophe and no double
quote. The quote itself and the backslash are written after a backslash; a character that cannot be
shown is written by a letter or by its number in hexadecimal digits.
-/

namespace Reflow.Text

def hexadecimal (width n : Nat) : Text :=
  let digits := Nat.toDigits 16 n
  repeated (width - digits.length) '0' ++ digits

def quoteFor (t : Text) : Char :=
  if t.contains '\'' && !t.contains '"' then '"' else '\''

def escapeChar (q c : Char) : Text :=
  if c = q || c = '\\' then ['\\', c]
  else if c = '\t' then ['\\', 't']
  else if c = '\n' then ['\\', 'n']
  else if c = '\r' then ['\\', 'r']
  else if isPrintable c then [c]
  else if c.toNat < 0x100 then '\\' :: 'x' :: hexadecimal 2 c.toNat
  else if c.toNat < 0x10000 then '\\' :: 'u' :: hexadecimal 4 c.toNat
  else '\\' :: 'U' :: hexadecimal 8 c.toNat

def quoted (t : Text) : Text :=
  let q := quoteFor t
  q :: t.flatMap (escapeChar q) ++ [q]

end Reflow.Text
