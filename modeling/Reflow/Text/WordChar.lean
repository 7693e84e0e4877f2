import Reflow.Text.Letter
import Reflow.Text.Mark
import Reflow.Text.Numeral
import Reflow.Text.Punctuation

/-!
The characters that words are made of.

Two classes are in use. `isWordChar` is the narrow one, for typography: letters, numerals and the
underscore. `isWordPart` is the wide one, for the edge of a word before a sentence end: it also
holds combining marks, connectors, circled letters and the joiners, so a letter that follows an
accent written as a combining mark is inside its word. The narrow class goes after Unicode 14, the
wide one after Unicode 15.1.
-/

namespace Reflow

def isWordChar (c : Char) : Bool := isLetter c || isNumeral c || c == '_'

/-- Code points of the symbols that count as letters (circled, squared) and of the two joiners. -/
def letterSymbolRanges : Ranges :=
  [(0x200C, 2), (0x24B6, 52), (0x1F130, 26), (0x1F150, 26), (0x1F170, 26)]

/-- Code points of the decimal digits that are in Unicode 15.1 and not in Unicode 14. -/
def newDecimalRanges : Ranges := [(0x11F50, 10), (0x1E4F0, 10)]

def isWordPart (c : Char) : Bool :=
  isSentenceLetter c || isMark c || isDecimal c || newDecimalRanges.contains c.toNat ||
    isLetterNumber c || isConnector c || letterSymbolRanges.contains c.toNat

end Reflow
