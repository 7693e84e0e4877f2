import Reflow.Text.Ranges

/-!
Blank characters and line breaks.

Two classes decide where text may be cut. A *blank* separates words: the ASCII controls and
separators from tab to carriage return and from file separator to space, next line, no-break
space and the typographic spaces. Zero-width space and byte order mark are not blank. A *line
break* ends a line when a text is read line by line. Every line break is blank.
-/

namespace Reflow

def blankRanges : Ranges :=
  [(0x9, 5), (0x1C, 5), (0x85, 1), (0xA0, 1), (0x1680, 1), (0x2000, 11), (0x2028, 2), (0x202F, 1),
   (0x205F, 1), (0x3000, 1)]

def isBlank (c : Char) : Bool := blankRanges.contains c.toNat

/-- Code points at which a text is cut into lines; a carriage return and the line feed after it
are one break. -/
def lineBreakRanges : Ranges := [(0xA, 4), (0x1C, 3), (0x85, 1), (0x2028, 2)]

def isLineBreak (c : Char) : Bool := lineBreakRanges.contains c.toNat

@[simp] theorem isBlank_space : isBlank ' ' = true := by decide

@[simp] theorem isBlank_newline : isBlank '\n' = true := by decide

@[simp] theorem isBlank_backslash : isBlank '\\' = false := by decide

theorem isBlank_of_isLineBreak {c : Char} (h : isLineBreak c = true) : isBlank c = true := by
  simp only [isLineBreak, lineBreakRanges, Ranges.contains] at h
  simp only [isBlank, blankRanges, Ranges.contains]
  grind

end Reflow
