import Reflow.Document.Render
import Reflow.Proofs.Gaps

/-!
Separator rows of tables, read and written.

`DelimiterCell` is what a cell of such a row is made of, and `rowText` the row of given cells. The
lines that are recognised are those which, without blanks at their ends, are the row of some cells
(`isSeparator_iff`). Normalising one gives the row of cells with the same colons and three dashes
each, which is the row that a table with these delimiters is written with.
-/

open List hiding splitOn splitOn_ne_nil

namespace Reflow.Block

open Text

variable {cells : List DelimiterCell}

/-! ## Cells -/

/-- A run of dashes with an optional colon at either end and blanks around it. -/
structure DelimiterCell where
  before : Text
  left : Bool
  dashes : Nat
  right : Bool
  after : Text
  blank_before : ∀ c ∈ before, isBlank c
  dashes_pos : 0 < dashes
  blank_after : ∀ c ∈ after, isBlank c

namespace DelimiterCell

variable {c : DelimiterCell}

def colon (there : Bool) : Text := if there then [':'] else []

/-- The cell without the blanks around it. -/
def inner (c : DelimiterCell) : Text := colon c.left ++ repeated c.dashes '-' ++ colon c.right

def text (c : DelimiterCell) : Text := c.before ++ c.inner ++ c.after

/-- Whether there is a colon in front, and one at the end. -/
def colons (c : DelimiterCell) : Bool × Bool := (c.left, c.right)

theorem exists_inner_eq (c : DelimiterCell) : ∃ n, c.dashes = n + 1 ∧
    c.inner = colon c.left ++ '-' :: (repeated n '-' ++ colon c.right) ∧
    c.inner = colon c.left ++ repeated n '-' ++ '-' :: colon c.right := by
  obtain ⟨n, hn⟩ : ∃ n, c.dashes = n + 1 := ⟨c.dashes - 1, by have := c.dashes_pos; omega⟩
  refine ⟨n, hn, ?_, ?_⟩
  · simp [inner, hn, repeated, replicate_succ]
  · simp [inner, hn, repeated, replicate_succ']

theorem startsWith_inner (c : DelimiterCell) : c.inner.startsWith [':'] = c.left := by
  obtain ⟨n, -, h, -⟩ := c.exists_inner_eq
  rw [h]
  cases c.left <;> rfl

theorem endsWith_inner (c : DelimiterCell) : c.inner.endsWith [':'] = c.right := by
  obtain ⟨n, -, -, h⟩ := c.exists_inner_eq
  rw [h]
  cases c.right with
  | false => simp [endsWith, isSuffixOf, colon, isPrefixOf]
  | true => simp [endsWith, isSuffixOf, colon]

theorem mem_inner {d : Char} (h : d ∈ c.inner) : d = ':' ∨ d = '-' := by
  simp only [inner, colon, repeated, mem_append, mem_replicate] at h
  rcases h with (h | h) | h
  · exact .inl (by split at h <;> simp_all)
  · exact .inr h.2
  · exact .inl (by split at h <;> simp_all)

theorem isBlank_of_mem_inner : ∀ d ∈ c.inner, isBlank d = false := by
  intro d hd
  rcases mem_inner hd with rfl | rfl <;> decide

theorem mem_text {d : Char} (h : d ∈ c.text) : isBlank d ∨ d = ':' ∨ d = '-' := by
  rcases mem_append.1 h with h | h
  · rcases mem_append.1 h with h | h
    · exact .inl (c.blank_before d h)
    · exact .inr (mem_inner h)
  · exact .inl (c.blank_after d h)

theorem strip_text (c : DelimiterCell) : strip c.text = c.inner := by
  have hne : c.inner ≠ [] := by
    obtain ⟨n, -, h, -⟩ := c.exists_inner_eq
    simp [h]
  have hsolid := solid_of_visible hne isBlank_of_mem_inner
  obtain ⟨d, u, hd, hblank⟩ := hsolid.1
  obtain ⟨v, e, he, hblank'⟩ := hsolid.2
  have hleft : stripLeft c.text = c.inner ++ c.after := by
    rw [stripLeft, text, append_assoc, dropWhile_append_of_pos c.blank_before, hd]
    simp [hblank]
  rw [strip, hleft, stripRight, dropEndWhile_append c.blank_after, he, dropEndWhile_concat hblank']

end DelimiterCell

open DelimiterCell

theorem exists_dashes_of_startsWith {u : Text} (h : u.startsWith ['-'])
    (hcolon : isOptionalColon (u.dropWhile (· == '-'))) :
    ∃ n right, 0 < n ∧ u = repeated n '-' ++ colon right := by
  have hrun := takeWhile_eq_repeated '-' u
  have hpos : 0 < (u.takeWhile (· == '-')).length := by
    obtain ⟨v, rfl⟩ : ['-'] <+: u := isPrefixOf_iff_prefix.1 h
    simp
  have hsplit := (takeWhile_append_dropWhile (p := (· == '-')) (l := u)).symm
  simp only [isOptionalColon, Bool.or_eq_true, beq_iff_eq] at hcolon
  rcases hcolon with hnil | hone
  · exact ⟨_, false, hpos, by rw [← hrun]; rwa [hnil] at hsplit⟩
  · exact ⟨_, true, hpos, by rw [← hrun]; rwa [hone] at hsplit⟩

theorem exists_cell_of_isDelimiterCell {t : Text} (h : isDelimiterCell t) :
    ∃ c : DelimiterCell, t = c.text := by
  obtain ⟨g, hg, hleft⟩ := exists_stripLeft t
  obtain ⟨g', hg', hright⟩ := exists_stripRight (stripLeft t)
  simp only [isDelimiterCell, Bool.and_eq_true] at h
  obtain ⟨hdash, hcolon⟩ := h
  obtain ⟨left, u, hinner, hu, hrest⟩ : ∃ left u, strip t = colon left ++ u ∧
      u.startsWith ['-'] ∧ isOptionalColon (u.dropWhile (· == '-')) := by
    split at hdash
    · next hstarts =>
      obtain ⟨u, hu⟩ : [':'] <+: strip t := isPrefixOf_iff_prefix.1 hstarts
      rw [← hu] at hdash hcolon
      exact ⟨true, u, hu.symm, hdash, hcolon⟩
    · next hstarts =>
      rw [if_neg hstarts] at hcolon
      exact ⟨false, strip t, rfl, hdash, hcolon⟩
  obtain ⟨n, right, hn, rfl⟩ := exists_dashes_of_startsWith hu hrest
  refine ⟨⟨g, left, n, right, g', hg, hn, hg'⟩, ?_⟩
  rw [hleft, hright]
  change g ++ (strip t ++ g') = _
  rw [hinner]
  simp [DelimiterCell.text, DelimiterCell.inner]

theorem isDelimiterCell_text (c : DelimiterCell) : isDelimiterCell c.text := by
  obtain ⟨n, -, hinner, -⟩ := c.exists_inner_eq
  have hafter : (if c.inner.startsWith [':'] then c.inner.drop 1 else c.inner)
      = '-' :: (repeated n '-' ++ colon c.right) := by
    rw [startsWith_inner, hinner, colon]
    cases c.left <;> rfl
  have hdashes : dropWhile (· == '-') ('-' :: (repeated n '-' ++ colon c.right))
      = colon c.right := by
    rw [dropWhile_cons_of_pos (by rfl), dropWhile_append_of_pos]
    · cases c.right <;> rfl
    · simp [repeated]
  rw [isDelimiterCell, strip_text]
  simp only [hafter, hdashes]
  cases c.right <;> rfl

theorem all_isDelimiterCell (cells : List DelimiterCell) :
    (cells.map DelimiterCell.text).all isDelimiterCell := by
  simpa using fun c _ => isDelimiterCell_text c

/-! ## Rows -/

/-- A pipe, and the cells with a pipe after each. -/
def rowText (cells : List DelimiterCell) : Text := '|' :: cells.flatMap fun c => c.text ++ ['|']

theorem joinWith_pipes (ts : List Text) :
    joinWith ['|'] ([] :: (ts ++ [[]])) = '|' :: ts.flatMap fun t => t ++ ['|'] := by
  rw [joinWith_cons (by simp)]
  induction ts with
  | nil => rfl
  | cons t ts ih => simpa [@joinWith_cons ['|'] (ts ++ [[]]) (by simp)] using ih

theorem mem_rowText {d : Char} (h : d ∈ rowText cells) : isBlank d ∨ d ∈ ['|', ':', '-'] := by
  rcases mem_cons.1 h with rfl | h
  · simp
  · obtain ⟨c, _, h⟩ := mem_flatMap.1 h
    rcases mem_append.1 h with h | h
    · rcases mem_text h with h | rfl | rfl <;> simp [*]
    · simp_all

theorem cells?_eq_some {row : Text} {cs : List Text} :
    cells? row = some cs ↔ cs ≠ [] ∧ splitOn '|' row = [] :: (cs ++ [[]]) := by
  constructor
  · intro h
    unfold cells? at h
    split at h
    · next rest hrest =>
      split at h
      · next inner hinner =>
        split at h
        · simp at h
        · next hne =>
          obtain rfl : inner.reverse = cs := by simpa using h
          rw [hrest, ← reverse_reverse rest, hinner]
          simpa using hne
      · simp at h
    · simp at h
  · rintro ⟨hne, h⟩
    simp [cells?, h, hne]

theorem cells?_rowText (hne : cells ≠ []) :
    cells? (rowText cells) = some (cells.map DelimiterCell.text) := by
  have hrow : rowText cells
      = joinWith ['|'] ([] :: (cells.map DelimiterCell.text ++ [[]])) := by
    rw [joinWith_pipes, flatMap_map]
    rfl
  refine cells?_eq_some.2 ⟨by simpa using hne, ?_⟩
  rw [hrow]
  refine splitOn_joinWith (by simp) fun t ht hpipe => ?_
  have hmem : t = [] ∨ ∃ c : DelimiterCell, t = c.text := by
    simp only [mem_cons, mem_append, mem_map] at ht
    rcases ht with h | ⟨c, _, h⟩ | h
    · exact .inl h
    · exact .inr ⟨c, h.symm⟩
    · exact .inl (by simpa using h)
  rcases hmem with rfl | ⟨c, rfl⟩
  · simp at hpipe
  · rcases mem_text hpipe with h | h <;> revert h <;> decide

/-- **Separator lines** are the rows of one or more cells, with any blanks around them. -/
theorem isSeparator_iff {line : Text} :
    isSeparator line ↔ ∃ cells, cells ≠ [] ∧ strip line = rowText cells := by
  constructor
  · intro h
    unfold isSeparator at h
    split at h
    · next cs hcs =>
      obtain ⟨hne, hsplit⟩ := cells?_eq_some.1 hcs
      obtain ⟨cells, rfl⟩ : ∃ cells : List DelimiterCell, cs = cells.map DelimiterCell.text := by
        clear hcs hne hsplit
        induction cs with
        | nil => exact ⟨[], rfl⟩
        | cons t ts ih =>
          simp only [all_cons, Bool.and_eq_true] at h
          obtain ⟨c, rfl⟩ := exists_cell_of_isDelimiterCell h.1
          obtain ⟨cells, rfl⟩ := ih h.2
          exact ⟨c :: cells, rfl⟩
      refine ⟨cells, by simpa using hne, ?_⟩
      rw [← joinWith_splitOn '|' (strip line), hsplit, joinWith_pipes, flatMap_map]
      rfl
    · simp at h
  · rintro ⟨cells, hne, h⟩
    rw [isSeparator, h, cells?_rowText hne]
    exact all_isDelimiterCell cells

/-! ## Rows in normal form -/

/-- The cell of three dashes with a space on either side. -/
def Alignment.toCell (a : Alignment) : DelimiterCell where
  before := [' ']
  left := a == .left || a == .center
  dashes := 3
  right := a == .right || a == .center
  after := [' ']
  blank_before := by simp [isBlank_space]
  dashes_pos := by decide
  blank_after := by simp [isBlank_space]

theorem Alignment.inner_toCell (a : Alignment) : a.toCell.inner = a.cell := by cases a <;> rfl

theorem Alignment.ofCell_inner_toCell (a : Alignment) : ofCell a.toCell.inner = a := by
  cases a <;> rfl

theorem colons_toCell (c : DelimiterCell) : (Alignment.ofCell c.inner).toCell.colons = c.colons := by
  simp only [colons, Alignment.ofCell, startsWith_inner, endsWith_inner]
  cases c.left <;> cases c.right <;> rfl

theorem delimiterRow_eq {columns : List Alignment} (hne : columns ≠ []) :
    delimiterRow columns = rowText (columns.map Alignment.toCell) := by
  have htext : ∀ a : Alignment, a.toCell.text = ' ' :: (a.cell ++ [' ']) := fun a => by
    rw [DelimiterCell.text, a.inner_toCell]
    rfl
  induction columns with
  | nil => exact absurd rfl hne
  | cons a columns ih =>
    by_cases hcolumns : columns = []
    · simp [hcolumns, delimiterRow, rowText, joinWith, htext]
    · have ih := ih hcolumns
      simp only [delimiterRow, rowText, map_cons, flatMap_cons, htext] at ih ⊢
      rw [joinWith_cons (by simpa using hcolumns)]
      simp_all

theorem normaliseSeparator_eq {line : Text} (hne : cells ≠ []) (h : strip line = rowText cells) :
    normaliseSeparator line = delimiterRow (cells.map fun c => Alignment.ofCell c.inner) := by
  rw [normaliseSeparator, h, cells?_rowText hne]
  simp [all_isDelimiterCell cells, strip_text, Function.comp_def]

theorem strip_rowText (hne : cells ≠ []) : strip (rowText cells) = rowText cells := by
  refine strip_of_solid ⟨⟨'|', _, rfl, by decide⟩, ?_⟩
  obtain ⟨front, c, rfl⟩ := (eq_nil_or_concat' cells).resolve_left hne
  exact ⟨'|' :: (front.flatMap fun c => c.text ++ ['|']) ++ c.text, '|', by simp [rowText], by decide⟩

/-- **Separator rows keep their columns.** Normalising a line again changes nothing, and a line that
is no separator stays. A separator line is the row of some cells; it becomes the row of as many, and
each has a colon in front, and one at the end, exactly if the old one has. This is the row that a
table with these delimiters is written with. -/
theorem separator_rows_normalised (line : Text) :
    normaliseSeparator (normaliseSeparator line) = normaliseSeparator line ∧
      (isSeparator line = false → normaliseSeparator line = line) ∧
      (isSeparator line = true ↔ ∃ cells, cells ≠ [] ∧ strip line = rowText cells) ∧
      ∀ cells, cells ≠ [] → strip line = rowText cells →
        isSeparator (normaliseSeparator line) = true ∧
          (∃ cells', normaliseSeparator line = rowText cells' ∧
            cells'.map DelimiterCell.colons = cells.map DelimiterCell.colons) ∧
          normaliseSeparator line ++ ['\n']
            = Document.tableDelimiters (cells.map DelimiterCell.inner) := by
  have hrow : ∀ {cells : List DelimiterCell}, cells ≠ [] → strip line = rowText cells →
      normaliseSeparator line
        = rowText (cells.map fun c => (Alignment.ofCell c.inner).toCell) := by
    intro cells hne h
    rw [normaliseSeparator_eq hne h, delimiterRow_eq (by simpa using hne), map_map]
    rfl
  refine ⟨?_, normaliseSeparator_of_not, isSeparator_iff, fun cells hne h => ⟨?_, ?_, ?_⟩⟩
  · by_cases hline : isSeparator line
    · obtain ⟨cells, hne, h⟩ := isSeparator_iff.1 hline
      -- the written row is a row of cells again, with the alignments that were read off the first
      rw [hrow hne h, normaliseSeparator_eq (by simpa using hne) (strip_rowText (by simpa using hne)),
        ← hrow hne h, normaliseSeparator_eq hne h, map_map]
      simp [Function.comp_def, Alignment.ofCell_inner_toCell]
    · have hstays := normaliseSeparator_of_not (Bool.eq_false_iff.2 hline)
      rw [hstays, hstays]
  · rw [hrow hne h]
    exact isSeparator_iff.2 ⟨_, by simpa using hne, strip_rowText (by simpa using hne)⟩
  · refine ⟨_, hrow hne h, ?_⟩
    rw [map_map]
    exact map_congr_left fun c _ => colons_toCell c
  · rw [normaliseSeparator_eq hne h, Document.tableDelimiters, map_map]
    rfl

end Reflow.Block
