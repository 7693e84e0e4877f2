import Mathlib.Data.List.Chain
import Reflow.Document.Format
import Reflow.Proofs.FencedCode

/-!
Tag spacing and fenced code.

An empty line is put wherever a tag line meets block content. This pass looks at two adjacent lines
at a time and knows nothing of blocks. A fence is neither a tag nor block content
(`neutral_of_startsFence`), and a neutral line cuts the pass in two (`spaceLines_append_neutral`).
So the fenced blocks of a spaced text are those of the text, with their code spaced.
-/

open List

namespace Reflow.Tag

open Text Document

/-! ## Spacing lines -/

/-- No tag line is next to block content. -/
def Spaced (ls : List Text) : Prop := ls.IsChain fun l m => needsSpace l m = false

instance (ls : List Text) : Decidable (Spaced ls) :=
  inferInstanceAs (Decidable (ls.IsChain fun l m => needsSpace l m = false))

/-- A line that is neither a tag nor block content. -/
def Neutral (line : Text) : Prop := isTagOnly line = false ∧ Block.isContent line = false

variable {l p line fence : Text} {ls : List Text}

theorem Neutral.needsSpace_left (h : Neutral l) (m : Text) : needsSpace l m = false := by
  simp [needsSpace, h.1, h.2]

theorem Neutral.needsSpace_right {m : Text} (h : Neutral m) (l : Text) :
    needsSpace l m = false := by
  simp [needsSpace, h.1, h.2]

theorem neutral_nil : Neutral [] := ⟨rfl, rfl⟩

theorem Neutral.spaceAfter_eq (h : Neutral p) (ls : List Text) :
    spaceAfter p ls = spaceLines ls := by
  cases ls with
  | nil => rfl
  | cons l ls => rw [spaceAfter, h.needsSpace_left l, spaceLines, if_neg Bool.false_ne_true]

theorem mem_spaceAfter (h : l ∈ spaceAfter p ls) : l = [] ∨ l ∈ ls := by
  induction ls generalizing p with
  | nil => exact .inr h
  | cons m ls ih =>
    rw [spaceAfter] at h
    split at h
    · rcases mem_cons.1 h with rfl | h
      · exact .inl rfl
      · rcases mem_cons.1 h with rfl | h
        · exact .inr mem_cons_self
        · exact (ih h).imp_right (mem_cons_of_mem _)
    · rcases mem_cons.1 h with rfl | h
      · exact .inr mem_cons_self
      · exact (ih h).imp_right (mem_cons_of_mem _)

theorem mem_spaceLines (h : l ∈ spaceLines ls) : l = [] ∨ l ∈ ls := by
  rw [← neutral_nil.spaceAfter_eq] at h
  exact mem_spaceAfter h

theorem spaced_cons_spaceAfter (p : Text) (ls : List Text) : Spaced (p :: spaceAfter p ls) := by
  induction ls generalizing p with
  | nil => exact isChain_singleton p
  | cons l ls ih =>
    rw [spaceAfter]
    split
    · refine isChain_cons_cons.2 ⟨neutral_nil.needsSpace_right p, ?_⟩
      exact isChain_cons_cons.2 ⟨neutral_nil.needsSpace_left l, ih l⟩
    · rename_i hneeds
      exact isChain_cons_cons.2 ⟨by simpa using hneeds, ih l⟩

theorem spaced_spaceLines (ls : List Text) : Spaced (spaceLines ls) := by
  cases ls with
  | nil => exact isChain_nil
  | cons l ls => exact spaced_cons_spaceAfter l ls

theorem spaceAfter_eq_self (h : Spaced (p :: ls)) : spaceAfter p ls = ls := by
  induction ls generalizing p with
  | nil => rfl
  | cons l ls ih =>
    obtain ⟨hneeds, hrest⟩ := isChain_cons_cons.1 h
    rw [spaceAfter, hneeds, if_neg Bool.false_ne_true, ih hrest]

theorem spaceLines_eq_self_iff (ls : List Text) : spaceLines ls = ls ↔ Spaced ls := by
  constructor
  · intro h
    rw [← h]
    exact spaced_spaceLines ls
  · intro h
    cases ls with
    | nil => rfl
    | cons l ls => rw [spaceLines, spaceAfter_eq_self h]

theorem spaceLines_append_neutral (h : Neutral l) (ls ms : List Text) :
    spaceLines (ls ++ l :: ms) = spaceLines ls ++ l :: spaceLines ms := by
  -- The pass carries the line before the one it looks at, so the induction is on `ls` for every
  -- such line.
  have key : ∀ p, spaceAfter p (ls ++ l :: ms) = spaceAfter p ls ++ l :: spaceLines ms := by
    induction ls with
    | nil =>
      intro p
      show spaceAfter p (l :: ms) = l :: spaceLines ms
      rw [spaceAfter, h.needsSpace_right p, if_neg Bool.false_ne_true, h.spaceAfter_eq]
    | cons m ls ih =>
      intro p
      rw [cons_append, spaceAfter, spaceAfter, ih m]
      split <;> rfl
  rw [← neutral_nil.spaceAfter_eq, key, neutral_nil.spaceAfter_eq]

theorem lines_spaceBlocks (t : Text) : lines (spaceBlocks t) = spaceLines (lines t) := by
  apply lines_unlines
  · cases h : lines t with
    | nil => exact absurd h (splitOn_ne_nil _ t)
    | cons l ls => exact cons_ne_nil _ _
  · intro l hl
    rcases mem_spaceLines hl with rfl | hl
    · exact not_mem_nil
    · exact newline_not_mem_lines hl

/-! ## Fences -/

/-- The line starts with a backtick or tilde after at most three spaces. -/
def startsFence (line : Text) : Bool :=
  match dropSpaces 3 line with
  | [] => false
  | c :: _ => c == '~' || c == '`'

theorem stripLeft_dropSpaces (n : Nat) (line : Text) :
    stripLeft (dropSpaces n line) = stripLeft line := by
  fun_induction dropSpaces n line with
  | case1 n cs ih =>
    rw [ih]
    rfl
  | case2 n t _ => rfl

theorem exists_stripLeft_of_startsFence (h : startsFence line) :
    ∃ c cs, (c = '~' ∨ c = '`') ∧ stripLeft line = c :: cs := by
  unfold startsFence at h
  split at h
  · exact absurd h Bool.false_ne_true
  · rename_i c cs hdrop
    have hc : c = '~' ∨ c = '`' := by simpa using h
    refine ⟨c, cs, hc, ?_⟩
    rw [← stripLeft_dropSpaces 3, hdrop]
    rcases hc with rfl | rfl <;> rfl

theorem neutral_of_startsFence (h : startsFence line) : Neutral line := by
  obtain ⟨c, cs, hc, hstrip⟩ := exists_stripLeft_of_startsFence h
  have hopens : opens (strip line) = false := by
    have hfirst : ∃ ds, strip line = c :: ds := by
      rw [strip, hstrip, stripRight, dropEndWhile]
      split
      · refine ⟨[], if_neg ?_⟩
        rcases hc with rfl | rfl <;> decide
      · exact ⟨_, rfl⟩
    obtain ⟨ds, hds⟩ := hfirst
    rw [hds]
    rcases hc with rfl | rfl <;> rfl
  refine ⟨by rw [isTagOnly, hopens, Bool.and_false, Bool.false_and], ?_⟩
  rw [Block.isContent, Block.isTableRow, Block.isListItem, hstrip]
  rcases hc with rfl | rfl <;> rfl

/-- The fence that a line opens: three or more backticks or tildes after at most three spaces. What
stands on the line after backticks holds no backtick. -/
def openingFence? (line : Text) : Option Text :=
  match dropSpaces 3 line with
  | [] => none
  | c :: cs =>
    let run := (c :: cs).takeWhile (· == c)
    let info := (c :: cs).dropWhile (· == c)
    if (c == '~' || c == '`') && decide (minFence ≤ run.length) &&
        !(c == '`' && info.contains '`') then
      some run
    else none

theorem startsFence_of_opening (h : openingFence? line = some fence) : startsFence line := by
  unfold openingFence? at h
  unfold startsFence
  split at h
  · exact absurd h (by simp)
  · dsimp only at h
    split at h
    · rename_i hif
      simp only [Bool.and_eq_true] at hif
      exact hif.1.1
    · exact absurd h (by simp)

theorem startsFence_of_closesFence (h : closesFence fence line) : startsFence line := by
  unfold closesFence fenceOfLine? at h
  unfold startsFence
  split at h
  · exact absurd h (by simp)
  · rename_i c cs hdrop
    split at h
    · rename_i hif
      simpa only [hdrop] using hif
    · exact absurd h (by simp)

/-! ## Fenced blocks -/

/-- The lines of a fenced block: one that opens a fence, lines that do not close it, and one that
does. -/
structure FencedLines where
  opening : Text
  body : List Text
  closing : Text
  /-- The run of backticks or tildes of the opening line. -/
  fence : Text
  opens : openingFence? opening = some fence
  stays : ∀ l ∈ body, closesFence fence l = false
  closes : closesFence fence closing = true

namespace FencedLines

def toLines (b : FencedLines) : List Text := b.opening :: (b.body ++ [b.closing])

theorem neutral_opening (b : FencedLines) : Neutral b.opening :=
  neutral_of_startsFence (startsFence_of_opening b.opens)

theorem neutral_closing (b : FencedLines) : Neutral b.closing :=
  neutral_of_startsFence (startsFence_of_closesFence b.closes)

theorem closesFence_spaceLines {fence : Text} {ls : List Text}
    (h : ∀ l ∈ ls, closesFence fence l = false) : ∀ l ∈ spaceLines ls, closesFence fence l = false := by
  intro l hl
  rcases mem_spaceLines hl with rfl | hl
  · rfl
  · exact h l hl

/-- The block with its code spaced. -/
def spaced (b : FencedLines) : FencedLines :=
  { b with body := spaceLines b.body, stays := closesFence_spaceLines b.stays }

theorem spaced_eq_self_iff (b : FencedLines) : b.spaced = b ↔ Spaced b.body := by
  rw [← spaceLines_eq_self_iff]
  obtain ⟨opening, body, closing, fence, hopens, hstays, hcloses⟩ := b
  simp [spaced]

/-- No line is put next to a fence, so spacing goes on as if each part stood alone. -/
theorem spaceLines_block (before after : List Text) (b : FencedLines) :
    spaceLines (before ++ (b.toLines ++ after))
      = spaceLines before ++ (b.spaced.toLines ++ spaceLines after) := by
  have hafter : b.toLines ++ after = b.opening :: (b.body ++ b.closing :: after) := by
    simp [toLines]
  rw [hafter, spaceLines_append_neutral b.neutral_opening,
    spaceLines_append_neutral b.neutral_closing]
  simp [toLines, spaced]

end FencedLines

theorem not_closesFence_of_mem_takeWhile (h : l ∈ ls.takeWhile fun l => !closesFence fence l) :
    closesFence fence l = false := by
  simpa using mem_takeWhile_imp h

theorem closesFence_of_dropWhile {closing : Text} {after : List Text}
    (h : (ls.dropWhile fun l => !closesFence fence l) = closing :: after) :
    closesFence fence closing := by
  have hhead := head?_dropWhile_not (fun l => !closesFence fence l) ls
  rw [h] at hhead
  simpa using hhead

/-- The fenced blocks among lines, from the first line on. A fence that is never closed ends the
search. -/
def fencedBlocks : List Text → List FencedLines
  | [] => []
  | line :: rest =>
    match hopens : openingFence? line with
    | none => fencedBlocks rest
    | some fence =>
      match hrest : rest.dropWhile fun l => !closesFence fence l with
      | [] => []
      | closing :: after =>
        ⟨line, rest.takeWhile fun l => !closesFence fence l, closing, fence, hopens,
          fun _ => not_closesFence_of_mem_takeWhile, closesFence_of_dropWhile hrest⟩ ::
            fencedBlocks after
termination_by ls => ls.length
decreasing_by
  · simp
  · have h := (dropWhile_suffix (l := rest) fun l => !closesFence fence l).length_le
    rw [hrest] at h
    simp only [length_cons] at h ⊢
    omega

theorem fencedBlocks_cons (h : openingFence? line = none) (rest : List Text) :
    fencedBlocks (line :: rest) = fencedBlocks rest := by
  rw [fencedBlocks]
  split
  · rfl
  · simp_all

theorem fencedBlocks_unclosed (h : openingFence? line = some fence) {rest : List Text}
    (hrest : ∀ l ∈ rest, closesFence fence l = false) : fencedBlocks (line :: rest) = [] := by
  rw [fencedBlocks]
  split
  · rename_i hnone
    exact absurd (hnone.symm.trans h) (by simp)
  · rename_i fence' h'
    obtain rfl : fence = fence' := Option.some.inj (h.symm.trans h')
    split
    · rfl
    · rename_i closing after hdrop
      have hnil : rest.dropWhile (fun l => !closesFence fence l) = [] := by
        apply dropWhile_eq_nil_iff.2
        intro l hl
        rw [hrest l hl]
        rfl
      exact absurd (hdrop.symm.trans hnil) (cons_ne_nil _ _)

theorem fencedBlocks_toLines_append (b : FencedLines) (after : List Text) :
    fencedBlocks (b.toLines ++ after) = b :: fencedBlocks after := by
  obtain ⟨opening, body, closing, fence, hopens, hstays, hcloses⟩ := b
  have hbody : ∀ l ∈ body, (!closesFence fence l) := by
    intro l hl
    rw [hstays l hl]
    rfl
  have htake : (body ++ [closing] ++ after).takeWhile (fun l => !closesFence fence l) = body := by
    rw [append_assoc, takeWhile_append_of_pos hbody]
    simp [hcloses]
  have hdrop : (body ++ [closing] ++ after).dropWhile (fun l => !closesFence fence l)
      = closing :: after := by
    rw [append_assoc, dropWhile_append_of_pos hbody]
    simp [hcloses]
  show fencedBlocks (opening :: (body ++ [closing] ++ after)) = _
  rw [fencedBlocks]
  split
  · rename_i hnone
    exact absurd (hnone.symm.trans hopens) (by simp)
  · rename_i fence' h'
    obtain rfl : fence = fence' := Option.some.inj (hopens.symm.trans h')
    split
    · rename_i hnil
      exact absurd (hnil.symm.trans hdrop) (by simp)
    · rename_i closing' after' hdrop'
      obtain ⟨rfl, rfl⟩ := cons.inj (hdrop.symm.trans hdrop')
      simp only [htake]

theorem opening_cases (line : Text) (rest : List Text) :
    openingFence? line = none ∨
      (∃ fence, openingFence? line = some fence ∧ ∀ l ∈ rest, closesFence fence l = false) ∨
      ∃ (b : FencedLines) (after : List Text), line :: rest = b.toLines ++ after := by
  cases hopens : openingFence? line with
  | none => exact .inl rfl
  | some fence =>
    cases hrest : rest.dropWhile fun l => !closesFence fence l with
    | nil =>
      refine .inr (.inl ⟨fence, rfl, fun l hl => ?_⟩)
      simpa using dropWhile_eq_nil_iff.1 hrest l hl
    | cons closing after =>
      refine .inr (.inr ⟨⟨line, rest.takeWhile fun l => !closesFence fence l, closing, fence, hopens,
        fun _ => not_closesFence_of_mem_takeWhile, closesFence_of_dropWhile hrest⟩, after, ?_⟩)
      have hsplit := takeWhile_append_dropWhile (p := fun l => !closesFence fence l) (l := rest)
      rw [hrest] at hsplit
      simp [FencedLines.toLines, hsplit]

/-- **The fenced blocks of spaced lines** are those of the lines, each with its code spaced. -/
theorem fencedBlocks_spaceLines (ls : List Text) :
    fencedBlocks (spaceLines ls) = (fencedBlocks ls).map FencedLines.spaced := by
  -- The search jumps from an opening line past the closing one, so the induction is on the number
  -- of lines, and for whatever line stands before them.
  suffices key : ∀ p, fencedBlocks (spaceAfter p ls) = (fencedBlocks ls).map FencedLines.spaced by
    rw [← neutral_nil.spaceAfter_eq]
    exact key []
  induction hn : ls.length using Nat.strong_induction_on generalizing ls with
  | _ n ih =>
    intro p
    cases ls with
    | nil => simp [spaceAfter, fencedBlocks]
    | cons line rest =>
      have hskip : fencedBlocks (spaceAfter p (line :: rest))
          = fencedBlocks (line :: spaceAfter line rest) := by
        rw [spaceAfter]
        split
        · exact fencedBlocks_cons rfl _
        · rfl
      rw [hskip]
      rcases opening_cases line rest with hnone | ⟨fence, hopens, hrest⟩ | ⟨b, after, hb⟩
      · rw [fencedBlocks_cons hnone, fencedBlocks_cons hnone]
        exact ih rest.length (by simp [← hn]) rest rfl line
      · have hspaced : ∀ l ∈ spaceAfter line rest, closesFence fence l = false := by
          intro l hl
          rcases mem_spaceAfter hl with rfl | hl
          · rfl
          · exact hrest l hl
        rw [fencedBlocks_unclosed hopens hrest, fencedBlocks_unclosed hopens hspaced, map_nil]
      · have hcut : line :: spaceAfter line rest = b.spaced.toLines ++ spaceLines after := by
          have h := FencedLines.spaceLines_block [] after b
          rw [← hb] at h
          exact h
        have hlength : after.length < n := by
          rw [← hn, hb]
          simp only [FencedLines.toLines, length_append, length_cons]
          omega
        have hafter := ih after.length hlength after rfl []
        rw [neutral_nil.spaceAfter_eq] at hafter
        rw [hcut, hb, fencedBlocks_toLines_append, fencedBlocks_toLines_append, hafter, map_cons]

theorem map_spaced_eq_self_iff (bs : List FencedLines) :
    bs.map FencedLines.spaced = bs ↔ ∀ b ∈ bs, Spaced b.body := by
  have hid := map_inj_left (l := bs) (f := FencedLines.spaced) (g := id)
  rw [map_id] at hid
  rw [hid]
  exact forall₂_congr fun b _ => b.spaced_eq_self_iff

/-- A block of the lines stands unchanged among the spaced lines exactly if its code is spaced. -/
theorem toLines_isInfix_spaceLines_iff {b : FencedLines} (h : b.toLines <:+: ls) :
    b.toLines <:+: spaceLines ls ↔ Spaced b.body := by
  constructor
  · intro hout
    have hbody : b.body <:+: b.toLines := ⟨[b.opening], [b.closing], by simp [FencedLines.toLines]⟩
    exact IsChain.infix (spaced_spaceLines ls) (hbody.trans hout)
  · intro hspaced
    obtain ⟨before, after, rfl⟩ := h
    rw [append_assoc, FencedLines.spaceLines_block, b.spaced_eq_self_iff.2 hspaced]
    exact infix_append' ..

/-- The text of a document without front matter and without blanks around it, before it is
spaced. -/
def trimmed (s : Document.Style) (t : Text) : Text :=
  strip (if s.dedent then dedent (Document.Style.body t) else Document.Style.body t) ++ ['\n']

/-- **Tag spacing and fenced code.** The fenced blocks of a spaced text are those of the text, one
for one and in order, with the code of each spaced on its own. A block of the text stands unchanged
in the spaced text exactly if no tag line of its code is next to a list item or table row, and the
text that is read as a document has the code of its source exactly if that is so for every block. -/
theorem fenced_code_kept_iff_spaced (t : Text) :
    fencedBlocks (lines (spaceBlocks t)) = (fencedBlocks (lines t)).map FencedLines.spaced ∧
      (∀ b : FencedLines, b.toLines <:+: lines t →
        (b.toLines <:+: lines (spaceBlocks t) ↔ Spaced b.body)) ∧
      ∀ s : Document.Style,
        fencedBlocks (lines (s.source t)) = fencedBlocks (lines (trimmed s t)) ↔
          ∀ b ∈ fencedBlocks (lines (trimmed s t)), Spaced b.body := by
  refine ⟨?_, fun b hb => ?_, fun s => ?_⟩
  · rw [lines_spaceBlocks, fencedBlocks_spaceLines]
  · rw [lines_spaceBlocks]
    exact toLines_isInfix_spaceLines_iff hb
  · have hsource : s.source t = spaceBlocks (trimmed s t) := rfl
    rw [hsource, lines_spaceBlocks, fencedBlocks_spaceLines]
    exact map_spaced_eq_self_iff _

/-- A block of backticks with the given code lines, none of which closes it. -/
def backtickBlock (body : List Text)
    (h : ∀ l ∈ body, closesFence ['`', '`', '`'] l = false) : FencedLines :=
  ⟨['`', '`', '`'], body, ['`', '`', '`'], ['`', '`', '`'], rfl, h, rfl⟩

/-- A tag after a list item, with a line of code between them, is kept in its block. -/
theorem tag_away_from_item_kept :
    (backtickBlock ["- b".toList, "x".toList, "\x7b% a %\x7d".toList] (by decide)).toLines
      <:+: lines (spaceBlocks "```\n- b\nx\n\x7b% a %\x7d\n```\n".toList) :=
  ((fenced_code_kept_iff_spaced _).2.1 _ ⟨[], [[]], by decide⟩).2 (by decide)

/-- A block of code that is a tag and a list item has an empty line put into it. -/
theorem tag_next_to_item_in_code_split :
    (backtickBlock ["\x7b% a %\x7d".toList, "- b".toList] (by decide)).toLines
        <:+: lines "```\n\x7b% a %\x7d\n- b\n```\n".toList ∧
      spaceBlocks "```\n\x7b% a %\x7d\n- b\n```\n".toList = "```\n\x7b% a %\x7d\n\n- b\n```\n".toList ∧
      ¬ (backtickBlock ["\x7b% a %\x7d".toList, "- b".toList] (by decide)).toLines
        <:+: lines (spaceBlocks "```\n\x7b% a %\x7d\n- b\n```\n".toList) := by
  decide +kernel

end Reflow.Tag
