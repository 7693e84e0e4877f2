import Reflow.Proofs.ListOutlines

/-!
What keeps its place in a quote.

Inside a quote every line starts with `>`, as long as each block puts the line starts that it finds
in front of all of its lines. A table puts them in front of none, a heading leaves the line after it
empty, and a paragraph is left to its wrapper. `holds` decides block by block whether the quote
holds its margin; `last` says that only line feeds follow in the quote, which are taken off.
-/

open List hiding splitOn splitOn_ne_nil find?

namespace Reflow.Document

open Text Wrap

variable {t : Text}

/-! ## Lines behind the margin -/

/-- The line starts with the mark of a quote. -/
def isQuoted (l : Text) : Bool := l.head? == some '>'

def allQuoted (ls : List Text) : Bool := ls.all isQuoted

/-- There is nothing on the lines of the text. -/
def isVacant (t : Text) : Bool := t.all (· == '\n')

/-- Whole lines hold the margin. Where they are the last of a quote, the line feeds at their end do
not count. -/
def Held (last : Bool) (t : Text) : Prop :=
  if last then isVacant t = true ∨ allQuoted (lines (dropEndNewlines t)) = true
  else allQuoted (endedLines t) = true

theorem allQuoted_append (ls ms : List Text) :
    allQuoted (ls ++ ms) = (allQuoted ls && allQuoted ms) := all_append

theorem isVacant_append (s t : Text) : isVacant (s ++ t) = (isVacant s && isVacant t) :=
  all_append

theorem dropEndNewlines_append_of_vacant (a : Text) {b : Text} (hb : isVacant b) :
    dropEndNewlines (a ++ b) = dropEndNewlines a :=
  dropEndWhile_append (all_eq_true.1 hb) a

theorem exists_mem_of_not_vacant (h : isVacant t = false) : ∃ c ∈ t, c ≠ '\n' := by
  simpa [isVacant] using h

/-- **Holding the margin, one text after the other.** What follows decides whether the first text is
the last of the quote. -/
theorem held_append_iff {a b : Text} (ha : Ended a) (last : Bool) :
    Held last (a ++ b) ↔ Held (last && isVacant b) a ∧ Held last b := by
  cases last with
  | false =>
    simp only [Held, Bool.false_and, Bool.false_eq_true, if_false]
    rw [ha.endedLines_append, allQuoted_append, Bool.and_eq_true]
  | true =>
    cases hb : isVacant b with
    | true =>
      simp [Held, isVacant_append, hb, dropEndNewlines_append_of_vacant a hb]
    | false =>
      -- the line feeds at the end are those of the second text
      obtain ⟨c, hmem, hc⟩ := exists_mem_of_not_vacant hb
      obtain ⟨u, d, _, hdrop, happend⟩ := exists_dropEndNewlines hc hmem
      simp only [Held, if_true, isVacant_append, hb, Bool.and_false, Bool.false_eq_true, if_false,
        false_or]
      rw [happend, hdrop, ha.lines_append, allQuoted_append, Bool.and_eq_true]

/-- Whole lines that all start with the mark hold the margin, last or not: the last of them is not
empty, so that there are no more line feeds to take off. -/
theorem held_of_allQuoted (ht : Ended t) (h : allQuoted (endedLines t)) (last : Bool) :
    Held last t := by
  cases last with
  | false => exact h
  | true =>
    rcases eq_nil_or_concat t with rfl | ⟨u, c, rfl⟩
    · exact .inl rfl
    · obtain rfl : c = '\n' := ht c (by simp)
      rw [concat_eq_append] at h ⊢
      rw [endedLines_concat] at h
      have hvacant : isVacant ['\n'] := rfl
      refine .inr ?_
      rw [dropEndNewlines_append_of_vacant u hvacant]
      rcases eq_nil_or_concat u with rfl | ⟨v, d, rfl⟩
      · simp [allQuoted, lines, splitOn, isQuoted] at h
      · -- a second line feed would leave an empty last line
        have hd : d ≠ '\n' := by
          rintro rfl
          rw [concat_eq_append, allQuoted, lines_append_newline] at h
          simp [lines, splitOn, isQuoted] at h
        rw [concat_eq_append] at h ⊢
        rwa [dropEndNewlines, dropEndWhile_concat (by simpa using hd)]

theorem held_lines {ls : List Text} (hne : ls ≠ []) (hsingle : ∀ l ∈ ls, '\n' ∉ l)
    (h : ∀ l ∈ ls, isQuoted l) (last : Bool) : Held last (unlines ls ++ ['\n']) := by
  refine held_of_allQuoted (ended_concat _) ?_ last
  rw [endedLines_unlines hne hsingle]
  exact all_eq_true.2 h

theorem held_line {l : Text} (hsingle : '\n' ∉ l) (h : isQuoted l) (last : Bool) :
    Held last (l ++ ['\n']) :=
  held_lines (cons_ne_nil l []) (by simpa using hsingle) (by simpa using h) last

theorem held_nil (last : Bool) : Held last [] := by
  cases last <;> simp [Held, isVacant, allQuoted]

theorem isQuoted_append {a : Text} (h : isQuoted a) (b : Text) : isQuoted (a ++ b) := by
  cases a with
  | nil => simp [isQuoted] at h
  | cons c a => exact h

theorem dropEndNewlines_of_vacant (h : isVacant t) : dropEndNewlines t = [] :=
  dropEndNewlines_append_of_vacant [] h

theorem held_newline_iff (t : Text) (last : Bool) :
    Held last (t ++ ['\n']) ↔ (if last then isVacant t || allQuoted (lines (dropEndNewlines t))
      else allQuoted (lines t)) := by
  cases last with
  | false => simp only [Held, endedLines_concat, Bool.false_eq_true, if_false]
  | true =>
    have hvacant : isVacant (t ++ ['\n']) = isVacant t := by
      rw [isVacant_append]
      exact Bool.and_true _
    have hdrop : dropEndNewlines (t ++ ['\n']) = dropEndNewlines t :=
      dropEndNewlines_append_of_vacant t rfl
    simp only [Held, hvacant, hdrop, if_true, Bool.or_eq_true]

theorem isVacant_endQuote (h : isVacant t = false) :
    isVacant (dropEndNewlines t ++ ['\n']) = false := by
  obtain ⟨c, hmem, hc⟩ := exists_mem_of_not_vacant h
  simpa [isVacant] using ⟨c, mem_dropEndNewlines hc hmem, hc⟩

theorem held_endQuote_iff (t : Text) (last : Bool) :
    Held last (dropEndNewlines t ++ ['\n']) ↔
      (if isVacant t then last = true else Held true t) := by
  cases hvacant : isVacant t with
  | true =>
    rw [dropEndNewlines_of_vacant hvacant]
    cases last <;> simp [Held, isVacant, allQuoted, isQuoted, endedLines, lines, splitOn]
  | false =>
    obtain ⟨c, hmem, hc⟩ := exists_mem_of_not_vacant hvacant
    obtain ⟨u, d, hd, hdrop, -⟩ := exists_dropEndNewlines hc hmem
    have hshown := isVacant_endQuote hvacant
    have hagain : dropEndNewlines (u ++ [d] ++ ['\n']) = u ++ [d] := by
      rw [dropEndNewlines_append_of_vacant _ rfl, dropEndNewlines,
        dropEndWhile_concat (by simpa using hd)]
    rw [hdrop] at hshown ⊢
    cases last <;> simp only [Held, hvacant, hdrop, hshown, hagain, endedLines_concat, if_true,
      Bool.false_eq_true, if_false, false_or]

/-! ## The state inside a quote -/

/-- What lines start with in a quote. -/
structure Margined (s : WriterState) : Prop where
  lead : isQuoted s.lead = true
  indent : isQuoted s.indent = true
  lead_single : '\n' ∉ s.lead
  indent_single : '\n' ∉ s.indent
  inHeading : s.inHeading = false

namespace Margined

variable {s after : WriterState}

theorem frame (h : Margined s) (hframe : s.Frame after) : Margined after where
  lead := by
    rcases hframe.lead with hl | hl <;> rw [hl]
    · exact h.lead
    · exact h.indent
  indent := by
    rw [hframe.indent]
    exact h.indent
  lead_single := by
    rcases hframe.lead with hl | hl <;> rw [hl]
    · exact h.lead_single
    · exact h.indent_single
  indent_single := by
    rw [hframe.indent]
    exact h.indent_single
  inHeading := hframe.inHeading h.inHeading

theorem enter (h : Margined s) {lead indent : Text} (hlead : '\n' ∉ lead) (hindent : '\n' ∉ indent) :
    Margined (s.enter lead indent) where
  lead := isQuoted_append h.lead lead
  indent := isQuoted_append h.indent indent
  lead_single hmem := (mem_append.1 hmem).elim h.lead_single hlead
  indent_single hmem := (mem_append.1 hmem).elim h.indent_single hindent
  inHeading := h.inHeading

theorem insideList (h : Margined s) (w : Writer) (shape : ListShape) (items : List Node) :
    Margined (insideList w shape items s) := ⟨h.1, h.2, h.3, h.4, h.5⟩

theorem insideQuote (h : Margined s) : Margined (insideQuote s) :=
  enter (s := { s with blankLineDone := false }) ⟨h.1, h.2, h.3, h.4, h.5⟩ (by decide) (by decide)

end Margined

/-! ## Which blocks hold the margin -/

mutual

/-- The block holds the margin of the quote it is written in. -/
def holds (w : Writer) (last : Bool) (n : Node) (s : WriterState) : Bool :=
  match n with
  | .leaf _ | .text _ _ => true
  | .branch h cs =>
    match h.kind with
    | .paragraph checked =>
      let t := w.wrap (withBox checked (paragraphText w s.references cs)) ⟨s.lead, s.indent⟩
      if last then isVacant t || allQuoted (lines (dropEndNewlines t)) else allQuoted (lines t)
    -- the empty line after a heading is outside the quote, unless it is taken off at the end
    | .heading _ | .underlinedHeading _ =>
      let t := headingText w s.references cs
      (last || t.endsWith ['\\']) &&
        allQuoted (lines (if last then dropEndNewlines t else t)).tail
    | .table _ => false
    -- a quote with nothing in it is an empty line
    | .quote | .alert _ =>
      if isVacant (writeAll w cs (insideQuote s)).1 then last
      else holdsAll w true cs (insideQuote s)
    | .list shape => holdsItems w last shape 0 cs (insideList w shape cs s)
    | .listItem => holdsAll w last cs (beginItem s).2
    | _ => true

def holdsAll (w : Writer) (last : Bool) (ns : List Node) (s : WriterState) : Bool :=
  match ns with
  | [] => true
  | n :: rest =>
    holds w (last && isVacant (writeAll w rest (write w n s).2).1) n s &&
      holdsAll w last rest (write w n s).2

/-- The items of a list hold the margin, from a given index on. -/
def holdsItems (w : Writer) (last : Bool) (shape : ListShape) (index : Nat) (ns : List Node)
    (s : WriterState) : Bool :=
  match ns with
  | [] => true
  | n :: rest =>
    let inside := s.enter (itemMarker shape index) (itemIndent shape index)
    let after := (write w n inside).2.leave s
    holds w (last && isVacant (writeItems w shape (index + 1) rest after).1) n inside &&
      holdsItems w last shape (index + 1) rest after

end

/-- What the kind puts on a line of its own has no line feed in it. -/
def Kind.OneLine : Kind → Prop
  | .alert label => '\n' ∉ label
  | .list shape => shape.ordered = true ∨ '\n' ∉ shape.bullet
  | .fencedCode info => '\n' ∉ infoLine info
  | .fencedBlock info fence => '\n' ∉ infoLine info ∧ fence.char ≠ '\n'
  | _ => True

theorem Kind.OneLine.code {k : Kind} (h : k.OneLine) {info : FenceInfo} {fence : Fence}
    (hk : codeFence? k = some (info, fence)) : '\n' ∉ infoLine info ∧ fence.char ≠ '\n' := by
  cases k with
  | indentedCode =>
    obtain ⟨rfl, rfl⟩ : (⟨[], []⟩ : FenceInfo) = info ∧ defaultFence = fence := by
      simpa [codeFence?] using hk
    exact ⟨by decide, by decide⟩
  | fencedCode i =>
    obtain ⟨rfl, rfl⟩ : i = info ∧ defaultFence = fence := by simpa [codeFence?] using hk
    exact ⟨h, by decide⟩
  | fencedBlock i f =>
    obtain ⟨rfl, rfl⟩ : i = info ∧ f = fence := by simpa [codeFence?] using hk
    exact h
  | _ => simp [codeFence?] at hk

theorem isQuoted_stripRight (h : isQuoted t) : isQuoted (stripRight t) := by
  cases t with
  | nil => simp [isQuoted] at h
  | cons c t =>
    obtain rfl : c = '>' := by simpa [isQuoted] using h
    rw [stripRight, dropEndWhile]
    split
    · rfl
    · rfl

theorem isQuoted_codeLine {indent : Text} (h : isQuoted indent) (l : Text) :
    isQuoted (codeLine indent l) := by
  unfold codeLine
  split
  · exact isQuoted_stripRight h
  · exact isQuoted_append h l

/-- Code puts the line starts in front of every line, and what is left of them in front of an empty
one still has the mark. -/
theorem held_writeCode {info : FenceInfo} {fence : Fence} (hinfo : '\n' ∉ infoLine info)
    (hfence : fence.char ≠ '\n') (code : Text) {s : WriterState} (hs : Margined s) (last : Bool) :
    Held last (writeCode info fence code s).1 := by
  have hmark : '\n' ∉ chosenFence fence code := fun h => hfence (mem_replicate.1 h).2.symm
  rw [writeCode_eq]
  refine held_lines (by simp) (fun l hl => ?_) (fun l hl => ?_) last
  · rw [cons_append, mem_cons, mem_append, mem_singleton] at hl
    rcases hl with rfl | hl | rfl
    · simp [hs.lead_single, hmark, hinfo]
    · obtain ⟨m, hm, rfl⟩ := mem_map.1 hl
      refine newline_not_mem_codeLine hs.indent_single fun hmem => ?_
      exact absurd (not_isLineBreak_of_mem_splitLines hm '\n' hmem) (by decide)
    · simp [hs.indent_single, hmark]
  · rw [cons_append, mem_cons, mem_append, mem_singleton] at hl
    rcases hl with rfl | hl | rfl
    · exact isQuoted_append (isQuoted_append hs.lead _) _
    · obtain ⟨m, hm, rfl⟩ := mem_map.1 hl
      exact isQuoted_codeLine hs.indent m
    · exact isQuoted_append hs.indent _

theorem held_beginItem {s : WriterState} (hs : Margined s) (last : Bool) :
    Held last (beginItem s).1 := by
  have hstrip : isQuoted (strip s.indent) := by
    have hleft : stripLeft s.indent = s.indent := by
      have hindent := hs.indent
      cases hcons : s.indent with
      | nil => rfl
      | cons c t =>
        obtain rfl : c = '>' := by simpa [isQuoted, hcons] using hindent
        rfl
    rw [strip, hleft]
    exact isQuoted_stripRight hs.indent
  unfold beginItem
  split_ifs
  · exact held_nil last
  · exact held_nil last
  · exact held_line (fun hmem => hs.indent_single (strip_subset hmem)) hstrip last

theorem exists_lines_append {a : Text} (ha : '\n' ∉ a) (t : Text) :
    ∃ l, lines (a ++ t) = (a ++ l) :: (lines t).tail := by
  induction a with
  | nil =>
    obtain ⟨l, ls, hlines⟩ := exists_cons_of_ne_nil (splitOn_ne_nil '\n' t)
    exact ⟨l, by simp [lines, hlines]⟩
  | cons c a ih =>
    obtain ⟨l, hl⟩ := ih fun hmem => ha (by simp [hmem])
    have hc : c ≠ '\n' := by
      rintro rfl
      simp at ha
    rw [lines] at hl
    exact ⟨l, by simp [lines, splitOn, hc, hl]⟩

theorem dropEndNewlines_append_space (a t : Text) :
    dropEndNewlines (a ++ [' '] ++ t) = a ++ [' '] ++ dropEndNewlines t := by
  cases hvacant : isVacant t with
  | true =>
    rw [dropEndNewlines_append_of_vacant _ hvacant, dropEndNewlines_of_vacant hvacant,
      append_nil, dropEndNewlines, dropEndWhile_concat (by decide)]
  | false =>
    obtain ⟨c, hmem, hc⟩ := exists_mem_of_not_vacant hvacant
    obtain ⟨u, d, _, hdrop, happend⟩ := exists_dropEndNewlines hc hmem
    rw [happend, hdrop]

/-- A heading has the mark in front of its first line, and its later lines are as they stand. The
blank line after it is empty. -/
theorem held_heading_iff {lead t : Text} (hlead : isQuoted lead) (hsingle : '\n' ∉ lead)
    (level : Nat) (last : Bool) :
    Held last (lead ++ repeated level '#' ++ [' '] ++ t ++ ['\n'] ++
        (if t.endsWith ['\\'] then [] else ['\n'])) ↔
      ((last || t.endsWith ['\\']) &&
        allQuoted (lines (if last then dropEndNewlines t else t)).tail) := by
  obtain ⟨front, hfront⟩ : ∃ front, front = lead ++ repeated level '#' := ⟨_, rfl⟩
  have hmarked : isQuoted (front ++ [' ']) := by
    rw [hfront]
    exact isQuoted_append (isQuoted_append hlead _) _
  have hline : '\n' ∉ front ++ [' '] := by
    rw [hfront]
    simp [hsingle, repeated]
  -- the first line has the mark, whatever the text
  have hlines : ∀ u, allQuoted (lines (front ++ [' '] ++ u)) = allQuoted (lines u).tail := by
    intro u
    obtain ⟨l, hl⟩ := exists_lines_append hline u
    rw [hl, allQuoted, all_cons, isQuoted_append hmarked, Bool.true_and, allQuoted]
  have hshown : isVacant (front ++ [' '] ++ t) = false := by
    simp [isVacant]
  have hextra : Held last (if t.endsWith ['\\'] then [] else ['\n']) ↔
      (last || t.endsWith ['\\']) := by
    cases t.endsWith ['\\'] with
    | true => simpa using held_nil last
    | false =>
      cases last <;> simp [Held, isVacant, allQuoted, isQuoted, endedLines, lines, splitOn]
  have hvacant : isVacant (if t.endsWith ['\\'] then [] else ['\n']) := by
    split <;> rfl
  rw [← hfront, held_append_iff (ended_concat _), hvacant, Bool.and_true, hextra, held_newline_iff,
    hshown, dropEndNewlines_append_space, hlines, hlines, Bool.false_or, Bool.and_eq_true, and_comm]
  cases last <;> rfl

theorem Barred.not_held (h : Barred t) (last : Bool) : ¬ Held last t := by
  obtain ⟨u, rfl⟩ := h.stop
  have htext : u ++ ['|', '\n'] = u ++ ['|'] ++ ['\n'] := by simp
  obtain ⟨v, hv⟩ : ∃ v, u ++ ['|'] = ['|'] ++ v := by
    cases u with
    | nil => exact ⟨[], rfl⟩
    | cons c u =>
      obtain rfl : c = '|' := by simpa using h.start
      exact ⟨u ++ ['|'], rfl⟩
  have hlines : allQuoted (lines (u ++ ['|'])) = false := by
    obtain ⟨l, hl⟩ := exists_lines_append (a := ['|']) (by decide) v
    rw [hv, hl]
    rfl
  have hvacant : isVacant (u ++ ['|']) = false := by simp [isVacant]
  have hdrop : dropEndNewlines (u ++ ['|']) = u ++ ['|'] := dropEndWhile_concat (by decide) u
  rw [htext, held_newline_iff, hvacant, hdrop, hlines]
  cases last <;> simp

/-- The block is held if and only if it holds. -/
def HeldIff (w : Writer) (n : Node) : Prop :=
  ∀ s last, Margined s → (Held last (write w n s).1 ↔ holds w last n s = true)

section Blocks

variable {w : Writer} {ns : List Node} {P : Kind → Prop} {s : WriterState}

theorem held_writeAll_iff (hns : ∀ n ∈ ns, IsBlock P n) (h : ∀ n ∈ ns, HeldIff w n)
    (hs : Margined s) (last : Bool) : Held last (writeAll w ns s).1 ↔ holdsAll w last ns s := by
  induction ns generalizing s with
  | nil => simpa [holdsAll] using held_nil last
  | cons n ns ih =>
    rw [writeAll_cons, held_append_iff ((hns n (by simp)).ended w s), holdsAll, Bool.and_eq_true,
      h n (by simp) s _ hs, ih (fun m hm => hns m (by simp [hm])) (fun m hm => h m (by simp [hm]))
      (hs.frame (frame_write w n s))]

theorem held_writeItems_iff (hns : ∀ n ∈ ns, IsBlock P n) (h : ∀ n ∈ ns, HeldIff w n)
    {shape : ListShape} (hshape : shape.ordered ∨ '\n' ∉ shape.bullet) (index : Nat)
    (hs : Margined s) (last : Bool) :
    Held last (writeItems w shape index ns s).1 ↔ holdsItems w last shape index ns s := by
  induction ns generalizing index s with
  | nil => simpa [holdsItems, writeItems_nil] using held_nil last
  | cons n ns ih =>
    have hinside : Margined (s.enter (itemMarker shape index) (itemIndent shape index)) :=
      hs.enter (newline_not_mem_itemMarker hshape index) (newline_not_mem_itemIndent shape index)
    rw [writeItems_cons, held_append_iff ((hns n (by simp)).ended w _), holdsItems, Bool.and_eq_true,
      h n (by simp) _ _ hinside, ih (fun m hm => hns m (by simp [hm]))
      (fun m hm => h m (by simp [hm])) (index + 1) (hs.frame (frame_write w n _).leave)]

theorem held_quote_iff (hns : ∀ n ∈ ns, IsBlock P n) (h : ∀ n ∈ ns, HeldIff w n) (hs : Margined s)
    (last : Bool) (after : WriterState) :
    Held last (endQuote (writeAll w ns (insideQuote s)).1 s after).1 ↔
      (if isVacant (writeAll w ns (insideQuote s)).1 then last
        else holdsAll w true ns (insideQuote s)) := by
  rw [endQuote, held_endQuote_iff]
  split
  · rfl
  · exact held_writeAll_iff hns h hs.insideQuote true

theorem Margined.isBlankText_lead (hs : Margined s) : isBlankText s.lead = false := by
  have hlead := hs.lead
  cases hcons : s.lead with
  | nil => simp [isQuoted, hcons] at hlead
  | cons c t =>
    obtain rfl : c = '>' := by simpa [isQuoted, hcons] using hlead
    rfl

/-- **A block keeps its lines in the quote exactly if it holds.** -/
theorem IsBlock.heldIff {n : Node} (hn : IsBlock Kind.OneLine n) (w : Writer) : HeldIff w n := by
  induction hn with
  | @blankLine h hk =>
    intro s last hs
    refine iff_of_true ?_ (by rw [holds])
    rw [write, hk, writeLeaf, writeBlankLine]
    split
    · exact held_nil last
    · rw [hs.isBlankText_lead]
      exact held_line hs.lead_single hs.lead last
  | @thematicBreak h hk =>
    intro s last hs
    refine iff_of_true ?_ (by rw [holds])
    have htext : (write w (.leaf h) s).1 = s.lead ++ "* * *".toList ++ ['\n'] := by
      rw [write, hk]
      simp [writeLeaf, writeThematicBreak]
    rw [htext]
    exact held_line (by simp [hs.lead_single]) (isQuoted_append hs.lead _) last
  | @paragraph h checked cs hk hcs =>
    intro s last hs
    rw [write_paragraph hk hcs w hs.inHeading, held_newline_iff]
    simp only [holds, hk]
  | @heading h level cs hk hcs =>
    intro s last hs
    rw [write_heading hk hcs, held_heading_iff hs.lead hs.lead_single]
    rcases hk with hk | hk <;> simp only [holds, hk]
  | @code h info fence cs hk hone =>
    intro s last hs
    obtain ⟨hinfo, hfence⟩ := hone.code hk
    have hholds : holds w last (.branch h cs) s := by
      rw [holds]
      cases hkind : h.kind <;> simp_all [codeFence?]
    rw [write_code w hk]
    exact iff_of_true (held_writeCode hinfo hfence _ hs last) hholds
  | @table h delimiters rows hk hrows =>
    intro s last hs
    refine iff_of_false ((write_table hk hrows w s).1.not_held last) ?_
    simp [holds, hk]
  | @list h shape cs hk hone hcs ih =>
    intro s last hs
    have hshape : shape.ordered ∨ '\n' ∉ shape.bullet := by
      rw [hk] at hone
      exact hone
    rw [write_list w cs s hk]
    simp only [holds, hk]
    exact held_writeItems_iff hcs ih hshape 0 (hs.insideList w shape cs) last
  | @item h cs hk hcs ih =>
    intro s last hs
    rw [write_item w cs s hk, held_append_iff (ended_beginItem s),
      held_writeAll_iff hcs ih (hs.frame (frame_beginItem s))]
    simp only [holds, hk]
    exact and_iff_right (held_beginItem hs _)
  | @quote h cs hk hcs ih =>
    intro s last hs
    rw [write_quote w cs s hk, held_quote_iff hcs ih hs]
    simp only [holds, hk]
  | @alert h label cs hk hone hcs ih =>
    intro s last hs
    have hlabel : '\n' ∉ label := by
      rw [hk] at hone
      exact hone
    have hline : ∀ b, Held b (alertLine label) := by
      intro b
      rw [alertLine_eq]
      exact held_line (by simp [hlabel]) rfl b
    rw [write_alert w cs s hk, held_append_iff (by rw [alertLine_eq]; exact ended_concat _),
      held_quote_iff hcs ih hs]
    simp only [holds, hk]
    exact and_iff_right (hline _)

end Blocks

/-! ## Ordinary content -/

/-- The kinds of block that always have a line of their own. -/
def Kind.hasOwnLine : Kind → Bool
  | .paragraph _ | .thematicBreak | .indentedCode | .fencedCode _ | .fencedBlock _ _ | .quote
  | .alert _ => true
  | _ => false

/-- Paragraphs of plain words, rules, blank lines and code, in lists and in quotes that are not
empty, to any depth. -/
inductive Sheltered (w : Writer) (references : Option (List Reference)) : Node → Prop
  | blankLine {h : Head} : h.kind = .blankLine → Sheltered w references (.leaf h)
  | thematicBreak {h : Head} : h.kind = .thematicBreak → Sheltered w references (.leaf h)
  | paragraph {h : Head} {checked : Option Bool} {cs : List Node} :
      h.kind = .paragraph checked → (∀ c ∈ cs, Inline c) →
      PlainWords (withBox checked (paragraphText w references cs)) →
      Sheltered w references (.branch h cs)
  | code {h : Head} {info : FenceInfo} {fence : Fence} {cs : List Node} :
      codeFence? h.kind = some (info, fence) → h.kind.OneLine → Sheltered w references (.branch h cs)
  | list {h : Head} {shape : ListShape} {cs : List Node} :
      h.kind = .list shape → IsMarkdownShape shape → (∀ c ∈ cs, Sheltered w references c) →
      Sheltered w references (.branch h cs)
  | item {h : Head} {cs : List Node} :
      h.kind = .listItem → (∀ c ∈ cs, Sheltered w references c) → Sheltered w references (.branch h cs)
  | quote {h : Head} {cs : List Node} :
      h.kind = .quote → (∃ c ∈ cs, c.kind.hasOwnLine = true) →
      (∀ c ∈ cs, Sheltered w references c) → Sheltered w references (.branch h cs)
  | alert {h : Head} {label : Text} {cs : List Node} :
      h.kind = .alert label → '\n' ∉ label → (∃ c ∈ cs, c.kind.hasOwnLine = true) →
      (∀ c ∈ cs, Sheltered w references c) → Sheltered w references (.branch h cs)

/-- The state in a quote in which no tag opens. -/
structure Quiet (references : Option (List Reference)) (s : WriterState) : Prop extends
    Margined s where
  references_eq : s.references = references
  lead_unopened : Unopened s.lead
  indent_unopened : Unopened s.indent

namespace Quiet

variable {references : Option (List Reference)} {s after : WriterState}

theorem frame (h : Quiet references s) (hframe : s.Frame after) : Quiet references after where
  toMargined := h.toMargined.frame hframe
  references_eq := hframe.references.trans h.references_eq
  lead_unopened := by
    rcases hframe.lead with hl | hl <;> rw [hl]
    · exact h.lead_unopened
    · exact h.indent_unopened
  indent_unopened := by
    rw [hframe.indent]
    exact h.indent_unopened

theorem enter (h : Quiet references s) {shape : ListShape} (hshape : IsMarkdownShape shape)
    (index : Nat) :
    Quiet references (s.enter (itemMarker shape index) (itemIndent shape index)) where
  toMargined := h.toMargined.enter (newline_not_mem_itemMarker hshape.single index)
    (newline_not_mem_itemIndent shape index)
  references_eq := h.references_eq
  lead_unopened := h.lead_unopened.append (unopened_itemMarker hshape index)
  indent_unopened := h.indent_unopened.append
    ⟨fun hmem => absurd (eq_space_of_mem_itemIndent hmem) (by decide),
      fun hmem => absurd (eq_space_of_mem_itemIndent hmem) (by decide)⟩

theorem insideQuote (h : Quiet references s) : Quiet references (insideQuote s) where
  toMargined := h.toMargined.insideQuote
  references_eq := h.references_eq
  lead_unopened := h.lead_unopened.append (by decide)
  indent_unopened := h.indent_unopened.append (by decide)

end Quiet

theorem isVacant_of_isQuoted (h : isQuoted t) : isVacant t = false := by
  cases t with
  | nil => simp [isQuoted] at h
  | cons c t =>
    obtain rfl : c = '>' := by simpa [isQuoted] using h
    rfl

theorem isVacant_unlines {ls : List Text} {l : Text} (hl : l ∈ ls) (h : isQuoted l) (t : Text) :
    isVacant (unlines ls ++ t) = false := by
  have hmem : '>' ∈ l := mem_of_mem_head? (by simpa [isQuoted] using h)
  have hshown : isVacant (unlines ls) = false := by
    simpa [isVacant] using ⟨'>', (isInfix_unlines hl).subset hmem, by decide⟩
  rw [isVacant_append, hshown, Bool.false_and]

theorem isQuoted_apply (indents : Indents) (hfirst : isQuoted indents.first)
    (hlater : isQuoted indents.later) (ls : List Text) : ∀ l ∈ indents.apply ls, isQuoted l := by
  intro l hl
  obtain ⟨m, -, rfl | rfl⟩ := Indents.exists_of_mem_apply hl
  · exact isQuoted_append hfirst m
  · exact isQuoted_append hlater m

/-- The block holds the margin wherever it stands, and it is not vacant where it has a line of its
own. -/
def Settled (w : Writer) (references : Option (List Reference)) (n : Node) : Prop :=
  ∀ s, Quiet references s → (∀ last, holds w last n s = true) ∧
    (n.kind.hasOwnLine = true → isVacant (write w n s).1 = false)

section Sheltered

variable {w : Writer} {references : Option (List Reference)} {ns : List Node} {s : WriterState}

theorem holdsAll_of_settled (h : ∀ n ∈ ns, Settled w references n) (hs : Quiet references s)
    (last : Bool) : holdsAll w last ns s := by
  induction ns generalizing s with
  | nil => rw [holdsAll]
  | cons n ns ih =>
    rw [holdsAll, (h n (by simp) s hs).1]
    exact ih (fun m hm => h m (by simp [hm])) (hs.frame (frame_write w n s))

theorem holdsItems_of_settled (h : ∀ n ∈ ns, Settled w references n) {shape : ListShape}
    (hshape : IsMarkdownShape shape) (index : Nat) (hs : Quiet references s) (last : Bool) :
    holdsItems w last shape index ns s := by
  induction ns generalizing index s with
  | nil => rw [holdsItems]
  | cons n ns ih =>
    rw [holdsItems, (h n (by simp) _ (hs.enter hshape index)).1]
    exact ih (fun m hm => h m (by simp [hm])) (index + 1) (hs.frame (frame_write w n _).leave)

theorem isVacant_writeAll (h : ∀ n ∈ ns, Settled w references n)
    (hown : ∃ n ∈ ns, n.kind.hasOwnLine) (hs : Quiet references s) :
    isVacant (writeAll w ns s).1 = false := by
  induction ns generalizing s with
  | nil => simp at hown
  | cons n ns ih =>
    rw [writeAll_cons, isVacant_append, Bool.and_eq_false_iff]
    by_cases hn : n.kind.hasOwnLine
    · exact .inl ((h n (by simp) s hs).2 hn)
    · have hrest : ∃ m ∈ ns, m.kind.hasOwnLine := by simpa [hn] using hown
      exact .inr (ih (fun m hm => h m (by simp [hm])) hrest (hs.frame (frame_write w n s)))

/-- **Ordinary content holds the margin**, in every state inside a quote. -/
theorem Sheltered.settled (hwrap : IsMarkdownWrapper w.wrap) {n : Node}
    (hn : Sheltered w references n) : Settled w references n := by
  induction hn with
  | @blankLine h hk =>
    intro s hs
    refine ⟨fun last => by rw [holds], fun hown => ?_⟩
    simp [Node.kind, Node.head, hk, Kind.hasOwnLine] at hown
  | @thematicBreak h hk =>
    intro s hs
    refine ⟨fun last => by rw [holds], fun _ => ?_⟩
    rw [write, hk]
    exact isVacant_of_isQuoted (isQuoted_append hs.lead _)
  | @paragraph h checked cs hk hcs hplain =>
    intro s hs
    obtain ⟨ls, hls, hwrapped⟩ :=
      hplain.exists_lines hwrap ⟨s.lead, s.indent⟩ hs.lead_unopened hs.indent_unopened
    -- the wrapper gives lines of its own behind the two starts of line, and both are quoted
    have hquoted := isQuoted_apply ⟨s.lead, s.indent⟩ hs.lead hs.indent ls
    have htext : (write w (.branch h cs) s).1
        = unlines (Indents.apply ⟨s.lead, s.indent⟩ ls) ++ ['\n'] := by
      rw [write_paragraph hk hcs w hs.inHeading, hs.references_eq, hwrapped]
    refine ⟨fun last => ((IsBlock.paragraph hk hcs).heldIff w s last hs.toMargined).1 ?_,
      fun _ => ?_⟩
    · rw [htext]
      exact held_lines (hls.apply_ne_nil _) (hls.single_apply hs.lead_single hs.indent_single)
        hquoted last
    · obtain ⟨l, hl⟩ := exists_mem_of_ne_nil _ (hls.apply_ne_nil ⟨s.lead, s.indent⟩)
      rw [htext]
      exact isVacant_unlines hl (hquoted l hl) _
  | @code h info fence cs hk hone =>
    intro s hs
    obtain ⟨hinfo, hfence⟩ := hone.code hk
    refine ⟨fun last => ((IsBlock.code hk hone).heldIff w s last hs.toMargined).1 ?_, fun _ => ?_⟩
    · rw [write_code w hk]
      exact held_writeCode hinfo hfence _ hs.toMargined last
    · rw [write_code w hk]
      exact isVacant_unlines mem_cons_self (isQuoted_append (isQuoted_append hs.lead _) _) _
  | @list h shape cs hk hshape _ ih =>
    intro s hs
    have hinside : Quiet references (insideList w shape cs s) :=
      ⟨hs.insideList w shape cs, hs.references_eq, hs.lead_unopened, hs.indent_unopened⟩
    refine ⟨fun last => ?_, fun hown => ?_⟩
    · simp only [holds, hk]
      exact holdsItems_of_settled ih hshape 0 hinside last
    · simp [Node.kind, Node.head, hk, Kind.hasOwnLine] at hown
  | @item h cs hk _ ih =>
    intro s hs
    refine ⟨fun last => ?_, fun hown => ?_⟩
    · simp only [holds, hk]
      exact holdsAll_of_settled ih (hs.frame (frame_beginItem s)) last
    · simp [Node.kind, Node.head, hk, Kind.hasOwnLine] at hown
  | @quote h cs hk hown _ ih =>
    intro s hs
    -- something in it is shown, so it is not written as an empty line
    have hshown := isVacant_writeAll ih hown hs.insideQuote
    refine ⟨fun last => ?_, fun _ => ?_⟩
    · simp only [holds, hk, hshown, Bool.false_eq_true, if_false]
      exact holdsAll_of_settled ih hs.insideQuote true
    · rw [write_quote w cs s hk]
      exact isVacant_endQuote hshown
  | @alert h label cs hk _ hown _ ih =>
    intro s hs
    have hshown := isVacant_writeAll ih hown hs.insideQuote
    refine ⟨fun last => ?_, fun _ => ?_⟩
    · simp only [holds, hk, hshown, Bool.false_eq_true, if_false]
      exact holdsAll_of_settled ih hs.insideQuote true
    · rw [write_alert w cs s hk]
      exact isVacant_of_isQuoted rfl

/-- What puts a line outside the quote: a table, or a heading with ordinary content after it. -/
inductive Strays (w : Writer) (references : Option (List Reference)) : List Node → Prop
  | table {h : Head} {delimiters : List Text} {rows back : List Node} :
      h.kind = .table delimiters → Strays w references (.branch h rows :: back)
  | heading {h : Head} {level : Nat} {cs back : List Node} :
      h.kind = .heading level ∨ h.kind = .underlinedHeading level →
      (headingText w references cs).endsWith ['\\'] = false →
      (∀ n ∈ back, Sheltered w references n) → (∃ n ∈ back, n.kind.hasOwnLine = true) →
      Strays w references (.branch h cs :: back)
  | later {n : Node} {back : List Node} : Strays w references back → Strays w references (n :: back)

theorem Strays.holdsAll_eq_false (h : Strays w references ns) (hwrap : IsMarkdownWrapper w.wrap)
    (hs : Quiet references s) : holdsAll w true ns s = false := by
  induction h generalizing s with
  | table hk => simp [holdsAll, holds, hk]
  | @heading h level cs back hk hend hback hown =>
    -- the text after the heading shows something, so its empty line is not taken off
    have hshown := isVacant_writeAll (fun n hn => (hback n hn).settled hwrap) hown
      (hs.frame (frame_write w (.branch h cs) s))
    rw [holdsAll, hshown]
    rcases hk with hk | hk <;> simp [holds, hk, hs.references_eq, hend]
  | later _ ih =>
    rw [holdsAll, ih (hs.frame (frame_write w _ s)), Bool.and_false]

end Sheltered

/-! ## The margin of a quote -/

/-- **Nothing falls out of a quote exactly if its blocks hold the margin** and there is something to
show in it. Ordinary content does so to any depth, whatever the wrapper and the spacing of lists; a
table does not, nor does a heading with ordinary content after it. -/
theorem quote_margin_iff (w : Writer) (references : List Reference) {cs : List Node}
    (hcs : ∀ c ∈ cs, IsBlock Kind.OneLine c) (span span' : Option (Nat × Nat)) :
    let kept := ∀ l ∈ endedLines (render w (.branch ⟨.document references, span⟩
      [.branch ⟨.quote, span'⟩ cs])), l.head? = some '>'
    let inside := insideQuote { references := some references }
    (kept ↔ isVacant (writeAll w cs inside).1 = false ∧ holdsAll w true cs inside = true) ∧
    (IsMarkdownWrapper w.wrap →
      ((∀ c ∈ cs, Sheltered w (some references) c) → (∃ c ∈ cs, c.kind.hasOwnLine = true) → kept) ∧
      (Strays w (some references) cs → ¬ kept)) := by
  intro kept inside
  have hlead : inside.lead = quoteMark := rfl
  have hindent : inside.indent = quoteMark := rfl
  have hquiet : Quiet (some references) inside :=
    ⟨⟨rfl, rfl, by rw [hlead]; decide, by rw [hindent]; decide, rfl⟩, rfl,
      by rw [hlead]; decide, by rw [hindent]; decide⟩
  have hrender : render w (.branch ⟨.document references, span⟩ [.branch ⟨.quote, span'⟩ cs])
      = dropEndNewlines (writeAll w cs inside).1 ++ ['\n'] := by
    rw [render_document w rfl, writeDocument, writeAll_cons, write_quote w cs _ rfl, endQuote]
    simp [inside]
  have hheld : kept ↔ Held false (dropEndNewlines (writeAll w cs inside).1 ++ ['\n']) := by
    simp [kept, hrender, Held, allQuoted, isQuoted]
  have hkept : kept ↔
      isVacant (writeAll w cs inside).1 = false ∧ holdsAll w true cs inside = true := by
    rw [hheld, held_endQuote_iff,
      ← held_writeAll_iff hcs (fun c hc => (hcs c hc).heldIff w) hquiet.toMargined]
    cases isVacant (writeAll w cs inside).1 <;> simp
  refine ⟨hkept, fun hwrap => ⟨fun hordinary hown => hkept.2 ?_, fun hstrays hall => ?_⟩⟩
  · have hsettled : ∀ c ∈ cs, Settled w (some references) c := fun c hc =>
      (hordinary c hc).settled hwrap
    exact ⟨isVacant_writeAll hsettled hown hquiet, holdsAll_of_settled hsettled hquiet true⟩
  · have hfalse := hstrays.holdsAll_eq_false hwrap hquiet
    rw [(hkept.1 hall).2] at hfalse
    exact absurd hfalse (by decide)

/-- A paragraph, a list of one item and a heading that stands last. -/
theorem quote_with_last_heading_kept :
    allQuoted (endedLines (render { wrap := toWidth .codePoints true 80 }
      (.branch ⟨.document [], none⟩ [.branch ⟨.quote, none⟩
        [.branch ⟨.paragraph none, none⟩ [.text ⟨.rawText, none⟩ ['a']],
          .branch ⟨.list ⟨false, 1, ['-'], true⟩, none⟩ [.branch ⟨.listItem, none⟩
            [.branch ⟨.paragraph none, none⟩ [.text ⟨.rawText, none⟩ ['b']]]],
          .branch ⟨.heading 2, none⟩ [.text ⟨.rawText, none⟩ ['T']]]]))) = true := by
  have hinline : ∀ c, ∀ n ∈ [Node.text ⟨.rawText, none⟩ [c]], Inline n := fun c n hn =>
    mem_singleton.1 hn ▸ .text rfl
  have hitem : IsBlock Kind.OneLine (.branch ⟨.listItem, none⟩
      [.branch ⟨.paragraph none, none⟩ [.text ⟨.rawText, none⟩ ['b']]]) :=
    .item rfl (by simpa using .paragraph rfl (hinline 'b'))
  have hlist : IsBlock Kind.OneLine (.branch ⟨.list ⟨false, 1, ['-'], true⟩, none⟩
      [.branch ⟨.listItem, none⟩
        [.branch ⟨.paragraph none, none⟩ [.text ⟨.rawText, none⟩ ['b']]]]) :=
    .list rfl (.inr (by decide)) (by simpa using hitem)
  have hblocks : ∀ c ∈ [Node.branch ⟨.paragraph none, none⟩ [.text ⟨.rawText, none⟩ ['a']],
        .branch ⟨.list ⟨false, 1, ['-'], true⟩, none⟩ [.branch ⟨.listItem, none⟩
          [.branch ⟨.paragraph none, none⟩ [.text ⟨.rawText, none⟩ ['b']]]],
        .branch ⟨.heading 2, none⟩ [.text ⟨.rawText, none⟩ ['T']]], IsBlock Kind.OneLine c := by
    simpa using ⟨.paragraph rfl (hinline 'a'), hlist, .heading (.inl rfl) (hinline 'T')⟩
  have hkept := (quote_margin_iff { wrap := toWidth .codePoints true 80 } [] hblocks none none).1.2
    ⟨by decide +kernel, by decide +kernel⟩
  simpa [allQuoted, isQuoted] using hkept

/-- The line after a heading is not in the quote, and what follows it is a second quote. -/
theorem heading_splits_quote :
    render { wrap := toWidth .codePoints true 80 } (.branch ⟨.document [], none⟩
        [.branch ⟨.quote, none⟩ [.branch ⟨.heading 1, none⟩ [.text ⟨.rawText, none⟩ ['T']],
          .branch ⟨.paragraph none, none⟩ [.text ⟨.rawText, none⟩ ['x']]]])
      = "> # T\n\n> x\n".toList ∧
    ¬ ∀ l ∈ endedLines "> # T\n\n> x\n".toList, l.head? = some '>' := by
  decide +kernel

end Reflow.Document
