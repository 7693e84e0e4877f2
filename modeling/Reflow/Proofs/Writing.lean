import Reflow.Proofs.FencedCode
import Reflow.Proofs.WriterFrames

/-!
What writing a node does to the state of the writer.

Inline nodes read the inline text so far, whether a heading is being written, and the link targets;
they change the first and nothing else (`Inline.write_eq`). Each block has one equation that gives
its text and the state after it. A block is written on whole lines (`IsBlock.ended`).
-/

open List

namespace Reflow.Document

open Text

/-! ## One after the other -/

@[simp] theorem writeAll_nil (w : Writer) (s : WriterState) : writeAll w [] s = ([], s) := by
  rw [writeAll]

theorem writeAll_cons (w : Writer) (n : Node) (ns : List Node) (s : WriterState) :
    writeAll w (n :: ns) s
      = ((write w n s).1 ++ (writeAll w ns (write w n s).2).1, (writeAll w ns (write w n s).2).2) := by
  rw [writeAll]

theorem writeAll_append (w : Writer) (xs ys : List Node) (s : WriterState) :
    writeAll w (xs ++ ys) s
      = ((writeAll w xs s).1 ++ (writeAll w ys (writeAll w xs s).2).1,
        (writeAll w ys (writeAll w xs s).2).2) := by
  induction xs generalizing s with
  | nil => simp
  | cons n xs ih => simp [writeAll_cons, ih]

/-! ## Texts of whole lines -/

/-- A text that stops where a line ends, if it is not empty. -/
def Ended (t : Text) : Prop := ∀ c ∈ t.getLast?, c = '\n'

@[simp] theorem ended_nil : Ended [] := by simp [Ended]

@[simp] theorem ended_concat (t : Text) : Ended (t ++ ['\n']) := by simp [Ended]

variable {a t : Text} {c : Char} {w : Writer} {cs : List Node} {h : Head} {s : WriterState}

theorem Ended.append {b : Text} (ha : Ended a) (hb : Ended b) : Ended (a ++ b) := by
  intro c hc
  cases hlast : b.getLast? with
  | none => exact ha c (by simpa [hlast] using hc)
  | some d => exact hb c (by simpa [hlast] using hc)

/-- The lines of a text, each of them ended. -/
def endedLines (t : Text) : List Text := (lines t).dropLast

@[simp] theorem endedLines_nil : endedLines [] = [] := rfl

theorem endedLines_concat (t : Text) : endedLines (t ++ ['\n']) = lines t := by
  rw [endedLines, lines_append_newline]
  exact dropLast_concat

theorem endedLines_unlines {ls : List Text} (hne : ls ≠ []) (h : ∀ l ∈ ls, '\n' ∉ l) :
    endedLines (unlines ls ++ ['\n']) = ls := by
  rw [endedLines_concat, lines_unlines hne h]

theorem Ended.lines_append (ha : Ended a) (b : Text) :
    lines (a ++ b) = endedLines a ++ lines b := by
  rcases eq_nil_or_concat a with rfl | ⟨u, c, rfl⟩
  · rfl
  · obtain rfl : c = '\n' := ha c (by simp)
    rw [concat_eq_append, endedLines_concat, append_assoc]
    exact lines_append_newline u b

theorem Ended.endedLines_append (ha : Ended a) (b : Text) :
    endedLines (a ++ b) = endedLines a ++ endedLines b := by
  have hne : lines b ≠ [] := splitOn_ne_nil '\n' b
  rw [endedLines, ha.lines_append, dropLast_append_of_ne_nil hne, ← endedLines]

theorem mem_dropEndNewlines (hc : c ≠ '\n') (h : c ∈ t) : c ∈ dropEndNewlines t := by
  obtain ⟨g, hg, ht⟩ := exists_dropEndWhile (· == '\n') t
  rw [ht, mem_append] at h
  exact h.resolve_right fun hmem => hc (by simpa using hg c hmem)

theorem exists_dropEndNewlines (hc : c ≠ '\n') (h : c ∈ t) :
    ∃ u d, d ≠ '\n' ∧ dropEndNewlines t = u ++ [d] ∧
      ∀ a, dropEndNewlines (a ++ t) = a ++ (u ++ [d]) := by
  obtain ⟨g, hg, ht⟩ := exists_dropEndWhile (· == '\n') t
  have hmem := mem_dropEndNewlines hc h
  rcases eq_nil_or_concat (dropEndNewlines t) with hnil | ⟨u, d, hu⟩
  · simp [hnil] at hmem
  · rw [concat_eq_append] at hu
    have hd : (d == '\n') = false := getLast?_dropEndWhile (· == '\n') t d (by
      change d ∈ (dropEndNewlines t).getLast?
      simp [hu])
    refine ⟨u, d, by simpa using hd, hu, fun a => ?_⟩
    have hsplit : a ++ t = (a ++ u ++ [d]) ++ g := by
      conv_lhs => rw [ht]
      change a ++ (dropEndNewlines t ++ g) = _
      rw [hu]
      simp
    rw [hsplit, dropEndNewlines, dropEndWhile_append hg, ← append_assoc]
    exact dropEndWhile_concat (p := (· == '\n')) hd (a ++ u)

/-! ## Inline nodes -/

/-- The kinds of node that make up the text of a paragraph, a heading or a cell. -/
def Kind.isInline : Kind → Bool
  | footnoteReference _ | rawText | emphasis | strong | strikethrough | link _ | image _
  | autolink _ | bareUrl _ | codeSpan | inlineHtml | literal | lineBreak _ => true
  | _ => false

/-- A tree of inline nodes. -/
inductive Inline : Node → Prop
  | leaf {h : Head} : h.kind.isInline = true → Inline (.leaf h)
  | text {h : Head} {t : Text} : h.kind.isInline = true → Inline (.text h t)
  | branch {h : Head} {cs : List Node} :
      h.kind.isInline = true → (∀ c ∈ cs, Inline c) → Inline (.branch h cs)

/-- What inline nodes read of the state. -/
def WriterState.inlinePart (s : WriterState) : WriterState :=
  { inlineText := s.inlineText, inHeading := s.inHeading, references := s.references }

/-- What inline nodes make of the state: the one that they make of its inline part, in the frame of
the state. -/
def Written.reframe (s : WriterState) (r : Written) : Written :=
  (r.1, { s with inlineText := r.2.inlineText })

theorem inlinePart_reframe (s : WriterState) (r : Written) :
    (Written.reframe s r).2.inlinePart = (Written.reframe s.inlinePart r).2 := rfl

theorem writeAll_eq_of_forall (h : ∀ c ∈ cs, ∀ s, write w c s = .reframe s (write w c s.inlinePart))
    (s : WriterState) : writeAll w cs s = .reframe s (writeAll w cs s.inlinePart) := by
  induction cs generalizing s with
  | nil => simp [Written.reframe, WriterState.inlinePart]
  | cons c cs ih =>
    have ih := ih fun d hd => h d (by simp [hd])
    have hfirst := h c (by simp) s
    have hpart := h c (by simp) s.inlinePart
    rw [writeAll_cons, writeAll_cons, ih (write w c s).2, ih (write w c s.inlinePart).2, hfirst,
      inlinePart_reframe, hpart]
    rfl

theorem writeText_eq (kind : Kind) (t : Text) (s : WriterState) :
    writeText kind t s = .reframe s (writeText kind t s.inlinePart) := by
  have hliteral : writeLiteral t s = .reframe s (writeLiteral t s.inlinePart) := by
    simp only [writeLiteral, apply_ite (Written.reframe s)]
    rfl
  cases kind <;> first | rfl | exact hliteral

/-- **Inline nodes read and change only the inline part of the state.** -/
theorem Inline.write_eq {n : Node} (hn : Inline n) (w : Writer) (s : WriterState) :
    write w n s = .reframe s (write w n s.inlinePart) := by
  induction hn generalizing s with
  | @leaf h hk =>
    simp only [write]
    cases hkind : h.kind <;> simp_all [Kind.isInline] <;> rfl
  | @text h t hk =>
    exact writeText_eq h.kind t s
  | @branch h cs hk _ ih =>
    -- the children once from the state and once from its inline part: each kind of node puts the
    -- same marks around what they give
    have hall := writeAll_eq_of_forall ih s
    have hpart := writeAll_eq_of_forall ih s.inlinePart
    simp only [write]
    cases hkind : h.kind <;> simp_all only [Kind.isInline, Bool.false_eq_true] <;> rfl

theorem writeAll_inline (hcs : ∀ c ∈ cs, Inline c) (w : Writer) (s : WriterState) :
    writeAll w cs s = .reframe s (writeAll w cs s.inlinePart) :=
  writeAll_eq_of_forall (fun c hc => (hcs c hc).write_eq w) s

/-! ## Paragraphs and headings -/

/-- The text of a paragraph, before it is wrapped. -/
def paragraphText (w : Writer) (references : Option (List Reference)) (cs : List Node) : Text :=
  (writeAll w cs { references }).1

def headingText (w : Writer) (references : Option (List Reference)) (cs : List Node) : Text :=
  (writeAll w cs { inHeading := true, references }).1

theorem write_paragraph {checked : Option Bool} (hk : h.kind = .paragraph checked)
    (hcs : ∀ c ∈ cs, Inline c) (w : Writer) (hs : s.inHeading = false) :
    write w (.branch h cs) s
      = (w.wrap (withBox checked (paragraphText w s.references cs)) ⟨s.lead, s.indent⟩ ++ ['\n'],
        { s with
          lead := s.indent
          itemBreakDone := false
          blankLineDone := false
          inlineText := [] }) := by
  have hall := writeAll_inline hcs w (beginParagraph s)
  have hpart : (beginParagraph s).inlinePart = { references := s.references } := by
    simp [beginParagraph, WriterState.inlinePart, hs]
  rw [hpart] at hall
  simp only [write, hk, hall]
  rfl

/-- A heading that ends in a hard line break stands on its line alone; any other is followed by a
blank line, and the next one that is due is then left out. -/
theorem write_heading {level : Nat}
    (hk : h.kind = .heading level ∨ h.kind = .underlinedHeading level) (hcs : ∀ c ∈ cs, Inline c)
    (w : Writer) (s : WriterState) :
    write w (.branch h cs) s
      = (s.lead ++ repeated level '#' ++ [' '] ++ headingText w s.references cs ++ ['\n'] ++
          (if (headingText w s.references cs).endsWith ['\\'] then [] else ['\n']),
        { s with
          lead := s.indent
          itemBreakDone :=
            if (headingText w s.references cs).endsWith ['\\'] then s.itemBreakDone else true
          blankLineDone :=
            if (headingText w s.references cs).endsWith ['\\'] then s.blankLineDone else true
          inlineText := []
          inHeading := false }) := by
  have hall := writeAll_inline hcs w (beginHeading s)
  have hpart : (beginHeading s).inlinePart
      = { inHeading := true, references := s.references } := rfl
  rw [hpart] at hall
  have hwrite : write w (.branch h cs) s
      = endHeading level (writeAll w cs (beginHeading s)).1 (writeAll w cs (beginHeading s)).2 := by
    rcases hk with hk | hk <;> simp only [write, hk]
  rw [hwrite, hall]
  change endHeading level (headingText w s.references cs) _ = _
  unfold endHeading
  split_ifs <;> simp [Written.reframe, beginHeading, WriterState.nextBlock]

/-! ## Tables -/

/-- A row of a table, which holds cells of inline nodes. -/
def IsRow (r : Node) : Prop :=
  ∃ h cells, r = .branch h cells ∧ h.kind = .tableRow ∧
    ∀ c ∈ cells, ∃ h' cs, c = .branch h' cs ∧ h'.kind = .tableCell ∧ ∀ n ∈ cs, Inline n

/-- Only the inline text of the state is another. -/
def WriterState.SameBlock (s after : WriterState) : Prop :=
  after = { s with inlineText := after.inlineText }

theorem WriterState.SameBlock.trans {s' s'' : WriterState} (h : s.SameBlock s')
    (h' : s'.SameBlock s'') : s.SameBlock s'' := by
  unfold SameBlock at *
  rw [h', h]

theorem sameBlock_writeCells {cells : List Node}
    (h : ∀ c ∈ cells, ∃ h cs, c = .branch h cs ∧ h.kind = .tableCell ∧ ∀ n ∈ cs, Inline n)
    (s : WriterState) : s.SameBlock (writeCells w cells s).2 := by
  induction cells generalizing s with
  | nil => rw [writeCells]; rfl
  | cons c cells ih =>
    obtain ⟨h', cs, rfl, hk, hcs⟩ := h c (by simp)
    have hcell : s.SameBlock (write w (.branch h' cs) s).2 := by
      simp only [write, hk, writeAll_inline hcs w s]
      rfl
    exact hcell.trans (ih (fun d hd => h d (by simp [hd])) _)

/-- Text that starts and ends with a bar, like a table. -/
structure Barred (t : Text) : Prop where
  start : t.head? = some '|'
  stop : ['|', '\n'] <:+ t

theorem Barred.append {b : Text} (ha : Barred a) (hb : b = [] ∨ Barred b) : Barred (a ++ b) := by
  rcases hb with rfl | hb
  · rwa [append_nil]
  · exact ⟨by simp [ha.start], hb.stop.trans (suffix_append a b)⟩

theorem Barred.ended (h : Barred t) : Ended t := by
  obtain ⟨u, rfl⟩ := h.stop
  simp [Ended]

theorem barred_row (t : Text) : Barred (['|', ' '] ++ t ++ [' ', '|', '\n']) :=
  ⟨rfl, ⟨['|', ' '] ++ t ++ [' '], by simp⟩⟩

theorem IsRow.write_eq {r : Node} (hr : IsRow r) (w : Writer) (s : WriterState) :
    Barred (write w r s).1 ∧ s.SameBlock (write w r s).2 := by
  obtain ⟨h, cells, rfl, hk, hcells⟩ := hr
  simp only [write, hk, rowText]
  exact ⟨barred_row _, sameBlock_writeCells hcells s⟩

theorem write_rows {rows : List Node} (h : ∀ r ∈ rows, IsRow r) (s : WriterState) :
    ((writeAll w rows s).1 = [] ∨ Barred (writeAll w rows s).1) ∧
      s.SameBlock (writeAll w rows s).2 := by
  induction rows generalizing s with
  | nil => simp [WriterState.SameBlock]
  | cons r rows ih =>
    obtain ⟨hbarred, hr⟩ := (h r (by simp)).write_eq w s
    obtain ⟨hrest, hrows⟩ := ih (fun q hq => h q (by simp [hq])) (write w r s).2
    exact ⟨.inr (hbarred.append hrest), hr.trans hrows⟩

theorem write_table {delimiters : List Text} (hk : h.kind = .table delimiters) {rows : List Node}
    (hrows : ∀ r ∈ rows, IsRow r) (w : Writer) (s : WriterState) :
    Barred (write w (.branch h rows) s).1 ∧ s.SameBlock (write w (.branch h rows) s).2 := by
  -- the delimiters stand between the first row and the others, and are a row themselves
  have hdelimiters : Barred (tableDelimiters delimiters) := by
    simpa [tableDelimiters, Block.delimiterRow] using
      barred_row (joinWith [' ', '|', ' '] ((delimiters.map Block.Alignment.ofCell).map
        Block.Alignment.cell))
  cases rows with
  | nil => simpa [write, hk, WriterState.SameBlock] using hdelimiters
  | cons header rows =>
    obtain ⟨hbarred, hheader⟩ := (hrows header (by simp)).write_eq w s
    obtain ⟨hrest, hlast⟩ := write_rows (fun r hr => hrows r (mem_cons_of_mem _ hr))
      (write w header s).2
    simp only [write, hk]
    exact ⟨(hbarred.append (.inr hdelimiters)).append hrest, hheader.trans hlast⟩

/-! ## Containers -/

/-- The state in which the items of a list are written. -/
def insideList (w : Writer) (shape : ListShape) (items : List Node) (s : WriterState) :
    WriterState :=
  { s with blankLineDone := false, tight := isTight w shape items }

/-- The state in which the children of a quote are written. -/
def insideQuote (s : WriterState) : WriterState :=
  { s with blankLineDone := false }.enter quoteMark quoteMark

section Containers

variable {h : Head} (w : Writer) (cs : List Node) (s : WriterState)

theorem write_list {shape : ListShape} (hk : h.kind = .list shape) :
    write w (.branch h cs) s
      = ((writeItems w shape 0 cs (insideList w shape cs s)).1,
        { (writeItems w shape 0 cs (insideList w shape cs s)).2 with
          tight := s.tight }.nextBlock) := by
  simp only [write, hk]
  rfl

theorem write_item (hk : h.kind = .listItem) :
    write w (.branch h cs) s
      = ((beginItem s).1 ++ (writeAll w cs (beginItem s).2).1,
        (writeAll w cs (beginItem s).2).2) := by
  simp only [write, hk]

theorem write_quote (hk : h.kind = .quote) :
    write w (.branch h cs) s
      = endQuote (writeAll w cs (insideQuote s)).1 s (writeAll w cs (insideQuote s)).2 := by
  simp only [write, hk]
  rfl

theorem write_alert {label : Text} (hk : h.kind = .alert label) :
    write w (.branch h cs) s
      = (alertLine label ++
          (endQuote (writeAll w cs (insideQuote s)).1 s (writeAll w cs (insideQuote s)).2).1,
        (endQuote (writeAll w cs (insideQuote s)).1 s (writeAll w cs (insideQuote s)).2).2) := by
  simp only [write, hk]
  rfl

theorem alertLine_eq (label : Text) :
    alertLine label = ['>', ' ', '[', '!'] ++ label ++ [']'] ++ ['\n'] := by
  simp [alertLine]

theorem writeItems_nil (shape : ListShape) (index : Nat) :
    writeItems w shape index [] s = ([], s) := by
  rw [writeItems]

theorem writeItems_cons (shape : ListShape) (index : Nat) (n : Node) :
    writeItems w shape index (n :: cs) s
      = ((write w n (s.enter (itemMarker shape index) (itemIndent shape index))).1 ++
          (writeItems w shape (index + 1) cs
            ((write w n (s.enter (itemMarker shape index) (itemIndent shape index))).2.leave s)).1,
        (writeItems w shape (index + 1) cs
          ((write w n (s.enter (itemMarker shape index) (itemIndent shape index))).2.leave
            s)).2) := by
  rw [writeItems]

end Containers

/-! ## Markers of items -/

theorem mem_toString_int {n : Int} (h : c ∈ (toString n).toList) : c.isDigit ∨ c = '-' := by
  cases n with
  | ofNat m =>
    change c ∈ m.repr.toList at h
    rw [Nat.toList_repr] at h
    exact .inl (Nat.isDigit_of_mem_toDigits (by decide) (by decide) h)
  | negSucc m =>
    change c ∈ ("-" ++ m.succ.repr).toList at h
    rw [String.toList_append, Nat.toList_repr] at h
    rcases mem_append.1 h with h | h
    · exact .inr (by simpa using h)
    · exact .inl (Nat.isDigit_of_mem_toDigits (by decide) (by decide) h)

theorem newline_not_mem_itemMarker {shape : ListShape}
    (h : shape.ordered ∨ '\n' ∉ shape.bullet) (index : Nat) : '\n' ∉ itemMarker shape index := by
  intro hmem
  unfold itemMarker at hmem
  split at hmem
  · rcases mem_append.1 hmem with hc | hc
    · rcases mem_toString_int hc with hc | hc <;> simp at hc
    · simp at hc
  · next hordered =>
    rcases mem_append.1 hmem with hc | hc
    · exact h.resolve_left hordered hc
    · simp at hc

theorem eq_space_of_mem_itemIndent {shape : ListShape} {index : Nat}
    (h : c ∈ itemIndent shape index) : c = ' ' := by
  unfold itemIndent at h
  split at h
  · exact eq_of_mem_replicate h
  · simpa using h

theorem newline_not_mem_itemIndent (shape : ListShape) (index : Nat) :
    '\n' ∉ itemIndent shape index :=
  fun hmem => absurd (eq_space_of_mem_itemIndent hmem) (by decide)

/-! ## Blocks -/

/-- The blocks of a document, to any depth, whose kinds all meet `P`. What may stand in a list or an
item is left open. -/
inductive IsBlock (P : Kind → Prop) : Node → Prop
  | blankLine {h : Head} : h.kind = .blankLine → IsBlock P (.leaf h)
  | thematicBreak {h : Head} : h.kind = .thematicBreak → IsBlock P (.leaf h)
  | paragraph {h : Head} {checked : Option Bool} {cs : List Node} :
      h.kind = .paragraph checked → (∀ c ∈ cs, Inline c) → IsBlock P (.branch h cs)
  | heading {h : Head} {level : Nat} {cs : List Node} :
      h.kind = .heading level ∨ h.kind = .underlinedHeading level → (∀ c ∈ cs, Inline c) →
      IsBlock P (.branch h cs)
  | code {h : Head} {info : FenceInfo} {fence : Fence} {cs : List Node} :
      codeFence? h.kind = some (info, fence) → P h.kind → IsBlock P (.branch h cs)
  | table {h : Head} {delimiters : List Text} {rows : List Node} :
      h.kind = .table delimiters → (∀ r ∈ rows, IsRow r) → IsBlock P (.branch h rows)
  | list {h : Head} {shape : ListShape} {cs : List Node} :
      h.kind = .list shape → P h.kind → (∀ c ∈ cs, IsBlock P c) → IsBlock P (.branch h cs)
  | item {h : Head} {cs : List Node} :
      h.kind = .listItem → (∀ c ∈ cs, IsBlock P c) → IsBlock P (.branch h cs)
  | quote {h : Head} {cs : List Node} :
      h.kind = .quote → (∀ c ∈ cs, IsBlock P c) → IsBlock P (.branch h cs)
  | alert {h : Head} {label : Text} {cs : List Node} :
      h.kind = .alert label → P h.kind → (∀ c ∈ cs, IsBlock P c) → IsBlock P (.branch h cs)

theorem exists_beginItem (s : WriterState) :
    ∃ done, (beginItem s).2 = { s with itemBreakDone := done } := by
  unfold beginItem
  split_ifs
  · exact ⟨_, rfl⟩
  · exact ⟨_, rfl⟩
  · exact ⟨_, rfl⟩

theorem ended_beginItem (s : WriterState) : Ended (beginItem s).1 := by
  unfold beginItem
  split_ifs
  · exact ended_nil
  · exact ended_nil
  · exact ended_concat _

theorem ended_writeAll {ns : List Node} (h : ∀ n ∈ ns, ∀ s, Ended (write w n s).1)
    (s : WriterState) : Ended (writeAll w ns s).1 := by
  induction ns generalizing s with
  | nil => simp
  | cons n ns ih =>
    rw [writeAll_cons]
    exact (h n (by simp) s).append (ih (fun m hm => h m (by simp [hm])) _)

theorem ended_writeItems (shape : ListShape) {ns : List Node}
    (h : ∀ n ∈ ns, ∀ s, Ended (write w n s).1) (index : Nat) (s : WriterState) :
    Ended (writeItems w shape index ns s).1 := by
  induction ns generalizing index s with
  | nil => simp [writeItems_nil]
  | cons n ns ih =>
    rw [writeItems_cons]
    exact (h n (by simp) _).append (ih (fun m hm => h m (by simp [hm])) _ _)

/-- **A block is written on whole lines.** -/
theorem IsBlock.ended {P : Kind → Prop} {n : Node} (hn : IsBlock P n) (w : Writer) (s : WriterState) :
    Ended (write w n s).1 := by
  induction hn generalizing s with
  | blankLine hk =>
    rw [write, hk]
    simp only [writeLeaf, writeBlankLine]
    split
    · exact ended_nil
    · exact ended_concat _
  | thematicBreak hk =>
    rw [write, hk]
    simp [Ended, writeLeaf, writeThematicBreak]
  | paragraph hk _ =>
    simp only [write, hk]
    exact ended_concat _
  | heading hk hcs =>
    rw [write_heading hk hcs]
    refine .append (ended_concat _) ?_
    -- the line feed after a heading is there unless the heading ends in a hard break
    split_ifs <;> simp [Ended]
  | code hk _ =>
    rw [write_code w hk]
    exact ended_concat _
  | table hk hrows => exact (write_table hk hrows w s).1.ended
  | @list h shape cs hk _ _ ih =>
    rw [write_list w cs s hk]
    exact ended_writeItems shape ih 0 _
  | item hk _ ih =>
    rw [write_item w _ s hk]
    exact (ended_beginItem s).append (ended_writeAll ih _)
  | quote hk _ _ =>
    rw [write_quote w _ s hk]
    exact ended_concat _
  | alert hk _ _ _ =>
    rw [write_alert w _ s hk, alertLine_eq]
    exact .append (ended_concat _) (ended_concat _)

/-! ## Documents -/

/-- The children of a document, or those up to some point, as they are written. -/
def writeDocument (w : Writer) (references : List Reference) (ns : List Node) : Written :=
  writeAll w ns { references := some references }

theorem render_document (w : Writer) {references : List Reference}
    (hk : h.kind = .document references) (ns : List Node) :
    render w (.branch h ns) = (writeDocument w references ns).1 := by
  simp only [render, writeAgain, write, hk]
  have hbegin : ({} : WriterState).begin (.branch h ns) = { references := some references } := by
    simp [WriterState.begin, Node.references, Node.kind, Node.head, hk]
  rw [hbegin]
  rfl

end Reflow.Document
