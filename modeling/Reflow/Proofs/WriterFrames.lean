import Reflow.Document.Render

/-!
What the writer's state is after a tree has been written.

Containers lengthen the line starts, lists set the spacing of their items, headings switch their mode
on, and all of them undo it. `WriterState.Frame` says what is left of the state: the later line
start, the link targets and the spacing of the list around, no heading under way if there was none,
and a next line that starts as before or like a later one. Every step of the writer keeps the frame
or undoes what broke it, so every tree does (`frame_write`), by induction over the tree.
-/

open List

namespace Reflow.Document

/-- What a node leaves of the state. -/
structure WriterState.Frame (s after : WriterState) : Prop where
  indent : after.indent = s.indent
  references : after.references = s.references
  tight : after.tight = s.tight
  inHeading : s.inHeading = false → after.inHeading = false
  lead : after.lead = s.lead ∨ after.lead = s.indent

namespace WriterState.Frame

variable {s s' s'' : WriterState}

theorem refl (s : WriterState) : s.Frame s := ⟨rfl, rfl, rfl, id, .inl rfl⟩

theorem trans (h : s.Frame s') (h' : s'.Frame s'') : s.Frame s'' where
  indent := h'.indent.trans h.indent
  references := h'.references.trans h.references
  tight := h'.tight.trans h.tight
  inHeading hs := h'.inHeading (h.inHeading hs)
  lead := by
    rcases h'.lead with hl | hl
    · rw [hl]
      exact h.lead
    · rw [hl, h.indent]
      exact .inr rfl

theorem leave {lead indent : Text} (h : (s.enter lead indent).Frame s') : s.Frame (s'.leave s) :=
  ⟨rfl, h.references, h.tight, h.inHeading, .inl rfl⟩

theorem nextBlock (h : s.Frame s') : s.Frame s'.nextBlock :=
  ⟨h.indent, h.references, h.tight, h.inHeading, .inr h.indent⟩

end WriterState.Frame

variable {w : Writer} {s after : WriterState} {t : Text}

/-! ## Nodes without children -/

theorem frame_writeBlankLine (s : WriterState) : s.Frame (writeBlankLine s).2 := by
  unfold writeBlankLine
  split
  · exact ⟨rfl, rfl, rfl, id, .inl rfl⟩
  · exact ⟨rfl, rfl, rfl, id, .inr rfl⟩

theorem frame_writeLeaf (kind : Kind) (s : WriterState) : s.Frame (writeLeaf kind s).2 := by
  cases kind with
  | blankLine => exact frame_writeBlankLine s
  | thematicBreak => exact (WriterState.Frame.refl s).nextBlock
  | htmlBlock body => exact (WriterState.Frame.refl s).nextBlock
  | linkDefinition r => exact ⟨rfl, rfl, rfl, id, .inr rfl⟩
  | _ => exact .refl s

theorem frame_addInline (s : WriterState) (t : Text) : s.Frame (s.addInline t) :=
  ⟨rfl, rfl, rfl, id, .inl rfl⟩

theorem frame_writeLiteral (t : Text) (s : WriterState) : s.Frame (writeLiteral t s).2 := by
  unfold writeLiteral
  dsimp only
  split
  · exact frame_addInline s _
  · split
    · exact frame_addInline s _
    · split <;> exact frame_addInline s _

theorem frame_writeText (kind : Kind) (t : Text) (s : WriterState) :
    s.Frame (writeText kind t s).2 := by
  cases kind with
  | rawText => exact frame_addInline s _
  | literal => exact frame_writeLiteral t s
  | footnoteReference label => exact frame_writeLeaf _ s
  | lineBreak soft => exact frame_writeLeaf _ s
  | _ => exact .refl s

theorem frame_writeCode (info : FenceInfo) (fence : Fence) (code : Text) (s : WriterState) :
    s.Frame (writeCode info fence code s).2 :=
  ⟨rfl, rfl, rfl, id, .inr rfl⟩

/-! ## Around the children -/

theorem frame_paragraph (checked : Option Bool) (h : (beginParagraph s).Frame after) :
    s.Frame (endParagraph w checked t after).2 :=
  ⟨h.indent, h.references, h.tight, h.inHeading, .inr h.indent⟩

/-- A heading ends its own mode, and that of a heading around it. -/
theorem frame_heading (level : Nat) (h : (beginHeading s).Frame after) :
    s.Frame (endHeading level t after).2 := by
  unfold endHeading
  dsimp only
  split
  · exact ⟨h.indent, h.references, h.tight, fun _ => rfl, .inr h.indent⟩
  · exact ⟨h.indent, h.references, h.tight, fun _ => rfl, .inr h.indent⟩

theorem frame_beginItem (s : WriterState) : s.Frame (beginItem s).2 := by
  unfold beginItem
  split
  · exact .refl s
  · split
    · exact ⟨rfl, rfl, rfl, id, .inl rfl⟩
    · exact .refl s

theorem frame_quote
    (h : ({ s with blankLineDone := false }.enter quoteMark quoteMark).Frame after) :
    s.Frame (endQuote t s after).2 :=
  ⟨rfl, h.references, h.tight, h.inHeading, .inr rfl⟩

theorem frame_footnote {lead indent : Text} (h : (s.enter lead indent).Frame after) :
    s.Frame (endFootnote t s after).2 :=
  ⟨rfl, h.references, h.tight, h.inHeading, .inr rfl⟩

/-- The spacing of the items is the list's own, and the list puts the old one back. -/
theorem frame_list {tight : Bool} (h : { s with blankLineDone := false, tight }.Frame after) :
    s.Frame { after with tight := s.tight }.nextBlock :=
  ⟨h.indent, h.references, rfl, h.inHeading, .inr h.indent⟩

/-! ## Children one after the other -/

section Children

variable {ns : List Node} (h : ∀ n ∈ ns, ∀ s : WriterState, s.Frame (write w n s).2)
include h

theorem frame_writeAll_of (s : WriterState) : s.Frame (writeAll w ns s).2 := by
  induction ns generalizing s with
  | nil =>
    rw [writeAll]
    exact .refl s
  | cons n ns ih =>
    rw [writeAll]
    exact (h n (by simp) s).trans (ih (fun m hm => h m (by simp [hm])) _)

theorem frame_writeItems_of (shape : ListShape) (index : Nat) (s : WriterState) :
    s.Frame (writeItems w shape index ns s).2 := by
  induction ns generalizing index s with
  | nil =>
    rw [writeItems]
    exact .refl s
  | cons n ns ih =>
    rw [writeItems]
    have hitem := h n (by simp) (s.enter (itemMarker shape index) (itemIndent shape index))
    exact hitem.leave.trans (ih (fun m hm => h m (by simp [hm])) _ _)

theorem frame_writeCells_of (s : WriterState) : s.Frame (writeCells w ns s).2 := by
  induction ns generalizing s with
  | nil =>
    rw [writeCells]
    exact .refl s
  | cons n ns ih =>
    rw [writeCells]
    exact (h n (by simp) s).trans (ih (fun m hm => h m (by simp [hm])) _)

end Children

/-! ## Trees -/

/-- **Every node leaves its frame**, to any depth and whatever stands inside what. -/
theorem frame_write (w : Writer) (n : Node) (s : WriterState) : s.Frame (write w n s).2 := by
  induction n using Node.induct generalizing s with
  | leaf h => exact frame_writeLeaf h.kind s
  | text h t => exact frame_writeText h.kind t s
  | branch h cs ih =>
    have hall := frame_writeAll_of ih
    cases hk : h.kind with
    | paragraph checked =>
      simp only [write, hk]
      exact frame_paragraph checked (hall _)
    | heading level | underlinedHeading level =>
      simp only [write, hk]
      exact frame_heading level (hall _)
    | list shape =>
      simp only [write, hk]
      exact frame_list (frame_writeItems_of ih shape 0 _)
    | listItem =>
      simp only [write, hk]
      exact (frame_beginItem s).trans (hall _)
    | quote | alert label =>
      simp only [write, hk]
      exact frame_quote (hall _)
    | footnoteDefinition label =>
      simp only [write, hk]
      exact frame_footnote (hall _)
    | indentedCode | fencedCode info | fencedBlock info fence =>
      simp only [write, hk]
      exact frame_writeCode _ _ _ s
    | table delimiters =>
      -- the delimiters between the header and the rows change nothing
      cases cs with
      | nil =>
        simp only [write, hk]
        exact .refl s
      | cons header rows =>
        simp only [write, hk]
        exact (ih header (by simp) s).trans
          (frame_writeAll_of (fun r hr => ih r (mem_cons_of_mem _ hr)) _)
    | tableRow =>
      simp only [write, hk]
      exact frame_writeCells_of ih s
    | autolink address | bareUrl address =>
      simp only [write, hk]
      exact .refl s
    | _ =>
      simp only [write, hk]
      exact hall s

theorem frame_writeAll (w : Writer) (ns : List Node) (s : WriterState) :
    s.Frame (writeAll w ns s).2 :=
  frame_writeAll_of (fun n _ => frame_write w n) s

theorem frame_writeItems (w : Writer) (shape : ListShape) (index : Nat) (ns : List Node)
    (s : WriterState) : s.Frame (writeItems w shape index ns s).2 :=
  frame_writeItems_of (fun n _ => frame_write w n) shape index s

/-! ## Main result -/

/-- **Writing a tree does not leak into what is written after it.** For every tree and every state
outside a heading, the later line start and the spacing of the list around are as before, no heading
is under way, and the next line starts as it would have done or like a later one. How lists are
spaced is a setting of the writer, which writing reads only; headings inside headings are no
exception. -/
theorem state_after_writing (w : Writer) (n : Node) {s : WriterState} (hs : s.inHeading = false) :
    (write w n s).2.indent = s.indent ∧ (write w n s).2.tight = s.tight ∧
      (write w n s).2.inHeading = false ∧
      ((write w n s).2.lead = s.lead ∨ (write w n s).2.lead = (write w n s).2.indent) := by
  have hframe := frame_write w n s
  refine ⟨hframe.indent, hframe.tight, hframe.inHeading hs, ?_⟩
  rw [hframe.indent]
  exact hframe.lead

/-- A heading in an item of a loose list in a quote, inside an item of a tight list. -/
theorem state_after_nested_quote :
    let s : WriterState := { lead := ['-', ' '], indent := [' ', ' '], tight := true }
    let heading : Node := .branch ⟨.heading 2, none⟩ [.text ⟨.rawText, none⟩ ['a']]
    let quote : Node := .branch ⟨.quote, none⟩ [.branch ⟨.list ⟨true, 9, [], false⟩, none⟩
      [.branch ⟨.listItem, none⟩ [heading], .branch ⟨.listItem, none⟩ [heading]]]
    let after := (write { wrap := fun t _ => t, spacing := .loose } quote s).2
    s.inHeading = false ∧ after.indent = [' ', ' '] ∧ after.tight = true ∧
      after.inHeading = false ∧ (after.lead = ['-', ' '] ∨ after.lead = after.indent) :=
  ⟨rfl, state_after_writing _ _ rfl⟩

end Reflow.Document
