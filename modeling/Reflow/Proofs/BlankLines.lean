import Reflow.Proofs.Writing
import Reflow.Wrap.LineWrapper

/-!
Blank lines between blocks.

A heading writes the blank line after it and leaves word that the next one is to be left out. Some
blocks take that word back when they are written, others pass it on, and a container starts without
it. `awaits` follows the word through a document without writing it.
-/

open List

namespace Reflow.Document

open Text

variable {t : Text}

/-! ## Which blank lines are left out -/

mutual

/-- The next blank line after the node is left out, if `due` says that of the next one before it. -/
def awaits (w : Writer) (references : Option (List Reference)) (n : Node) (due : Bool) : Bool :=
  match n with
  | .leaf h => if h.kind = .blankLine then false else due
  | .text _ _ => due
  | .branch h cs =>
    match h.kind with
    | .paragraph _ | .indentedCode | .fencedCode _ | .fencedBlock _ _ => false
    | .heading _ | .underlinedHeading _ =>
      if (headingText w references cs).endsWith ['\\'] then due else true
    -- a container starts without the word; an item goes on with what its list has
    | .list _ | .quote | .alert _ => awaitsAll w references cs false
    | .listItem => awaitsAll w references cs due
    -- rules and tables pass it on
    | _ => due

def awaitsAll (w : Writer) (references : Option (List Reference)) (ns : List Node) (due : Bool) :
    Bool :=
  match ns with
  | [] => due
  | n :: rest => awaitsAll w references rest (awaits w references n due)

end

section Awaits

variable {w : Writer} {references : Option (List Reference)} {ns : List Node}

@[simp] theorem awaitsAll_nil (due : Bool) : awaitsAll w references [] due = due := by
  rw [awaitsAll]

theorem awaitsAll_cons (n : Node) (due : Bool) :
    awaitsAll w references (n :: ns) due
      = awaitsAll w references ns (awaits w references n due) := by
  rw [awaitsAll]

theorem awaits_code {h : Head} {info : FenceInfo} {fence : Fence}
    (hk : codeFence? h.kind = some (info, fence)) (cs : List Node) (due : Bool) :
    awaits w references (.branch h cs) due = false := by
  rw [awaits]
  cases hkind : h.kind <;> simp_all [codeFence?]

/-- Writing the node turns the flag as `awaits` says. -/
def Followed (w : Writer) (n : Node) : Prop :=
  ∀ s, (write w n s).2.blankLineDone = awaits w s.references n s.blankLineDone

/-- The nodes are written one after the other, each from a state that has the flag and the link targets
of the one in which the last was left. -/
inductive InTurn (w : Writer) : List Node → WriterState → Written → Prop
  | nil (s : WriterState) : InTurn w [] s ([], s)
  | cons {n : Node} {ns : List Node} {s inside after : WriterState} {r : Written} :
      inside.references = s.references → inside.blankLineDone = s.blankLineDone →
      after.references = s.references →
      after.blankLineDone = (write w n inside).2.blankLineDone → InTurn w ns after r →
      InTurn w (n :: ns) s ((write w n inside).1 ++ r.1, r.2)

theorem inTurn_writeAll (w : Writer) (ns : List Node) (s : WriterState) :
    InTurn w ns s (writeAll w ns s) := by
  induction ns generalizing s with
  | nil =>
    rw [writeAll_nil]
    exact .nil s
  | cons n ns ih =>
    rw [writeAll_cons]
    exact .cons rfl rfl (frame_write w n s).references rfl (ih _)

theorem inTurn_writeItems (w : Writer) (shape : ListShape) (index : Nat) (ns : List Node)
    (s : WriterState) : InTurn w ns s (writeItems w shape index ns s) := by
  induction ns generalizing index s with
  | nil =>
    rw [writeItems_nil]
    exact .nil s
  | cons n ns ih =>
    -- going into an item and out again changes the line starts only
    have hframe := frame_write w n (s.enter (itemMarker shape index) (itemIndent shape index))
    rw [writeItems_cons]
    exact .cons rfl rfl hframe.leave.references rfl (ih _ _)

theorem InTurn.blankLineDone_eq {s : WriterState} {r : Written} (hr : InTurn w ns s r)
    (h : ∀ n ∈ ns, Followed w n) :
    r.2.blankLineDone = awaitsAll w s.references ns s.blankLineDone := by
  induction hr with
  | nil s => simp
  | @cons n ns s inside after r hrefs hdone hafter hflag _ ih =>
    rw [awaitsAll_cons, ih fun m hm => h m (by simp [hm]), hafter, hflag, h n (by simp) inside, hrefs,
      hdone]

end Awaits

/-- **The flag of the writer is what `awaits` says**, after every block. -/
theorem IsBlock.followed {P : Kind → Prop} {n : Node} (hn : IsBlock P n) (w : Writer) :
    Followed w n := by
  induction hn with
  | blankLine hk =>
    intro s
    simp only [write, awaits, hk, if_true, writeLeaf, writeBlankLine]
    split
    · rfl
    · rename_i hdue
      simpa [WriterState.nextBlock] using hdue
  | thematicBreak hk =>
    intro s
    rw [write, awaits, hk]
    rfl
  | paragraph hk hcs =>
    intro s
    have hall := writeAll_inline hcs w (beginParagraph s)
    simp only [write, awaits, hk, hall]
    rfl
  | heading hk hcs =>
    intro s
    rw [write_heading hk hcs]
    rcases hk with hk | hk <;> simp only [awaits, hk]
  | code hk _ =>
    intro s
    rw [write_code w hk, awaits_code hk]
    rfl
  | table hk hrows =>
    intro s
    have hsame := (write_table hk hrows w s).2
    rw [hsame]
    simp only [awaits, hk]
  | list hk _ _ ih =>
    intro s
    rw [write_list w _ s hk]
    simp only [awaits, hk]
    exact (inTurn_writeItems w _ 0 _ _).blankLineDone_eq ih
  | item hk _ ih =>
    intro s
    rw [write_item w _ s hk]
    simp only [awaits, hk]
    obtain ⟨done, hstate⟩ := exists_beginItem s
    rw [(inTurn_writeAll w _ _).blankLineDone_eq ih, hstate]
  | quote hk _ ih =>
    intro s
    rw [write_quote w _ s hk]
    simp only [awaits, hk]
    exact (inTurn_writeAll w _ (insideQuote s)).blankLineDone_eq ih
  | alert hk _ _ ih =>
    intro s
    rw [write_alert w _ s hk]
    simp only [awaits, hk]
    exact (inTurn_writeAll w _ (insideQuote s)).blankLineDone_eq ih

/-! ## What a heading leaves in the text -/

section Heading

variable {w : Writer} {ns : List Node}

/-- Where the node leaves the next blank line out, its text has a space in it: the one of a
heading. -/
def Spacious (w : Writer) (n : Node) : Prop :=
  ∀ s, awaits w s.references n false = true → ' ' ∈ (write w n s).1

theorem InTurn.space_mem {s : WriterState} {r : Written} (hr : InTurn w ns s r)
    (h : ∀ n ∈ ns, Spacious w n) (hdue : awaitsAll w s.references ns false) : ' ' ∈ r.1 := by
  induction hr with
  | nil s => simp at hdue
  | @cons n ns s inside after r hrefs _ hafter _ _ ih =>
    rw [awaitsAll_cons] at hdue
    rw [mem_append]
    cases hn : awaits w s.references n false with
    | true => exact .inl (h n (by simp) inside (by rwa [hrefs]))
    | false =>
      rw [hn, ← hafter] at hdue
      exact .inr (ih (fun m hm => h m (by simp [hm])) hdue)

theorem IsBlock.spacious {P : Kind → Prop} {n : Node} (hn : IsBlock P n) (w : Writer) :
    Spacious w n := by
  induction hn with
  | blankLine hk | thematicBreak hk => simp [Spacious, awaits, hk]
  | paragraph hk _ | table hk _ => simp [Spacious, awaits, hk]
  | code hk _ => simp [Spacious, awaits_code hk]
  | heading hk hcs =>
    intro s _
    rw [write_heading hk hcs]
    simp
  | list hk _ _ ih =>
    intro s hdue
    rw [write_list w _ s hk]
    simp only [awaits, hk] at hdue
    exact (inTurn_writeItems w _ 0 _ _).space_mem ih hdue
  | item hk _ ih =>
    intro s hdue
    rw [write_item w _ s hk, mem_append]
    simp only [awaits, hk, ← (frame_beginItem s).references] at hdue
    exact .inr ((inTurn_writeAll w _ _).space_mem ih hdue)
  | quote hk _ ih =>
    intro s hdue
    rw [write_quote w _ s hk]
    simp only [awaits, hk] at hdue
    -- the space is not among the line feeds that are taken off the end of the quote
    have hmem := (inTurn_writeAll w _ (insideQuote s)).space_mem ih hdue
    exact mem_append_left _ (mem_dropEndNewlines (by decide) hmem)
  | alert hk _ hcs ih =>
    intro s _
    rw [write_alert w _ s hk]
    simp [alertLine]

end Heading

/-! ## Empty lines -/

/-- The last line is empty. -/
def EndsEmpty (t : Text) : Prop := t = ['\n'] ∨ ['\n', '\n'] <:+ t

instance (t : Text) : Decidable (EndsEmpty t) := inferInstanceAs (Decidable (_ ∨ _))

theorem Ended.endsEmpty_append (h : Ended t) : EndsEmpty (t ++ ['\n']) := by
  rcases eq_nil_or_concat t with rfl | ⟨u, c, rfl⟩
  · exact .inl rfl
  · obtain rfl : c = '\n' := h c (by simp)
    exact .inr ⟨u, by simp⟩

theorem not_endsEmpty_append {c : Char} (hc : c ≠ '\n') (t : Text) :
    ¬ EndsEmpty (t ++ [c, '\n']) := by
  rintro (h | ⟨u, hu⟩)
  · have hlen := congrArg length h
    simp at hlen
  · have hsplit : (u ++ ['\n']) ++ ['\n'] = (t ++ [c]) ++ ['\n'] := by simpa using hu
    have hlast := append_cancel_right hsplit
    exact hc (append_inj_right' hlast rfl |> singleton_inj.1).symm

theorem Ended.endsEmpty_replicate_iff (h : Ended t) (k : Nat) :
    EndsEmpty (t ++ replicate k '\n') ↔ 0 < k ∨ EndsEmpty t := by
  cases k with
  | zero => simp
  | succ k =>
    have hended : Ended (t ++ replicate k '\n') := by
      refine h.append ?_
      intro c hc
      exact eq_of_mem_replicate (mem_of_mem_getLast? hc)
    have hsnoc : t ++ replicate (k + 1) '\n' = (t ++ replicate k '\n') ++ ['\n'] := by
      rw [replicate_succ', append_assoc]
    rw [hsnoc]
    exact iff_of_true hended.endsEmpty_append (.inl k.succ_pos)

/-! ## The block that a list ends with -/

/-- A list or an item of one. -/
def Kind.isListPart : Kind → Bool
  | .list _ | .listItem => true
  | _ => false

mutual

/-- The last block in the last item of a list, to any depth; any other node itself, and a list or
item that has nothing at its end. -/
def closing (n : Node) : Node :=
  match n with
  | .branch h cs => if h.kind.isListPart then closingOf (.branch h cs) cs else .branch h cs
  | n => n

/-- What the nodes end with, and `n` where there are none. -/
def closingOf (n : Node) (ns : List Node) : Node :=
  match ns with
  | [] => n
  | m :: rest => closingOf (closing m) rest

end

def Kind.isHeading : Kind → Bool
  | .heading _ | .underlinedHeading _ => true
  | _ => false

/-- A heading without a hard line break at its end, which writes the blank line after it. -/
def givesBlankLine (w : Writer) (references : Option (List Reference)) : Node → Bool
  | .branch h cs => h.kind.isHeading && !(headingText w references cs).endsWith ['\\']
  | _ => false

/-- The text ends like that of `last`, with the flag that `last` leaves. -/
def EndsLike (w : Writer) (last : Node) (s : WriterState) (r : Written) : Prop :=
  ∃ u s', r.1 = u ++ (write w last s').1 ∧ s'.references = s.references ∧
    r.2.blankLineDone = (write w last s').2.blankLineDone

theorem EndsLike.refl (w : Writer) (n : Node) (s : WriterState) : EndsLike w n s (write w n s) :=
  ⟨[], s, rfl, rfl, rfl⟩

section Closing

variable {w : Writer} {P : Kind → Prop} {ns : List Node}

theorem InTurn.endsLike {s : WriterState} {r : Written} (hr : InTurn w ns s r)
    (h : ∀ n ∈ ns, ∀ s, EndsLike w (closing n) s (write w n s)) (hne : ns ≠ []) (n : Node) :
    EndsLike w (closingOf n ns) s r := by
  induction hr generalizing n with
  | nil s => exact absurd rfl hne
  | @cons m ns s inside after r hrefs _ hafter hflag hrest ih =>
    rw [closingOf]
    by_cases hnil : ns = []
    · subst hnil
      cases hrest
      rw [closingOf]
      obtain ⟨u, s', htext, hreferences, hlast⟩ := h m (by simp) inside
      exact ⟨u, s', by simp [htext], hreferences.trans hrefs, hflag.trans hlast⟩
    · obtain ⟨u, s', htext, hreferences, hlast⟩ :=
        ih (fun k hk => h k (by simp [hk])) hnil (closing m)
      exact ⟨_ ++ u, s', by rw [htext, append_assoc], hreferences.trans hafter, hlast⟩

theorem closing_branch {h : Head} (hk : h.kind.isListPart = false) (cs : List Node) :
    closing (.branch h cs) = .branch h cs := by
  simp [closing, hk]

theorem closing_listPart {h : Head} (hk : h.kind.isListPart) (cs : List Node) :
    closing (.branch h cs) = closingOf (.branch h cs) cs := by
  simp [closing, hk]

theorem isListPart_code {k : Kind} {info : FenceInfo} {fence : Fence}
    (hk : codeFence? k = some (info, fence)) : k.isListPart = false := by
  cases k <;> simp_all [codeFence?, Kind.isListPart]

theorem isBlock_closingOf {n : Node} (hn : IsBlock P n) (h : ∀ m ∈ ns, IsBlock P (closing m)) :
    IsBlock P (closingOf n ns) := by
  induction ns generalizing n with
  | nil => rwa [closingOf]
  | cons m ns ih =>
    exact ih (h m (by simp)) fun k hk => h k (by simp [hk])

/-- **A list is written to its end like the block that closes it.** -/
theorem IsBlock.endsLike {n : Node} (hn : IsBlock P n) (w : Writer) :
    IsBlock P (closing n) ∧ ∀ s, EndsLike w (closing n) s (write w n s) := by
  -- only lists and items are closed by something inside them
  have hself : ∀ {m : Node}, IsBlock P m → closing m = m →
      IsBlock P (closing m) ∧ ∀ s, EndsLike w (closing m) s (write w m s) := by
    intro m hm hclosing
    rw [hclosing]
    exact ⟨hm, .refl w m⟩
  induction hn with
  | blankLine hk => exact hself (.blankLine hk) rfl
  | thematicBreak hk => exact hself (.thematicBreak hk) rfl
  | paragraph hk hcs =>
    exact hself (.paragraph hk hcs) (closing_branch (by rw [hk]; rfl) _)
  | @heading h level cs hk hcs =>
    have hpart : h.kind.isListPart = false := by rcases hk with hk | hk <;> rw [hk] <;> rfl
    exact hself (.heading hk hcs) (closing_branch hpart cs)
  | code hk hP => exact hself (.code hk hP) (closing_branch (isListPart_code hk) _)
  | table hk hrows => exact hself (.table hk hrows) (closing_branch (by rw [hk]; rfl) _)
  | quote hk hcs _ => exact hself (.quote hk hcs) (closing_branch (by rw [hk]; rfl) _)
  | alert hk hP hcs _ => exact hself (.alert hk hP hcs) (closing_branch (by rw [hk]; rfl) _)
  | @list h shape cs hk hP hcs ih =>
    rw [closing_listPart (by rw [hk]; rfl)]
    refine ⟨isBlock_closingOf (.list hk hP hcs) fun c hc => (ih c hc).1, fun s => ?_⟩
    by_cases hnil : cs = []
    · subst hnil
      exact .refl w _ s
    · rw [write_list w cs s hk]
      exact (inTurn_writeItems w shape 0 cs (insideList w shape cs s)).endsLike
        (fun c hc => (ih c hc).2) hnil _
  | @item h cs hk hcs ih =>
    rw [closing_listPart (by rw [hk]; rfl)]
    refine ⟨isBlock_closingOf (.item hk hcs) fun c hc => (ih c hc).1, fun s => ?_⟩
    by_cases hnil : cs = []
    · subst hnil
      exact .refl w _ s
    · obtain ⟨u, s', htext, hreferences, hflag⟩ :=
        (inTurn_writeAll w cs (beginItem s).2).endsLike (fun c hc => (ih c hc).2) hnil (.branch h cs)
      rw [write_item w cs s hk]
      refine ⟨(beginItem s).1 ++ u, s', by simp [htext], ?_, hflag⟩
      rw [hreferences, (frame_beginItem s).references]

end Closing

/-! ## Between two blocks -/

/-- The last line is written, and something stands on it. -/
def EndsBare (t : Text) : Prop := ∃ u c, t = u ++ [c, '\n'] ∧ c ≠ '\n'

theorem EndsBare.not_endsEmpty (h : EndsBare t) (front : Text) : ¬ EndsEmpty (front ++ t) := by
  obtain ⟨u, c, rfl, hc⟩ := h
  rw [← append_assoc]
  exact not_endsEmpty_append hc _

theorem EndsBare.append (h : EndsBare t) (front : Text) : EndsBare (front ++ t) := by
  obtain ⟨u, c, rfl, hc⟩ := h
  exact ⟨front ++ u, c, by simp, hc⟩

theorem endsBare_dropEndNewlines {c : Char} (hc : c ≠ '\n') (h : c ∈ t) :
    EndsBare (dropEndNewlines t ++ ['\n']) := by
  obtain ⟨u, d, hd, hdrop, -⟩ := exists_dropEndNewlines hc h
  exact ⟨u, d, by simp [hdrop], hd⟩

theorem endsEmpty_heading_iff (front t : Text) :
    EndsEmpty (front ++ (t ++ ['\n'] ++ if t.endsWith ['\\'] then [] else ['\n'])) ↔
      t.endsWith ['\\'] = false := by
  by_cases hhard : t.endsWith ['\\']
  · obtain ⟨u, rfl⟩ := isSuffixOf_iff_suffix.1 hhard
    have hbare : EndsBare (u ++ ['\\'] ++ ['\n']) := ⟨u, '\\', by simp, by decide⟩
    simpa [hhard] using hbare.not_endsEmpty front
  · rw [if_neg hhard]
    simp only [Bool.not_eq_true] at hhard
    exact iff_of_true (.inr ⟨front ++ t, by simp⟩) hhard

/-- **What a block leaves where the next blank line is left out**: an empty line after a heading that
gives one, and after any other block a line with something on it. -/
theorem IsBlock.endsEmpty_iff {P : Kind → Prop} {n : Node} (hn : IsBlock P n)
    (hpart : n.kind.isListPart = false) (w : Writer) (s : WriterState)
    (hdue : (write w n s).2.blankLineDone) (front : Text) :
    EndsEmpty (front ++ (write w n s).1) ↔ givesBlankLine w s.references n := by
  rw [hn.followed w] at hdue
  cases hn with
  | blankLine hk => simp [awaits, hk] at hdue
  | paragraph hk _ => simp [awaits, hk] at hdue
  | code hk _ => simp [awaits_code hk] at hdue
  | list hk _ _ => simp [Node.kind, Node.head, hk, Kind.isListPart] at hpart
  | item hk _ => simp [Node.kind, Node.head, hk, Kind.isListPart] at hpart
  | @thematicBreak h hk =>
    have hbare : EndsBare (write w (.leaf h) s).1 := by
      rw [write, hk]
      exact ⟨s.lead ++ "* * ".toList, '*', by simp [writeLeaf, writeThematicBreak], by decide⟩
    simpa [givesBlankLine] using hbare.not_endsEmpty front
  | @table h _ rows hk hrows =>
    obtain ⟨u, hu⟩ := (write_table hk hrows w s).1.stop
    have hbare : EndsBare (write w (.branch h rows) s).1 := ⟨u, '|', hu.symm, by decide⟩
    simpa [givesBlankLine, hk, Kind.isHeading] using hbare.not_endsEmpty front
  | @heading h level cs hk hcs =>
    have hheading : h.kind.isHeading := by rcases hk with hk | hk <;> rw [hk] <;> rfl
    rw [write_heading hk hcs, givesBlankLine, hheading, Bool.true_and, Bool.not_eq_true']
    rw [← endsEmpty_heading_iff (front ++ (s.lead ++ repeated level '#' ++ [' ']))]
    simp only [append_assoc]
  | @quote h cs hk hcs =>
    -- the word was left inside the quote, so there is a heading in it and a line to end with
    rw [awaits, hk] at hdue
    have hmem := (inTurn_writeAll w cs (insideQuote s)).space_mem
      (fun c hc => (hcs c hc).spacious w) hdue
    have hbare : EndsBare (write w (.branch h cs) s).1 := by
      rw [write_quote w cs s hk]
      exact endsBare_dropEndNewlines (by decide) hmem
    simpa [givesBlankLine, hk, Kind.isHeading] using hbare.not_endsEmpty front
  | @alert h label cs hk _ hcs =>
    rw [awaits, hk] at hdue
    have hmem := (inTurn_writeAll w cs (insideQuote s)).space_mem
      (fun c hc => (hcs c hc).spacious w) hdue
    have hbare : EndsBare (write w (.branch h cs) s).1 := by
      rw [write_alert w cs s hk]
      exact (endsBare_dropEndNewlines (by decide) hmem).append _
    simpa [givesBlankLine, hk, Kind.isHeading] using hbare.not_endsEmpty front

/-- Blank lines at the left margin: all that stand there, less the one that is left out. -/
theorem writeAll_blankLines (w : Writer) {blanks : List Node}
    (h : ∀ n ∈ blanks, ∃ head : Head, n = .leaf head ∧ head.kind = .blankLine) {s : WriterState}
    (hlead : s.lead = []) (hindent : s.indent = []) :
    (writeAll w blanks s).1 = replicate (blanks.length - s.blankLineDone.toNat) '\n' := by
  induction blanks generalizing s with
  | nil => simp
  | cons n blanks ih =>
    obtain ⟨head, rfl, hk⟩ := h n (by simp)
    have hrest : ∀ s' : WriterState, s'.lead = [] → s'.indent = [] → (writeAll w blanks s').1
        = replicate (blanks.length - s'.blankLineDone.toNat) '\n' :=
      fun s' => ih fun m hm => h m (by simp [hm])
    rw [writeAll_cons, write, hk, writeLeaf, writeBlankLine]
    -- written or left out, the first one uses the word up
    cases hdue : s.blankLineDone with
    | true =>
      simp [hrest { s with blankLineDone := false } hlead hindent]
    | false =>
      have hlater := hrest { s with itemBreakDone := true, blankLineDone := false }.nextBlock
        hindent hindent
      simp only [WriterState.nextBlock] at hlater
      simp [WriterState.nextBlock, hlead, isBlankText, hlater, replicate_succ]

theorem margin_writeAll (w : Writer) (references : List Reference) (ns : List Node) :
    (writeDocument w references ns).2.lead = [] ∧ (writeDocument w references ns).2.indent = [] := by
  have hframe := frame_writeAll w ns { references := some references }
  exact ⟨by rcases hframe.lead with h | h <;> exact h, hframe.indent⟩

/-- **When the blank line between two blocks is lost.** Take the children of a document up to `a`,
some blank lines, and `b`. What is written before `b` ends with an empty line if there are two blank
lines or more, or if none is to be left out after `a`, or if what was written up to `a` ends with an
empty line itself; and otherwise it does not. The last holds, where the blank line is left out,
exactly if `a` closes with a heading that gives a blank line, a list with nothing at its end aside. -/
theorem separating_blank_line_iff (w : Writer) (references : List Reference)
    {front blanks : List Node} {a : Node}
    (hblocks : ∀ n ∈ front ++ [a], IsBlock (fun _ => True) n) (hne : blanks ≠ [])
    (hblanks : ∀ n ∈ blanks, ∃ head : Head, n = .leaf head ∧ head.kind = .blankLine)
    (b : Node) (back : List Node) (span : Option (Nat × Nat)) :
    let before := writeDocument w references (front ++ [a])
    let upto := writeDocument w references (front ++ [a] ++ blanks)
    let leftOut := awaitsAll w (some references) (front ++ [a]) false
    (∃ rest, render w (.branch ⟨.document references, span⟩ (front ++ [a] ++ blanks ++ b :: back))
      = upto.1 ++ ((write w b upto.2).1 ++ rest)) ∧
    (EndsEmpty upto.1 ↔ 2 ≤ blanks.length ∨ leftOut = false ∨ EndsEmpty before.1) ∧
    (leftOut = true → (closing a).kind.isListPart = false →
      (EndsEmpty before.1 ↔ givesBlankLine w (some references) (closing a) = true)) := by
  intro before upto leftOut
  have hflag : before.2.blankLineDone = leftOut :=
    (inTurn_writeAll w _ _).blankLineDone_eq fun n hn => (hblocks n hn).followed w
  have hended : Ended before.1 := ended_writeAll (fun n hn => (hblocks n hn).ended w) _
  obtain ⟨hlead, hindent⟩ := margin_writeAll w references (front ++ [a])
  refine ⟨⟨(writeAll w back (write w b upto.2).2).1, ?_⟩, ?_, ?_⟩
  · rw [render_document w rfl, writeDocument, writeAll_append, writeAll_cons]
    rfl
  · have hupto : upto.1
        = before.1 ++ replicate (blanks.length - leftOut.toNat) '\n' := by
      change (writeAll w (front ++ [a] ++ blanks) _).1 = _
      rw [writeAll_append, ← hflag]
      exact congrArg _ (writeAll_blankLines w hblanks hlead hindent)
    have hpos := length_pos_iff.2 hne
    -- one line feed more than none is an empty line, whatever was written before
    rw [hupto, hended.endsEmpty_replicate_iff]
    cases leftOut with
    | true =>
      have hiff : 0 < blanks.length - 1 ↔ 2 ≤ blanks.length := by omega
      simp [hiff]
    | false => simp [hpos]
  · intro hleft hpart
    have ha : IsBlock (fun _ => True) a := hblocks a (by simp)
    obtain ⟨start, hstart⟩ : ∃ start, writeDocument w references front = start := ⟨_, rfl⟩
    have hbefore : before = (start.1 ++ (write w a start.2).1, (write w a start.2).2) := by
      change writeAll w (front ++ [a]) _ = _
      rw [writeAll_append, ← hstart]
      simp [writeAll_cons, writeDocument]
    have hreferences : start.2.references = some references := by
      rw [← hstart]
      exact (frame_writeAll w front _).references
    -- `a` ends like the block that closes it, which was written in some state inside `a`
    obtain ⟨hclosing, hends⟩ := ha.endsLike w
    obtain ⟨u, s', htext, hsame, hturn⟩ := hends start.2
    rw [hbefore] at hflag ⊢
    rw [htext, ← append_assoc, ← hreferences, ← hsame]
    exact hclosing.endsEmpty_iff hpart w s' (by rw [← hturn, hflag, hleft]) _

/-- After a heading and a rule, the second of two blank lines is written. -/
theorem second_blank_line_after_rule_kept :
    EndsEmpty (writeDocument { wrap := Wrap.toWidth .codePoints true 80 } []
      ([.branch ⟨.heading 1, none⟩ [.text ⟨.rawText, none⟩ ['T']]] ++ [.leaf ⟨.thematicBreak, none⟩] ++
        [.leaf ⟨.blankLine, none⟩, .leaf ⟨.blankLine, none⟩])).1 := by
  have hblocks : ∀ n ∈ [Node.branch ⟨.heading 1, none⟩ [.text ⟨.rawText, none⟩ ['T']]] ++
      [.leaf ⟨.thematicBreak, none⟩], IsBlock (fun _ => True) n := by
    simpa using ⟨.heading (.inl rfl) (by simpa using .text rfl), .thematicBreak rfl⟩
  exact (separating_blank_line_iff _ [] hblocks (by simp) (by simp) (.leaf ⟨.thematicBreak, none⟩) []
    none).2.1.2 (.inl le_rfl)

/-- After a heading and a rule, a single blank line is lost. -/
theorem blank_line_after_rule_lost :
    ¬ EndsEmpty (writeDocument { wrap := Wrap.toWidth .codePoints true 80 } []
        [.branch ⟨.heading 1, none⟩ [.text ⟨.rawText, none⟩ ['T']], .leaf ⟨.thematicBreak, none⟩,
          .leaf ⟨.blankLine, none⟩]).1 ∧
      render { wrap := Wrap.toWidth .codePoints true 80 } (.branch ⟨.document [], none⟩
        [.branch ⟨.heading 1, none⟩ [.text ⟨.rawText, none⟩ ['T']], .leaf ⟨.thematicBreak, none⟩,
          .leaf ⟨.blankLine, none⟩,
          .branch ⟨.paragraph none, none⟩ [.text ⟨.rawText, none⟩ ['x']]])
        = "# T\n\n* * *\nx\n".toList := by
  decide +kernel

end Reflow.Document
