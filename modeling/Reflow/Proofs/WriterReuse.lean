import Reflow.Proofs.Writing
import Reflow.Wrap.LineWrapper

/-!
Writing one document after another with the same writer.

Three things of the state stay as the document before has left them: whether the next item of a
loose list was set off, whether the next blank line is left out, and the inline text so far.
`settle` follows such a difference through a document: a node can show it, set it right, or pass it
on.
-/

namespace Reflow.Document

open Text

variable (w : Writer)

/-! ## Following a difference -/

/-- What of the state can be other than in a writer that has written nothing. -/
structure Trace where
  /-- Whether the next item needs no blank line before it. -/
  item : Bool := false
  /-- Whether the next blank line is left out. -/
  blank : Bool := false
  /-- The inline text so far, the blanks at its start aside. -/
  inline : Bool := false
deriving DecidableEq, Repr

/-- The states agree on all but what the trace names. -/
structure WriterState.Alike (d : Trace) (s s' : WriterState) : Prop where
  lead : s'.lead = s.lead
  indent : s'.indent = s.indent
  inHeading : s'.inHeading = s.inHeading
  tight : s'.tight = s.tight
  references : s'.references = s.references
  item : d.item = false → s'.itemBreakDone = s.itemBreakDone
  blank : d.blank = false → s'.blankLineDone = s.blankLineDone
  inline : d.inline = false → stripLeft s'.inlineText = stripLeft s.inlineText

/-- What is left of a trace after a node without content; nothing if the node shows it. -/
def settleLeaf (kind : Kind) (s : WriterState) (d : Trace) : Option Trace :=
  match kind with
  | .blankLine =>
    if d.blank then none else some (if s.blankLineDone then d else { d with item := false })
  | .linkDefinition _ => some { d with item := false }
  | _ => some d

/-- What is left of a trace after a node that holds text: an escaped point that does not stand in a
heading looks at the inline text before it. -/
def settleText (kind : Kind) (t : Text) (s : WriterState) (d : Trace) : Option Trace :=
  if d.inline && kind = .literal && t = ['.'] && !s.inHeading then none else some d

mutual

/-- What is left of a trace after a node is written from the state `s`; nothing if the node shows some
of it. -/
def settle (w : Writer) (n : Node) (s : WriterState) (d : Trace) : Option Trace :=
  match n with
  | .leaf h => settleLeaf h.kind s d
  | .text h t => settleText h.kind t s d
  | .branch h cs =>
    match h.kind with
    | .paragraph _ => some {}
    | .heading _ | .underlinedHeading _ =>
      (settleAll w cs (beginHeading s) { d with inline := false }).map fun left =>
        if (writeAll w cs (beginHeading s)).1.endsWith ['\\'] then { left with inline := false }
        else {}
    | .list shape =>
      settleItems w shape 0 cs (insideList w shape cs s) { d with blank := false }
    | .listItem => if d.item && !s.tight then none else settleAll w cs (beginItem s).2 d
    | .quote | .alert _ =>
      (settleAll w cs (insideQuote s) { d with blank := false }).map ({ · with item := false })
    | .footnoteDefinition label =>
      (settleAll w cs (s.enter (['[', '^'] ++ label ++ [']', ':', ' ']) (repeated 4 ' ')) d).map
        ({ · with item := false })
    | .indentedCode | .fencedCode _ | .fencedBlock _ _ =>
      some { d with item := false, blank := false }
    | .autolink _ | .bareUrl _ => some d
    | _ => settleAll w cs s d

/-- What is left of a trace after nodes that are written one after the other. -/
def settleAll (w : Writer) (ns : List Node) (s : WriterState) (d : Trace) : Option Trace :=
  match ns with
  | [] => some d
  | n :: rest => (settle w n s d).bind (settleAll w rest (write w n s).2)

/-- What is left of a trace after the items of a list from a given index on. -/
def settleItems (w : Writer) (shape : ListShape) (index : Nat) (ns : List Node) (s : WriterState)
    (d : Trace) : Option Trace :=
  match ns with
  | [] => some d
  | n :: rest =>
    (settle w n (s.enter (itemMarker shape index) (itemIndent shape index)) d).bind
      (settleItems w shape (index + 1) rest
        ((write w n (s.enter (itemMarker shape index) (itemIndent shape index))).2.leave s))

end

/-! ### Steps of the writer in two states that are alike -/

namespace WriterState.Alike

variable {d : Trace} {s s' : WriterState} (h : s.Alike d s')
include h

theorem setItem (done : Bool) : Alike { d with item := false } { s with itemBreakDone := done }
      { s' with itemBreakDone := done } :=
  { h with item := fun _ => rfl }

theorem setBlank (done : Bool) : Alike { d with blank := false } { s with blankLineDone := done }
      { s' with blankLineDone := done } :=
  { h with blank := fun _ => rfl }

theorem clearInline :
    Alike { d with inline := false } { s with inlineText := [] } { s' with inlineText := [] } :=
  { h with inline := fun _ => rfl }

theorem setHeading (inHeading : Bool) : Alike d { s with inHeading } { s' with inHeading } :=
  { h with inHeading := rfl }

theorem setTight (tight : Bool) : Alike d { s with tight } { s' with tight } :=
  { h with tight := rfl }

theorem nextBlock : Alike d s.nextBlock s'.nextBlock := { h with lead := h.indent }

theorem enter (lead indent : Text) : Alike d (s.enter lead indent) (s'.enter lead indent) :=
  { h with
    lead := congrArg (· ++ lead) h.lead
    indent := congrArg (· ++ indent) h.indent }

theorem leave {e : Trace} {outer outer' : WriterState} (houter : outer.Alike e outer') :
    Alike d (s.leave outer) (s'.leave outer') :=
  { h with lead := houter.lead, indent := houter.indent }

theorem insideQuote :
    Alike { d with blank := false } (insideQuote s) (insideQuote s') :=
  (h.setBlank false).enter quoteMark quoteMark

theorem addInline (t : Text) : Alike d (s.addInline t) (s'.addInline t) :=
  { h with
    inline := fun hd => by
      have hsame := h.inline hd
      simp only [WriterState.addInline, stripLeft, List.dropWhile_append] at hsame ⊢
      rw [hsame] }

end WriterState.Alike

/-- The same text, and states that are alike after it. -/
structure Written.Alike (d : Trace) (r r' : Written) : Prop where
  text : r'.1 = r.1
  state : r.2.Alike d r'.2

section Steps

variable {d : Trace} {s s' : WriterState} (h : s.Alike d s')
include h

theorem alike_writeLeaf {kind : Kind} {left : Trace} (hleft : settleLeaf kind s d = some left) :
    Written.Alike left (writeLeaf kind s) (writeLeaf kind s') := by
  cases kind with
  | blankLine =>
    simp only [settleLeaf] at hleft
    split at hleft
    · cases hleft
    · next hblank =>
      simp only [Bool.not_eq_true] at hblank
      have hsame := h.blank hblank
      cases hleft
      simp only [writeLeaf, writeBlankLine]
      -- where the blank line is left out, nothing is said about the next item
      by_cases hdone : s.blankLineDone
      · rw [if_pos hdone, if_pos hdone, if_pos (hsame.trans hdone)]
        exact ⟨rfl, { h with blank := fun _ => rfl }⟩
      · have hdone' : ¬ s'.blankLineDone := by rwa [hsame]
        rw [if_neg hdone, if_neg hdone, if_neg hdone']
        exact ⟨by simp only [h.lead], (h.setItem true).nextBlock⟩
  | thematicBreak =>
    cases hleft
    exact ⟨by simp only [writeLeaf, writeThematicBreak, h.lead], h.nextBlock⟩
  | htmlBlock body =>
    cases hleft
    exact ⟨by simp only [writeLeaf, h.lead], h.nextBlock⟩
  | linkDefinition r =>
    cases hleft
    exact ⟨by simp only [writeLeaf, writeLinkDefinition, h.lead], (h.setItem true).nextBlock⟩
  | _ =>
    cases hleft
    exact ⟨rfl, h⟩

theorem alike_writeText {kind : Kind} {t : Text} {left : Trace}
    (hleft : settleText kind t s d = some left) :
    Written.Alike left (writeText kind t s) (writeText kind t s') := by
  unfold settleText at hleft
  split at hleft
  · cases hleft
  · next hreads =>
    cases hleft
    cases kind with
    | rawText => exact ⟨rfl, h.addInline (spaceIdeographs t)⟩
    | literal =>
      simp only [writeText, writeLiteral, h.inHeading]
      by_cases hpoint : t = ['.']
      · cases hheading : s.inHeading with
        | true => simpa [hpoint] using ⟨rfl, h.addInline ['.']⟩
        | false =>
          have hsame := h.inline (by simpa [hpoint, hheading] using hreads)
          simp only [hsame]
          split
          · exact ⟨rfl, h.addInline _⟩
          · simp only [Bool.false_eq_true, if_false]
            split
            · exact ⟨rfl, h.addInline _⟩
            · exact ⟨rfl, h.addInline _⟩
      · simpa [hpoint] using ⟨rfl, h.addInline _⟩
    | _ => exact ⟨rfl, h⟩

theorem alike_beginItem (hitem : (d.item && !s.tight) = false) :
    Written.Alike d (beginItem s) (beginItem s') := by
  unfold beginItem
  by_cases htight : s.tight
  · rw [if_pos htight, if_pos (h.tight.trans htight)]
    exact ⟨rfl, h⟩
  · have hsame := h.item (by simpa [htight] using hitem)
    have htight' : ¬ s'.tight := by rwa [h.tight]
    rw [if_neg htight, if_neg htight']
    by_cases hdone : s.itemBreakDone
    · rw [if_pos hdone, if_pos (hsame.trans hdone)]
      exact ⟨rfl, { h with item := fun _ => rfl }⟩
    · have hdone' : ¬ s'.itemBreakDone := by rwa [hsame]
      rw [if_neg hdone, if_neg hdone']
      exact ⟨by simp only [h.indent], h⟩

theorem alike_endHeading (level : Nat) (t : Text) :
    Written.Alike (if t.endsWith ['\\'] then { d with inline := false } else {})
      (endHeading level t s) (endHeading level t s') := by
  have hafter := (h.setHeading false).clearInline.nextBlock
  simp only [endHeading, h.lead]
  split
  · exact ⟨rfl, hafter⟩
  · exact ⟨rfl, (hafter.setBlank true).setItem true⟩

theorem alike_endParagraph (w : Writer) (checked : Option Bool) (t : Text) :
    Written.Alike { d with inline := false } (endParagraph w checked t s)
      (endParagraph w checked t s') :=
  ⟨by simp only [endParagraph, h.lead, h.indent], h.clearInline.nextBlock⟩

theorem alike_endQuote {e : Trace} {outer outer' : WriterState} (houter : outer.Alike e outer')
    (t : Text) :
    Written.Alike { d with item := false } (endQuote t outer s) (endQuote t outer' s') :=
  ⟨rfl, (h.leave houter).nextBlock.setItem false⟩

theorem alike_writeCode (info : FenceInfo) (fence : Fence) (code : Text) :
    Written.Alike { d with item := false, blank := false } (writeCode info fence code s)
      (writeCode info fence code s') :=
  ⟨by simp only [writeCode, h.lead, h.indent], ((h.setBlank false).setItem false).nextBlock⟩

end Steps

/-! ### Whole trees -/

/-- Where the node shows nothing of a difference, its text is the same, and what it leaves of the
difference is what `settle` says. -/
def Settles (w : Writer) (n : Node) : Prop :=
  ∀ s s' d left, s.Alike d s' → settle w n s d = some left →
    Written.Alike left (write w n s) (write w n s')

section Lists

variable {s s' : WriterState} {d left : Trace}

variable {w : Writer} {ns : List Node} (h : ∀ n ∈ ns, Settles w n)
include h

theorem alike_writeAll (hs : s.Alike d s') (hleft : settleAll w ns s d = some left) :
    Written.Alike left (writeAll w ns s) (writeAll w ns s') := by
  induction ns generalizing s s' d with
  | nil =>
    cases hleft
    simpa using ⟨rfl, hs⟩
  | cons n ns ih =>
    obtain ⟨between, hn, hns⟩ := Option.bind_eq_some_iff.1 hleft
    have hfirst := h n (by simp) s s' d between hs hn
    have hrest := ih (fun m hm => h m (by simp [hm])) hfirst.state hns
    rw [writeAll_cons, writeAll_cons]
    exact ⟨by rw [hfirst.text, hrest.text], hrest.state⟩

theorem alike_writeItems (shape : ListShape) {index : Nat} (hs : s.Alike d s')
    (hleft : settleItems w shape index ns s d = some left) :
    Written.Alike left (writeItems w shape index ns s) (writeItems w shape index ns s') := by
  induction ns generalizing index s s' d with
  | nil =>
    cases hleft
    exact ⟨rfl, hs⟩
  | cons n ns ih =>
    obtain ⟨between, hn, hns⟩ := Option.bind_eq_some_iff.1 hleft
    have hfirst := h n (by simp) _ _ d between
      (hs.enter (itemMarker shape index) (itemIndent shape index)) hn
    have hrest := ih (fun m hm => h m (by simp [hm])) (hfirst.state.leave hs) hns
    rw [writeItems_cons, writeItems_cons]
    exact ⟨by rw [hfirst.text, hrest.text], hrest.state⟩

theorem alike_writeCells (hs : s.Alike d s') (hleft : settleAll w ns s d = some left) :
    (writeCells w ns s').1 = (writeCells w ns s).1 ∧
      (writeCells w ns s).2.Alike left (writeCells w ns s').2 := by
  induction ns generalizing s s' d with
  | nil =>
    cases hleft
    simpa [writeCells] using hs
  | cons n ns ih =>
    obtain ⟨between, hn, hns⟩ := Option.bind_eq_some_iff.1 hleft
    have hfirst := h n (by simp) s s' d between hs hn
    obtain ⟨hcells, hstate⟩ := ih (fun m hm => h m (by simp [hm])) hfirst.state hns
    rw [writeCells, writeCells]
    exact ⟨by simp only [hfirst.text, hcells], hstate⟩

end Lists

section Clear

variable {w : Writer} {ns : List Node} (h : ∀ n ∈ ns, ∀ s, settle w n s {} = some {})
include h

theorem settleAll_clear (s : WriterState) : settleAll w ns s {} = some {} := by
  induction ns generalizing s with
  | nil => rw [settleAll]
  | cons n ns ih =>
    rw [settleAll, h n (by simp) s]
    exact ih (fun m hm => h m (by simp [hm])) _

theorem settleItems_clear (shape : ListShape) (index : Nat) (s : WriterState) :
    settleItems w shape index ns s {} = some {} := by
  induction ns generalizing index s with
  | nil => rw [settleItems]
  | cons n ns ih =>
    rw [settleItems, h n (by simp)]
    exact ih (fun m hm => h m (by simp [hm])) _ _

end Clear

theorem settle_clear (n : Node) (s : WriterState) : settle w n s {} = some {} := by
  induction n using Node.induct generalizing s with
  | leaf h =>
    rw [settle]
    cases h.kind with
    | blankLine => simp [settleLeaf]
    | _ => rfl
  | text h t => simp [settle, settleText]
  | branch h cs ih =>
    have hall := fun s => settleAll_clear ih s
    cases hk : h.kind with
    | heading level | underlinedHeading level => simp [settle, hk, hall]
    | list shape => simpa [settle, hk] using settleItems_clear ih shape 0 _
    | listItem => simpa [settle, hk] using hall _
    | quote | alert label | footnoteDefinition label => simp [settle, hk, hall]
    | paragraph checked | indentedCode | fencedCode info | fencedBlock info fence
    | autolink address | bareUrl address => simp [settle, hk]
    | _ => simpa [settle, hk] using hall s

/-- **A difference that a node does not show makes none to its text.** -/
theorem settles (n : Node) : Settles w n := by
  induction n using Node.induct with
  | leaf h =>
    intro s s' d left hs hleft
    exact alike_writeLeaf hs hleft
  | text h t =>
    intro s s' d left hs hleft
    exact alike_writeText hs hleft
  | branch h cs ih =>
    intro s s' d left hs hleft
    cases hk : h.kind with
    | paragraph checked =>
      simp only [settle, hk, Option.some.injEq] at hleft
      subst hleft
      -- the paragraph sets all three before its children are written
      have hbegin : (beginParagraph s).Alike {} (beginParagraph s') :=
        ((hs.setBlank false).setItem false).clearInline
      have hall := alike_writeAll ih hbegin (settleAll_clear (fun c _ => settle_clear w c) _)
      simp only [write, hk, hall.text]
      exact alike_endParagraph hall.state w checked _
    | heading level | underlinedHeading level =>
      simp only [settle, hk] at hleft
      obtain ⟨inside, hinside, rfl⟩ := Option.map_eq_some_iff.1 hleft
      have hbegin : (beginHeading s).Alike { d with inline := false } (beginHeading s') :=
        (hs.setHeading true).clearInline
      have hall := alike_writeAll ih hbegin hinside
      simp only [write, hk, hall.text]
      exact alike_endHeading hall.state level _
    | list shape =>
      simp only [settle, hk] at hleft
      have hbegin : (insideList w shape cs s).Alike { d with blank := false }
          (insideList w shape cs s') := (hs.setBlank false).setTight _
      have hitems := alike_writeItems ih shape hbegin hleft
      rw [write_list w cs s hk, write_list w cs s' hk, hs.tight]
      exact ⟨hitems.text, (hitems.state.setTight s.tight).nextBlock⟩
    | listItem =>
      simp only [settle, hk] at hleft
      split at hleft
      · cases hleft
      · next hitem =>
        have hgap := alike_beginItem hs (by simpa using hitem)
        have hall := alike_writeAll ih hgap.state hleft
        rw [write_item w cs s hk, write_item w cs s' hk]
        exact ⟨by rw [hgap.text, hall.text], hall.state⟩
    | quote =>
      simp only [settle, hk] at hleft
      obtain ⟨inside, hinside, rfl⟩ := Option.map_eq_some_iff.1 hleft
      have hall := alike_writeAll ih hs.insideQuote hinside
      rw [write_quote w cs s hk, write_quote w cs s' hk, hall.text]
      exact alike_endQuote hall.state hs _
    | alert label =>
      simp only [settle, hk] at hleft
      obtain ⟨inside, hinside, rfl⟩ := Option.map_eq_some_iff.1 hleft
      have hall := alike_writeAll ih hs.insideQuote hinside
      rw [write_alert w cs s hk, write_alert w cs s' hk, hall.text]
      have hend := alike_endQuote hall.state hs (writeAll w cs (insideQuote s)).1
      exact ⟨by rw [hend.text], hend.state⟩
    | footnoteDefinition label =>
      simp only [settle, hk] at hleft
      obtain ⟨inside, hinside, rfl⟩ := Option.map_eq_some_iff.1 hleft
      have hall := alike_writeAll ih (hs.enter _ _) hinside
      simp only [write, hk, hall.text]
      exact ⟨rfl, (hall.state.leave hs).nextBlock.setItem true⟩
    | indentedCode | fencedCode info | fencedBlock info fence =>
      simp only [settle, hk, Option.some.injEq] at hleft
      subst hleft
      simp only [write, hk]
      exact alike_writeCode hs _ _ _
    | autolink address | bareUrl address =>
      simp only [settle, hk, Option.some.injEq] at hleft
      subst hleft
      simp only [write, hk]
      exact ⟨rfl, hs⟩
    | table delimiters =>
      simp only [settle, hk] at hleft
      cases cs with
      | nil =>
        cases hleft
        simp only [write, hk]
        exact ⟨rfl, hs⟩
      | cons header rows =>
        obtain ⟨between, hheader, hrows⟩ := Option.bind_eq_some_iff.1 hleft
        have hfirst := ih header (by simp) s s' d between hs hheader
        have hrest := alike_writeAll (fun r hr => ih r (by simp [hr])) hfirst.state hrows
        simp only [write, hk]
        exact ⟨by rw [hfirst.text, hrest.text], hrest.state⟩
    | tableRow =>
      simp only [settle, hk] at hleft
      obtain ⟨hcells, hstate⟩ := alike_writeCells ih hs hleft
      simp only [write, hk]
      exact ⟨by rw [hcells], hstate⟩
    | link target =>
      simp only [settle, hk] at hleft
      have hall := alike_writeAll ih hs hleft
      simp only [write, hk]
      exact ⟨by simp only [hall.text, hall.state.references], hall.state⟩
    | _ =>
      simp only [settle, hk] at hleft
      have hall := alike_writeAll ih hs hleft
      simp only [write, hk]
      exact ⟨by simp only [hall.text], hall.state⟩

/-! ## A second document -/

/-- What a writer that has written something carries over to the next document. -/
def WriterState.trace (s : WriterState) : Trace where
  item := !s.itemBreakDone
  blank := s.blankLineDone
  inline := !isBlankText s.inlineText

/-- Write a document with a new writer, under link targets that need not be its own. -/
def renderUnder (w : Writer) (references : List Reference) (n : Node) : Text :=
  (write w n { references := some references }).1

theorem render_eq_renderUnder (n : Node) : render w n = renderUnder w n.references n :=
  rfl

/-- The state in which a new writer has written a document. -/
def leftBy (w : Writer) (first : Node) : WriterState := (writeAgain w first {}).2

theorem frame_leftBy (first : Node) :
    WriterState.Frame { references := some first.references } (leftBy w first) :=
  frame_write w first _

theorem stripLeft_of_isBlankText {t : Text} (h : isBlankText t) : stripLeft t = [] := by
  rw [stripLeft]
  simpa [isBlankText] using h

theorem alike_begin (first second : Node) :
    WriterState.Alike (leftBy w first).trace { references := some first.references }
      ((leftBy w first).begin second) := by
  have hframe := frame_leftBy w first
  refine ⟨rfl, rfl, hframe.inHeading rfl, hframe.tight, ?_, ?_, ?_, ?_⟩
  · simp [WriterState.begin, hframe.references]
  · simp [WriterState.trace, WriterState.begin]
  · simp [WriterState.trace, WriterState.begin]
  · intro hblank
    apply stripLeft_of_isBlankText
    simpa [WriterState.trace, WriterState.begin] using hblank

/-- The second document shows nothing of what the first one has left. -/
def Unseen (w : Writer) (first second : Node) : Prop :=
  (settle w second { references := some first.references } (leftBy w first).trace).isSome = true

instance (w : Writer) (first second : Node) : Decidable (Unseen w first second) :=
  inferInstanceAs (Decidable (_ = _))

theorem Unseen.writeAgain_eq {w : Writer} {first second : Node} (h : Unseen w first second) :
    (writeAgain w second (leftBy w first)).1 = renderUnder w first.references second := by
  obtain ⟨left, hleft⟩ := Option.isSome_iff_exists.1 h
  exact (settles w second _ _ _ left (alike_begin w first second) hleft).text

theorem unseen_of_trace_eq {w : Writer} {first : Node} (h : (leftBy w first).trace = {})
    (second : Node) : Unseen w first second := by
  rw [Unseen, h, settle_clear]
  rfl

/-- A paragraph sets everything right, so that a document which opens with one can be written after
any other. -/
theorem unseen_of_opening_paragraph (first : Node) {h head : Head} {references : List Reference}
    {checked : Option Bool} (hk : h.kind = .document references)
    (hhead : head.kind = .paragraph checked) (cs rest : List Node) :
    Unseen w first (.branch h (.branch head cs :: rest)) := by
  simp [Unseen, settle, hk, settleAll, hhead, settleAll_clear (fun n _ => settle_clear w n)]

/-! ### Documents that show a trace -/

section Shown

variable {w : Writer} {references : List Reference} {s : WriterState}

/-- A document of a single blank line. -/
def blankDocument (references : List Reference) : Node :=
  .branch ⟨.document references, none⟩ [.leaf ⟨.blankLine, none⟩]

theorem write_blankDocument (hlead : s.lead = []) :
    (write w (blankDocument references) s).1 = if s.blankLineDone then [] else ['\n'] := by
  simp only [blankDocument, write, writeAll, writeLeaf, writeBlankLine, hlead]
  split <;> simp [isBlankText]

/-- A document of a list that is loose for every writer: its one item has two rules in it. -/
def looseDocument (references : List Reference) : Node :=
  .branch ⟨.document references, none⟩
    [.branch ⟨.list ⟨false, 1, ['-'], false⟩, none⟩
      [.branch ⟨.listItem, none⟩ [.leaf ⟨.thematicBreak, none⟩, .leaf ⟨.thematicBreak, none⟩]]]

theorem write_looseDocument (hlead : s.lead = []) (hindent : s.indent = []) :
    (write w (looseDocument references) s).1
      = (if s.itemBreakDone then [] else ['\n']) ++ "- * * *\n  * * *\n".toList := by
  have htight : isTight w ⟨false, 1, ['-'], false⟩
      [.branch ⟨.listItem, none⟩ [.leaf ⟨.thematicBreak, none⟩, .leaf ⟨.thematicBreak, none⟩]]
      = false := by
    unfold isTight
    cases w.spacing <;> simp [canBeTight]
  simp only [looseDocument, write, writeAll, writeItems, htight, beginItem, WriterState.enter,
    hlead, hindent, itemMarker, itemIndent, writeLeaf, writeThematicBreak, Bool.false_eq_true,
    if_false]
  cases s.itemBreakDone <;> rfl

/-- A document of a numeral, which may be empty, and an escaped point. -/
def pointDocument (references : List Reference) (numeral : Text) : Node :=
  .branch ⟨.document references, none⟩
    [.text ⟨.rawText, none⟩ numeral, .text ⟨.literal, none⟩ ['.']]

theorem write_pointDocument (hheading : s.inHeading = false) (numeral : Text) :
    (write w (pointDocument references numeral) s).1
      = spaceIdeographs numeral ++
        if (!(stripLeft (s.inlineText ++ spaceIdeographs numeral)).isEmpty &&
          (stripLeft (s.inlineText ++ spaceIdeographs numeral)).all isDigitLike) then ['\\', '.']
        else ['.'] := by
  simp only [pointDocument, write, writeAll, writeText, writeRawText, writeLiteral,
    WriterState.addInline, hheading, List.append_nil, bne_self_eq_false, Bool.false_eq_true, if_false]
  split <;> rfl

/-- Text that is not blank can be told from none by what is escaped after it. -/
theorem exists_pointDocument (w : Writer) (references : List Reference) {s s' : WriterState}
    (hheading : s.inHeading = false) (hheading' : s'.inHeading = false)
    (hblank : s.inlineText = []) (hvisible : isBlankText s'.inlineText = false) :
    ∃ numeral, (write w (pointDocument references numeral) s').1
      ≠ (write w (pointDocument references numeral) s).1 := by
  have hne : stripLeft s'.inlineText ≠ [] := by
    intro hnil
    rw [stripLeft, List.dropWhile_eq_nil_iff] at hnil
    rw [isBlankText, List.all_eq_true.2 hnil] at hvisible
    cases hvisible
  cases hdigits : (stripLeft s'.inlineText).all isDigitLike with
  | true =>
    -- after digits the point alone is escaped
    refine ⟨[], ?_⟩
    rw [write_pointDocument hheading, write_pointDocument hheading', hblank]
    have hfresh : stripLeft [] = [] := rfl
    simp [spaceIdeographs, hdigits, hne, hfresh]
  | false =>
    -- after anything else a digit before the point no longer stands at the start
    refine ⟨['1'], ?_⟩
    have hone : isDigitLike '1' := by decide
    have happend : stripLeft (s'.inlineText ++ ['1']) = stripLeft s'.inlineText ++ ['1'] := by
      simp only [stripLeft] at hne ⊢
      simp [List.dropWhile_append, hne]
    have hfresh : stripLeft ['1'] = ['1'] := by decide
    rw [write_pointDocument hheading, write_pointDocument hheading', hblank]
    simp [spaceIdeographs, happend, hdigits, hfresh, hone]

end Shown

/-- **When a writer can be used again.** A document written after another has the text that a new
writer gives it under the link targets of the first, unless it shows a trace of the first. And for
every first document, this holds of every second one with the same link targets if and only if the
first leaves no trace: no blank line is to be left out after it, the next item needs no blank line
before it, and no visible text was taken up since its last paragraph or heading. -/
theorem reused_writer_iff (w : Writer) (first : Node) :
    (∀ second, Unseen w first second →
      (writeAgain w second (leftBy w first)).1 = renderUnder w first.references second) ∧
    ((∀ second, second.references = first.references →
        (writeAgain w second (leftBy w first)).1 = render w second) ↔
      (leftBy w first).trace = {}) := by
  refine ⟨fun second => Unseen.writeAgain_eq, ?_, ?_⟩
  · intro hall
    have hframe := frame_leftBy w first
    -- each of the three is shown by a document of its own
    have hitem : (leftBy w first).itemBreakDone = true := by
      have hloose := hall (looseDocument first.references) rfl
      rw [writeAgain, render, writeAgain, write_looseDocument rfl rfl, write_looseDocument rfl rfl]
        at hloose
      by_contra hdone
      simpa [WriterState.begin, hdone] using congrArg List.length hloose
    have hblank : (leftBy w first).blankLineDone = false := by
      have hblank := hall (blankDocument first.references) rfl
      rw [writeAgain, render, writeAgain, write_blankDocument rfl, write_blankDocument rfl] at hblank
      cases hdone : (leftBy w first).blankLineDone with
      | true => simp [WriterState.begin, hdone] at hblank
      | false => rfl
    have hinline : isBlankText (leftBy w first).inlineText = true := by
      cases hvisible : isBlankText (leftBy w first).inlineText with
      | true => rfl
      | false =>
        have hheading : ((leftBy w first).begin (pointDocument first.references [])).inHeading
            = false := hframe.inHeading rfl
        obtain ⟨numeral, hdiffers⟩ := exists_pointDocument w first.references
          (show WriterState.inHeading { references := some first.references } = false from rfl)
          hheading rfl hvisible
        exact absurd (hall (pointDocument first.references numeral) rfl) hdiffers
    simp [WriterState.trace, hitem, hblank, hinline]
  · intro htrace second hsame
    rw [render_eq_renderUnder, hsame]
    exact (unseen_of_trace_eq htrace second).writeAgain_eq

/-- A heading leaves word that a blank line is to be left out, and a paragraph takes it back. -/
theorem paragraph_after_heading_kept :
    let w : Writer := { wrap := Wrap.toWidth .codePoints true 80 }
    let first : Node := .branch ⟨.document [], none⟩
      [.branch ⟨.heading 1, none⟩ [.text ⟨.rawText, none⟩ ['T']]]
    let second : Node := .branch ⟨.document [], none⟩
      [.branch ⟨.paragraph none, none⟩ [.text ⟨.rawText, none⟩ ['x']]]
    (leftBy w first).trace = { blank := true } ∧ Unseen w first second ∧
      (writeAgain w second (leftBy w first)).1 = renderUnder w first.references second := by
  intro w first second
  have hunseen : Unseen w first second := unseen_of_opening_paragraph w first rfl rfl _ _
  exact ⟨by decide +kernel, hunseen, (reused_writer_iff w first).1 second hunseen⟩

/-- The blank line at the start of a document is lost after a document that ends with a heading; in
one document around the two it is lost in the same way. -/
theorem blank_line_lost_after_heading :
    let w : Writer := { wrap := Wrap.toWidth .codePoints true 80 }
    let first : Node := .branch ⟨.document [], none⟩
      [.branch ⟨.heading 1, none⟩ [.text ⟨.rawText, none⟩ ['T']]]
    let second : Node := .branch ⟨.document [], none⟩
      [.leaf ⟨.blankLine, none⟩, .branch ⟨.paragraph none, none⟩ [.text ⟨.rawText, none⟩ ['x']]]
    (writeAgain w second (leftBy w first)).1 = "x\n".toList ∧
      render w second = "\nx\n".toList ∧
      render w (.branch ⟨.document [], none⟩ [first, second]) = "# T\n\nx\n".toList := by
  decide +kernel

end Reflow.Document
