import Reflow.Proofs.ExposedPoints
import Reflow.Proofs.ListOutlines

/-!
Escaped points that keep a paragraph from being read as a list.

A point that was written with a backslash loses it, unless the paragraph so far is a number. The
writer is right about the start of a paragraph (`head_literalPoints`); about the other lines it
knows nothing. Which of the points of a paragraph were escaped is `literalPoints`; which of them can
be exposed is known from the lone words of its text.
-/

open List

namespace Reflow.Document

open Text Wrap

variable {s : WriterState} {y : Text}

/-! ## What lines start with -/

theorem margin_quoteMark : Margin quoteMark where
  line := by decide
  ends := .inr ⟨['>'], rfl⟩
  closing k := by cases k <;> decide
  opening k := by cases k <;> decide

/-- Every delimiter has a brace or an angle bracket in it. -/
theorem margin_of_not_mem {m : Text} (hline : '\n' ∉ m) (hends : ∃ a, m = a ++ [' '])
    (hm : ∀ c ∈ m, c ∉ ['\x7b', '\x7d', '<', '>']) : Margin m where
  line := hline
  ends := .inr hends
  closing k h := by
    obtain ⟨c, hc, hmem⟩ : ∃ c ∈ k.closing, c ∈ ['\x7b', '\x7d', '<', '>'] := by
      cases k <;> simp [TagKind.closing]
    exact hm c (h.subset hc) hmem
  opening k h := by
    obtain ⟨c, hc, hmem⟩ : ∃ c ∈ k.opening, c ∈ ['\x7b', '\x7d', '<', '>'] := by
      cases k <;> simp [TagKind.opening]
    exact hm c (h.subset hc) hmem

theorem margin_itemMarker {shape : ListShape} (h : IsMarkdownShape shape) (index : Nat) :
    Margin (itemMarker shape index) := by
  refine margin_of_not_mem (newline_not_mem_itemMarker h.single index) ?_ fun c hc hmem => ?_
  · unfold itemMarker
    split
    · exact ⟨(toString ((index : Int) + shape.start)).toList ++ ['.'], by simp⟩
    · exact ⟨shape.bullet, rfl⟩
  · simp only [mem_cons, not_mem_nil, or_false] at hmem
    rcases mem_itemMarker h hc with hdigit | hc
    · rcases hmem with rfl | rfl | rfl | rfl <;> revert hdigit <;> decide
    · rcases hmem with rfl | rfl | rfl | rfl <;> simp at hc

theorem margin_itemIndent (shape : ListShape) (index : Nat) : Margin (itemIndent shape index) := by
  have hspace : ∀ c ∈ itemIndent shape index, c = ' ' := fun c => eq_space_of_mem_itemIndent
  refine margin_of_not_mem (newline_not_mem_itemIndent shape index) ?_ fun c hc hmem => ?_
  · obtain ⟨u, hu⟩ := exists_itemIndent shape index
    obtain ⟨a, c, hac⟩ := (eq_nil_or_concat' (itemIndent shape index)).resolve_left (by simp [hu])
    obtain rfl : c = ' ' := hspace c (by simp [hac])
    exact ⟨a, hac⟩
  · rw [hspace c hc] at hmem
    exact absurd hmem (by decide)

/-- What lines start with are margins. It is so in a fresh state, and stays so inside quotes and the
items of lists. -/
structure HasMargins (s : WriterState) : Prop where
  lead : Margin s.lead
  indent : Margin s.indent

theorem hasMargins_fresh : HasMargins {} := ⟨margin_nil, margin_nil⟩

theorem HasMargins.insideQuote (h : HasMargins s) : HasMargins (insideQuote s) :=
  ⟨h.lead.append margin_quoteMark, h.indent.append margin_quoteMark⟩

theorem HasMargins.insideItem (h : HasMargins s) {shape : ListShape}
    (hshape : IsMarkdownShape shape) (index : Nat) :
    HasMargins (s.enter (itemMarker shape index) (itemIndent shape index)) :=
  ⟨h.lead.append (margin_itemMarker hshape index), h.indent.append (margin_itemIndent shape index)⟩

/-! ## Points of unmarked text -/

/-- Raw text, an escaped character or a line break. -/
inductive Unmarked : Node → Prop
  | rawText (span : Option (Nat × Nat)) (t : Text) : Unmarked (.text ⟨.rawText, span⟩ t)
  | literal (span : Option (Nat × Nat)) (t : Text) : Unmarked (.text ⟨.literal, span⟩ t)
  | lineBreak (span : Option (Nat × Nat)) (soft : Bool) : Unmarked (.leaf ⟨.lineBreak soft, span⟩)
  /-- What the line break holds is not shown. -/
  | heldBreak (span : Option (Nat × Nat)) (soft : Bool) (t : Text) :
      Unmarked (.text ⟨.lineBreak soft, span⟩ t)

/-- For each point that the node shows, whether it is an escaped point. -/
def literalPoints : Node → List Bool
  | .text ⟨.rawText, _⟩ t => replicate (points t) false
  | .text ⟨.literal, _⟩ t => replicate (points t) (t == ['.'])
  | _ => []

theorem points_spaceIdeographs (t : Text) : points (spaceIdeographs t) = points t := by
  induction t with
  | nil => rfl
  | cons a t ih =>
    cases t with
    | nil => rfl
    | cons b t =>
      have hcons : ∀ u : Text, points (a :: u) = points [a] + points u := points_append [a]
      rw [spaceIdeographs, hcons (b :: t), ← ih]
      split
      · rw [hcons, points_cons_of_ne (by decide : ' ' ≠ '.')]
      · rw [hcons]

/-- **An escaped character** keeps its backslash. Only a point may lose it: in a heading, or where
the text so far is not a number. -/
theorem exists_writeLiteral (t : Text) (s : WriterState) :
    ∃ x, writeLiteral t s = (x, s.addInline x) ∧
      (x = '\\' :: t ∨ x = t ∧ t = ['.'] ∧
        (s.inHeading = false → stripLeft s.inlineText = [] ∨
          (stripLeft s.inlineText).all isDigitLike = false)) := by
  by_cases ht : t = ['.']
  · cases hheading : s.inHeading with
    | true => exact ⟨t, by simp [writeLiteral, ht, hheading], .inr ⟨rfl, ht, by simp⟩⟩
    | false =>
      cases hnumber : !(stripLeft s.inlineText).isEmpty && (stripLeft s.inlineText).all isDigitLike with
      | true => exact ⟨'\\' :: t, by simp [writeLiteral, ht, hheading, hnumber], .inl rfl⟩
      | false =>
        refine ⟨t, by simp [writeLiteral, ht, hheading, hnumber], .inr ⟨rfl, ht, fun _ => ?_⟩⟩
        rcases Bool.and_eq_false_iff.1 hnumber with hempty | hdigits
        · exact .inl (by simpa using hempty)
        · exact .inr hdigits
  · exact ⟨'\\' :: t, by simp [writeLiteral, ht], .inl rfl⟩

theorem points_writeLiteral (t : Text) (s : WriterState) :
    points (writeLiteral t s).1 = points t := by
  obtain ⟨x, heq, rfl | ⟨rfl, _⟩⟩ := exists_writeLiteral t s
  · rw [heq]
    exact points_cons_of_ne (by decide) t
  · rw [heq]

namespace Unmarked

variable {n : Node} (hn : Unmarked n)

include hn

theorem inline : Inline n := by
  cases hn with
  | rawText | literal | heldBreak => exact .text rfl
  | lineBreak => exact .leaf rfl

theorem write_eq (w w' : Writer) (s : WriterState) : write w n s = write w' n s := by
  cases hn <;> simp only [write]

theorem length_literalPoints (w : Writer) (s : WriterState) :
    (literalPoints n).length = points (write w n s).1 := by
  cases hn with
  | rawText span t =>
    simp only [write, literalPoints, length_replicate]
    exact (points_spaceIdeographs t).symm
  | literal span t =>
    simp only [write, literalPoints, length_replicate]
    exact (points_writeLiteral t s).symm
  | lineBreak span soft =>
    cases soft <;> rfl
  | heldBreak span soft t =>
    cases soft <;> rfl

end Unmarked

section Run

variable {cs : List Node} (hcs : ∀ c ∈ cs, Unmarked c)

include hcs

theorem writeAll_eq_of_unmarked (w w' : Writer) (s : WriterState) :
    writeAll w cs s = writeAll w' cs s := by
  induction cs generalizing s with
  | nil => simp
  | cons c cs ih =>
    rw [writeAll_cons, writeAll_cons, (hcs c (by simp)).write_eq w w',
      ih fun d hd => hcs d (by simp [hd])]

theorem length_flatMap_literalPoints (w : Writer) (s : WriterState) :
    (cs.flatMap literalPoints).length = points (writeAll w cs s).1 := by
  induction cs generalizing s with
  | nil => simp
  | cons c cs ih =>
    rw [writeAll_cons, flatMap_cons, length_append, points_append,
      (hcs c (by simp)).length_literalPoints w s, ih fun d hd => hcs d (by simp [hd])]

end Run

/-! ## The start of a paragraph -/

theorem stripLeft_append (h : stripLeft y ≠ []) (z : Text) :
    stripLeft (y ++ z) = stripLeft y ++ z := by
  simp only [stripLeft] at h ⊢
  simp [dropWhile_append, h]

theorem stripLeft_append_of_blank (h : stripLeft y = []) (z : Text) :
    stripLeft (y ++ z) = stripLeft z := by
  simp only [stripLeft] at h ⊢
  simp [dropWhile_append, h]

theorem stripLeft_append_congr {x y : Text} (h : stripLeft x = stripLeft y) (z : Text) :
    stripLeft (x ++ z) = stripLeft (y ++ z) := by
  by_cases hnil : stripLeft y = []
  · rw [stripLeft_append_of_blank (h.trans hnil), stripLeft_append_of_blank hnil]
  · rw [stripLeft_append (h ▸ hnil), stripLeft_append hnil, h]

theorem opensNumbered_of_stop {y z : Text} (hy : points y = 0) (hz : ∀ c ∈ z.head?, ¬ InNumber c)
    (hstop : stripLeft y ≠ [] ∨ ∀ c ∈ z.head?, isBlank c = false) :
    opensNumbered (y ++ z) = false := by
  rw [← startsNumbered_stripLeft]
  by_cases hnil : stripLeft y = []
  · have hvisible := hstop.resolve_left (not_not.2 hnil)
    have hstrip : stripLeft z = z := by
      cases z with
      | nil => rfl
      | cons c z => simp [stripLeft, hvisible c rfl]
    rw [stripLeft_append_of_blank hnil, hstrip]
    exact startsNumbered_of_head hz
  · rw [stripLeft_append hnil, startsNumbered_append hz]
    by_contra hnumbered
    have hpos := points_pos_of_startsNumbered (by simpa using hnumbered)
    rw [points_congr (visible_stripLeft y)] at hpos
    omega

theorem opensNumbered_backslash (hy : points y = 0) (z : Text) :
    opensNumbered (y ++ '\\' :: z) = false :=
  opensNumbered_of_stop hy (by simp [InNumber, isAsciiDigit]) (.inr (by simp))

theorem digits_of_opensNumbered {y z : Text} (hy : points y = 0)
    (h : opensNumbered (y ++ '.' :: z)) : stripLeft y ≠ [] ∧ ∀ c ∈ stripLeft y, isAsciiDigit c := by
  have hpoint : '.' ∉ stripLeft y := by
    rw [← points_congr (visible_stripLeft y)] at hy
    exact count_eq_zero.1 hy
  rw [← startsNumbered_stripLeft] at h
  by_cases hnil : stripLeft y = []
  · rw [stripLeft_append_of_blank hnil] at h
    have hdigit : isAsciiDigit '.' = false := by decide
    have hblank : isBlank '.' = false := by decide
    simp [stripLeft, startsNumbered, hdigit, hblank] at h
  · refine ⟨hnil, ?_⟩
    rw [stripLeft_append hnil] at h
    obtain ⟨ds, _, hds, hprefix⟩ := startsNumbered_iff.1 h
    have hwhole : stripLeft y ++ ['.'] <+: stripLeft y ++ '.' :: z := ⟨z, by simp⟩
    -- either number ends at its first point
    have heq : ds ++ ['.'] = stripLeft y ++ ['.'] := by
      rcases prefix_or_prefix_of_prefix hprefix hwhole with hle | hle
      · rcases prefix_concat_iff.1 hle with heq | hle
        · exact heq
        · exact absurd (hle.subset (by simp)) hpoint
      · rcases prefix_concat_iff.1 hle with heq | hle
        · exact heq.symm
        · exact absurd (hds '.' (hle.subset (by simp))) (by decide)
    rwa [← (append_inj' heq rfl).1]

theorem isDigitLike_of_isAsciiDigit {c : Char} (h : isAsciiDigit c) : isDigitLike c := by
  obtain ⟨hlow, hhigh⟩ := toNat_of_isAsciiDigit h
  simp [isDigitLike, isDecimal, decimalRanges, Ranges.contains, hlow, Nat.lt_succ_of_le hhigh]

/-- **The start of a paragraph.** If it is a number and a point, the point was not escaped. `y` is what
has been written, without a point so far; the inline text is the same but for the blanks that it
begins with. -/
theorem head_literalPoints {cs : List Node} (hcs : ∀ c ∈ cs, Unmarked c) (w : Writer)
    (hheading : s.inHeading = false) (hsame : stripLeft s.inlineText = stripLeft y)
    (hy : points y = 0) (h : opensNumbered (y ++ (writeAll w cs s).1)) :
    (cs.flatMap literalPoints).head? = some false := by
  induction cs generalizing s y with
  | nil =>
    have hpos := points_pos_of_opensNumbered h
    simp only [writeAll_nil, append_nil] at hpos
    omega
  | cons n cs ih =>
    have hrest : ∀ c ∈ cs, Unmarked c := fun c hc => hcs c (by simp [hc])
    rw [writeAll_cons, ← append_assoc] at h
    -- text that is taken up and has no point
    have htaken : ∀ {x : Text}, write w n s = (x, s.addInline x) → points x = 0 →
        (cs.flatMap literalPoints).head? = some false := by
      intro x hwrite hx
      rw [hwrite] at h
      refine ih hrest (s := s.addInline x) hheading (stripLeft_append_congr hsame x) ?_ h
      rw [points_append, hy, hx]
    have hbreak : ∀ soft : Bool, write w n s = (if soft then ['\n'] else ['\\', '\n'], s) →
        (cs.flatMap literalPoints).head? = some false := by
      intro soft hwrite
      rw [hwrite] at h
      cases soft with
      | false =>
        exact absurd h (by simp [opensNumbered_backslash hy])
      | true =>
        -- a line feed ends a number, and is one more blank in front of it
        by_cases hnil : stripLeft y = []
        · refine ih hrest hheading ?_ ?_ h
          · rw [stripLeft_append_of_blank hnil, hsame, hnil]
            rfl
          · rw [points_append, hy]
            rfl
        · rw [append_assoc, opensNumbered_of_stop hy ?_ (.inl hnil)] at h
          · exact absurd h (by simp)
          · simpa using not_inNumber_of_blank isBlank_newline
    rw [flatMap_cons]
    cases hcs n (by simp) with
    | rawText span t =>
      have hwrite : write w (.text ⟨.rawText, span⟩ t) s
          = (spaceIdeographs t, s.addInline (spaceIdeographs t)) := by
        rfl
      cases hpoints : points t with
      | zero =>
        rw [literalPoints, hpoints]
        exact htaken hwrite ((points_spaceIdeographs t).trans hpoints)
      | succ k =>
        rw [literalPoints, hpoints]
        rfl
    | literal span t =>
      have hwrite : write w (.text ⟨.literal, span⟩ t) s = writeLiteral t s := by
        rfl
      obtain ⟨x, heq, rfl | ⟨rfl, rfl, hnumber⟩⟩ := exists_writeLiteral t s
      · rw [hwrite, heq, append_assoc] at h
        exact absurd h (by simp [opensNumbered_backslash hy])
      · -- the backslash would have been kept
        rw [hwrite, heq, append_assoc] at h
        obtain ⟨hne, hdigits⟩ := digits_of_opensNumbered hy h
        rcases hnumber hheading with hnil | hall
        · exact absurd (hsame.symm.trans hnil) hne
        · rw [hsame, all_eq_true.2 fun c hc => isDigitLike_of_isAsciiDigit (hdigits c hc)] at hall
          exact absurd hall (by simp)
    | lineBreak span soft =>
      refine hbreak soft ?_
      rfl
    | heldBreak span soft t =>
      refine hbreak soft ?_
      rfl

theorem points_withBox (checked : Option Bool) (t : Text) : points (withBox checked t) = points t := by
  cases checked with
  | none => rfl
  | some done =>
    have hbox : points ['[', if done then 'x' else ' ', ']', ' '] = 0 := by cases done <;> decide
    rw [withBox, points_append, hbox, Nat.zero_add, points_congr (visible_stripLeft t)]

theorem opensNumbered_of_withBox {checked : Option Bool} {t : Text}
    (h : opensNumbered (withBox checked t)) : opensNumbered t := by
  cases checked with
  | none => exact h
  | some done =>
    have hbracket : isBlank '[' = false := by decide
    rw [withBox, cons_append, opensNumbered_cons_of_visible hbracket,
      startsNumbered_of_head (by simp [InNumber, isAsciiDigit])] at h
    exact absurd h (by simp)

/-! ## Main result -/

/-- The flags are as many, and none is set in both lists. -/
abbrev Apart : List Bool → List Bool → Prop := Forall₂ fun x y => (x && y) = false

theorem Apart.of_among {xs ys zs : List Bool} (h : Apart xs ys) (hzs : Among zs ys) :
    Apart xs zs := by
  induction h generalizing zs with
  | nil =>
    cases hzs
    exact .nil
  | @cons x y xs ys hxy _ ih =>
    cases hzs with
    | @cons z _ zs _ hz hrest =>
      refine .cons ?_ (ih hrest)
      cases x <;> cases z <;> simp_all

/-- In the paragraph that is written, an escaped point that comes to stand after the digits of a line
still has its backslash. -/
def KeepsEscapes (w : Writer) (n : Node) (s : WriterState) : Prop :=
  Apart (n.children.flatMap literalPoints) (pointFlags ⟨s.lead, s.indent⟩ (write w n s).1)

instance (w : Writer) (n : Node) (s : WriterState) : Decidable (KeepsEscapes w n s) :=
  inferInstanceAs (Decidable (Forall₂ _ _ _))

/-- For each point of a text, whether it is exposed where every word has a line of its own. -/
def exposable (cut : Text → List Text) (t : Text) : List Bool :=
  (exposedLines cut t).flatMap numberPoints

section Paragraph

variable {h : Head} {checked : Option Bool} (hkind : h.kind = .paragraph checked) {cs : List Node}
  (hcs : ∀ c ∈ cs, Unmarked c) {s : WriterState} (hheading : s.inHeading = false)

include hkind hcs hheading

theorem pointFlags_paragraph (w : Writer) (wrap : LineWrapper) :
    pointFlags ⟨s.lead, s.indent⟩ (write { w with wrap } (.branch h cs) s).1
        = pointFlags ⟨s.lead, s.indent⟩
          (wrap (withBox checked (paragraphText w s.references cs)) ⟨s.lead, s.indent⟩) ∧
      firstNumbered s.lead (write { w with wrap } (.branch h cs) s).1
        = firstNumbered s.lead
          (wrap (withBox checked (paragraphText w s.references cs)) ⟨s.lead, s.indent⟩) := by
  have hinline : ∀ c ∈ cs, Inline c := fun c hc => (hcs c hc).inline
  have htext : paragraphText { w with wrap } s.references cs = paragraphText w s.references cs := by
    rw [paragraphText, paragraphText, writeAll_eq_of_unmarked hcs { w with wrap } w]
  rw [write_paragraph hkind hinline { w with wrap } hheading, htext]
  exact ⟨by rw [pointFlags_append_newline, pointFlags_nil, append_nil],
    firstNumbered_append_newline _ _ _⟩

/-- **Escapes that prevent a list.** In a paragraph of unmarked text, behind margins, every wrapper
for Markdown keeps the number of points; and if the written paragraph starts with a number and a
point, that point was not escaped. At every width the escapes are kept if and only if no escaped point
is exposed where every word has a line of its own; sentence by sentence the same is true of the words
of the sentences. -/
theorem list_escapes_kept_iff (w : Writer) (hmargins : HasMargins s) :
    (∀ wrap, IsMarkdownWrapper wrap →
      (pointFlags ⟨s.lead, s.indent⟩ (write { w with wrap } (.branch h cs) s).1).length
          = (cs.flatMap literalPoints).length ∧
        (firstNumbered s.lead (write { w with wrap } (.branch h cs) s).1 = true →
          (cs.flatMap literalPoints).head? = some false)) ∧
      (∀ measure : Measure,
        (∀ width : Int,
          KeepsEscapes { w with wrap := toWidth measure true width } (.branch h cs) s) ↔
          Apart (cs.flatMap literalPoints)
            (exposable loneWords (withBox checked (paragraphText w s.references cs)))) ∧
      ∀ splitter : SentenceSplitter,
        (∀ settings : SentenceSettings, settings.markdown = true → settings.splitter = splitter →
          KeepsEscapes { w with wrap := bySentence settings } (.branch h cs) s) ↔
          Apart (cs.flatMap literalPoints)
            (exposable (loneSentenceWords splitter)
              (withBox checked (paragraphText w s.references cs))) := by
  obtain ⟨t, ht⟩ : ∃ t, t = withBox checked (paragraphText w s.references cs) := ⟨_, rfl⟩
  obtain ⟨i, hi⟩ : ∃ i : Indents, i = ⟨s.lead, s.indent⟩ := ⟨_, rfl⟩
  have hfirst : Margin i.first := hi ▸ hmargins.lead
  have hlater : Margin i.later := hi ▸ hmargins.indent
  have hpoints : points t = (cs.flatMap literalPoints).length := by
    rw [ht, points_withBox, paragraphText, length_flatMap_literalPoints hcs w]
  have hkeeps : ∀ wrap : LineWrapper, KeepsEscapes { w with wrap } (.branch h cs) s ↔
      Apart (cs.flatMap literalPoints) (pointFlags i (wrap t i)) := by
    intro wrap
    rw [KeepsEscapes, (pointFlags_paragraph hkind hcs hheading w wrap).1, Node.children, ht, hi]
  rw [← ht]
  refine ⟨fun wrap hwrap => ?_, fun measure => ⟨fun hall => ?_, fun hapart width => ?_⟩,
    fun splitter => ⟨fun hall => ?_, ?_⟩⟩
  · obtain ⟨hflags, hnumbered⟩ := pointFlags_paragraph hkind hcs hheading w wrap
    obtain ⟨hlength, hopens⟩ := hwrap.length_pointFlags hfirst hlater t
    rw [hflags, hnumbered, ← ht, ← hpoints, ← hlength, hi]
    refine ⟨rfl, fun hstart => ?_⟩
    rw [hi, ht] at hopens
    have htext := opensNumbered_of_withBox (hopens (ht ▸ hstart))
    exact head_literalPoints hcs w (s := { references := s.references }) rfl rfl points_nil htext
  · -- the narrowest column exposes every point that can be
    have hnarrow := (hkeeps _).1 (hall 1)
    rwa [(exposes_toWidth_narrow hfirst hlater measure t).flags_eq] at hnarrow
  · exact (hkeeps _).2 (hapart.of_among (exposes_toWidth hfirst hlater measure width t).flags)
  · have hnarrow := (hkeeps _).1 (hall (narrowSettings splitter) rfl rfl)
    rwa [(exposes_bySentence_narrow hfirst hlater splitter t).flags_eq] at hnarrow
  · rintro hapart settings hsettings rfl
    exact (hkeeps _).2 (hapart.of_among (exposes_bySentence hfirst hlater hsettings t).flags)

end Paragraph

/-- A paragraph that starts with a number, and has another one in it; either point is escaped. -/
def twoNumbers : List Node :=
  [.text ⟨.rawText, none⟩ ['1'], .text ⟨.literal, none⟩ ['.'], .leaf ⟨.lineBreak true, none⟩,
    .text ⟨.rawText, none⟩ "a 2".toList, .text ⟨.literal, none⟩ ['.'],
    .text ⟨.rawText, none⟩ " b".toList]

/-- The state in the first item of a numbered list in a quote. -/
def quotedItem : WriterState :=
  (insideQuote {}).enter (itemMarker ⟨true, 1, ['-'], true⟩ 0) (itemIndent ⟨true, 1, ['-'], true⟩ 0)

/-- In a list inside a quote both escapes are kept, also where the second number starts a line. -/
theorem two_numbers_kept_in_list :
    (write { wrap := toWidth .codePoints true 8 } (.branch ⟨.paragraph none, none⟩ twoNumbers)
        quotedItem).1 = "> 1. 1\\.\n>    a\n>    2\\.\n>    b\n".toList ∧
      KeepsEscapes { wrap := toWidth .codePoints true 8 }
        (.branch ⟨.paragraph none, none⟩ twoNumbers) quotedItem ∧
      KeepsEscapes { wrap := bySentence { width := 6, markdown := true } }
        (.branch ⟨.paragraph none, none⟩ twoNumbers) quotedItem := by
  have hcs : ∀ c ∈ twoNumbers, Unmarked c := by
    simp only [twoNumbers, forall_mem_cons]
    exact ⟨.rawText _ _, .literal _ _, .lineBreak _ _, .rawText _ _, .literal _ _, .rawText _ _,
      by simp⟩
  have hmargins : HasMargins quotedItem := hasMargins_fresh.insideQuote.insideItem (.inl rfl) 0
  have hkept := list_escapes_kept_iff (h := ⟨.paragraph none, none⟩) rfl hcs rfl
    { wrap := toWidth .codePoints true 8 } hmargins
  exact ⟨by decide +kernel, (hkept.2.1 .codePoints).2 (by decide +kernel) 8,
    (hkept.2.2 .prose).2 (by decide +kernel) { width := 6, markdown := true } rfl rfl⟩

/-- The number after a hard break starts a line, and its point has lost the backslash. -/
theorem escape_lost_after_hard_break :
    (write { wrap := toWidth .codePoints true 80 } (.branch ⟨.paragraph none, none⟩
        [.text ⟨.rawText, none⟩ ['a'], .leaf ⟨.lineBreak false, none⟩,
          .text ⟨.rawText, none⟩ ['1'], .text ⟨.literal, none⟩ ['.'],
          .text ⟨.rawText, none⟩ " b".toList]) {}).1 = "a\\\n1. b\n".toList ∧
      ¬ KeepsEscapes { wrap := toWidth .codePoints true 80 } (.branch ⟨.paragraph none, none⟩
        [.text ⟨.rawText, none⟩ ['a'], .leaf ⟨.lineBreak false, none⟩,
          .text ⟨.rawText, none⟩ ['1'], .text ⟨.literal, none⟩ ['.'],
          .text ⟨.rawText, none⟩ " b".toList]) {} := by
  decide +kernel

end Reflow.Document
