import Reflow.Proofs.PlainProse
import Reflow.Proofs.Refilling

/-!
Plain paragraphs behind their indents.

Where a paragraph stands in a container, every line of it starts with what the container asks for.
For plain words that is all the wrappers do to the lines they fill: there is no tag to rejoin and
none to break a line at, as no tag opens in the text or in the indents (`Unopened`). So wrapped plain
words are lines of text, each behind its indent (`PlainWords.exists_lines`).
-/

open List

namespace Reflow.Wrap

open Text Tag

/-! ## Texts in which no tag opens -/

/-- No tag opens in the text. -/
def Unopened (t : Text) : Prop := '{' ∉ t ∧ '<' ∉ t

instance (t : Text) : Decidable (Unopened t) := inferInstanceAs (Decidable (_ ∧ _))

namespace Unopened

variable {t u : Text}

theorem not_isInfix (h : Unopened t) (k : TagKind) : ¬ k.opening <:+: t := by
  intro hk
  cases k with
  | htmlComment => exact h.2 (hk.subset (by simp [TagKind.opening]))
  | statement | comment | expression => exact h.1 (hk.subset (by simp [TagKind.opening]))

theorem append (ht : Unopened t) (hu : Unopened u) : Unopened (t ++ u) := by
  simp_all [Unopened]

theorem rejoin_eq (h : Unopened t) : rejoin t = t := by
  refine reseam_eq_self fun k hk => h.not_isInfix k (IsInfix.trans ?_ hk)
  exact (suffix_append _ k.opening).isInfix

theorem of_isInfix (h : Unopened t) (hu : u <:+: t) : Unopened u :=
  ⟨fun hmem => h.1 (hu.subset hmem), fun hmem => h.2 (hu.subset hmem)⟩

theorem breakClosings_eq (h : Unopened t) : breakClosings t = t := by
  refine breakClosings_eq_self fun l hl before closing hcut => ?_
  obtain ⟨k, _, _, u, _, _, rfl⟩ := exists_of_cutAtClosing? hcut
  have hl := h.of_isInfix (isInfix_of_mem_lines hl)
  rw [cutAtClosing?_eq_append hcut] at hl
  exact hl.not_isInfix k ⟨before, u, by simp⟩

theorem unlines {ls : List Text} (h : ∀ l ∈ ls, Unopened l) : Unopened (unlines ls) := by
  constructor
  · intro hmem
    rcases mem_joinWith hmem with hsep | ⟨l, hl, hc⟩
    · simp at hsep
    · exact (h l hl).1 hc
  · intro hmem
    rcases mem_joinWith hmem with hsep | ⟨l, hl, hc⟩
    · simp at hsep
    · exact (h l hl).2 hc

end Unopened

variable {place : Text → Nat → Prop} {t : Text} {ls : List Text}

theorem Marked.mem_or {out src : Text} (h : Marked place out src) {c : Char} (hc : c ∈ out)
    (hvisible : isBlank c = false) : c = '\\' ∨ c ∈ src := by
  obtain ⟨vs, hout, hkept, hmarks⟩ := h
  have hmem : c ∈ visible out := mem_filter.2 ⟨hc, by simp [hvisible]⟩
  rw [← hout] at hmem
  obtain ⟨⟨d, mark⟩, hd, rfl⟩ := mem_map.1 hmem
  -- a visible character of the result is a mark, or one of the source
  cases mark with
  | true =>
    obtain ⟨x, y, rfl⟩ := append_of_mem hd
    exact .inl (hmarks x d y rfl).1
  | false =>
    have hsrc : d ∈ visible src := by
      rw [← hkept]
      exact mem_map.2 ⟨(d, false), mem_filter.2 ⟨hd, rfl⟩, rfl⟩
    exact .inr (mem_filter.1 hsrc).1

theorem Marked.unopened {out src : Text} (h : Marked place out src) (hsrc : Unopened src) :
    Unopened out := by
  constructor
  · intro hmem
    rcases h.mem_or hmem (by decide) with hc | hc
    · simp at hc
    · exact hsrc.1 hc
  · intro hmem
    rcases h.mem_or hmem (by decide) with hc | hc
    · simp at hc
    · exact hsrc.2 hc

/-! ## Lines of text -/

/-- Lines that start and end with visible characters. -/
structure TextLines (ls : List Text) : Prop where
  ne_nil : ls ≠ []
  solid : ∀ l ∈ ls, Solid l
  single : ∀ l ∈ ls, '\n' ∉ l

theorem textLines_rows {rows : List Row} (hne : rows ≠ []) (hwords : ∀ r ∈ rows, r.words ≠ [])
    (h : ∀ r ∈ rows, ∀ w ∈ r.words, ∃ t, w ∈ lineWords t) :
    TextLines (rows.map (Row.text escapeWord)) := by
  refine ⟨by simpa using hne, fun l hl => ?_, fun l hl => ?_⟩
  · obtain ⟨r, hr, rfl⟩ := mem_map.1 hl
    refine Row.solid_text (s := markdownSettings .codePoints) (hwords r hr) fun w hw => ?_
    obtain ⟨t, ht⟩ := h r hr w hw
    exact solid_of_mem_lineWords ht
  · obtain ⟨r, hr, rfl⟩ := mem_map.1 hl
    exact Row.newline_not_mem_text (h r hr)

theorem textLines_singleton {l : Text} (hsolid : Solid l) (hl : '\n' ∉ l) : TextLines [l] :=
  ⟨by simp, by simpa using hsolid, by simpa using hl⟩

theorem solid_strip (h : visible t ≠ []) : Solid (strip t) := by
  rcases blank_or_exists_core t with ht | ⟨g, core, g', rfl, hg, hg', hcore⟩
  · exact absurd (visible_eq_nil ht) h
  · have hleft : stripLeft (g ++ core ++ g') = core ++ g' := by
      obtain ⟨c, u, rfl, hc⟩ := hcore.first
      rw [stripLeft, append_assoc, dropWhile_append_of_pos hg]
      simp [hc]
    have hright : stripRight (core ++ g') = core := by
      obtain ⟨u, d, rfl, hd⟩ := hcore.last
      rw [stripRight, dropEndWhile_append hg', dropEndWhile_concat hd]
    rw [strip, hleft, hright]
    exact hcore

theorem strip_subset {c : Char} (h : c ∈ strip t) : c ∈ t := by
  obtain ⟨g, _, hg⟩ := exists_stripRight (stripLeft t)
  have hleft : c ∈ stripLeft t := by
    rw [hg]
    exact mem_append_left _ h
  exact (dropWhile_suffix isBlank).subset hleft

theorem ne_nil_of_marked (h : Marked place (unlines ls) t) (ht : visible t ≠ []) : ls ≠ [] := by
  rintro rfl
  obtain ⟨vs, hout, hkept, _⟩ := h
  obtain rfl : vs = [] := by simpa [unlines, joinWith] using hout
  exact ht (by simpa using hkept.symm)

theorem textLines_paragraphLines (measure : Measure) (cols : Columns) (h : visible t ≠ []) :
    TextLines (paragraphLines (markdownSettings measure) cols t) := by
  have hmarked := marked_paragraphLines (markdownSettings measure) cols t
  have hne := ne_nil_of_marked hmarked h
  rcases Int.lt_or_le 0 cols.width with hwidth | hwidth
  · obtain ⟨rows, hfilled, heq⟩ := paragraphLines_eq (markdownSettings measure) hwidth t
    rw [heq] at hne ⊢
    refine textLines_rows (by simpa using hne) hfilled.ne_nil fun r hr w hw => ⟨t, ?_⟩
    rw [← markdownSettings_words measure, ← hfilled.words_eq]
    exact mem_flatMap.2 ⟨r, hr, hw⟩
  · -- without a width the text is one line
    have hsolid : Solid (strip (collapse t)) := solid_strip (by rwa [visible_collapse])
    have hline : '\n' ∉ strip (collapse t) := fun hmem => absurd
      (eq_space_of_mem_collapse (strip_subset hmem) isBlank_newline) (by decide)
    have hwhole : paragraphLines (markdownSettings measure) cols t = [strip (collapse t)] := by
      unfold paragraphLines
      rw [if_pos hwidth]
      exact if_neg (show ¬ (strip (collapse t)).isEmpty = true by simpa using hsolid.ne_nil)
    rw [hwhole]
    exact textLines_singleton hsolid hline

theorem textLines_lines {s : SentenceSettings} (hs : s.markdown) (hwidth : 0 < s.width)
    (first later : Int) (h : visible t ≠ []) : TextLines (s.lines first later t) := by
  have hne := ne_nil_of_marked (marked_lines s hwidth first later t) h
  obtain ⟨rows, hlaid, heq⟩ := s.lines_eq hwidth first later t
  rw [filling_escape hs] at heq
  rw [heq] at hne ⊢
  exact textLines_rows (by simpa using hne) hlaid.ne_nil fun r hr => hlaid.exists_lineWords hr

theorem textLines_words (h : visible t ≠ []) : TextLines [unwords (words (flat t))] := by
  have hvisible : visible (unwords (words (flat t))) = visible t :=
    ((keeps_flat t).visible_eq.trans (Atomic.keeps_words (flat t)).visible_eq).symm
  have hne : words (flat t) ≠ [] := by
    intro hnil
    rw [hnil] at hvisible
    exact h hvisible.symm
  refine textLines_singleton (solid_unwords hne fun w => Atomic.solid_of_mem_plain_words) ?_
  intro hmem
  obtain ⟨ws, htiles, hws⟩ := Atomic.tiles_plain (flat t)
  rcases mem_joinWith hmem with hsep | ⟨w, hw, hc⟩
  · simp at hsep
  · rw [hws] at hw
    obtain ⟨v, hv, rfl⟩ := mem_map.1 hw
    have hflat : '\n' ∈ flat t := by simpa using htiles.subset v hv '\n' hc
    obtain ⟨c, _, hc⟩ := mem_map.1 hflat
    split at hc
    · simp at hc
    · next hne => exact hne hc

theorem TextLines.apply_ne_nil (h : TextLines ls) (indents : Indents) : indents.apply ls ≠ [] := by
  obtain ⟨l, ls, rfl⟩ := exists_cons_of_ne_nil h.ne_nil
  simp [Indents.apply]

theorem TextLines.single_apply (h : TextLines ls) {indents : Indents}
    (hfirst : '\n' ∉ indents.first) (hlater : '\n' ∉ indents.later) :
    ∀ l ∈ indents.apply ls, '\n' ∉ l := by
  obtain ⟨l, ls, rfl⟩ := exists_cons_of_ne_nil h.ne_nil
  intro m hm
  rcases mem_cons.1 hm with rfl | hm
  · simpa [hfirst] using h.single l (by simp)
  · obtain ⟨k, hk, rfl⟩ := mem_map.1 hm
    simpa [hlater] using h.single k (by simp [hk])

/-! ## Plain words -/

/-- Words without markup: no tag, table row or hard break, and something to show. -/
structure PlainWords (t : Text) : Prop extends Untagged t where
  unopened : Unopened t
  unbroken : hardSegments t = [t]
  shown : visible t ≠ []

instance (t : Text) : Decidable (PlainWords t) :=
  decidable_of_iff (Untagged t ∧ Unopened t ∧ hardSegments t = [t] ∧ visible t ≠ [])
    ⟨fun h => ⟨h.1, h.2.1, h.2.2.1, h.2.2.2⟩, fun h => ⟨h.1, h.2, h.3, h.4⟩⟩

/-- The wrappers for Markdown. -/
def IsMarkdownWrapper (wrap : LineWrapper) : Prop :=
  (∃ measure width, wrap = toWidth measure true width) ∨
    ∃ s : SentenceSettings, s.markdown = true ∧ wrap = bySentence s

/-- Filling puts lines of text behind their indents, if nothing opens a tag. -/
def FillsLines (fill : LineWrapper) : Prop :=
  ∀ t indents, visible t ≠ [] → Unopened t → Unopened indents.first → Unopened indents.later →
    ∃ ls, TextLines ls ∧ (∀ l ∈ ls, Unopened l) ∧ fill t indents = unlines (indents.apply ls)

theorem unopened_apply {indents : Indents} (hfirst : Unopened indents.first)
    (hlater : Unopened indents.later) (h : ∀ l ∈ ls, Unopened l) :
    Unopened (unlines (indents.apply ls)) := by
  refine Unopened.unlines fun l hl => ?_
  obtain ⟨m, hm, rfl | rfl⟩ := Indents.exists_of_mem_apply hl
  · exact hfirst.append (h m hm)
  · exact hlater.append (h m hm)

theorem unopened_of_marked (h : Marked place (unlines ls) t) (ht : Unopened t) :
    ∀ l ∈ ls, Unopened l := by
  intro l hl
  exact (h.unopened ht).of_isInfix (isInfix_unlines hl)

theorem fillsLines_fillToWidth (measure : Measure) (width : Int) :
    FillsLines (fillToWidth measure true width) := by
  intro t indents hshown ht hfirst hlater
  obtain ⟨cols, hcols⟩ : ∃ cols : Columns,
      cols = ⟨width, 0 + measure.of indents.first, measure.of indents.later⟩ := ⟨_, rfl⟩
  have hopen := unopened_of_marked (marked_paragraphLines (markdownSettings measure) cols t) ht
  refine ⟨_, textLines_paragraphLines measure cols hshown, hopen, ?_⟩
  rw [hcols] at hopen ⊢
  exact (unopened_apply hfirst hlater hopen).rejoin_eq

theorem fillsLines_fillBySentence {s : SentenceSettings} (hs : s.markdown) :
    FillsLines (fillBySentence s) := by
  intro t indents hshown ht hfirst hlater
  have hflat : visible (flat t) = visible t := (keeps_flat t).visible_eq.symm
  rcases Int.lt_or_le 0 s.width with hwidth | hwidth
  · obtain ⟨first, hf⟩ : ∃ first : Int, first = s.measure.of indents.first := ⟨_, rfl⟩
    obtain ⟨later, hl⟩ : ∃ later : Int, later = s.measure.of indents.later := ⟨_, rfl⟩
    have hmarked := (marked_lines s hwidth first later (flat t)).source hflat
    have hopen := unopened_of_marked hmarked ht
    refine ⟨_, textLines_lines hs hwidth first later (by rwa [hflat]), hopen, ?_⟩
    rw [fillBySentence, if_neg (by omega), ← hf, ← hl]
    exact (unopened_apply hfirst hlater hopen).rejoin_eq
  · have hmarked : Marked FirstWord (unlines [unwords (words (flat t))]) t :=
      .of_visible_eq ((Atomic.keeps_words (flat t)).visible_eq.symm.trans hflat)
    refine ⟨_, textLines_words hshown, unopened_of_marked hmarked ht, ?_⟩
    rw [fillBySentence, if_pos hwidth]
    rfl

theorem PlainWords.exists_lines {wrap : LineWrapper} (hwrap : IsMarkdownWrapper wrap)
    (h : PlainWords t) (indents : Indents) (hfirst : Unopened indents.first)
    (hlater : Unopened indents.later) :
    ∃ ls, TextLines ls ∧ wrap t indents = unlines (indents.apply ls) := by
  have hmarkdown : ∀ fill : LineWrapper, FillsLines fill →
      ∃ ls, TextLines ls ∧ forMarkdown fill t indents = unlines (indents.apply ls) := by
    intro fill hfill
    obtain ⟨ls, hls, hopen, heq⟩ := hfill t indents h.shown h.unopened hfirst hlater
    refine ⟨ls, hls, ?_⟩
    -- there is one segment, no line of it is kept apart, and no tag was closed in the result
    have hout := unopened_apply hfirst hlater hopen
    simp [forMarkdown, keepHardBreaks, h.unbroken, wrapLaterSegments, keepTagLines,
      h.isMultilineComment_eq, h.segments_eq, heq, hout.breakClosings_eq]
  rcases hwrap with ⟨measure, width, rfl⟩ | ⟨s, hs, rfl⟩
  · exact hmarkdown _ (fillsLines_fillToWidth measure width)
  · rw [bySentence, if_pos hs]
    exact hmarkdown _ (fillsLines_fillBySentence hs)

end Reflow.Wrap
