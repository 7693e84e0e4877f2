import Reflow.Proofs.Filling

/-!
Which separations wrapping keeps.

Laying a text out separates whatever was separated (`keeps_paragraphLines`,
`SentenceSettings.keeps_lines`); what may close a gap is the last pass, which rejoins adjacent tags.
It cannot tell the spaces that were put in from spaces of the source: a separation is lost exactly
where the laid-out text has a seam.
-/

namespace Reflow.Wrap

open Text

/-- Of the separations of `t`, those are kept in `out` that are not at a seam of the laid-out text
`laid`; and a seam stands between a closing and an opening delimiter of one kind. -/
structure LostAtSeams (t laid out : Text) : Prop where
  kept_iff : ∀ i, 0 < i → i < (visible t).length → gapAt t i ≠ [] →
    (gapAt out i ≠ [] ↔ ¬ Tag.SeamAt laid i)
  delimiters : ∀ i, Tag.SeamAt laid i →
    ∃ k : TagKind, k.closing <:+ (visible t).take i ∧ k.opening <+: (visible t).drop i

theorem lostAtSeams_rejoin {t laid : Text} (h : Respaced KeepsGap t laid) :
    LostAtSeams t laid (Tag.rejoin laid) := by
  refine ⟨fun i hpos hlt hgap => ?_, fun i hseam => ?_⟩
  · have hlaid : gapAt laid i ≠ [] := h.gap i hpos hlt hgap
    constructor
    · intro hkept hseam
      exact hkept (Tag.gapAt_rejoin_of_seamAt hseam).2
    · intro hseam
      rwa [Tag.gapAt_rejoin_of_not_seamAt hseam]
  · rw [h.visible_eq]
    exact hseam.delimiters

/-- **Separations are lost exactly at seams.** For a wrapped paragraph and for both line wrappers,
whatever the width, two characters that are separated in the source stay separated if and only if
the laid-out text has no seam between them. A text wrapped by sentence to no width keeps them
all. -/
theorem separations_lost_exactly_at_seams (t : Text) :
    (∀ (s : Settings) (width column : Int),
        LostAtSeams t
          (unlines (paragraphLines { s with markdown := false } ⟨width, column, 0⟩ t))
          (paragraphAt { s with markdown := false } width column {} t)) ∧
      (∀ (measure : Measure) (width : Int),
        LostAtSeams t (unlines (paragraphLines { measure } ⟨width, 0, 0⟩ t))
          (toWidth measure false width t {})) ∧
      (∀ s : SentenceSettings, 0 < s.width →
        LostAtSeams t
          (unlines (SentenceSettings.lines { s with markdown := false } 0 0 (flat t)))
          (bySentence { s with markdown := false } t {})) ∧
      ∀ s : SentenceSettings, s.width ≤ 0 →
        Respaced KeepsGap t (bySentence { s with markdown := false } t {}) := by
  refine ⟨fun s width column => ?_, fun measure width => ?_, fun s hwidth => ?_,
    fun s hwidth => ?_⟩
  · rw [paragraphAt_eq]
    exact lostAtSeams_rejoin (keeps_paragraphLines rfl _ t)
  · have hfill : toWidth measure false width t {} = paragraphAt { measure } width 0 {} t := rfl
    rw [hfill, paragraphAt_eq]
    exact lostAtSeams_rejoin (keeps_paragraphLines rfl _ t)
  · have hfill : bySentence { s with markdown := false } t {}
        = fillBySentence { s with markdown := false } t {} := rfl
    rw [hfill, fillBySentence_eq, if_neg (by simpa using hwidth)]
    have hlines :=
      SentenceSettings.keeps_lines (s := { s with markdown := false }) rfl hwidth 0 0 (flat t)
    exact lostAtSeams_rejoin ((keeps_flat t).trans KeepsGap.trans hlines)
  · have hfill : bySentence { s with markdown := false } t {}
        = fillBySentence { s with markdown := false } t {} := rfl
    rw [hfill, fillBySentence_eq, if_pos hwidth]
    exact (keeps_flat t).trans KeepsGap.trans (Atomic.keeps_words _)

/-- Two tags of one kind with a space between them, wrapped to a width and to none. -/
theorem separations_of_two_tags :
    LostAtSeams ['#', '}', ' ', '{', '#']
        (unlines (SentenceSettings.lines { width := 80 } 0 0 (flat ['#', '}', ' ', '{', '#'])))
        (bySentence { width := 80 } ['#', '}', ' ', '{', '#'] {}) ∧
      Respaced KeepsGap ['#', '}', ' ', '{', '#']
        (bySentence { width := 0 } ['#', '}', ' ', '{', '#'] {}) :=
  ⟨(separations_lost_exactly_at_seams _).2.2.1 { width := 80 } (by decide),
    (separations_lost_exactly_at_seams _).2.2.2 { width := 0 } (by decide)⟩

/-- In `{% a %} {% b %}` the two tags are separated, and a line wide enough for both glues them. -/
theorem separation_of_tags_lost :
    gapAt ['{', '%', ' ', 'a', ' ', '%', '}', ' ', '{', '%', ' ', 'b', ' ', '%', '}'] 5 = [' '] ∧
      gapAt (paragraph {} 80 {}
        ['{', '%', ' ', 'a', ' ', '%', '}', ' ', '{', '%', ' ', 'b', ' ', '%', '}']) 5 = [] := by
  decide +kernel

end Reflow.Wrap
