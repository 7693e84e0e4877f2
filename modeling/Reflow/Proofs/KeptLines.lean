import Reflow.Proofs.PlainParagraphs
import Reflow.Proofs.Rewrapping

/-!
Line feeds and comments that are kept.

Around tags and table rows a text is wrapped segment by segment, and the wrapped segments are
joined by line feeds. The passes over closing tags that follow only ever put more line feeds
between the visible characters. So where two segments meet in the source a line ends in the result
(`LineEndsAfter`), whatever wraps the segments, if only it keeps the visible text.
-/

open List hiding splitOn splitOn_ne_nil find?

namespace Reflow.Text

/-! ## Where lines end -/

/-- A line of the text `t` ends right after the visible text `v`. -/
def LineEndsAfter (v t : Text) : Prop := ∃ a b, t = a ++ '\n' :: b ∧ visible a = v

theorem visible_unlines_congr {us ls : List Text}
    (h : Forall₂ (fun u l => visible u = visible l) us ls) :
    visible (unlines us) = visible (unlines ls) := by
  rw [visible_unlines, visible_unlines]
  induction h with
  | nil => rfl
  | cons hu _ ih => rw [flatMap_cons, flatMap_cons, hu, ih]

theorem lineEndsAfter_unlines {before after us : List Text} (hbefore : before ≠ [])
    (hafter : after ≠ [])
    (h : Forall₂ (fun u l => visible u = visible l) us (before ++ after)) :
    LineEndsAfter (visible (unlines before)) (unlines us) := by
  induction before generalizing us with
  | nil => exact absurd rfl hbefore
  | cons l before ih =>
    obtain ⟨u, us, hu, hrest, rfl⟩ := forall₂_cons_right_iff.1 h
    have hne : us ≠ [] := by
      rintro rfl
      simp [hafter] at hrest
    by_cases hnil : before = []
    · subst hnil
      exact ⟨u, unlines us, unlines_cons hne u, hu⟩
    · obtain ⟨a, b, heq, ha⟩ := ih hnil hrest
      refine ⟨u ++ '\n' :: a, b, ?_, ?_⟩
      · rw [unlines_cons hne, heq, append_assoc, cons_append]
      · rw [unlines_cons hnil, visible_append, visible_append,
          visible_cons_of_blank isBlank_newline, visible_cons_of_blank isBlank_newline, hu, ha]

/-- Replacing every line by lines of the same visible text moves no line end. -/
theorem LineEndsAfter.blocks {v t : Text} {blocks : List (List Text)} (h : LineEndsAfter v t)
    (hblocks : Forall₂ (fun l b => b ≠ [] ∧ visible (unlines b) = visible l) (lines t)
      blocks) : LineEndsAfter v (unlines blocks.flatten) := by
  obtain ⟨a, b, rfl, rfl⟩ := h
  obtain ⟨hjoin, hparts⟩ := Tag.unlines_blocks (P := fun l u => visible u = visible l) hblocks
  rw [lines_append_newline] at hparts
  rw [hjoin, ← unlines_lines a]
  exact lineEndsAfter_unlines (splitOn_ne_nil _ a) (splitOn_ne_nil _ b) hparts.flip

end Reflow.Text

namespace Reflow.Tag

open Text

theorem lineEndsAfter_spaceClosings {v t : Text} (h : LineEndsAfter v t) :
    LineEndsAfter v (spaceClosings t) := by
  obtain ⟨blocks, hblocks, heq⟩ := exists_spaceClosingsAfter none (lines t)
  rw [spaceClosings, heq]
  refine h.blocks (hblocks.imp fun l b hb => ?_)
  obtain ⟨hne, hsoft⟩ := hb.soft
  exact ⟨hne, hsoft.visible_eq.symm⟩

theorem lineEndsAfter_breakClosings {v t : Text} (h : LineEndsAfter v t) :
    LineEndsAfter v (breakClosings t) := by
  obtain ⟨first, rest, hlines⟩ := exists_cons_of_ne_nil (splitOn_ne_nil '\n' t)
  have hlines : lines t = first :: rest := hlines
  -- the first line is never broken
  have hblocks : Forall₂ (fun l b => b ≠ [] ∧ visible (unlines b) = visible l) (lines t)
      ([first] :: rest.map breakClosing) := by
    rw [hlines]
    refine .cons ⟨by simp, rfl⟩ ?_
    rw [forall₂_map_right_iff]
    refine forall₂_same.2 fun l _ => ?_
    obtain ⟨hne, hsoft⟩ := soft_breakClosing l
    exact ⟨hne, hsoft.visible_eq.symm⟩
  have hbroken := h.blocks hblocks
  rw [breakClosings, hlines]
  exact hbroken

end Reflow.Tag

namespace Reflow.Wrap

open Text Tag

/-! ## Segments -/

/-- Lines are cut where a line feed has to stay: the lines up to there are segments of their own. -/
theorem exists_segmentsFrom {tags : Bool} {previous p line : Text} {mid : List Text}
    (hp : (previous :: mid).getLast? = some p) (hboundary : isBoundary tags p line)
    (current after : List Text) :
    ∃ gs hs, segmentsFrom tags current previous (mid ++ line :: after) = gs ++ hs ∧ gs ≠ [] ∧
      hs ≠ [] ∧ gs.flatten = current ++ mid := by
  have hne : ∀ (current : List Text) (previous : Text) (ls : List Text),
      segmentsFrom tags current previous ls ≠ [] := by
    intro current previous ls
    fun_induction segmentsFrom tags current previous ls with
    | case1 => simp
    | case2 => simp
    | case3 current previous line rest _ ih => exact ih
  induction mid generalizing current previous with
  | nil =>
    obtain rfl : previous = p := by simpa using hp
    refine ⟨[current], segmentsFrom tags [line] line after, ?_, by simp, hne _ _ _, by simp⟩
    rw [nil_append, segmentsFrom, if_pos hboundary, singleton_append]
  | cons m mid ih =>
    rw [cons_append, segmentsFrom]
    split
    · obtain ⟨gs, hs, heq, _, hhs, hflat⟩ := ih hp [m]
      exact ⟨current :: gs, hs, by rw [heq]; rfl, by simp, hhs, by simp [hflat]⟩
    · obtain ⟨gs, hs, heq, hgs, hhs, hflat⟩ := ih hp (current ++ [m])
      exact ⟨gs, hs, heq, hgs, hhs, by simp [hflat]⟩

theorem exists_segments {ls before after : List Text} {p line : Text}
    (hls : ls = before ++ p :: line :: after) (hboundary : isBoundary (hasTags ls) p line) :
    ∃ gs hs, segments ls = gs ++ hs ∧ gs ≠ [] ∧ hs ≠ [] ∧ gs.flatten = before ++ [p] := by
  obtain ⟨first, mid, hmid⟩ : ∃ first mid, before ++ [p] = first :: mid :=
    exists_cons_of_ne_nil (by simp)
  have hcons : ls = first :: (mid ++ line :: after) := by
    rw [hls, ← cons_append, ← hmid]
    simp
  have hp : (first :: mid).getLast? = some p := by
    rw [← hmid]
    simp
  obtain ⟨gs, hs, heq, hgs, hhs, hflat⟩ := exists_segmentsFrom hp hboundary [first] after
  refine ⟨gs, hs, ?_, hgs, hhs, by rw [hflat, hmid]; rfl⟩
  rw [← heq, hcons]
  rfl

/-! ## Line feeds -/

section LineFeeds

variable {wrap : LineWrapper} (hwrap : ∀ s, visible (wrap s {}) = visible s) {t : Text}
  (hrows : ∀ l ∈ lines t, Block.isSeparator l = false)

include hwrap hrows

theorem exists_visible_segments {first : List Text} {rest : List (List Text)}
    (hsegments : segments (lines t) = first :: rest) :
    ∃ us, Forall₂ (fun u l => visible u = visible l) us ((segments (lines t)).map unlines) ∧
      unlines (wrapSegment wrap {} first :: wrapSegmentsAfter wrap [] first rest) = unlines us := by
  rw [hsegments]
  refine exists_wrapSegments (fun u l hu => ?_) fun segment hsegment => ?_
  · rw [visible_cons_of_blank isBlank_newline, hu]
  · have hlines : ∀ l ∈ segment, Block.isSeparator l = false := by
      intro l hl
      refine hrows l ?_
      rw [← (flatten_segments (lines t)).1, hsegments]
      exact mem_flatten.2 ⟨segment, hsegment, hl⟩
    rcases wrapSegment_eq_or wrap hlines with heq | heq
    · rw [heq]
    · rw [heq, hwrap]

theorem visible_keepTagLines : visible (keepTagLines wrap t {}) = visible t := by
  rcases keepTagLines_cases wrap t {} with ⟨_, heq⟩ | ⟨_, _, heq⟩ |
    ⟨_, first, second, rest, hsegments, heq⟩
  · rw [heq, verbatim_empty]
  · rw [heq, ← (soft_breakClosings _).visible_eq, hwrap]
  · obtain ⟨us, hus, hjoin⟩ := exists_visible_segments hwrap hrows hsegments
    rw [heq, ← (soft_breakClosings _).visible_eq, ← (soft_spaceClosings _).visible_eq,
      hjoin, visible_unlines_congr hus, unlines_segments]

/-- A line feed at a boundary of segments is kept. -/
theorem lineEndsAfter_keepTagLines {before after : List Text} {p line : Text}
    (hlines : lines t = before ++ p :: line :: after)
    (hboundary : isBoundary (hasTags (lines t)) p line) :
    LineEndsAfter (visible (unlines (before ++ [p]))) (keepTagLines wrap t {}) := by
  obtain ⟨gs, hs, hcut, hgs, hhs, hflat⟩ := exists_segments hlines hboundary
  obtain ⟨_, hne⟩ := flatten_segments (lines t)
  have htext : unlines (before ++ [p]) = unlines (gs.map unlines) := by
    rw [← hflat]
    exact joinWith_flatten fun g hg => hne g (by rw [hcut]; exact mem_append_left hs hg)
  rcases keepTagLines_cases wrap t {} with ⟨_, heq⟩ | ⟨_, ⟨segment, hone⟩, _⟩ |
    ⟨_, first, second, rest, hsegments, heq⟩
  · -- a comment is kept with all its line feeds
    rw [heq, verbatim_empty]
    refine ⟨unlines (before ++ [p]), unlines (line :: after), ?_, rfl⟩
    have hjoin : unlines (before ++ [p] ++ line :: after)
        = unlines (before ++ [p]) ++ ['\n'] ++ unlines (line :: after) :=
      joinWith_append (by simp) (by simp)
    conv_lhs => rw [← unlines_lines t, hlines]
    simpa using hjoin
  · -- there are two segments at least
    have hlength := congrArg length (hone.symm.trans hcut)
    have hgs := length_pos_iff.2 hgs
    have hhs := length_pos_iff.2 hhs
    rw [length_append, length_singleton] at hlength
    omega
  · obtain ⟨us, hus, hjoin⟩ := exists_visible_segments hwrap hrows hsegments
    rw [heq, hjoin, htext]
    apply lineEndsAfter_breakClosings
    apply lineEndsAfter_spaceClosings
    rw [hcut, map_append] at hus
    exact lineEndsAfter_unlines (by simpa using hgs) (by simpa using hhs) hus

end LineFeeds

/-- **Line feeds next to tags, table rows and list items stay.** A wrapper that keeps the visible
text still does when line feeds are kept around it. For every line feed of the text that follows a
line ending in a tag or stands before an unindented line starting with one, and for every line feed
before or after a table row, or a list item in a text with tags, a line of the result ends after the
same visible text. There may be no separator rows, since these are rewritten. -/
theorem line_feeds_next_to_tags_stay {wrap : LineWrapper}
    (hwrap : ∀ s, visible (wrap s {}) = visible s) {t : Text}
    (hrows : ∀ l ∈ lines t, Block.isSeparator l = false) :
    visible (keepTagLines wrap t {}) = visible t ∧
      ∀ (before : List Text) (previous line : Text) (after : List Text),
        lines t = before ++ previous :: line :: after →
        (endsLine previous = true ∨ startsUnindented line = true ∨
          Block.isTableRow previous = true ∨ Block.isTableRow line = true ∨
          hasTags (lines t) = true ∧
            (Block.isListItem previous = true ∨ Block.isListItem line = true)) →
        ∃ a b, keepTagLines wrap t {} = a ++ '\n' :: b ∧
          visible a = visible (unlines (before ++ [previous])) := by
  refine ⟨visible_keepTagLines hwrap hrows, fun before previous line after hlines hkept => ?_⟩
  have hboundary : isBoundary (hasTags (lines t)) previous line = true := by
    unfold isBoundary
    rcases hkept with h | h | h | h | ⟨htags, h | h⟩
    · simp [h]
    · simp [h]
    · simp [h]
    · simp [h]
    · simp [htags, h]
    · simp [htags, h]
  exact lineEndsAfter_keepTagLines hwrap hrows hlines hboundary

/-- Prose that is filled anew before a tag, with an item after it. -/
theorem line_feed_before_tag_stays :
    (∀ s, visible (fillToWidth .codePoints false 5 s {}) = visible s) ∧
      (∀ l ∈ lines "so it\nis\n\x7b% a %\x7d\n- b".toList, Block.isSeparator l = false) ∧
      ∃ a b, keepTagLines (fillToWidth .codePoints false 5)
          "so it\nis\n\x7b% a %\x7d\n- b".toList {} = a ++ '\n' :: b ∧
        visible a = visible (unlines ["so it".toList, "is".toList]) :=
  have hwrap : ∀ s, visible (fillToWidth .codePoints false 5 s {}) = visible s := by
    intro s
    rw [fillToWidth, paragraph, paragraphAt_eq, visible_rejoin]
    exact (keeps_paragraphLines rfl _ s).visible_eq.symm
  have hrows : ∀ l ∈ lines "so it\nis\n\x7b% a %\x7d\n- b".toList, Block.isSeparator l = false := by
    decide +kernel
  ⟨hwrap, hrows, (line_feeds_next_to_tags_stay hwrap hrows).2 ["so it".toList] "is".toList
    "\x7b% a %\x7d".toList ["- b".toList] (by decide +kernel) (.inr (.inl (by decide +kernel)))⟩

/-! ## Comments -/

theorem IsMarkdownWrapper.exists_fill {wrap : LineWrapper} (h : IsMarkdownWrapper wrap) :
    ∃ fill, wrap = forMarkdown fill := by
  rcases h with ⟨measure, width, rfl⟩ | ⟨s, hs, rfl⟩
  · exact ⟨fillToWidth measure true width, rfl⟩
  · exact ⟨fillBySentence s, if_pos hs⟩

theorem forMarkdown_of_unbroken (fill : LineWrapper) {t : Text} (h : hardSegments t = [t]) :
    forMarkdown fill t {} = keepTagLines fill t {} := by
  rw [forMarkdown, keepHardBreaks_eq, h]
  rfl

/-- **When a comment is kept.** A many-line comment without hard breaks comes back as it is from
every wrapper for Markdown, at every width. One that has hard breaks comes back as it is if and only
if none of them is written as two spaces, and each part between them comes back as it is when it is
wrapped on its own. -/
theorem comment_kept_iff {wrap : LineWrapper} (hwrap : IsMarkdownWrapper wrap) {t : Text}
    (h : isMultilineComment t = true) :
    wrap t {} = t ↔ hardSegments t = [t] ∨
      (¬ [' ', ' ', '\n'] <:+: t ∧ ∀ p ∈ hardSegments t, wrap p {} = p) := by
  obtain ⟨fill, rfl⟩ := hwrap.exists_fill
  have hpart : ∀ p ∈ hardSegments t, forMarkdown fill p {} = keepTagLines fill p {} :=
    fun p hp => forMarkdown_of_unbroken fill (hardSegments_of_mem hp)
  have hstays : forMarkdown fill t {} = t ↔
      ¬ [' ', ' ', '\n'] <:+: t ∧ ∀ p ∈ hardSegments t, forMarkdown fill p {} = p := by
    rw [forMarkdown, keepHardBreaks_eq_self_iff]
    refine and_congr_right fun _ => forall₂_congr fun p hp => ?_
    rw [← hpart p hp, forMarkdown]
  constructor
  · intro hkept
    exact .inr (hstays.1 hkept)
  · rintro (hone | hparts)
    · -- the whole comment gets past the hard breaks, and is kept behind them
      rw [forMarkdown_of_unbroken fill hone, keepTagLines_of_comment fill h]
    · exact hstays.2 hparts

/-- A comment with a break in it that is a backslash, and parts that fit on one line each. -/
theorem comment_with_backslash_kept :
    IsMarkdownWrapper (toWidth .codePoints true 20) ∧
      isMultilineComment "<!-- a b\\\nc -->".toList = true ∧
      toWidth .codePoints true 20 "<!-- a b\\\nc -->".toList {} = "<!-- a b\\\nc -->".toList :=
  have hwrap : IsMarkdownWrapper (toWidth .codePoints true 20) := .inl ⟨.codePoints, 20, rfl⟩
  have hcomment : isMultilineComment "<!-- a b\\\nc -->".toList = true := by decide +kernel
  ⟨hwrap, hcomment, (comment_kept_iff hwrap hcomment).2
    (.inr ⟨by decide +kernel, by decide +kernel⟩)⟩

/-- Two spaces at the end of a line of a comment are lost, and a backslash is put there. -/
theorem comment_with_spaces_changed :
    strip "<!-- a  \nb -->".toList = "<!-- a  \nb -->".toList ∧
      isMultilineComment "<!-- a  \nb -->".toList = true ∧
      toWidth .codePoints true 88 "<!-- a  \nb -->".toList {} = "<!-- a\\\nb -->".toList := by
  decide +kernel

end Reflow.Wrap
