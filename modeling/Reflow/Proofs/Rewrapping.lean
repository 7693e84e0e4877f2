import Reflow.Proofs.HardBreaks
import Reflow.Proofs.PlainProse
import Reflow.Proofs.SentenceRuns

/-!
Wrapping Markdown again.

A second pass reads line feeds that the first has written. The result stays if the second pass cuts
it as the first has filled it (`Steady`). Nothing else can change: a run of filled lines stays when
it is filled (`fillToWidth_run`), and the passes over closing tags leave what they have once set
right.
-/

namespace Reflow.Wrap

open Text Relaid Tag

/-! ## Segments -/

/-- The segments that a text is cut into; there are none if it is kept whole. -/
def layout (t : Text) : List (List Text) :=
  if isMultilineComment t then [] else segments (lines t)

/-- The segment is a many-line comment or consists of table rows. -/
def isKept (segment : List Text) : Bool :=
  isMultilineComment (unlines segment) ||
    segment.all fun l => isBlankText l || Block.isTableRow l

/-- The segments that are filled. A segment that is the only one is always filled. -/
def proseSegments (t : Text) : List (List Text) :=
  match layout t with
  | [segment] => [segment]
  | several => several.filter fun segment => !isKept segment

theorem chain_of_segmentsFrom {tags : Bool} {current : List Text} {previous : Text}
    {ls : List Text} (hcurrent : previous ∈ current)
    (h : (segmentsFrom tags current previous ls).IsChain
      fun a b => segmentsNeedSpace a b = false) :
    (previous :: ls).IsChain fun a b => Block.isContent a → startsUnindented b = false := by
  have hhead : ∀ (current : List Text) (previous : Text) (ls : List Text), current ≠ [] →
      ∃ segment rest, segmentsFrom tags current previous ls = segment :: rest ∧
        segment.head? = current.head? := by
    intro current previous ls hne
    fun_induction segmentsFrom tags current previous ls with
    | case1 current => exact ⟨current, [], rfl, rfl⟩
    | case2 current previous line rest _ _ => exact ⟨current, _, rfl, rfl⟩
    | case3 current previous line rest _ ih =>
      obtain ⟨segment, more, heq, hsegment⟩ := ih (by simp)
      exact ⟨segment, more, heq, by rw [hsegment, List.head?_append_of_ne_nil _ hne]⟩
  fun_induction segmentsFrom tags current previous ls with
  | case1 current previous => exact .singleton previous
  | case2 current previous line rest hboundary ih =>
    obtain ⟨segment, more, heq, hsegment⟩ := hhead [line] line rest (by simp)
    have hnext := ih (by simp) h.tail
    refine .cons_cons (fun hcontent => ?_) hnext
    -- the line is the first of the next segment
    rw [heq] at h
    have hspace := (List.isChain_cons_cons.1 h).1
    have hany : current.any Block.isContent := List.any_eq_true.2 ⟨_, hcurrent, hcontent⟩
    rw [segmentsNeedSpace, Bool.or_eq_false_iff, hany, hsegment] at hspace
    simpa using hspace.2
  | case3 current previous line rest hboundary ih =>
    refine .cons_cons (fun _ => ?_) (ih (by simp) h)
    by_contra hstarts
    exact hboundary (by simp [isBoundary, (by simpa using hstarts : startsUnindented line = true)])

theorem wrapSegmentsAfter_eq {wrap : LineWrapper} {previous : List Text}
    {segments : List (List Text)} (h : ∀ s ∈ segments, wrapSegment wrap {} s = unlines s)
    (hspaced : (previous :: segments).IsChain fun a b => segmentsNeedSpace a b = false) :
    wrapSegmentsAfter wrap [] previous segments = segments.map unlines := by
  induction segments generalizing previous with
  | nil => rfl
  | cons segment rest ih =>
    obtain ⟨hspace, hrest⟩ := List.isChain_cons_cons.1 hspaced
    have hsegment : wrapSegment wrap ⟨[], []⟩ segment = unlines segment := h segment (by simp)
    rw [wrapSegmentsAfter, hsegment, hspace, ih (fun s hs => h s (by simp [hs])) hrest]
    rfl

variable {fill : LineWrapper} {t : Text} {part : Text → List Text → Prop}

/-- Nothing is done to a text whose runs of prose are filled and whose rows and tags are in order.
-/
theorem keepTagLines_eq_self (hfill : ∀ run ∈ proseSegments t, fill (unlines run) {} = unlines run)
    (hrows : (layout t).length = 1 ∨ ∀ l ∈ lines t, Block.normaliseSeparator l = l)
    (hspaced : (layout t).IsChain fun a b => segmentsNeedSpace a b = false)
    (hunindented : Tag.Unindented t) (hbroken : breakClosings t = t) :
    keepTagLines fill t {} = t := by
  have htext := unlines_segments t
  rcases keepTagLines_cases fill t {} with ⟨_, heq⟩ | ⟨hcomment, ⟨segment, hone⟩, heq⟩ |
    ⟨hcomment, first, second, rest, hsegments, heq⟩
  · rw [heq, verbatim_empty]
  · have hprose : proseSegments t = [segment] := by
      rw [proseSegments, layout, hcomment, if_neg (by simp), hone]
    have htext : unlines segment = t := by rw [hone] at htext; exact htext
    rw [heq, ← htext, hfill segment (by simp [hprose]), htext, hbroken]
  · have hlayout : layout t = segments (lines t) := by rw [layout, hcomment, if_neg (by simp)]
    have hflat := (flatten_segments (lines t)).1
    rw [hlayout, hsegments] at hrows hspaced
    rw [hsegments] at hflat htext
    have hnormal : ∀ l ∈ lines t, Block.normaliseSeparator l = l := by
      rcases hrows with hone | hnormal
      · simp at hone
      · exact hnormal
    have hprose : proseSegments t = (first :: second :: rest).filter fun s => !isKept s := by
      rw [proseSegments, hlayout, hsegments]
    have hsegment : ∀ s ∈ first :: second :: rest, wrapSegment fill {} s = unlines s := by
      intro s hs
      unfold wrapSegment
      split
      · rw [verbatim, Indents.apply_empty]
      · next hcomment =>
        split
        · rw [tableRows_eq fun l hl => hnormal l (hflat ▸ List.mem_flatten.2 ⟨s, hs, hl⟩)]
        · next htable =>
          refine hfill s ?_
          rw [hprose]
          refine List.mem_filter.2 ⟨hs, ?_⟩
          simpa [isKept, hcomment] using htable
    have hparts : wrapSegment fill {} first :: wrapSegmentsAfter fill [] first (second :: rest)
        = (first :: second :: rest).map unlines := by
      rw [wrapSegmentsAfter_eq (fun s hs => hsegment s (by simp [hs])) hspaced,
        hsegment first (by simp)]
      rfl
    have hclosings : spaceClosings t = t := by
      obtain ⟨l, ls, hlines⟩ := List.exists_cons_of_ne_nil (splitOn_ne_nil '\n' t)
      refine spaceClosings_eq_self hunindented ?_
      rw [lines, hlines]
      rw [← hsegments, lines, hlines] at hspaced
      refine (chain_of_segmentsFrom (by simp) hspaced).imp fun a b h hcontent hclosing => ?_
      simpa [startsUnindented, startsLine_of_isClosing hclosing] using h hcontent
    rw [heq, hparts, htext, hclosings, hbroken]

/-! ## Wrapping again -/

/-- What a second pass may rely on: the lines that `fill` makes of a text start and end with visible
characters, a run of lines that is `part` of them stays, and where no tags meet in a text all of them
are such a run and a layout of the text. -/
structure Refills (fill : LineWrapper) (part : Text → List Text → Prop) : Prop where
  solid : ∀ t, ∀ l ∈ lines (fill t {}), l = [] ∨ Solid l
  again : ∀ {t : Text} {run : List Text}, run ≠ [] → part t run →
    fill (unlines run) {} = unlines run
  whole : ∀ {t : Text}, Tag.TagsApart t → part t (lines (fill t {})) ∧ Relays t (fill t {})

theorem Refills.unindented (h : Refills fill part) (t : Text) : Tag.Unindented (fill t {}) := by
  intro l hl _
  rcases h.solid t l hl with rfl | hsolid
  · rfl
  · obtain ⟨c, u, rfl, hc⟩ := hsolid.first
    exact hc

/-- A second pass finds in the result what the first has made of the text. -/
structure Steady (fill : LineWrapper) (part : Text → List Text → Prop) (t : Text) : Prop where
  /-- There are no new hard breaks. -/
  unbroken : hardSegments (keepTagLines fill t {}) = [keepTagLines fill t {}]
  /-- What is filled again are lines of one segment that was filled. -/
  runs : ∀ run ∈ proseSegments (keepTagLines fill t {}),
    ∃ segment ∈ proseSegments t, part (unlines segment) run
  /-- Separator rows are in normal form, unless the text is one paragraph. -/
  rows : (layout (keepTagLines fill t {})).length = 1 ∨
    ∀ l ∈ lines (keepTagLines fill t {}), Block.normaliseSeparator l = l
  /-- No tag stands next to block content. -/
  spaced : (layout (keepTagLines fill t {})).IsChain fun a b => segmentsNeedSpace a b = false

instance (fill : LineWrapper) (part : Text → List Text → Prop) (t : Text)
    [∀ u run, Decidable (part u run)] : Decidable (Steady fill part t) :=
  decidable_of_iff
    (hardSegments (keepTagLines fill t {}) = [keepTagLines fill t {}] ∧
      (∀ run ∈ proseSegments (keepTagLines fill t {}),
        ∃ segment ∈ proseSegments t, part (unlines segment) run) ∧
      ((layout (keepTagLines fill t {})).length = 1 ∨
        ∀ l ∈ lines (keepTagLines fill t {}), Block.normaliseSeparator l = l) ∧
      (layout (keepTagLines fill t {})).IsChain fun a b => segmentsNeedSpace a b = false)
    ⟨fun h => ⟨h.1, h.2.1, h.2.2.1, h.2.2.2⟩, fun h => ⟨h.1, h.2, h.3, h.4⟩⟩

theorem ne_nil_of_mem_layout {segment : List Text} (h : segment ∈ layout t) : segment ≠ [] := by
  unfold layout at h
  split at h
  · simp at h
  · exact (flatten_segments (lines t)).2 segment h

theorem ne_nil_of_mem_proseSegments {run : List Text} (h : run ∈ proseSegments t) : run ≠ [] := by
  apply ne_nil_of_mem_layout (t := t)
  unfold proseSegments at h
  split at h
  · next segment hlayout =>
    rw [hlayout]
    exact h
  · exact (List.mem_filter.1 h).1

/-- **Around tags and tables, again.** -/
theorem keepTagLines_again (hfill : Refills fill part) (h : Steady fill part t) :
    keepTagLines fill (keepTagLines fill t {}) {} = keepTagLines fill t {} := by
  have hbroken : ∀ u, keepTagLines fill t {} = breakClosings u → Tag.Unindented u →
      keepTagLines fill (keepTagLines fill t {}) {} = keepTagLines fill t {} := by
    intro u hu hunindented
    refine keepTagLines_eq_self (fun run hrun => ?_) h.rows h.spaced ?_ ?_
    · obtain ⟨segment, _, hpart⟩ := h.runs run hrun
      exact hfill.again (ne_nil_of_mem_proseSegments hrun) hpart
    · rw [hu]
      exact hunindented.breakClosings
    · rw [hu, breakClosings_breakClosings]
  rcases keepTagLines_cases fill t {} with ⟨_, heq⟩ | ⟨_, _, heq⟩ | ⟨_, _, _, _, _, heq⟩
  · rw [heq, verbatim_empty, heq, verbatim_empty]
  · exact hbroken _ heq (hfill.unindented t)
  · exact hbroken _ heq (unindented_spaceClosings _)

/-- **Plain prose is steady.** -/
theorem Plain.steady (hfill : Refills fill part) (h : Plain t) : Steady fill part t := by
  obtain ⟨hpart, hrelays⟩ := hfill.whole h.tagsApart
  have hplain : Plain (fill t {}) := h.relays hrelays
  have hkeep : keepTagLines fill t {} = fill t {} := by
    unfold keepTagLines
    rw [h.isMultilineComment_eq, Bool.and_false, h.segments_eq]
    exact hplain.breakClosings_eq
  have hlayout : ∀ {u : Text}, Untagged u → layout u = [lines u] := by
    intro u hu
    rw [layout, hu.isMultilineComment_eq, if_neg (by simp), hu.segments_eq]
  refine ⟨?_, ?_, ?_, ?_⟩
  all_goals rw [hkeep]
  · exact hplain.hardSegments_eq (hfill.solid t)
  · intro run hrun
    rw [proseSegments, hlayout hplain.toUntagged] at hrun
    obtain rfl : run = lines (fill t {}) := by simpa using hrun
    refine ⟨lines t, ?_, ?_⟩
    · rw [proseSegments, hlayout h.toUntagged]
      simp
    · rwa [unlines_lines]
  · exact .inl (by rw [hlayout hplain.toUntagged]; rfl)
  · rw [hlayout hplain.toUntagged]
    exact .singleton _

theorem forMarkdown_again (hfill : Refills fill part)
    (h : ∀ p ∈ hardSegments t, Steady fill part p) :
    forMarkdown fill (forMarkdown fill t {}) {} = forMarkdown fill t {} := by
  have hbreaks : hardSegments (forMarkdown fill t {})
      = (hardSegments t).map fun p => keepTagLines fill p {} := by
    rw [forMarkdown, hardSegments_keepHardBreaks, List.map_eq_flatMap]
    exact List.flatMap_congr fun p hp => (h p hp).unbroken
  rw [forMarkdown, keepHardBreaks_eq, ← forMarkdown, hbreaks, List.map_map, forMarkdown,
    keepHardBreaks_eq]
  exact congrArg _ (List.map_congr_left fun p hp => keepTagLines_again hfill (h p hp))

/-! ## The two fillers -/

theorem lines_rejoin_rows {rows : List Row} (hrows : rows ≠ [])
    (hwords : ∀ r ∈ rows, ∀ w ∈ r.words, ∃ t, w ∈ lineWords t) :
    lines (rejoin (unlines (rows.map (Row.text escapeWord))))
      = rows.map fun r => rejoin (r.text escapeWord) := by
  rw [rejoin_unlines, List.map_map]
  refine lines_unlines (by simpa using hrows) fun m hm => ?_
  obtain ⟨r, hr, rfl⟩ := List.mem_map.1 hm
  exact newline_not_mem_rejoin (Row.newline_not_mem_text (hwords r hr))

theorem solid_of_rows {rows : List Row} (hne : ∀ r ∈ rows, r.words ≠ [])
    (hwords : ∀ r ∈ rows, ∀ w ∈ r.words, ∃ t, w ∈ lineWords t) :
    ∀ l ∈ lines (rejoin (unlines (rows.map (Row.text escapeWord)))), l = [] ∨ Solid l := by
  intro l hl
  by_cases hrows : rows = []
  · exact .inl (by simpa [hrows, unlines, joinWith, lines, splitOn] using hl)
  · rw [lines_rejoin_rows hrows hwords] at hl
    obtain ⟨r, hr, rfl⟩ := List.mem_map.1 hl
    have hsolid : Solid (r.text escapeWord) := by
      refine Row.solid_text (s := markdownSettings .codePoints) (hne r hr) fun w hw => ?_
      obtain ⟨t, ht⟩ := hwords r hr w hw
      exact solid_of_mem_lineWords ht
    exact .inr ((reseamed_apply [' '] [] _).solid hsolid)

/-- A run of lines of a text that was filled, and in which separated tags do not touch. -/
def RunOf (fill : LineWrapper) (t : Text) (run : List Text) : Prop :=
  Tag.Unseamed (separated t) ∧ run <:+: lines (fill t {})

instance (fill : LineWrapper) (t : Text) (run : List Text) : Decidable (RunOf fill t run) :=
  inferInstanceAs (Decidable (_ ∧ _))

/-- A run of lines of a text that was filled sentence by sentence and in which no tags meet, which
can do without the other lines. -/
def SentenceRunOf (s : SentenceSettings) (t : Text) (run : List Text) : Prop :=
  Tag.TagsApart t ∧ ∃ before after,
    lines (fillBySentence s t {}) = before ++ run ++ after ∧ s.Detached before run after

theorem refills_fillToWidth (measure : Measure) {width : Int} (hwidth : 0 < width) :
    Refills (fillToWidth measure true width) (RunOf (fillToWidth measure true width)) where
  solid t := by
    have hcols : 0 < (⟨width, 0, 0⟩ : Columns).width := hwidth
    obtain ⟨rows, hfilled, heq⟩ := paragraphLines_eq (markdownSettings measure) hcols t
    have hfill : fillToWidth measure true width t {}
        = rejoin (unlines (rows.map (Row.text escapeWord))) := by
      rw [← markdownSettings_escape measure, ← heq]
      exact paragraphAt_eq (markdownSettings measure) width 0 t
    rw [hfill]
    refine solid_of_rows hfilled.ne_nil fun r hr w hw => ⟨t, ?_⟩
    rw [← markdownSettings_words measure, ← hfilled.words_eq]
    exact List.mem_flatMap.2 ⟨r, hr, hw⟩
  again hne hrun := fillToWidth_run measure hwidth hrun.1 hne hrun.2
  whole ht := ⟨⟨unseamed_of_tagsApart ht, List.infix_rfl⟩, relays_fillToWidth measure hwidth ht⟩

theorem refills_fillBySentence {s : SentenceSettings} (hs : s.markdown)
    (hsplit : s.splitter = .prose) (hwidth : 0 < s.width) :
    Refills (fillBySentence s) (SentenceRunOf s) where
  solid t := by
    obtain ⟨rows, hlaid, heq⟩ := exists_lines_eq hs hwidth (flat t)
    rw [fillBySentence_eq, if_neg (by omega), heq]
    exact solid_of_rows hlaid.ne_nil fun r hr => hlaid.exists_lineWords hr
  again := by
    rintro t run hne ⟨ht, before, after, hlines, hdetached⟩
    exact fillBySentence_run hs hsplit hwidth ht hne hlines hdetached
  whole ht := by
    refine ⟨⟨ht, [], [], by simp, .inl rfl, .inr (.inl rfl), by simp⟩, ?_⟩
    exact (fillBySentence_eq_unlines hs hsplit hwidth ht).2

/-! ## Main result -/

end Reflow.Wrap
