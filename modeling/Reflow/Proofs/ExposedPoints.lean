import Reflow.Proofs.LoneWords
import Reflow.Proofs.SeparatorRows

/-!
Points that wrapping can expose.

A point is exposed if it comes to stand after the digits that a line starts with. Which points can
be is seen where every word has a line of its own, the lines that are kept taken as words
(`exposedLines`). Tags, tables and hard breaks cut a text into stretches that are filled one by one,
and each of them exposes what it would on its own. So at any width the points exposed are among
those (`exposes_forMarkdown`, for either filler), and in a single column they are the same.
-/

open List hiding splitOn splitOn_ne_nil find?

namespace Reflow.Block

open Text

/-! ## Separator rows -/

theorem points_of_isSeparator {line : Text} (h : isSeparator line) : Wrap.points line = 0 := by
  obtain ⟨cells, -, hrow⟩ := isSeparator_iff.1 h
  rw [← Wrap.points_congr (visible_strip line), hrow]
  refine count_eq_zero.2 fun hmem => ?_
  rcases mem_rowText hmem with hblank | hmark
  · exact absurd hblank (by decide)
  · simp at hmark

theorem numberPoints_normaliseSeparator (line : Text) :
    Wrap.numberPoints (normaliseSeparator line) = Wrap.numberPoints line := by
  by_cases hline : isSeparator line
  · obtain ⟨cells, hne, hrow⟩ := isSeparator_iff.1 hline
    have hpoint : '.' ∉ normaliseSeparator line := by
      rw [normaliseSeparator_eq hne hrow]
      exact fun hmem => by simpa using Wrap.mem_delimiterRow hmem
    rw [Wrap.numberPoints_of_points (points_of_isSeparator hline),
      Wrap.numberPoints_of_points (count_eq_zero.2 hpoint)]
  · rw [normaliseSeparator_of_not (Bool.eq_false_iff.2 hline)]

end Reflow.Block

namespace Reflow.Wrap

open Text

/-! ## Tags, tables and hard breaks -/

theorem lined_self {r : Bool → Bool → Prop} (hr : ∀ x, r x x) {ls : List Text}
    (h : ∀ l ∈ ls, '\n' ∉ l) : Lined r (unlines ls) ls ls := by
  refine ⟨h, forall₂_same.2 fun x _ => hr x, fun l hl hnumbered => ?_⟩
  obtain ⟨rest, rfl⟩ := head?_eq_some_iff.1 hl
  have hopens := opensNumbered_of_startsNumbered hnumbered
  by_cases hrest : rest = []
  · subst hrest
    exact hopens
  · rw [unlines_cons hrest]
    exact opensNumbered_append hopens _

theorem numberPoints_indentRow (m l : Text) :
    numberPoints (unindent m (indentRow m l)) = numberPoints l := by
  unfold indentRow
  split
  · next hblank =>
    have hl : ∀ c ∈ l, isBlank c := by simpa [isBlankText] using hblank
    have hunindent : ∀ c ∈ unindent m l, isBlank c := by
      intro c hc
      unfold unindent at hc
      split at hc
      · exact hl c (mem_of_mem_drop hc)
      · exact hl c hc
    rw [numberPoints_of_points (points_of_blank hl),
      numberPoints_of_points (points_of_blank hunindent)]
  · rw [unindent_append, Block.numberPoints_normaliseSeparator]

theorem newline_not_mem_indentRow {m l : Text} (hm : '\n' ∉ m) (hl : '\n' ∉ l) :
    '\n' ∉ indentRow m l := by
  have hrow : indentRow [] l = l ∨ ∃ columns, indentRow [] l = Block.delimiterRow columns :=
    indentRow_cases l
  unfold indentRow at hrow ⊢
  split
  · exact hl
  · next hblank =>
    rw [if_neg hblank] at hrow
    intro hmem
    rcases mem_append.1 hmem with hmem | hmem
    · exact hm hmem
    · rcases hrow with heq | ⟨columns, heq⟩
      · exact hl (heq ▸ hmem)
      · exact newline_not_mem_delimiterRow columns (heq ▸ hmem)

theorem exposes_tableRows {r : Bool → Bool → Prop} (hr : ∀ x, r x x) {i : Indents}
    (hfirst : Margin i.first) (hlater : Margin i.later) {ls : List Text} (hne : ls ≠ [])
    (h : ∀ l ∈ ls, '\n' ∉ l) : Exposes r i (unlines ls) ls (unlines (tableRows i ls)) := by
  obtain ⟨l, ls, rfl⟩ := exists_cons_of_ne_nil hne
  have hlines : lines (unlines (tableRows i (l :: ls))) = tableRows i (l :: ls) := by
    refine lines_unlines (by simp [tableRows]) fun m hm => ?_
    rcases mem_cons.1 hm with rfl | hm
    · exact newline_not_mem_indentRow hfirst.line (h l (by simp))
    · obtain ⟨n, hn, rfl⟩ := mem_map.1 hm
      exact newline_not_mem_indentRow hlater.line (h n (by simp [hn]))
  have hflags : pointFlags i (unlines (tableRows i (l :: ls))) = (l :: ls).flatMap numberPoints := by
    rw [pointFlags, hlines, tableRows, Indents.remove, flatMap_cons, flatMap_cons,
      numberPoints_indentRow, map_map, flatMap_map]
    exact congrArg _ (flatMap_congr fun m _ => numberPoints_indentRow i.later m)
  refine ⟨?_, fun hnumbered => (lined_self hr h).head l rfl ?_⟩
  · rw [hflags]
    exact forall₂_same.2 fun x _ => hr x
  · rw [firstNumbered, hlines] at hnumbered
    have hstarts : startsNumbered (unindent i.first (indentRow i.first l)) := by
      simpa [tableRows] using hnumbered
    rwa [startsNumbered_eq_head, numberPoints_indentRow, ← startsNumbered_eq_head] at hstarts

/-- The lines of a text with every word on a line of its own, where `cut` gives the words of what is
filled. -/
def exposedLines (cut : Text → List Text) (t : Text) : List Text :=
  (hardSegments t).flatMap (pieces cut)

section Lift

variable {m : Text}

variable {r : Bool → Bool → Prop} (hr : ∀ x, r x x) {fill : LineWrapper}
  {cut : Text → List Text} {later : Text} (hlater : Margin later)
  (hfill : ∀ m t, Margin m → Exposes r ⟨m, later⟩ t (cut t) (fill t ⟨m, later⟩))

include hr hlater hfill

theorem exposes_wrapSegment (hm : Margin m) {segment : List Text} (hne : segment ≠ [])
    (hline : ∀ l ∈ segment, '\n' ∉ l) :
    Exposes r ⟨m, later⟩ (unlines segment) (segmentPieces cut segment)
      (wrapSegment fill ⟨m, later⟩ segment) := by
  by_cases hcomment : Tag.isMultilineComment (unlines segment)
  · have hkept : isKept segment := by rw [isKept, hcomment, Bool.true_or]
    rw [wrapSegment, if_pos hcomment, segmentPieces, if_pos hkept]
    exact (lined_self hr hline).exposes hm hlater
  · by_cases htable : (segment.all fun l => isBlankText l || Block.isTableRow l)
    · have hkept : isKept segment := by rw [isKept, htable, Bool.or_true]
      rw [wrapSegment, if_neg hcomment, if_pos htable, segmentPieces, if_pos hkept]
      exact exposes_tableRows hr hm hlater hne hline
    · have hkept : ¬ isKept segment := by
        rw [isKept, Bool.or_eq_true]
        exact not_or.2 ⟨hcomment, htable⟩
      rw [wrapSegment, if_neg hcomment, if_neg htable, segmentPieces, if_neg hkept]
      exact hfill m _ hm

theorem flags_wrapSegmentsAfter (previous : List Text) {segments : List (List Text)}
    (hne : ∀ s ∈ segments, s ≠ []) (hline : ∀ s ∈ segments, ∀ l ∈ s, '\n' ∉ l) :
    Forall₂ r
      ((wrapSegmentsAfter fill later previous segments).flatMap (pointFlags ⟨later, later⟩))
      ((segments.flatMap (segmentPieces cut)).flatMap numberPoints) := by
  induction segments generalizing previous with
  | nil => exact .nil
  | cons segment rest ih =>
    have hsegment := (exposes_wrapSegment hr hlater hfill hlater (hne segment (by simp))
      (hline segment (by simp))).flags
    have hrest := ih segment (fun s hs => hne s (by simp [hs])) fun s hs => hline s (by simp [hs])
    have hboth := rel_append hsegment hrest
    rw [wrapSegmentsAfter, flatMap_cons, flatMap_append]
    split
    · -- an empty line has no points
      rw [flatMap_cons, pointFlags_nil]
      exact hboth
    · exact hboth

/-- Keeping tag lines exposes no points but those of the pieces. -/
theorem exposes_keepTagLines (hm : Margin m) (p : Text) :
    Exposes r ⟨m, later⟩ p (pieces cut p) (keepTagLines fill p ⟨m, later⟩) := by
  have htext := unlines_segments p
  rcases keepTagLines_cases fill p ⟨m, later⟩ with ⟨hcomment, heq⟩ |
    ⟨hcomment, ⟨segment, hone⟩, heq⟩ | ⟨hcomment, first, second, rest, hsegments, heq⟩
  · have hpieces : pieces cut p = lines p := by
      rw [pieces, layout, hcomment, if_pos rfl]
    have hkept := (lined_self hr fun l => newline_not_mem_lines (t := p)).exposes
      (i := ⟨m, later⟩) hm hlater
    rw [unlines_lines] at hkept
    rw [heq, hpieces]
    exact hkept
  · have hpieces : pieces cut p = cut p := by
      rw [hone] at htext
      rw [pieces, layout, hcomment, hone]
      exact congrArg cut htext
    obtain ⟨hflags, hfirst⟩ := pointFlags_breakClosings (i := ⟨m, later⟩) hlater
      (fill p ⟨m, later⟩)
    rw [heq, hpieces]
    exact ⟨hflags ▸ (hfill m p hm).flags, fun h => (hfill m p hm).first (hfirst ▸ h)⟩
  · obtain ⟨hflat, hne⟩ := flatten_segments (lines p)
    have hpieces : pieces cut p
        = (first :: second :: rest).flatMap (segmentPieces cut) := by
      rw [pieces, layout, hcomment, if_neg (by simp), hsegments]
    rw [hsegments] at hflat hne htext
    have hline : ∀ s ∈ first :: second :: rest, ∀ l ∈ s, '\n' ∉ l := fun s hs l hl =>
      newline_not_mem_lines (hflat ▸ mem_flatten.2 ⟨s, hs, hl⟩)
    have hhead := exposes_wrapSegment hr hlater hfill hm (hne first (by simp)) (hline first (by simp))
    have htail := flags_wrapSegmentsAfter hr hlater hfill first
      (fun s hs => hne s (mem_cons_of_mem _ hs)) fun s hs => hline s (mem_cons_of_mem _ hs)
    obtain ⟨hbroken, hbrokenFirst⟩ := pointFlags_breakClosings (i := ⟨m, later⟩) hlater
      (Tag.spaceClosings (unlines (wrapSegment fill ⟨m, later⟩ first
        :: wrapSegmentsAfter fill later first (second :: rest))))
    obtain ⟨hspaced, hspacedFirst⟩ := pointFlags_spaceClosings (i := ⟨m, later⟩) hm hlater
      (unlines (wrapSegment fill ⟨m, later⟩ first
        :: wrapSegmentsAfter fill later first (second :: rest)))
    rw [heq, hpieces]
    refine ⟨?_, fun h => ?_⟩
    · rw [hbroken, hspaced, pointFlags_unlines, flatMap_cons, flatMap_append]
      exact rel_append hhead.flags htail
    · rw [hbrokenFirst] at h
      have hnumbered := hspacedFirst h
      rw [firstNumbered_unlines] at hnumbered
      -- the text goes on after its first segment
      have hopens := opensNumbered_append (hhead.first hnumbered)
        ('\n' :: unlines ((second :: rest).map unlines))
      rwa [← unlines_cons (by simp), ← map_cons, htext] at hopens

/-- **A text.** Its parts between hard breaks are wrapped one by one. -/
theorem exposes_forMarkdown (hm : Margin m) (t : Text) :
    Exposes r ⟨m, later⟩ t (exposedLines cut t) (forMarkdown fill t ⟨m, later⟩) := by
  -- the first part has the first margin, and each later one the later margin on all its lines
  have hparts : ∀ {u : Text} {p : Text} {ps : List Text} {n : Text}, Margin n →
      HardCut u (p :: ps) → Exposes r ⟨n, later⟩ u ((p :: ps).flatMap (pieces cut))
        (keepTagLines fill p ⟨n, later⟩ ++ wrapLaterSegments (keepTagLines fill) later ps) := by
    intro u p ps n hn hcut
    induction ps generalizing u p n with
    | nil =>
      cases hcut with
      | last =>
        rw [wrapLaterSegments, append_nil, flatMap_singleton]
        exact exposes_keepTagLines hr hlater hfill hn _
      | cut _ _ hrest => cases hrest
    | cons q ps ih =>
      cases hcut with
      | @cut _ sep rest _ hsep hrest =>
        have hfirst := exposes_keepTagLines hr hlater hfill hn p
        have hlast := ih hlater hrest
        obtain ⟨hflags, hnumbered⟩ := pointFlags_hardBreak (i := ⟨n, later⟩) hn hlater
          (keepTagLines fill p ⟨n, later⟩)
          (keepTagLines fill q ⟨later, later⟩ ++ wrapLaterSegments (keepTagLines fill) later ps)
        rw [wrapLaterSegments, append_assoc ['\\', '\n'], ← append_assoc]
        refine ⟨?_, fun h => ?_⟩
        · rw [hflags, flatMap_cons, flatMap_append]
          exact rel_append hfirst.flags hlast.flags
        · rw [hnumbered] at h
          rw [append_assoc]
          exact opensNumbered_append (hfirst.first h) _
  obtain ⟨p, ps, hsegments⟩ := exists_cons_of_ne_nil (hardSegments_ne_nil t)
  have hcut := hardCut_hardSegments t
  rw [hsegments] at hcut
  rw [forMarkdown, keepHardBreaks, exposedLines, hsegments]
  exact hparts hm hcut

end Lift

section Count

variable {cut : Text → List Text} (hcut : ∀ u, points (cut u).flatten = points u)

include hcut

theorem points_segmentPieces (segment : List Text) :
    points (segmentPieces cut segment).flatten = points (unlines segment) := by
  unfold segmentPieces
  split
  · rw [points_unlines]
  · exact hcut _

theorem points_pieces (p : Text) : points (pieces cut p).flatten = points p := by
  unfold pieces
  split
  · rw [← points_unlines, unlines_lines]
  · next segment hone =>
    have hflat := flatten_layout (t := p) (by simp [hone])
    rw [hone, flatten_singleton] at hflat
    rw [hcut, hflat, unlines_lines]
  · next hnil _ =>
    have hjoin : unlines (layout p).flatten = unlines ((layout p).map unlines) :=
      joinWith_flatten fun s => ne_nil_of_mem_layout
    rw [points_flatten_flatMap (points_segmentPieces hcut), ← points_unlines, ← hjoin,
      flatten_layout hnil, unlines_lines]

/-- **No point is lost.** -/
theorem points_exposedLines (t : Text) : points (exposedLines cut t).flatten = points t := by
  have hparts : ∀ {u : Text} {ps : List Text}, HardCut u ps → points ps.flatten = points u := by
    intro u ps h
    induction h with
    | last t => simp
    | @cut s sep t ts hsep _ ih =>
      have hsep : points sep = 0 := by rcases hsep with rfl | rfl <;> decide
      rw [flatten_cons, points_append, ih, points_append, points_append, hsep, Nat.add_zero]
  rw [exposedLines, points_flatten_flatMap (points_pieces hcut), map_id']
  exact hparts (hardCut_hardSegments t)

end Count

/-! ## The wrappers -/

section Wrappers

variable {i : Indents} (hfirst : Margin i.first) (hlater : Margin i.later)

include hfirst hlater

theorem exposes_toWidth (measure : Measure) (width : Int) (t : Text) :
    Exposes Implies i t (exposedLines loneWords t) (toWidth measure true width t i) :=
  exposes_forMarkdown (fun _ => id) hlater
    (fun m u hm => exposes_fillToWidth (i := ⟨m, i.later⟩) hm hlater measure width u) hfirst t

theorem exposes_toWidth_narrow (measure : Measure) (t : Text) :
    Exposes Eq i t (exposedLines loneWords t) (toWidth measure true 1 t i) :=
  exposes_forMarkdown Eq.refl hlater
    (fun m u hm => exposes_fillToWidth_narrow (i := ⟨m, i.later⟩) hm hlater measure u) hfirst t

theorem exposes_bySentence {s : SentenceSettings} (hs : s.markdown) (t : Text) :
    Exposes Implies i t (exposedLines (loneSentenceWords s.splitter) t) (bySentence s t i) := by
  rw [bySentence, if_pos hs]
  exact exposes_forMarkdown (fun _ => id) hlater
    (fun m u hm => exposes_fillBySentence (i := ⟨m, i.later⟩) hm hlater hs u) hfirst t

theorem exposes_bySentence_narrow (splitter : SentenceSplitter) (t : Text) :
    Exposes Eq i t (exposedLines (loneSentenceWords splitter) t)
      (bySentence (narrowSettings splitter) t i) :=
  exposes_forMarkdown Eq.refl hlater
    (fun m u hm => exposes_fillBySentence_narrow (i := ⟨m, i.later⟩) hm hlater splitter u) hfirst t

/-- **Every wrapper for Markdown** keeps the number of points, and exposes one in the first line only
if the text starts so. -/
theorem IsMarkdownWrapper.length_pointFlags {wrap : LineWrapper} (hwrap : IsMarkdownWrapper wrap)
    (t : Text) : (pointFlags i (wrap t i)).length = points t ∧
      (firstNumbered i.first (wrap t i) → opensNumbered t) := by
  have hcount : ∀ {cut : Text → List Text}, (∀ u, points (cut u).flatten = points u) →
      Exposes Implies i t (exposedLines cut t) (wrap t i) →
      (pointFlags i (wrap t i)).length = points t ∧
        (firstNumbered i.first (wrap t i) → opensNumbered t) := by
    intro cut hcut h
    refine ⟨?_, h.first⟩
    rw [h.flags.length_eq, length_flatMap_numberPoints, points_exposedLines hcut]
  rcases hwrap with ⟨measure, width, rfl⟩ | ⟨s, hs, rfl⟩
  · exact hcount points_loneWords (exposes_toWidth hfirst hlater measure width t)
  · exact hcount (points_loneSentenceWords s.splitter) (exposes_bySentence hfirst hlater hs t)

end Wrappers

end Reflow.Wrap
