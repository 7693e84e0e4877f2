import Reflow.Proofs.KeptLines

/-!
Hard breaks of a wrapped text.

The parts of a text between its hard breaks are wrapped one by one, so no hard break is lost, and
new ones can only come up inside a part. They are counted line by line (`hardEnds`): the passes over
closing tags leave a line that ends as it did (`EndsAs`), and a filled line is ended by a hard break
if and only if its last character is a backslash.
-/

open List hiding splitOn splitOn_ne_nil find?

namespace Reflow.Wrap

open Text Tag

/-! ## Line ends -/

theorem endsHard_append {l : Text} (h : 2 ≤ l.length) (front : Text) :
    endsHard (front ++ l) = endsHard l := by
  induction front with
  | nil => rfl
  | cons c front ih =>
    -- the line is longer than either ending
    have hlong : ∀ s : Text, s.length ≤ 2 → c :: (front ++ l) ≠ s := by
      rintro s hs rfl
      simp only [length_cons, length_append] at hs
      omega
    rw [cons_append, endsHard_cons (hlong _ (by simp)) (hlong _ (by simp)), ih]

/-- The number of lines, without the last, that a hard break ends. -/
def hardEnds (ls : List Text) : Nat := ls.dropLast.countP endsHard

theorem hardEnds_append {ls : List Text} (hne : ls ≠ []) (front : List Text) :
    hardEnds (front ++ ls) = front.countP endsHard + hardEnds ls := by
  rw [hardEnds, dropLast_append_of_ne_nil hne, countP_append, hardEnds]

theorem endsHard_of_unbroken {t : Text} (ht : hardSegments t = [t]) :
    ∀ l ∈ (lines t).dropLast, endsHard l = false := by
  have hlen := length_hardSegments t
  rw [ht] at hlen
  simpa using hlen

/-- The lines `b` end as the line `l` does, with no hard break before. -/
def EndsAs (l : Text) (b : List Text) : Prop :=
  ∃ front last, b = front ++ [last] ∧ (∀ m ∈ front, endsHard m = false) ∧ endsHard last = endsHard l

theorem hardEnds_blocks {ls : List Text} {blocks : List (List Text)}
    (h : Forall₂ EndsAs ls blocks) : hardEnds blocks.flatten = hardEnds ls := by
  induction h with
  | nil => rfl
  | @cons l b ls blocks hb hrest ih =>
    obtain ⟨front, last, rfl, hfront, hlast⟩ := hb
    have hcount : front.countP endsHard = 0 := by
      simpa using hfront
    cases hrest with
    | nil =>
      rw [flatten_cons, flatten_nil, append_nil, hardEnds, dropLast_concat,
        hcount]
      rfl
    | @cons m b' ms blocks' hb' _ =>
      have hne : (b' :: blocks').flatten ≠ [] := by
        obtain ⟨front', last', rfl, _⟩ := hb'
        simp
      rw [flatten_cons, hardEnds_append hne, ih, ← singleton_append (l := m :: ms),
        hardEnds_append (by simp), countP_append, hcount, Nat.zero_add, countP_singleton,
        countP_singleton, hlast]

/-! ## Passes over closing tags -/

theorem EndsAs.refl (l : Text) : EndsAs l [l] := ⟨[], l, rfl, by simp, rfl⟩

theorem endsAs_spacesClosing {l : Text} {b : List Text} (h : Tag.SpacesClosing l b) :
    EndsAs l b := by
  rcases h with rfl | ⟨hclosing, hb⟩
  · exact .refl l
  · have hends : endsHard (stripLeft l) = endsHard l := by
      obtain ⟨k, _, hk⟩ := any_eq_true.1 hclosing
      obtain ⟨u, hu⟩ : k.opening ++ [' ', '/'] <+: stripLeft l := isPrefixOf_iff_prefix.1 hk
      obtain ⟨g, _, hl⟩ := exists_stripLeft l
      have hlen : 2 ≤ (stripLeft l).length := by
        rw [← hu]
        simp only [length_append, length_cons, length_nil]
        omega
      conv_rhs => rw [hl]
      exact (endsHard_append hlen g).symm
    rcases hb with rfl | rfl
    · exact ⟨[], stripLeft l, rfl, by simp, hends⟩
    · exact ⟨[[]], stripLeft l, rfl, by simp [endsHard, endsWith], hends⟩

theorem endsAs_breakClosing (line : Text) : EndsAs line (breakClosing line) := by
  rcases breakClosing_cases line with heq | ⟨k, front, g, u, hline, _, heq⟩
  · rw [heq]
    exact .refl line
  · have hopening : 2 ≤ (k.opening ++ u).length := by
      have hk : 2 ≤ k.opening.length := by cases k <;> decide
      rw [length_append]
      omega
    refine ⟨[front ++ k.closing], k.opening ++ u, heq, fun m hm => ?_, ?_⟩
    · obtain rfl : m = front ++ k.closing := by simpa using hm
      rw [endsHard_append (by cases k <;> decide)]
      cases k <;> rfl
    · rw [hline, endsHard_append hopening]

theorem hardEnds_spaceClosings (t : Text) :
    hardEnds (lines (spaceClosings t)) = hardEnds (lines t) := by
  obtain ⟨blocks, hblocks, heq⟩ := exists_spaceClosingsAfter none (lines t)
  rw [lines_spaceClosings, heq]
  exact hardEnds_blocks (hblocks.imp fun _ _ => endsAs_spacesClosing)

theorem hardEnds_breakClosings (t : Text) :
    hardEnds (lines (breakClosings t)) = hardEnds (lines t) := by
  obtain ⟨first, rest, rfl, hfirst, hrest⟩ := exists_lines t
  have hblocks : Forall₂ EndsAs (first :: rest) ([first] :: rest.map breakClosing) := by
    refine .cons (.refl first) ?_
    rw [forall₂_map_right_iff]
    exact forall₂_same.2 fun l _ => endsAs_breakClosing l
  have hall : ∀ l ∈ first :: rest, '\n' ∉ l := by simpa using ⟨hfirst, hrest⟩
  rw [lines_breakClosings hfirst hrest, lines_unlines (by simp) hall]
  exact hardEnds_blocks hblocks

/-! ## Segments -/

theorem lines_unlines_eq_flatMap {ts : List Text} (hne : ts ≠ []) :
    lines (unlines ts) = ts.flatMap lines := by
  induction ts with
  | nil => exact absurd rfl hne
  | cons t ts ih =>
    by_cases hts : ts = []
    · subst hts
      simp [unlines, joinWith]
    · rw [unlines_cons hts, flatMap_cons, ← ih hts]
      exact lines_append_newline t (unlines ts)

/-- The empty lines between segments are not ended by hard breaks. -/
theorem hardEnds_wrapSegmentsAfter (fill : LineWrapper) (previous : List Text)
    (segments : List (List Text)) (front : List Text) :
    hardEnds (front ++ (wrapSegmentsAfter fill [] previous segments).flatMap lines)
      = hardEnds (front ++ segments.flatMap fun s => lines (wrapSegment fill {} s)) := by
  induction segments generalizing previous front with
  | nil => rfl
  | cons segment rest ih =>
    have hne : ∀ more, lines (wrapSegment fill {} segment) ++ more ≠ [] := by
      simp [lines, splitOn_ne_nil]
    have hrest := ih segment (front ++ lines (wrapSegment fill {} segment))
    rw [append_assoc, append_assoc] at hrest
    rw [wrapSegmentsAfter, flatMap_cons, ← hrest]
    split
    · have hempty : lines [] = [[]] := rfl
      have hcount : [[]].countP endsHard = 0 := by decide
      rw [flatMap_cons, flatMap_cons, hempty, hardEnds_append (by simp),
        hardEnds_append (hne _), hardEnds_append (hne _), hcount, Nat.zero_add]
    · rw [flatMap_cons]

/-- What `cut` gives for a segment that is filled, and the lines of a segment that is kept. -/
def segmentPieces (cut : Text → List Text) (segment : List Text) : List Text :=
  if isKept segment then segment else cut (unlines segment)

theorem segmentPieces_ne_nil {cut : Text → List Text} (hcut : ∀ u, visible u ≠ [] → cut u ≠ [])
    {segment : List Text} (hne : segment ≠ []) : segmentPieces cut segment ≠ [] := by
  unfold segmentPieces
  split
  · exact hne
  · next hkept =>
    -- a segment that is filled has a line that is not blank
    refine hcut _ fun hnil => hkept ?_
    rw [isKept, Bool.or_eq_true]
    refine .inr (all_eq_true.2 fun l hl => ?_)
    rw [visible_unlines, flatMap_eq_nil_iff] at hnil
    have hblank : isBlankText l := by simpa [visible, isBlankText] using hnil l hl
    rw [hblank, Bool.true_or]

/-- What `cut` gives for the segments of a text that are filled, and the lines of those that are
kept. A many-line comment is kept, and a segment that is the only one is filled. -/
def pieces (cut : Text → List Text) (t : Text) : List Text :=
  match layout t with
  | [] => lines t
  | [segment] => cut (unlines segment)
  | several => several.flatMap (segmentPieces cut)

theorem indentRow_cases (l : Text) :
    indentRow [] l = l ∨ ∃ columns, indentRow [] l = Block.delimiterRow columns := by
  unfold indentRow Block.normaliseSeparator
  split
  · exact .inl rfl
  · split
    · split
      · exact .inr ⟨_, rfl⟩
      · exact .inl rfl
    · exact .inl rfl

theorem mem_delimiterRow {columns : List Block.Alignment} {c : Char}
    (h : c ∈ Block.delimiterRow columns) : c ∈ ['|', ' ', ':', '-'] := by
  have hcells : ∀ column : Block.Alignment, ∀ d ∈ column.cell, d ∈ ['|', ' ', ':', '-'] := by
    intro column d hd
    have hall : (column.cell.all fun d => ['|', ' ', ':', '-'].contains d) := by
      cases column <;> decide
    simpa using all_eq_true.1 hall d hd
  have hinner : c ∈ joinWith [' ', '|', ' '] (columns.map Block.Alignment.cell) →
      c ∈ ['|', ' ', ':', '-'] := by
    intro h
    rcases mem_joinWith h with h | ⟨t, ht, h⟩
    · simp only [mem_cons, not_mem_nil, or_false] at h ⊢
      tauto
    · obtain ⟨column, _, rfl⟩ := mem_map.1 ht
      exact hcells column c h
  simp only [Block.delimiterRow, mem_append] at h
  rcases h with (h | h) | h
  · simp only [mem_cons, not_mem_nil, or_false] at h ⊢
    tauto
  · exact hinner h
  · simp only [mem_cons, not_mem_nil, or_false] at h ⊢
    tauto

theorem newline_not_mem_delimiterRow (columns : List Block.Alignment) :
    '\n' ∉ Block.delimiterRow columns := fun h => absurd (mem_delimiterRow h) (by decide)

/-- A line of a segment that is kept becomes one line, and does not become one that ends hard. -/
theorem exists_lines_of_isKept (fill : LineWrapper) {segment : List Text}
    (hkept : isKept segment) (hne : segment ≠ []) (hnewline : ∀ l ∈ segment, '\n' ∉ l) :
    ∃ f : Text → Text, lines (wrapSegment fill {} segment) = segment.map f ∧
      ∀ l, endsHard l = false → endsHard (f l) = false := by
  unfold wrapSegment
  split
  · refine ⟨id, ?_, fun l hl => hl⟩
    rw [verbatim, Indents.apply_empty, lines_unlines hne hnewline, map_id]
  · next hcomment =>
    rw [if_pos (by simpa [isKept, hcomment] using hkept), tableRows_empty]
    refine ⟨indentRow [], lines_unlines (by simpa using hne) fun m hm => ?_, fun l hl => ?_⟩
    · obtain ⟨l, hl, rfl⟩ := mem_map.1 hm
      rcases indentRow_cases l with heq | ⟨columns, heq⟩
      · rw [heq]
        exact hnewline l hl
      · rw [heq]
        exact newline_not_mem_delimiterRow columns
    · rcases indentRow_cases l with heq | ⟨columns, heq⟩
      · rwa [heq]
      · rw [heq, Block.delimiterRow, endsHard_append (by decide)]
        rfl

/-- The pieces of a text, without the last of each part between hard breaks: a line feed is put
after a piece only if another follows in the same part. -/
def innerPieces (cut : Text → List Text) (t : Text) : List Text :=
  (hardSegments t).flatMap fun p => (pieces cut p).dropLast

/-- The number of filled lines that end in a backslash and are not the last of a part. -/
def addedBreaks (fill : LineWrapper) (t : Text) : Nat :=
  (innerPieces (fun u => lines (fill u {})) t).countP endsInBackslash

section Filled

variable {fill : LineWrapper}
  (hfill : ∀ t, ∀ l ∈ lines (fill t {}), endsHard l = endsInBackslash l)

include hfill

/-- The lines of a wrapped segment are its pieces, and those that end hard are the pieces that end
in a backslash, if none of the lines that were kept ends hard. -/
theorem exists_lines_wrapSegment {segment : List Text} (hne : segment ≠ [])
    (hnewline : ∀ l ∈ segment, '\n' ∉ l) :
    ∃ f : Text → Text, lines (wrapSegment fill {} segment)
        = (segmentPieces (fun u => lines (fill u {})) segment).map f ∧
      ∀ l ∈ segmentPieces (fun u => lines (fill u {})) segment,
        (isKept segment → endsHard l = false) → endsHard (f l) = endsInBackslash l := by
  by_cases hkept : isKept segment
  · obtain ⟨f, hlines, hends⟩ := exists_lines_of_isKept fill hkept hne hnewline
    refine ⟨f, by rw [hlines, segmentPieces, if_pos hkept], fun l _ hl => ?_⟩
    rw [hends l (hl hkept), endsInBackslash_of_not_endsHard (hl hkept)]
  · have hprose : wrapSegment fill {} segment = fill (unlines segment) {} := by
      simp only [isKept, Bool.or_eq_true, not_or] at hkept
      rw [wrapSegment, if_neg hkept.1, if_neg hkept.2]
    rw [hprose, segmentPieces, if_neg hkept]
    exact ⟨id, (map_id _).symm, fun l hl _ => hfill _ l hl⟩

/-- Segments wrapped one by one have a hard end where one of their pieces ends in a backslash. -/
theorem hardEnds_segments {segments : List (List Text)} (hne : ∀ s ∈ segments, s ≠ [])
    (hnewline : ∀ s ∈ segments, ∀ l ∈ s, '\n' ∉ l)
    (hsoft : ∀ l ∈ segments.flatten.dropLast, endsHard l = false) :
    hardEnds (segments.flatMap fun s => lines (wrapSegment fill {} s))
      = (segments.flatMap (segmentPieces fun u => lines (fill u {}))).dropLast.countP
          endsInBackslash := by
  induction segments with
  | nil => rfl
  | cons segment rest ih =>
    obtain ⟨f, hlines, hends⟩ :=
      exists_lines_wrapSegment hfill (hne segment (by simp)) (hnewline segment (by simp))
    by_cases hrest : rest = []
    · subst hrest
      simp only [flatMap_cons, flatMap_nil, append_nil]
      rw [hlines, hardEnds, ← map_dropLast, countP_map]
      refine countP_congr fun l hl => ?_
      rw [Function.comp_apply, hends l (mem_of_mem_dropLast hl) fun hkept => hsoft l ?_]
      rw [segmentPieces, if_pos hkept] at hl
      simpa using hl
    · -- the last line of the segment counts as well, since lines follow it
      have hmore : ∀ g : List Text → List Text, (∀ s ∈ rest, g s ≠ []) → rest.flatMap g ≠ [] := by
        intro g hg
        obtain ⟨second, more, rfl⟩ := exists_cons_of_ne_nil hrest
        simp [hg second (by simp)]
      have hflat : rest.flatten ≠ [] := by
        rw [← flatMap_id]
        exact hmore id fun s hs => hne s (by simp [hs])
      have hwrapped := hmore (fun s => lines (wrapSegment fill {} s)) fun s _ => splitOn_ne_nil _ _
      have hpieces := hmore (segmentPieces fun u => lines (fill u {})) fun s hs =>
        segmentPieces_ne_nil (fun u _ => splitOn_ne_nil _ _) (hne s (by simp [hs]))
      rw [flatten_cons, dropLast_append_of_ne_nil hflat] at hsoft
      rw [flatMap_cons, flatMap_cons, hardEnds_append hwrapped,
        dropLast_append_of_ne_nil hpieces, countP_append,
        ih (fun s hs => hne s (by simp [hs])) (fun s hs => hnewline s (by simp [hs]))
          fun l hl => hsoft l (mem_append_right _ hl), hlines, countP_map]
      congr 1
      refine countP_congr fun l hl => ?_
      rw [Function.comp_apply, hends l hl fun hkept => hsoft l (mem_append_left _ ?_)]
      rwa [segmentPieces, if_pos hkept] at hl

/-- **Around tags and tables no hard break is added** but after the filled lines that end in a
backslash. -/
theorem hardEnds_keepTagLines {p : Text} (hp : hardSegments p = [p]) :
    hardEnds (lines (keepTagLines fill p {}))
      = (pieces (fun u => lines (fill u {})) p).dropLast.countP endsInBackslash := by
  have hsoft := endsHard_of_unbroken hp
  have htext := unlines_segments p
  rcases keepTagLines_cases fill p {} with ⟨hcomment, heq⟩ | ⟨hcomment, ⟨segment, hone⟩, heq⟩ |
    ⟨hcomment, first, second, rest, hsegments, heq⟩
  · -- a comment is kept, and has no hard breaks
    have hpieces : pieces (fun u => lines (fill u {})) p = lines p := by
      rw [pieces, layout, hcomment, if_pos rfl]
    rw [heq, verbatim_empty, hpieces]
    refine countP_congr fun l hl => ?_
    rw [hsoft l hl, endsInBackslash_of_not_endsHard (hsoft l hl)]
  · have hpieces : pieces (fun u => lines (fill u {})) p = lines (fill p {}) := by
      rw [hone] at htext
      rw [pieces, layout, hcomment, hone]
      exact congrArg (fun u => lines (fill u {})) htext
    rw [heq, hardEnds_breakClosings, hpieces]
    exact countP_congr fun l hl => by rw [hfill p l (mem_of_mem_dropLast hl)]
  · obtain ⟨hflat, hne⟩ := flatten_segments (lines p)
    have hpieces : pieces (fun u => lines (fill u {})) p
        = (first :: second :: rest).flatMap (segmentPieces fun u => lines (fill u {})) := by
      rw [pieces, layout, hcomment, if_neg (by simp), hsegments]
    rw [hsegments] at hflat hne
    rw [heq, hardEnds_breakClosings, hardEnds_spaceClosings, lines_unlines_eq_flatMap (by simp),
      flatMap_cons, hardEnds_wrapSegmentsAfter, hpieces]
    refine hardEnds_segments hfill hne (fun s hs l hl => ?_) (by rwa [hflat])
    exact newline_not_mem_lines (hflat ▸ mem_flatten.2 ⟨s, hs, hl⟩)

/-- **Counting hard breaks.** All those of the text are there, and there is one more after each
filled line that ends in a backslash and is not the last of its part. -/
theorem length_hardSegments_forMarkdown (t : Text) :
    (hardSegments (forMarkdown fill t {})).length
      = (hardSegments t).length + addedBreaks fill t := by
  have hparts : ∀ ps : List Text, (∀ p ∈ ps, hardSegments p = [p]) →
      (ps.flatMap fun p => hardSegments (keepTagLines fill p {})).length = ps.length
        + (ps.flatMap fun p => (pieces (fun u => lines (fill u {})) p).dropLast).countP
            endsInBackslash := by
    intro ps hps
    induction ps with
    | nil => rfl
    | cons p ps ih =>
      have hrest := ih fun q hq => hps q (by simp [hq])
      have hfirst := hardEnds_keepTagLines hfill (hps p (by simp))
      rw [flatMap_cons, flatMap_cons, length_append, countP_append, hrest,
        length_hardSegments, ← hfirst, length_cons, hardEnds]
      omega
  rw [forMarkdown, hardSegments_keepHardBreaks]
  exact hparts (hardSegments t) fun p => hardSegments_of_mem

end Filled

end Reflow.Wrap
