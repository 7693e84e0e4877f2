import Reflow.Proofs.FewestLines
import Reflow.Proofs.LineEnds
import Reflow.Proofs.Wordings

/-!
Texts that get new hard breaks.

A filled line ends as its last word does, and in a single column every word has a line of its own.
Hence a text gets a new hard break at some width if and only if one of its words ends in a backslash
and is not the last of its part, the lines that are kept taken as words (`innerPieces`).
-/

open List hiding splitOn splitOn_ne_nil find?

namespace Reflow.Wrap

open Text Relaid Tag

variable {w : Text}

/-! ## Lines and their words -/

theorem getLast?_unwords (hw : w ≠ []) (front : List Text) :
    (unwords (front ++ [w])).getLast? = w.getLast? := by
  by_cases hfront : front = []
  · subst hfront
    rfl
  · have hjoin : unwords (front ++ [w]) = unwords front ++ [' '] ++ w :=
      joinWith_append hfront (by simp)
    rw [hjoin, getLast?_append_of_ne_nil _ hw]

theorem getLast?_escapeWord (hw : Solid w) : (escapeWord w).getLast? = w.getLast? := by
  rcases escapeWord_cases hw with h | ⟨_, a, b, rfl, hb, h⟩
  · rw [h]
  · rw [h, getLast?_append_of_ne_nil _ (by simp), getLast?_cons_of_ne_nil hb,
      getLast?_append_of_ne_nil _ hb]

/-- **A line ends as its last word does.** -/
theorem Row.getLast?_text {r : Row} {front : List Text} (hr : r.words = front ++ [w]) (hw : Solid w) :
    (r.text escapeWord).getLast? = w.getLast? := by
  obtain ⟨ws, wrapped⟩ := r
  obtain rfl : ws = front ++ [w] := hr
  cases wrapped with
  | false => exact getLast?_unwords hw.ne_nil front
  | true =>
    cases front with
    | nil => exact getLast?_escapeWord hw
    | cons v front => exact getLast?_unwords hw.ne_nil (escapeWord v :: front)

/-- If one of the lines ends in a backslash, one of the words does, and if one of the lines before
the last does, one of the words before the last. -/
structure EndsAmong (ls ws : List Text) : Prop where
  whole : ls.any endsInBackslash = true → ws.any endsInBackslash = true
  inner : ls.dropLast.any endsInBackslash = true → ws.dropLast.any endsInBackslash = true

/-- The text is the words `ws` on the rows, none of which is empty. -/
structure SetOn (rows : List Row) (ws : List Text) (t : Text) : Prop where
  words_eq : rows.flatMap Row.words = ws
  ne_nil : ∀ r ∈ rows, r.words ≠ []
  text_eq : t = rejoin (unlines (rows.map (Row.text escapeWord)))

namespace SetOn

variable {rows : List Row} {ws : List Text} {t : Text} (h : SetOn rows ws t)
  (hwords : ∀ w ∈ ws, ∃ u, w ∈ lineWords u)

include h

theorem mem_of_row {r : Row} (hr : r ∈ rows) {w : Text} (hw : w ∈ r.words) : w ∈ ws :=
  h.words_eq ▸ mem_flatMap.2 ⟨r, hr, hw⟩

theorem lines_of_nil (hrows : rows = []) : lines t = [[]] := by
  rw [h.text_eq, hrows, rejoin_unlines]
  rfl

include hwords

theorem lines_eq (hrows : rows ≠ []) :
    lines t = rows.map fun r => rejoin (r.text escapeWord) := by
  rw [h.text_eq]
  exact lines_rejoin_rows hrows fun r hr w hw => hwords w (h.mem_of_row hr hw)

theorem endsHard_eq : ∀ l ∈ lines t, endsHard l = endsInBackslash l := by
  intro l hl
  rw [h.text_eq] at hl
  refine endsHard_of_visible ?_
  rcases solid_of_rows h.ne_nil (fun r hr w hw => hwords w (h.mem_of_row hr hw)) l hl with
    rfl | hsolid
  · simp
  · exact hsolid.isBlank_getLast

theorem exists_last_word {r : Row} (hr : r ∈ rows) : ∃ front w, r.words = front ++ [w] ∧
    endsInBackslash (rejoin (r.text escapeWord)) = endsInBackslash w := by
  obtain ⟨front, w, hlast⟩ := (eq_nil_or_concat' r.words).resolve_left (h.ne_nil r hr)
  obtain ⟨u, hu⟩ := hwords w (h.mem_of_row hr (by simp [hlast]))
  refine ⟨front, w, hlast, endsInBackslash_congr ?_⟩
  rw [rejoin, (reseamed_apply [' '] [] _).getLast?_eq,
    Row.getLast?_text hlast (solid_of_mem_lineWords hu)]

/-- **A line that ends in a backslash has a word that does**, and one before the last line a word
before the last. -/
theorem endsAmong : EndsAmong (lines t) ws := by
  by_cases hrows : rows = []
  · rw [h.lines_of_nil hrows]
    exact ⟨fun hany => absurd hany (by decide), fun hany => absurd hany (by decide)⟩
  · have hlast : ∀ rs : List Row, (∀ r ∈ rs, r ∈ rows) →
        (rs.map fun r => rejoin (r.text escapeWord)).any endsInBackslash →
        (rs.flatMap Row.words).any endsInBackslash := by
      intro rs hrs hany
      -- the last word of the line ends as the line does
      simp only [any_eq_true, mem_map] at hany ⊢
      obtain ⟨l, ⟨r, hr, rfl⟩, hslash⟩ := hany
      obtain ⟨front, w, heq, hends⟩ := h.exists_last_word hwords (hrs r hr)
      exact ⟨w, mem_flatMap.2 ⟨r, hr, by simp [heq]⟩, hends ▸ hslash⟩
    rw [h.lines_eq hwords hrows, ← h.words_eq]
    refine ⟨hlast rows fun r hr => hr, fun hany => ?_⟩
    obtain ⟨front, r, rfl⟩ := (eq_nil_or_concat' rows).resolve_left hrows
    rw [map_append, map_singleton, dropLast_concat] at hany
    rw [dropLast_flatMap_concat (h.ne_nil r (by simp)), any_append, Bool.or_eq_true]
    exact .inl (hlast front (fun q hq => by simp [hq]) hany)

theorem endsAmong_lines (hone : ∀ r ∈ rows, r.words.length = 1) : EndsAmong ws (lines t) := by
  by_cases hrows : rows = []
  · have hnil : ws = [] := by rw [← h.words_eq, hrows, flatMap_nil]
    rw [hnil]
    exact ⟨fun hany => absurd hany (by simp), fun hany => absurd hany (by simp)⟩
  · -- the word is the last of its line, being the only one
    have hends : ws.map endsInBackslash = (lines t).map endsInBackslash := by
      rw [h.lines_eq hwords hrows, ← h.words_eq, map_flatMap, map_map, map_eq_flatMap]
      refine flatMap_congr fun r hr => ?_
      obtain ⟨front, w, heq, hends⟩ := h.exists_last_word hwords hr
      have hlen := hone r hr
      obtain rfl : front = [] := by simpa [heq] using hlen
      simp [heq, hends]
    have hany : ∀ us : List Text, us.any endsInBackslash = (us.map endsInBackslash).any id := by
      simp
    constructor
    · rw [hany, hany, hends]
      exact id
    · rw [hany, hany, map_dropLast, map_dropLast, hends]
      exact id

end SetOn

/-! ## Pieces -/

theorem flatten_layout {t : Text} (h : layout t ≠ []) : (layout t).flatten = lines t := by
  unfold layout at h ⊢
  split at h
  · exact absurd rfl h
  · next hcomment => rw [if_neg hcomment, (flatten_segments (lines t)).1]

section Lift

variable {cut cut' : Text → List Text} (h : ∀ u, EndsAmong (cut u) (cut' u))
  (hcut : ∀ u, visible u ≠ [] → cut u ≠ []) (hcut' : ∀ u, visible u ≠ [] → cut' u ≠ [])

include h

theorem endsAmong_segmentPieces (segment : List Text) :
    EndsAmong (segmentPieces cut segment) (segmentPieces cut' segment) := by
  unfold segmentPieces
  split
  · exact ⟨id, id⟩
  · exact h _

include hcut hcut'

theorem any_dropLast_pieces {p : Text} (hany : (pieces cut p).dropLast.any endsInBackslash) :
    (pieces cut' p).dropLast.any endsInBackslash := by
  unfold pieces at hany ⊢
  split at hany
  · exact hany
  · exact (h _).inner hany
  · next hnil _ =>
    obtain ⟨front, last, hlast⟩ := (eq_nil_or_concat' (layout p)).resolve_left hnil
    have hne : last ≠ [] := ne_nil_of_mem_layout (t := p) (by simp [hlast])
    rw [hlast, dropLast_flatMap_concat (segmentPieces_ne_nil hcut hne), any_append,
      Bool.or_eq_true] at hany
    rw [hlast, dropLast_flatMap_concat (segmentPieces_ne_nil hcut' hne), any_append,
      Bool.or_eq_true]
    refine hany.imp (fun hfront => ?_) (endsAmong_segmentPieces h last).inner
    rw [any_flatMap, any_eq_true] at hfront ⊢
    obtain ⟨segment, hsegment, hends⟩ := hfront
    exact ⟨segment, hsegment, (endsAmong_segmentPieces h segment).whole hends⟩

/-- **From one way to cut to another.** What ends in a backslash can be found part by part and
segment by segment. -/
theorem any_innerPieces {t : Text} (hany : (innerPieces cut t).any endsInBackslash) :
    (innerPieces cut' t).any endsInBackslash := by
  rw [innerPieces, any_flatMap, any_eq_true] at hany ⊢
  obtain ⟨p, hp, hends⟩ := hany
  exact ⟨p, hp, any_dropLast_pieces h hcut hcut' hends⟩

end Lift

theorem isInfix_unlines_of_mem_dropLast {ls : List Text} {l : Text} (h : l ∈ ls.dropLast) :
    l ++ ['\n'] <:+: unlines ls := by
  induction ls with
  | nil => simp at h
  | cons m ls ih =>
    have hls : ls ≠ [] := by
      rintro rfl
      simp at h
    rw [dropLast_cons_of_ne_nil hls] at h
    rw [unlines_cons hls]
    rcases mem_cons.1 h with rfl | h
    · exact ⟨[], unlines ls, by simp⟩
    · exact (ih h).trans ⟨m ++ ['\n'], [], by simp⟩

namespace Wording

variable {words : Text → List Text} (h : Wording words)

include h

theorem segmentPieces_of_escaping {segments : List (List Text)} (hne : ∀ s ∈ segments, s ≠ [])
    (hsoft : ∀ l ∈ segments.flatten.dropLast, endsInBackslash l = false)
    (hescaping : Escaping (unlines segments.flatten)) :
    ∀ w ∈ (segments.flatMap (segmentPieces words)).dropLast, endsInBackslash w = false := by
  rcases eq_nil_or_concat' segments with rfl | ⟨front, last, rfl⟩
  · simp
  · have hlast := hne last (by simp)
    have hjoin : unlines (front ++ [last]).flatten = unlines ((front ++ [last]).map unlines) :=
      joinWith_flatten hne
    rw [hjoin] at hescaping
    rw [flatten_append, flatten_singleton, dropLast_append_of_ne_nil hlast] at hsoft
    rw [dropLast_flatMap_concat (segmentPieces_ne_nil (fun u => h.ne_nil) hlast)]
    intro w hw
    rcases mem_append.1 hw with hw | hw
    · -- a line feed follows the segment
      obtain ⟨segment, hsegment, hw⟩ := mem_flatMap.1 hw
      unfold segmentPieces at hw
      split at hw
      · exact hsoft w (mem_append_left _ (mem_flatten.2 ⟨segment, hsegment, hw⟩))
      · refine h.endsInBackslash_eq (hescaping.of_isInfix ?_) w hw
        refine isInfix_unlines_of_mem_dropLast ?_
        rw [map_append, map_singleton, dropLast_concat]
        exact mem_map_of_mem hsegment
    · unfold segmentPieces at hw
      split at hw
      · exact hsoft w (mem_append_right _ hw)
      · refine h.escaping (hescaping.of_isInfix (isInfix_unlines ?_)) w hw
        exact mem_map_of_mem (by simp)

/-- **A text that gets no hard break.** Where no backslash stands before a blank in a part of the
text between hard breaks, no word ends in a backslash but the last of a part. -/
theorem innerPieces_of_escaping {t : Text} (ht : ∀ p ∈ hardSegments t, Escaping p) :
    ∀ w ∈ innerPieces words t, endsInBackslash w = false := by
  intro w hw
  obtain ⟨p, hp, hw⟩ := mem_flatMap.1 hw
  have hsoft : ∀ l ∈ (lines p).dropLast, endsInBackslash l = false := fun l hl =>
    endsInBackslash_of_not_endsHard (endsHard_of_unbroken (hardSegments_of_mem hp) l hl)
  unfold pieces at hw
  split at hw
  · exact hsoft w hw
  · next segment hone =>
    have hlines : segment = lines p := by
      have hflat := flatten_layout (t := p) (by simp [hone])
      rwa [hone, flatten_singleton] at hflat
    rw [hlines, unlines_lines] at hw
    exact h.escaping (ht p hp) w hw
  · next hnil _ =>
    refine h.segmentPieces_of_escaping (fun s => ne_nil_of_mem_layout) ?_ ?_ w hw
    · rwa [flatten_layout hnil]
    · rw [flatten_layout hnil, unlines_lines]
      exact ht p hp

end Wording

/-! ## The two fillers -/

/-- The filler puts the words of every text on rows. -/
def Sets (fill : LineWrapper) (words : Text → List Text) : Prop :=
  ∀ u, ∃ rows, SetOn rows (words u) (fill u {})

theorem sets_fillToWidth (measure : Measure) {width : Int} (hwidth : 0 < width) :
    Sets (fillToWidth measure true width) lineWords := by
  intro u
  have hcols : 0 < (⟨width, 0, 0⟩ : Columns).width := hwidth
  obtain ⟨rows, hfilled, heq⟩ := paragraphLines_eq (markdownSettings measure) hcols u
  refine ⟨rows, hfilled.words_eq, hfilled.ne_nil, ?_⟩
  rw [← markdownSettings_escape measure, ← heq]
  exact paragraphAt_eq (markdownSettings measure) width 0 u

theorem sets_fillBySentence {s : SentenceSettings} (hs : s.markdown) (hwidth : 0 < s.width) :
    Sets (fillBySentence s) (sentenceWords s.splitter) := by
  intro u
  obtain ⟨rows, hlaid, heq⟩ := exists_lines_eq hs hwidth (flat u)
  refine ⟨rows, hlaid.words_eq, hlaid.ne_nil, ?_⟩
  rw [fillBySentence_eq, if_neg (by omega), heq]

/-- The filler puts every word on a line of its own. -/
def SetsApart (fill : LineWrapper) (words : Text → List Text) : Prop :=
  ∀ u, ∃ rows, SetOn rows (words u) (fill u {}) ∧ ∀ r ∈ rows, r.words.length = 1

/-- Rows of one word each. -/
def loneRows : List Text → List Row
  | [] => []
  | w :: ws => ⟨[w], false⟩ :: ws.map fun v => ⟨[v], true⟩

theorem filled_loneRows (ws : List Text) : Filled (loneRows ws) ws := by
  cases ws with
  | nil => exact ⟨rfl, by simp [loneRows], by simp [loneRows], by simp [loneRows]⟩
  | cons w ws =>
    have hwords : (ws.map fun v => (⟨[v], true⟩ : Row)).flatMap Row.words = ws := by
      rw [flatMap_map]
      exact flatMap_singleton' ws
    refine ⟨?_, ?_, by simp [loneRows], by simp [loneRows]⟩
    · rw [loneRows, flatMap_cons, hwords]
      rfl
    · intro r hr
      rcases mem_cons.1 hr with rfl | hr
      · simp
      · obtain ⟨v, _, rfl⟩ := mem_map.1 hr
        simp

theorem length_of_mem_loneRows {ws : List Text} {r : Row} (hr : r ∈ loneRows ws) :
    r.words.length = 1 := by
  cases ws with
  | nil => simp [loneRows] at hr
  | cons w ws =>
    rcases mem_cons.1 hr with rfl | hr
    · rfl
    · obtain ⟨v, _, rfl⟩ := mem_map.1 hr
      rfl

section Apart

variable (measure : Measure) {first later : Int} (hfirst : 0 ≤ first) (hlater : 0 ≤ later)

include hlater

theorem breakWords_after {w : Text} {column : Int} (hcolumn : 1 ≤ column) {ws : List Text}
    (hws : ∀ v ∈ ws, Solid v) :
    breakWords measure.of escapeWord ⟨1, first, later⟩ [w] column ws
      = [w] :: ws.map fun v => [escapeWord v] := by
  induction ws generalizing w column with
  | nil => rfl
  | cons v ws ih =>
    have hv := hws v (by simp)
    have hescaped := measure.of_pos (solid_escapeWord hv).ne_nil
    have hfull : ¬ column + (measure.of v : Int) + 1 ≤ 1 := by omega
    rw [breakWords]
    simp only [isEmpty_cons, Bool.false_eq_true, if_false, hfull, map_cons]
    rw [ih (by omega) fun x hx => hws x (by simp [hx])]

include hfirst

/-- **In one column** every word has a line of its own. -/
theorem paragraphLines_apart (t : Text) :
    paragraphLines (markdownSettings measure) ⟨1, first, later⟩ t
      = (loneRows (lineWords t)).map (Row.text escapeWord) := by
  have hcols : 0 < (⟨1, first, later⟩ : Columns).width := Int.one_pos
  have hsolid : ∀ w ∈ lineWords t, Solid w := fun w => solid_of_mem_lineWords
  rw [paragraphLines_eq_breakWords (markdownSettings measure) hcols, markdownSettings_escape,
    markdownSettings_words]
  show (breakWords measure.of escapeWord ⟨1, first, later⟩ [] first (lineWords t)).map unwords = _
  cases hcons : lineWords t with
  | nil => rfl
  | cons w ws =>
    rw [hcons] at hsolid
    have hpos := measure.of_pos (hsolid w (by simp)).ne_nil
    have hrest : ∀ v ∈ ws, Solid v := fun v hv => hsolid v (by simp [hv])
    -- the first word is put on the first line, whether there is room for it or not
    have hlines : breakWords measure.of escapeWord ⟨1, first, later⟩ [] first (w :: ws)
        = [w] :: ws.map fun v => [escapeWord v] := by
      rw [breakWords]
      simp only [isEmpty_nil, if_true, nil_append]
      split
      · exact breakWords_after measure hlater (by omega) hrest
      · exact breakWords_after measure hlater (by omega) hrest
    rw [hlines, loneRows, map_cons, map_cons, map_map, map_map]
    rfl

end Apart

theorem exists_rows_apart (measure : Measure) (t : Text) :
    ∃ rows, Filled rows (lineWords t) ∧ (∀ r ∈ rows, r.words.length = 1) ∧
      paragraphLines (markdownSettings measure) ⟨1, 0, 0⟩ t = rows.map (Row.text escapeWord) :=
  ⟨loneRows (lineWords t), filled_loneRows _, fun _ => length_of_mem_loneRows,
    paragraphLines_apart measure (Int.le_refl 0) (Int.le_refl 0) t⟩

theorem setsApart_fillToWidth (measure : Measure) :
    SetsApart (fillToWidth measure true 1) lineWords := by
  intro u
  obtain ⟨rows, hfilled, hone, heq⟩ := exists_rows_apart measure u
  refine ⟨rows, ⟨hfilled.words_eq, hfilled.ne_nil, ?_⟩, hone⟩
  rw [← heq]
  exact paragraphAt_eq (markdownSettings measure) 1 0 u

/-- One word to a line, sentence by sentence. -/
def narrowSettings (splitter : SentenceSplitter) : SentenceSettings :=
  { width := 1, minLineLength := 0, splitter, markdown := true }

theorem setsApart_fillBySentence (splitter : SentenceSplitter) :
    SetsApart (fillBySentence (narrowSettings splitter)) (sentenceWords splitter) := by
  intro u
  have hwidth : 0 < (narrowSettings splitter).width := Int.one_pos
  -- no line is short for the least length zero, so sentences do not share lines
  have hrows : ∀ sentences : List Text, ∃ rows : List Row,
      rows.flatMap Row.words = sentences.flatMap lineWords ∧ (∀ r ∈ rows, r.words.length = 1) ∧
        sentences.flatMap ((narrowSettings splitter).sentenceLines 0 0)
          = rows.map (Row.text escapeWord) := by
    intro sentences
    induction sentences with
    | nil => exact ⟨[], rfl, by simp, rfl⟩
    | cons sentence sentences ih =>
      obtain ⟨rows, hwords, hone, heq⟩ := ih
      obtain ⟨first, hfilled, hone', heq'⟩ := exists_rows_apart .codePoints sentence
      have hlines : (narrowSettings splitter).sentenceLines 0 0 sentence
          = first.map (Row.text escapeWord) := heq'
      refine ⟨first ++ rows, ?_, fun r hr => ?_, ?_⟩
      · rw [flatMap_append, flatMap_cons, hfilled.words_eq, hwords]
      · exact (mem_append.1 hr).elim (hone' r) (hone r)
      · rw [flatMap_cons, map_append, hlines, heq]
  obtain ⟨rows, hwords, hone, heq⟩ := hrows (splitter.split (flat u))
  refine ⟨rows, ⟨hwords, fun r hr hnil => ?_, ?_⟩, hone⟩
  · have hlen := hone r hr
    rw [hnil] at hlen
    simp at hlen
  · have hlines := (narrowSettings splitter).lines_of_minLineLength_nonpos hwidth
      (Int.le_refl 0) 0 (flat u)
    rw [fillBySentence_eq, hlines]
    exact congrArg (fun ls => rejoin (unlines ls)) heq

/-! ## Main result -/

/-- The wrapped text has as many parts between hard breaks as the text. -/
def KeepsHardBreaks (wrap : LineWrapper) (t : Text) : Prop :=
  (hardSegments (wrap t {})).length = (hardSegments t).length

section Fillers

variable {fill : LineWrapper}

variable {words : Text → List Text} (hwords : Wording words)

include hwords

theorem length_hardSegments_of_sets (hsets : Sets fill words) (t : Text) :
    (hardSegments (forMarkdown fill t {})).length
      = (hardSegments t).length + addedBreaks fill t := by
  refine length_hardSegments_forMarkdown (fun u => ?_) t
  obtain ⟨rows, hrows⟩ := hsets u
  exact hrows.endsHard_eq (hwords.exists_lineWords u)

theorem keepsHardBreaks_of_words (hsets : Sets fill words) {t : Text}
    (ht : ∀ w ∈ innerPieces words t, endsInBackslash w = false) :
    KeepsHardBreaks (forMarkdown fill) t := by
  rw [KeepsHardBreaks, length_hardSegments_of_sets hwords hsets, Nat.add_eq_left, addedBreaks,
    countP_eq_zero]
  intro l hl hslash
  have hany : (innerPieces words t).any endsInBackslash := by
    refine any_innerPieces (fun u => ?_) (fun u _ => splitOn_ne_nil _ _) (fun u => hwords.ne_nil)
      (any_eq_true.2 ⟨l, hl, hslash⟩)
    obtain ⟨rows, hrows⟩ := hsets u
    exact hrows.endsAmong (hwords.exists_lineWords u)
  obtain ⟨w, hw, hends⟩ := any_eq_true.1 hany
  rw [ht w hw] at hends
  exact absurd hends (by simp)

/-- With every word on a line of its own, there is a new hard break after each that ends in a
backslash. -/
theorem endsInBackslash_of_keepsHardBreaks (hsets : SetsApart fill words) {t : Text}
    (ht : KeepsHardBreaks (forMarkdown fill) t) :
    ∀ w ∈ innerPieces words t, endsInBackslash w = false := by
  rw [KeepsHardBreaks, length_hardSegments_of_sets hwords fun u => (hsets u).imp fun _ => And.left,
    Nat.add_eq_left, addedBreaks, countP_eq_zero] at ht
  intro w hw
  by_contra hslash
  have hany : (innerPieces (fun u => lines (fill u {})) t).any endsInBackslash := by
    refine any_innerPieces (fun u => ?_) (fun u => hwords.ne_nil) (fun u _ => splitOn_ne_nil _ _)
      (any_eq_true.2 ⟨w, hw, by simpa using hslash⟩)
    obtain ⟨rows, hrows, hone⟩ := hsets u
    exact hrows.endsAmong_lines (hwords.exists_lineWords u) hone
  obtain ⟨l, hl, hends⟩ := any_eq_true.1 hany
  exact ht l hl hends

end Fillers

/-- **Hard breaks of a wrapped text.** Wrapping a text keeps their number, at every width, if no
backslash stands in front of a blank inside a part of the text between hard breaks. It keeps it at
every width if and only if none of the words of a part but the last ends in a backslash; sentence by
sentence the same is true of the words of the sentences. At a given width no hard break is lost, and
there is a new one after each filled line that ends in a backslash and is not the last of its
part. -/
theorem hard_breaks_of_wrapping (t : Text) :
    ((∀ p ∈ hardSegments t, Escaping p) →
        (∀ (measure : Measure) (width : Int), 0 < width →
          KeepsHardBreaks (toWidth measure true width) t) ∧
        ∀ s : SentenceSettings, s.markdown = true → 0 < s.width →
          KeepsHardBreaks (bySentence s) t) ∧
      (∀ measure : Measure,
        (∀ width : Int, 0 < width → KeepsHardBreaks (toWidth measure true width) t) ↔
          ∀ w ∈ innerPieces lineWords t, endsInBackslash w = false) ∧
      (∀ splitter : SentenceSplitter,
        (∀ s : SentenceSettings, s.markdown = true → s.splitter = splitter → 0 < s.width →
          KeepsHardBreaks (bySentence s) t) ↔
          ∀ w ∈ innerPieces (sentenceWords splitter) t, endsInBackslash w = false) ∧
      (∀ (measure : Measure) (width : Int), 0 < width →
        (hardSegments (toWidth measure true width t {})).length
          = (hardSegments t).length + addedBreaks (fillToWidth measure true width) t) ∧
      ∀ s : SentenceSettings, s.markdown = true → 0 < s.width →
        (hardSegments (bySentence s t {})).length
          = (hardSegments t).length + addedBreaks (fillBySentence s) t := by
  have hline := wording_lineWords
  have hsentence := wording_sentenceWords
  refine ⟨fun ht => ⟨?_, ?_⟩, fun measure => ⟨?_, ?_⟩, fun splitter => ⟨?_, ?_⟩, ?_, ?_⟩
  · intro measure width hwidth
    exact keepsHardBreaks_of_words hline (sets_fillToWidth measure hwidth)
      (hline.innerPieces_of_escaping ht)
  · intro s hs hwidth
    rw [bySentence, if_pos hs]
    exact keepsHardBreaks_of_words (hsentence s.splitter) (sets_fillBySentence hs hwidth)
      ((hsentence s.splitter).innerPieces_of_escaping ht)
  · -- the narrowest column finds every word that ends in a backslash
    intro h
    exact endsInBackslash_of_keepsHardBreaks hline (setsApart_fillToWidth measure)
      (h 1 (by decide))
  · intro h width hwidth
    exact keepsHardBreaks_of_words hline (sets_fillToWidth measure hwidth) h
  · intro h
    exact endsInBackslash_of_keepsHardBreaks (hsentence splitter)
      (setsApart_fillBySentence splitter) (h (narrowSettings splitter) rfl rfl Int.one_pos)
  · rintro h s hs rfl hwidth
    rw [bySentence, if_pos hs]
    exact keepsHardBreaks_of_words (hsentence s.splitter) (sets_fillBySentence hs hwidth) h
  · intro measure width hwidth
    exact length_hardSegments_of_sets hline (sets_fillToWidth measure hwidth) t
  · intro s hs hwidth
    rw [bySentence, if_pos hs]
    exact length_hardSegments_of_sets (hsentence s.splitter) (sets_fillBySentence hs hwidth) t

/-- A backslash inside a word, a hard break, and a tag after the text. -/
theorem hard_break_before_tag_kept :
    (∀ p ∈ hardSegments "so a\\b is\\\nit.\n\x7b% c %\x7d".toList, Escaping p) ∧
      KeepsHardBreaks (toWidth .codePoints true 2) "so a\\b is\\\nit.\n\x7b% c %\x7d".toList ∧
      KeepsHardBreaks (bySentence { width := 5, markdown := true })
        "so a\\b is\\\nit.\n\x7b% c %\x7d".toList :=
  have hescaping : ∀ p ∈ hardSegments "so a\\b is\\\nit.\n\x7b% c %\x7d".toList, Escaping p := by
    decide +kernel
  have hkept := (hard_breaks_of_wrapping _).1 hescaping
  ⟨hescaping, hkept.1 .codePoints 2 (by decide),
    hkept.2 { width := 5, markdown := true } rfl (by decide)⟩

/-- A word that ends in a backslash comes to stand at the end of a line, and makes a hard break. -/
theorem backslash_becomes_hard_break :
    hardSegments "a\\ b".toList = ["a\\ b".toList] ∧
      toWidth .codePoints true 2 "a\\ b".toList {} = "a\\\nb".toList ∧
      hardSegments "a\\\nb".toList = ["a".toList, "b".toList] := by
  decide +kernel

end Reflow.Wrap
