import Reflow.Proofs.FirstWords
import Reflow.Proofs.Glue
import Reflow.Proofs.VisibleText

/-!
How lines of Markdown start.

A line that starts because the one before it is full is safe, since its first word was escaped, and
so is a closing tag on a line of its own, which starts with a delimiter. A line that starts because
a sentence ended starts with the first word of a sentence, which nothing escapes.
-/

open List

namespace Reflow.Tag

open Text Wrap

/-! ## Closing tags on lines of their own -/

theorem exists_of_anyClosingSeam {t : Text} {gap : Nat} (h : anyClosingSeam t = some gap) :
    ∃ k g u, t = k.closing ++ g ++ (TagKind.opening k ++ u) ∧ (∀ c ∈ g, isBlank c) ∧
      gap = (k.closing ++ g).length := by
  obtain ⟨k, _, hk⟩ := exists_of_findSome?_eq_some h
  simp only [closingSeam, Option.bind_eq_bind, Option.bind_eq_some_iff, Option.pure_def,
    Option.some.injEq] at hk
  obtain ⟨n, hn, m, hm, rfl⟩ := hk
  obtain ⟨_, _, hi, hj, rfl⟩ := Recogniser.andThen_eq_some.1 hn
  obtain ⟨_, _, hblanks, hnil, rfl⟩ := Recogniser.andThen_eq_some.1 hj
  obtain ⟨u, rfl, rfl⟩ := Recogniser.exactly_eq_some.1 hi
  rw [drop_left] at hblanks
  obtain rfl : _ = (u.takeWhile isBlank).length := (Option.some.inj hblanks).symm
  obtain rfl : _ = 0 := (Option.some.inj hnil).symm
  obtain ⟨_, _, hopening, _, _⟩ := Recogniser.andThen_eq_some.1 hm
  obtain ⟨v, hv, _⟩ := Recogniser.exactly_eq_some.1 hopening
  have hu : u = u.takeWhile isBlank ++ (k.opening ++ v) := by
    rw [← drop_drop, drop_left] at hv
    rw [← hv]
    exact (prefix_iff_eq_append.1 (List.takeWhile_prefix isBlank)).symm
  refine ⟨k, u.takeWhile isBlank, v, ?_, fun c => mem_takeWhile_imp, by simp⟩
  conv_lhs => rw [hu]
  simp

theorem exists_of_cutAtClosing? {line before closing : Text}
    (h : cutAtClosing? line = some (before, closing)) :
    ∃ (k : TagKind) (front g u : Text), before = front ++ k.closing ++ g ∧
      (∀ c ∈ g, isBlank c) ∧ closing = k.opening ++ u := by
  simp only [cutAtClosing?, Option.bind_eq_bind, Option.bind_eq_some_iff, Option.pure_def,
    Option.some.injEq, Prod.mk.injEq] at h
  obtain ⟨⟨front, rest⟩, _, gap, hgap, rfl, rfl⟩ := h
  obtain ⟨k, g, u, rfl, hg, rfl⟩ := exists_of_anyClosingSeam hgap
  refine ⟨k, front, g, u, ?_, hg, ?_⟩
  · rw [take_left]
    exact (append_assoc _ _ _).symm
  · rw [drop_left]

/-- **What breaking a line can do.** The line stays, or it is cut between the end of a tag and the
start of one, and the blanks there are dropped. -/
theorem breakClosing_cases (line : Text) :
    breakClosing line = [line] ∨ ∃ (k : TagKind) (front g u : Text),
      line = front ++ k.closing ++ g ++ (k.opening ++ u) ∧ (∀ c ∈ g, isBlank c) ∧
        breakClosing line = [front ++ k.closing, k.opening ++ u] := by
  unfold breakClosing
  split
  · exact .inl rfl
  · split
    · next before closing hcut =>
      obtain ⟨k, front, g, u, hbefore, hg, hclosing⟩ := exists_of_cutAtClosing? hcut
      have hright : stripRight before = front ++ k.closing := by
        obtain ⟨w, d, hk, hd⟩ := Construct.exists_closing_eq k
        rw [hbefore, stripRight, dropEndWhile_append hg, hk, ← append_assoc,
          dropEndWhile_concat hd]
      have hleft : stripLeft closing = k.opening ++ u := by
        rw [hclosing]
        cases k <;> rfl
      refine .inr ⟨k, front, g, u, ?_, hg, by rw [hright, hleft]⟩
      rw [cutAtClosing?_eq_append hcut, hbefore, hclosing]
    · exact .inl rfl

/-- **A line cut at a closing tag.** The parts of a line start safely if and only if the line
does. -/
theorem safeStart_breakClosing_iff {line : Text} :
    (∀ part ∈ breakClosing line, SafeStart part) ↔ SafeStart line := by
  rcases breakClosing_cases line with heq | ⟨k, front, g, u, hline, _, heq⟩
  · simp [heq]
  · -- the first part keeps the start of the line
    have halike : Alike (front ++ (k.closing ++ []))
        (front ++ (k.closing ++ (g ++ (k.opening ++ u)))) :=
      (Alike.of_closing k _ _).append_left front
    have hfirst : SafeStart (front ++ k.closing) ↔ SafeStart line := by
      rw [hline]
      simpa using halike.safeStart_iff
    -- and the second starts with a delimiter
    have hsecond : SafeStart (k.opening ++ u) := by
      have hvisible : ∀ c ∈ k.opening, isBlank c = false := fun _ => isBlank_of_mem_opening
      have hne : k.opening ≠ [] := by cases k <;> simp [TagKind.opening]
      refine safeStart_of_hasDelimiter ⟨k, .inr ?_⟩
      rw [firstWord_of_visible hvisible hne]
      exact (prefix_append _ _).isInfix
    simp [heq, hfirst, hsecond]

end Reflow.Tag

namespace Reflow.Wrap

open Text Tag

/-! ## From the lines of the output to the filled lines -/

theorem newline_not_mem_breakClosing {line : Text} (h : '\n' ∉ line) :
    ∀ part ∈ breakClosing line, '\n' ∉ part := by
  rcases breakClosing_cases line with heq | ⟨k, front, g, u, rfl, _, heq⟩
  · simpa [heq] using h
  · rw [heq]
    simp only [mem_append, not_or] at h
    simp [h]

theorem tail_lines_breakClosings {ls : List Text} (h : ∀ l ∈ ls, '\n' ∉ l) :
    (lines (breakClosings (rejoin (unlines ls)))).tail
      = (ls.tail.map rejoin).flatMap breakClosing := by
  cases ls with
  | nil =>
    have hnil : unlines ([] : List Text) = [] := rfl
    rw [hnil, rejoin_nil]
    rfl
  | cons first rest =>
    have hrejoin : ∀ l ∈ (first :: rest).map rejoin, '\n' ∉ l := by
      intro l hl
      obtain ⟨u, hu, rfl⟩ := mem_map.1 hl
      exact newline_not_mem_rejoin (h u hu)
    have hparts : ∀ l ∈ rejoin first :: (rest.map rejoin).flatMap breakClosing,
        '\n' ∉ l := by
      intro l hl
      rcases mem_cons.1 hl with rfl | hl
      · exact hrejoin _ (by simp)
      · obtain ⟨m, hm, hl⟩ := mem_flatMap.1 hl
        exact newline_not_mem_breakClosing (hrejoin m (mem_cons_of_mem _ hm)) l hl
    rw [rejoin_unlines, breakClosings, lines_unlines (by simp) hrejoin, map_cons]
    rw [lines_unlines (by simp) hparts]
    rfl

/-- **The passes after filling.** The lines of the output start safely if and only if the filled
lines do. -/
theorem safeStart_lines_iff {ls : List Text} (h : ∀ l ∈ ls, '\n' ∉ l) :
    (∀ line ∈ (lines (breakClosings (rejoin (unlines ls)))).tail, SafeStart line) ↔
      ∀ l ∈ ls.tail, SafeStart l := by
  rw [tail_lines_breakClosings h]
  constructor
  · intro hsafe l hl
    rw [(alike_rejoin l).safeStart_iff, ← safeStart_breakClosing_iff]
    intro part hpart
    exact hsafe part (mem_flatMap.2 ⟨rejoin l, mem_map_of_mem hl, hpart⟩)
  · intro hsafe part hpart
    obtain ⟨m, hm, hpart⟩ := mem_flatMap.1 hpart
    obtain ⟨l, hl, rfl⟩ := mem_map.1 hm
    have hrejoin : SafeStart (rejoin l) := (alike_rejoin l).safeStart_iff.1 (hsafe l hl)
    exact safeStart_breakClosing_iff.2 hrejoin part hpart

theorem forMarkdown_eq {wrap : LineWrapper} {t : Text} (ht : '\n' ∉ t) :
    forMarkdown wrap t {} = breakClosings (wrap t {}) := by
  have hhard : hardSegments t = [t] := by
    have hcut := hardCut_hardSegments t
    generalize hardSegments t = ts at hcut
    cases hcut with
    | last => rfl
    | cut s hsep _ => rcases hsep with rfl | rfl <;> simp at ht
  have hlines := lines_of_no_newline ht
  simp [forMarkdown, keepHardBreaks, hhard, wrapLaterSegments, keepTagLines, ht, hlines, segments,
    segmentsFrom]

/-! ## Starts of filled lines -/

theorem safeStart_unwords {w : Text} (hw : Solid w) (ws : List Text) :
    SafeStart (unwords (w :: ws)) ↔ SafeStart w := by
  by_cases hws : ws = []
  · subst hws
    rfl
  · rw [unwords_cons hws, safeStart_iff, safeStart_iff, firstWord_append hw (by simp)]

theorem safeStart_head {t w : Text} (hw : (lineWords t).head? = some w) :
    SafeStart w ↔ SafeStart t := by
  have hstrewn := strewn_lineWords t
  have hsolid : Solid w := solid_of_mem_lineWords (mem_of_head? hw)
  -- only blanks stand before the first part, and a blank after it
  have hfirst : firstWord (separated t) = firstWord w := by
    generalize separated t = u, lineWords t = ws at hstrewn hw
    cases hstrewn with
    | nil _ => simp at hw
    | cons hg hrest _ =>
      obtain rfl := Option.some.inj hw
      rw [append_assoc, firstWord_blank_append hg, firstWord_append hsolid hrest]
  have hcollapse : SafeStart (collapse t) ↔ SafeStart t := by
    rw [safeStart_iff, safeStart_iff, (firstWord_collapse t).1]
  have hseparated : SafeStart (collapse t) ↔ SafeStart (separated t) :=
    (alike_separate (collapse t)).safeStart_iff
  rw [← hcollapse, hseparated, safeStart_iff, safeStart_iff, hfirst]

/-- **Escaped words are safe.** A word with blanks in it was never a marker: what holds it together
starts before its first blank. -/
theorem safeStart_escapeWord {t w : Text} (hw : w ∈ lineWords t) : SafeStart (escapeWord w) := by
  have hsolid := solid_of_mem_lineWords hw
  rw [safeStart_iff]
  rcases escapeWord_cases hsolid with h | ⟨hvisible, a, b, hab, _, h⟩
  · rw [h]
    rcases visible_or_eq_lead_append w with hvisible | ⟨c, v, hlead, hc⟩
    · rw [firstWord_eq_self hvisible hsolid.ne_nil, h]
    · obtain ⟨word, hword, rfl⟩ := mem_map.1 hw
      obtain ⟨d, hd, hglue⟩ := (Atomic.tiles_words Construct.wrapping (separated t)).headed
        (Atomic.headed_marks _) word hword _ c v hlead hc
      have hfirst : firstWord word.text = lead word.text := by
        obtain ⟨e, u, htext, he⟩ := hsolid.first
        rw [htext, firstWord_cons_of_visible he, lead_cons_of_visible he]
      have hmem : d ∈ firstWord word.text := hfirst ▸ hd
      refine escapeWord_eq_self_of_mem (solid_firstWord (ne_nil_of_mem hmem)) hmem ?_
      simp only [Atomic.glueChars, mem_cons, not_mem_nil, or_false] at hglue
      simp only [mem_cons]
      tauto
  · have hescaped : ∀ c ∈ escapeWord w, isBlank c = false := by
      intro c hc
      rw [h, mem_append, mem_cons] at hc
      rcases hc with hc | rfl | hc
      · exact hvisible c (by simp [hab, hc])
      · exact isBlank_backslash
      · exact hvisible c (by simp [hab, hc])
    have hsolid' := solid_escapeWord hsolid
    rw [firstWord_eq_self hescaped hsolid'.ne_nil]
    exact escapeWord_eq_self_of_mem hsolid' (d := '\\') (by rw [h]; simp) (by simp)

section Rows

variable {r : Row}

theorem Row.newline_not_mem_text (hr : ∀ w ∈ r.words, ∃ t, w ∈ lineWords t) :
    '\n' ∉ r.text escapeWord := by
  have hshown : ∀ w ∈ r.shown escapeWord, '\n' ∉ w := by
    intro w hw hmem
    obtain ⟨v, hv, hvw⟩ : ∃ v ∈ r.words, w = v ∨ w = escapeWord v := by
      obtain ⟨ws, wrapped⟩ := r
      cases wrapped with
      | false => exact ⟨w, hw, .inl rfl⟩
      | true =>
        cases ws with
        | nil => simp [Row.shown, escapeHead] at hw
        | cons v vs =>
          rcases mem_cons.1 hw with rfl | hw
          · exact ⟨v, by simp, .inr rfl⟩
          · exact ⟨w, by simp [hw], .inl rfl⟩
    obtain ⟨t, ht⟩ := hr v hv
    refine newline_not_mem_lineWords ht ?_
    rcases hvw with rfl | rfl
    · exact hmem
    · rcases escapeWord_cases (solid_of_mem_lineWords ht) with h | ⟨_, a, b, hab, _, h⟩
      · rwa [h] at hmem
      · rw [h] at hmem
        rw [hab]
        simpa using hmem
  intro hmem
  rcases mem_joinWith hmem with h | ⟨w, hw, h⟩
  · simp at h
  · exact hshown w hw h

theorem Row.safeStart_text_of_wrapped (hne : r.words ≠ [])
    (hr : ∀ w ∈ r.words, ∃ t, w ∈ lineWords t) (hwrapped : r.wrapped) :
    SafeStart (r.text escapeWord) := by
  obtain ⟨ws, wrapped⟩ := r
  obtain ⟨w, ws, rfl⟩ := exists_cons_of_ne_nil hne
  obtain ⟨t, ht⟩ := hr w (by simp)
  obtain rfl : wrapped := hwrapped
  show SafeStart (unwords (escapeWord w :: ws))
  rw [safeStart_unwords (solid_escapeWord (solid_of_mem_lineWords ht))]
  exact safeStart_escapeWord ht

theorem Row.safeStart_text_iff {t : Text} (hne : r.words ≠ []) (hwrapped : r.wrapped = false)
    (hhead : (lineWords t).head? = r.words.head?) :
    SafeStart (r.text escapeWord) ↔ SafeStart t := by
  obtain ⟨ws, wrapped⟩ := r
  obtain ⟨w, ws, rfl⟩ := exists_cons_of_ne_nil hne
  obtain rfl : wrapped = false := hwrapped
  have hw : (lineWords t).head? = some w := hhead
  show SafeStart (unwords (w :: ws)) ↔ SafeStart t
  rw [safeStart_unwords (solid_of_mem_lineWords (mem_of_head? hw)), safeStart_head hw]

end Rows

section Laid

variable {s : SentenceSettings} {sentences : List Text} {rows : List Row}

theorem Laid.exists_lineWords (h : Laid s sentences rows) {r : Row} (hr : r ∈ rows) :
    ∀ w ∈ r.words, ∃ u, w ∈ lineWords u := by
  intro w hw
  have hmem : w ∈ rows.flatMap Row.words := mem_flatMap.2 ⟨r, hr, hw⟩
  rw [h.words_eq] at hmem
  obtain ⟨u, _, hu⟩ := mem_flatMap.1 hmem
  exact ⟨u, hu⟩

theorem Laid.newline_not_mem (h : Laid s sentences rows) :
    ∀ l ∈ rows.map (Row.text escapeWord), '\n' ∉ l := by
  intro l hl
  obtain ⟨r, hr, rfl⟩ := mem_map.1 hl
  exact Row.newline_not_mem_text (h.exists_lineWords hr)

/-- **Later lines.** If the later sentences start safely, so do all later lines. -/
theorem Laid.safeStart (h : Laid s sentences rows) (hsafe : ∀ u ∈ sentences.tail, SafeStart u) :
    ∀ l ∈ (rows.map (Row.text escapeWord)).tail, SafeStart l := by
  rw [← map_tail]
  intro l hl
  obtain ⟨r, hr, rfl⟩ := mem_map.1 hl
  have hmem := mem_of_mem_tail hr
  have hne := h.ne_nil r hmem
  rcases Bool.eq_false_or_eq_true r.wrapped with hwrapped | hwrapped
  · exact Row.safeStart_text_of_wrapped hne (h.exists_lineWords hmem) hwrapped
  · obtain ⟨u, hu, hhead⟩ := h.own r hr hwrapped
    exact (Row.safeStart_text_iff hne hwrapped hhead).2 (hsafe u hu)

end Laid

theorem filling_escape {s : SentenceSettings} (hs : s.markdown) :
    s.filling.escape = escapeWord := by
  funext w
  simp [SentenceSettings.filling, Settings.escape, hs]

/-! ## The wrappers -/

section Sentences

variable {s : SentenceSettings} (hs : s.markdown = true) (hwidth : 0 < s.width)
include hs hwidth

theorem exists_lines_eq (t : Text) :
    ∃ rows, Laid s (s.splitter.split t) rows ∧ s.lines 0 0 t = rows.map (Row.text escapeWord) := by
  have h := s.lines_eq hwidth 0 0 t
  rwa [filling_escape hs] at h

/-- The first line of a sentence that has lines of its own starts as safely as the sentence. -/
theorem exists_sentenceLines_eq {u : Text} (hu : Solid u) :
    ∃ l ls, s.sentenceLines 0 0 u = l :: ls ∧ (SafeStart l ↔ SafeStart u) := by
  obtain ⟨rows, hfilled, heq⟩ := s.sentenceLines_eq hwidth 0 0 u
  obtain ⟨r, rows, rfl⟩ := exists_cons_of_ne_nil (hfilled.ne_nil_of_solid hu)
  have hne := hfilled.ne_nil r (by simp)
  have hhead : (lineWords u).head? = r.words.head? := by
    rw [← filling_words s, ← hfilled.words_eq, flatMap_cons, head?_append_of_ne_nil _ hne]
  rw [heq, filling_escape hs]
  exact ⟨_, _, rfl, Row.safeStart_text_iff hne (hfilled.head r rfl) hhead⟩

/-- Where no line is ever short, every later sentence starts a later line. -/
theorem safeStart_of_mem_split (hmin : s.minLineLength ≤ 0) {t : Text}
    (h : ∀ l ∈ (s.lines 0 0 t).tail, SafeStart l) :
    ∀ u ∈ (s.splitter.split t).tail, SafeStart u := by
  have hsolid := s.splitter.solid_split t
  rw [s.lines_of_minLineLength_nonpos hwidth hmin] at h
  cases hsplit : s.splitter.split t with
  | nil => simp
  | cons first rest =>
    intro u (hu : u ∈ rest)
    rw [hsplit] at h hsolid
    obtain ⟨l₀, ls₀, heq₀, _⟩ := exists_sentenceLines_eq hs hwidth (hsolid first (by simp))
    obtain ⟨l, ls, heq, hiff⟩ := exists_sentenceLines_eq hs hwidth (hsolid u (by simp [hu]))
    refine hiff.1 (h l ?_)
    rw [flatMap_cons, heq₀]
    exact mem_append_right _ (mem_flatMap.2 ⟨u, hu, by rw [heq]; simp⟩)

end Sentences

/-- **Later lines start safely except with sentences.** For a text without line feeds and a positive
width, a text filled to the width has only safe starts of lines after its first. So does a text
wrapped by sentence, however short a line may be, if and only if each sentence after the first
starts safely. -/
theorem later_lines_start_safely_iff {t : Text} (ht : '\n' ∉ t) {width : Int} (hwidth : 0 < width)
    (measure : Measure) :
    (∀ line ∈ (lines (toWidth measure true width t {})).tail, SafeStart line) ∧
      ∀ splitter : SentenceSplitter,
        (∀ (minLineLength : Int), ∀ line ∈ (lines (bySentence
            { width, minLineLength, measure, splitter, markdown := true } t {})).tail,
          SafeStart line) ↔
        ∀ sentence ∈ (splitter.split t).tail, SafeStart sentence := by
  constructor
  · have hfill : toWidth measure true width t {}
        = forMarkdown (fillToWidth measure true width) t {} := rfl
    have hparagraph : fillToWidth measure true width t {}
        = paragraphAt { measure, markdown := true } width 0 {} t := rfl
    have hcols : 0 < (⟨width, 0, 0⟩ : Columns).width := hwidth
    obtain ⟨rows, hfilled, heq⟩ := paragraphLines_eq { measure, markdown := true } hcols t
    -- the rows are those of one sentence
    have hlaid : Laid { markdown := true } [t] rows := .of_filled hfilled
    rw [hfill, forMarkdown_eq ht, hparagraph, paragraphAt_eq, heq]
    exact (safeStart_lines_iff hlaid.newline_not_mem).2 (hlaid.safeStart (by simp))
  · intro splitter
    -- the output starts its lines as the filled lines do
    have hiff : ∀ minLineLength, (∀ line ∈ (lines (bySentence
          { width, minLineLength, measure, splitter, markdown := true } t {})).tail,
          SafeStart line) ↔
        ∀ l ∈ (SentenceSettings.lines
          { width, minLineLength, measure, splitter, markdown := true } 0 0 t).tail,
          SafeStart l := by
      intro minLineLength
      have hfill : bySentence { width, minLineLength, measure, splitter, markdown := true } t {}
          = forMarkdown (fillBySentence
              { width, minLineLength, measure, splitter, markdown := true }) t {} := rfl
      rw [hfill, forMarkdown_eq ht, fillBySentence_eq, flat_of_no_newline ht,
        if_neg (by simpa using hwidth)]
      obtain ⟨rows, hlaid, heq⟩ := exists_lines_eq
        (s := { width, minLineLength, measure, splitter, markdown := true }) rfl hwidth t
      refine safeStart_lines_iff ?_
      rw [heq]
      exact hlaid.newline_not_mem
    constructor
    · intro h
      exact safeStart_of_mem_split rfl hwidth (Int.le_refl 0) ((hiff 0).1 (h 0))
    · intro h minLineLength
      obtain ⟨rows, hlaid, heq⟩ := exists_lines_eq
        (s := { width, minLineLength, measure, splitter, markdown := true }) rfl hwidth t
      rw [hiff, heq]
      exact hlaid.safeStart h

/-- A number at the end of a sentence, on a line of its own and after a word. -/
theorem later_lines_of_number_start_safely :
    '\n' ∉ ['a', ' ', '1', '.', ' ', 'b'] ∧ (0 : Int) < 1 ∧
      (∀ line ∈ (lines (toWidth .codePoints true 1 ['a', ' ', '1', '.', ' ', 'b'] {})).tail,
        SafeStart line) ∧
      ((∀ (minLineLength : Int), ∀ line ∈ (lines (bySentence
            { width := 1, minLineLength, markdown := true }
            ['a', ' ', '1', '.', ' ', 'b'] {})).tail, SafeStart line) ↔
        ∀ sentence ∈ (SentenceSplitter.prose.split ['a', ' ', '1', '.', ' ', 'b']).tail,
          SafeStart sentence) :=
  ⟨by decide, by decide, (later_lines_start_safely_iff (by decide) (by decide) .codePoints).1,
    (later_lines_start_safely_iff (by decide) (by decide) .codePoints).2 .prose⟩

/-- In `Hello there. - not a list` the second sentence starts with a dash, and so does a line. -/
theorem later_line_starts_with_dash :
    ['-', ' ', 'n', 'o', 't', ' ', 'a', ' ', 'l', 'i', 's', 't'] ∈ (lines (bySentence
        { width := 80, minLineLength := 0, markdown := true }
        ['H', 'e', 'l', 'l', 'o', ' ', 't', 'h', 'e', 'r', 'e', '.', ' ',
          '-', ' ', 'n', 'o', 't', ' ', 'a', ' ', 'l', 'i', 's', 't'] {})).tail ∧
      ¬ SafeStart ['-', ' ', 'n', 'o', 't', ' ', 'a', ' ', 'l', 'i', 's', 't'] := by
  unfold SafeStart
  decide +kernel

end Reflow.Wrap
