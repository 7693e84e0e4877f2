import Reflow.Proofs.LineMargins

/-!
Words on lines of their own.

A line of several words starts as the first of them does. So the points that come to stand after the
digits of a line are among those that would if every word had a line of its own (`among_rows`), and
in a single column they are the same. Words that begin a line because the one before is full are
escaped; the first word of a text or a sentence is not (`loneWords`, `loneSentenceWords`).
-/

open List

namespace Reflow.Wrap

open Text Atomic Tag

variable (splitter : SentenceSplitter)

/-! ## Words on lines of their own -/

/-- Words of which all but the first are escaped. -/
def escapeLater : List Text → List Text
  | [] => []
  | w :: ws => w :: ws.map escapeWord

/-- The words of a text, as they are shown if each has a line of its own. -/
def loneWords (t : Text) : List Text := escapeLater (lineWords t)

/-- The words of a text that is filled sentence by sentence, as they are shown if each has a line of
its own. -/
def loneSentenceWords (splitter : SentenceSplitter) (t : Text) : List Text :=
  (splitter.split (flat t)).flatMap loneWords

variable {ws ls : List Text} {t : Text} {s : SentenceSettings}

theorem points_flatten_escapeWord (h : ∀ w ∈ ws, Solid w) :
    points (ws.map escapeWord).flatten = points ws.flatten := by
  induction ws with
  | nil => rfl
  | cons w ws ih =>
    rw [map_cons, flatten_cons, flatten_cons, points_append, points_append,
      points_escapeWord (h w (by simp)), ih fun v hv => h v (by simp [hv])]

theorem points_flatten_flatMap {α : Type} {f : α → List Text} {g : α → Text}
    (h : ∀ x, points (f x).flatten = points (g x)) (xs : List α) :
    points (xs.flatMap f).flatten = points (xs.map g).flatten := by
  induction xs with
  | nil => rfl
  | cons x xs ih =>
    rw [flatMap_cons, flatten_append, points_append, h, ih, map_cons,
      flatten_cons, points_append]

theorem points_loneWords (t : Text) : points (loneWords t).flatten = points t := by
  have hsolid : ∀ w ∈ lineWords t, Solid w := fun w => solid_of_mem_lineWords
  have hwords : points (lineWords t).flatten = points t :=
    points_congr (by rw [visible_flatten, wording_lineWords.visible_eq])
  rw [loneWords, ← hwords]
  cases hcons : lineWords t with
  | nil => rfl
  | cons w ws =>
    rw [hcons] at hsolid
    rw [escapeLater, flatten_cons, flatten_cons, points_append, points_append,
      points_flatten_escapeWord fun v hv => hsolid v (by simp [hv])]

theorem points_loneSentenceWords (t : Text) :
    points (loneSentenceWords splitter t).flatten = points t := by
  have hsentences : points (splitter.split (flat t)).flatten = points t := by
    rw [← points_unwords]
    refine points_congr ?_
    rw [← (splitter.keeps_split (flat t)).visible_eq, ← (keeps_flat t).visible_eq]
  rw [loneSentenceWords, points_flatten_flatMap points_loneWords, map_id', hsentences]

theorem opensNumbered_loneWords {w : Text} (hw : w ∈ (loneWords t).head?) :
    opensNumbered t = startsNumbered w := by
  refine opensNumbered_eq_head ?_
  unfold loneWords at hw
  cases hcons : lineWords t with
  | nil => simp [hcons, escapeLater] at hw
  | cons v ws => simpa [hcons, escapeLater] using hw

theorem among_unwords (w : Text) {vs vs' : List Text} (h : points vs.flatten = points vs'.flatten) :
    Among (numberPoints (unwords (w :: vs))) ((w :: vs').flatMap numberPoints) := by
  refine among_of_head ?_ fun hnumbered => ⟨w, rfl, ?_⟩
  · rw [points_unwords, flatten_cons, flatten_cons, points_append, points_append, h]
  · rwa [startsNumbered_unwords] at hnumbered

/-- **Filled lines.** The points that are exposed are exposed if every word has its own line. -/
theorem among_rows {rows : List Row} (h : Filled rows ws) (hws : ∀ w ∈ ws, Solid w) :
    Among ((rows.map (Row.text escapeWord)).flatMap numberPoints)
      ((escapeLater ws).flatMap numberPoints) := by
  have hsolid : ∀ r ∈ rows, ∀ w ∈ r.words, Solid w := fun r hr w hw =>
    hws w (h.words_eq ▸ mem_flatMap.2 ⟨r, hr, hw⟩)
  -- lines begun because the one before is full
  have hlater : ∀ rs : List Row, (∀ r ∈ rs, r.words ≠ [] ∧ r.wrapped ∧
      ∀ w ∈ r.words, Solid w) → Among ((rs.map (Row.text escapeWord)).flatMap numberPoints)
        (((rs.flatMap Row.words).map escapeWord).flatMap numberPoints) := by
    intro rs hrs
    induction rs with
    | nil => exact .nil
    | cons r rs ih =>
      obtain ⟨hne, hwrapped, hr⟩ := hrs r (by simp)
      obtain ⟨words, wrapped⟩ := r
      obtain ⟨w, vs, rfl⟩ := exists_cons_of_ne_nil hne
      obtain rfl : wrapped := hwrapped
      rw [map_cons, flatMap_cons, flatMap_cons, map_append, flatMap_append]
      refine Among.append ?_ (ih fun q hq => hrs q (by simp [hq]))
      exact among_unwords (escapeWord w)
        (points_flatten_escapeWord fun v hv => hr v (by simp [hv])).symm
  rw [← h.words_eq]
  cases rows with
  | nil => exact .nil
  | cons r rs =>
    have hwrapped := h.head r rfl
    have hne := h.ne_nil r (by simp)
    have htail := hlater rs fun q hq =>
      ⟨h.ne_nil q (by simp [hq]), h.tail q hq, hsolid q (by simp [hq])⟩
    have hr := hsolid r (by simp)
    obtain ⟨words, wrapped⟩ := r
    obtain ⟨w, vs, rfl⟩ := exists_cons_of_ne_nil hne
    obtain rfl : wrapped = false := hwrapped
    rw [map_cons, flatMap_cons, flatMap_cons, cons_append, escapeLater,
      map_append, ← cons_append, flatMap_append]
    refine Among.append ?_ htail
    exact among_unwords w (points_flatten_escapeWord fun v hv => hr v (by simp [hv])).symm

/-! ## Wrapped texts -/

/-- The flags of the points of `out`, behind its margins, are those of the lines `ws` up to `r`, and
`out` starts with a number only if `t` does. -/
structure Exposes (r : Bool → Bool → Prop) (i : Indents) (t : Text) (ws : List Text) (out : Text) :
    Prop where
  flags : Forall₂ r (pointFlags i out) (ws.flatMap numberPoints)
  first : firstNumbered i.first out = true → opensNumbered t = true

theorem Exposes.flags_eq {i : Indents} {out : Text} (h : Exposes Eq i t ws out) :
    pointFlags i out = ws.flatMap numberPoints := by
  have hflags := h.flags
  rwa [forall₂_eq_eq_eq] at hflags

theorem Indents.newline_not_mem_apply {i : Indents} (hfirst : Margin i.first)
    (hlater : Margin i.later) (h : ∀ l ∈ ls, '\n' ∉ l) : ∀ l ∈ i.apply ls, '\n' ∉ l := by
  intro l hl hmem
  obtain ⟨m, hm, rfl | rfl⟩ := Indents.exists_of_mem_apply hl
  · exact (mem_append.1 hmem).elim hfirst.line (h m hm)
  · exact (mem_append.1 hmem).elim hlater.line (h m hm)

/-- The lines `ls` show the points of `ws` up to `r`, and start with a number only if `t` does. -/
structure Lined (r : Bool → Bool → Prop) (t : Text) (ls ws : List Text) : Prop where
  line : ∀ l ∈ ls, '\n' ∉ l
  flags : Forall₂ r (ls.flatMap numberPoints) (ws.flatMap numberPoints)
  head : ∀ l ∈ ls.head?, startsNumbered l = true → opensNumbered t = true

theorem Lined.self {r r' : Bool → Bool → Prop} (hr : ∀ x, r x x) (h : Lined r' t ls ws) :
    Lined r t ls ls :=
  ⟨h.line, forall₂_same.2 fun x _ => hr x, h.head⟩

theorem Lined.rejoin {r : Bool → Bool → Prop} (h : Lined r t ls ws) :
    Lined r t (ls.map rejoin) ws := by
  refine ⟨fun m hm => ?_, ?_, fun m hm => ?_⟩
  · obtain ⟨l, hl, rfl⟩ := mem_map.1 hm
    exact newline_not_mem_rejoin (h.line l hl)
  · rw [flatMap_map, flatMap_congr fun l _ => numberPoints_rejoin l]
    exact h.flags
  · rw [head?_map] at hm
    obtain ⟨l, hl, rfl⟩ := Option.map_eq_some_iff.1 hm
    rw [startsNumbered_rejoin]
    exact h.head l hl

section Lines

variable {r : Bool → Bool → Prop} {i : Indents} (hfirst : Margin i.first) (hlater : Margin i.later)
  {t : Text} {ls ws : List Text} (h : Lined r t ls ws)

include hfirst hlater h

theorem Lined.exposes : Exposes r i t ws (unlines (i.apply ls)) := by
  cases ls with
  | nil =>
    refine ⟨?_, fun hnumbered => absurd hnumbered ?_⟩
    · show Forall₂ r (pointFlags i []) _
      rw [pointFlags_nil]
      exact h.flags
    · have hlines : lines (unlines (i.apply [])) = [[]] := rfl
      have hstarts : startsNumbered [] = false := rfl
      simp [firstNumbered, hlines, unindent_nil, hstarts]
  | cons l ls =>
    have hlines : lines (unlines (i.apply (l :: ls))) = i.apply (l :: ls) :=
      lines_unlines (by simp [Indents.apply]) (Indents.newline_not_mem_apply hfirst hlater h.line)
    refine ⟨?_, fun hnumbered => h.head l rfl ?_⟩
    · rw [pointFlags, hlines, Indents.remove_apply]
      exact h.flags
    · rw [firstNumbered, hlines] at hnumbered
      simpa [Indents.apply, unindent_append] using hnumbered

theorem Lined.exposes_rejoin : Exposes r i t ws (Tag.rejoin (unlines (i.apply ls))) := by
  have happly : (i.apply ls).map Tag.rejoin = i.apply (ls.map Tag.rejoin) := by
    cases ls with
    | nil => rfl
    | cons l ls =>
      simp [Indents.apply, hfirst.rejoin_append, hlater.rejoin_append, Function.comp_def]
  rw [rejoin_unlines, happly]
  exact h.rejoin.exposes hfirst hlater

end Lines

/-! ## The two fillers -/

theorem opensNumbered_of_rows {rows : List Row} (hwords : rows.flatMap Row.words = ws)
    (hne : ∀ r ∈ rows, r.words ≠ []) (hhead : ∀ r ∈ rows.head?, r.wrapped = false)
    (ht : ∀ w ∈ ws.head?, opensNumbered t = startsNumbered w) :
    ∀ l ∈ (rows.map (Row.text escapeWord)).head?, startsNumbered l → opensNumbered t := by
  cases rows with
  | nil => simp
  | cons r rows =>
    have hr := hne r (by simp)
    have hwrapped := hhead r rfl
    obtain ⟨words, wrapped⟩ := r
    obtain ⟨w, vs, rfl⟩ := exists_cons_of_ne_nil hr
    obtain rfl : wrapped = false := hwrapped
    intro l hl hnumbered
    obtain rfl : unwords (w :: vs) = l := by simpa [Row.text, Row.shown] using hl
    rw [ht w (by simp [← hwords]), ← startsNumbered_unwords w vs]
    exact hnumbered

theorem exists_head_loneWords (h : opensNumbered t) :
    ∃ w ∈ (loneWords t).head?, startsNumbered w := by
  have hseparated : opensNumbered (separated t) := by rwa [opensNumbered_separated]
  obtain ⟨w, ws, hcons⟩ := exists_cons_of_ne_nil (strewn_ne_nil (strewn_lineWords t) hseparated)
  have hw : w ∈ (loneWords t).head? := by simp [loneWords, hcons, escapeLater]
  exact ⟨w, hw, by rwa [← opensNumbered_loneWords hw]⟩

theorem opensNumbered_split {splitter : SentenceSplitter} {s : Text}
    (hs : s ∈ (splitter.split t).head?) : opensNumbered t = startsNumbered s := by
  obtain ⟨rest, hrest⟩ := head?_eq_some_iff.1 hs
  have hsolid := splitter.solid_split t s (by simp [hrest])
  cases splitter with
  | prose =>
    have hstrewn := (Sentence.strewn_splitProse t 0 Sentence.isEnd).1
    have hcons : Sentence.splitProse t 0 Sentence.isEnd = s :: rest := hrest
    rw [hcons] at hstrewn
    exact opensNumbered_of_strewn hstrewn hsolid
  | plain =>
    have hunwords := unwords_split_plain t
    rw [hrest] at hunwords
    have hstrewn := strewn_plain_words t
    have hwords : words t ≠ [] := by
      intro hnil
      rw [hnil] at hunwords
      have hline : Solid (unwords (s :: rest)) :=
        solid_unwords (by simp) fun w hw =>
          SentenceSplitter.plain.solid_split t w (by rwa [hrest])
      exact hline.ne_nil hunwords
    obtain ⟨w, ws, hcons⟩ := exists_cons_of_ne_nil hwords
    rw [hcons] at hunwords hstrewn
    rw [opensNumbered_of_strewn hstrewn (solid_of_mem_plain_words (by rw [hcons]; simp)),
      ← startsNumbered_unwords w ws, ← hunwords, startsNumbered_unwords]

theorem exists_head_loneSentenceWords (h : opensNumbered t) :
    ∃ w ∈ (loneSentenceWords splitter t).head?, startsNumbered w := by
  have hflat : opensNumbered (flat t) := by rwa [opensNumbered_flat]
  have hne : splitter.split (flat t) ≠ [] := by
    intro hnil
    have hpoints := points_loneSentenceWords splitter t
    have hpos := points_pos_of_opensNumbered h
    rw [loneSentenceWords, hnil] at hpoints
    simp at hpoints
    omega
  obtain ⟨s, rest, hrest⟩ := exists_cons_of_ne_nil hne
  have hs : s ∈ (splitter.split (flat t)).head? := by simp [hrest]
  rw [opensNumbered_split hs] at hflat
  obtain ⟨w, hw, hnumbered⟩ := exists_head_loneWords (opensNumbered_of_startsNumbered hflat)
  refine ⟨w, ?_, hnumbered⟩
  obtain ⟨ws, hws⟩ := head?_eq_some_iff.1 hw
  simp [loneSentenceWords, hrest, hws]

theorem among_joinLines (s : SentenceSettings) (last : Text) (ls : List Text) :
    Among ((s.joinLines last ls).flatMap numberPoints)
      (numberPoints last ++ ls.flatMap numberPoints) := by
  cases ls with
  | nil => exact .refl _
  | cons l ls =>
    rw [SentenceSettings.joinLines]
    split
    · rw [flatMap_cons, flatMap_cons, ← append_assoc]
      have hjoined := among_unwords last (Eq.refl (points [l].flatten))
      rw [flatMap_cons, flatMap_singleton] at hjoined
      exact hjoined.append (.refl _)
    · exact .refl _

theorem among_addSentence (hs : s.markdown) (hwidth : 0 < s.width) (start later : Int)
    {lines : List Text} {flags : List Bool} (u : Text)
    (h : Among (lines.flatMap numberPoints) flags) :
    Among ((s.addSentence start later lines u).flatMap numberPoints)
      (flags ++ (loneWords u).flatMap numberPoints) := by
  have hsentence : ∀ column : Int, Among ((s.sentenceLines column later u).flatMap numberPoints)
      ((loneWords u).flatMap numberPoints) := by
    intro column
    obtain ⟨rows, hfilled, heq⟩ := s.sentenceLines_eq hwidth column later u
    rw [heq, filling_escape hs]
    exact among_rows hfilled fun w => solid_of_mem_lineWords
  unfold SentenceSettings.addSentence
  rcases eq_nil_or_concat' lines with rfl | ⟨init, last, rfl⟩
  · cases h
    exact hsentence start
  · simp only [getLast?_append, getLast?_singleton, Option.some_or, dropLast_concat]
    generalize (if s.isShort last = true then start + s.measure.of last else start) = column
    rw [flatMap_append]
    rw [flatMap_append, flatMap_singleton] at h
    refine ((Among.refl _).append (among_joinLines s last _)).trans ?_
    rw [← append_assoc]
    exact h.append (hsentence column)

theorem among_lines (hs : s.markdown) (hwidth : 0 < s.width) (first later : Int) (t : Text) :
    Among ((s.lines first later t).flatMap numberPoints)
      (((s.splitter.split t).flatMap loneWords).flatMap numberPoints) := by
  have hrun : ∀ (rest lines : List Text) (flags : List Bool),
      Among (lines.flatMap numberPoints) flags →
      Among ((rest.foldl (s.addSentence later later) lines).flatMap numberPoints)
        (flags ++ (rest.flatMap loneWords).flatMap numberPoints) := by
    intro rest
    induction rest with
    | nil => simp
    | cons u rest ih =>
      intro lines flags h
      have hnext := ih _ _ (among_addSentence hs hwidth later later u h)
      rwa [append_assoc, ← flatMap_append, ← flatMap_cons] at hnext
  unfold SentenceSettings.lines
  split
  · next hnil =>
    rw [hnil]
    exact .nil
  · next u rest hcons =>
    have hstart : Among ((s.addSentence first later [] u).flatMap numberPoints)
        ([] ++ (loneWords u).flatMap numberPoints) := among_addSentence hs hwidth first later u .nil
    have hlines := hrun rest _ _ hstart
    rwa [nil_append, ← flatMap_append, ← flatMap_cons, ← hcons] at hlines

theorem paragraphLines_narrow (measure : Measure) {first later : Int} (hfirst : 0 ≤ first)
    (hlater : 0 ≤ later) (t : Text) :
    paragraphLines (markdownSettings measure) ⟨1, first, later⟩ t = loneWords t := by
  rw [paragraphLines_apart measure hfirst hlater, loneWords]
  cases lineWords t with
  | nil => rfl
  | cons w ws =>
    rw [loneRows, map_cons, map_map]
    rfl

theorem lines_narrow {first later : Int} (hfirst : 0 ≤ first) (hlater : 0 ≤ later) (t : Text) :
    (narrowSettings splitter).lines first later t = (splitter.split t).flatMap loneWords := by
  have hwidth : 0 < (narrowSettings splitter).width := Int.one_pos
  have hmin : (narrowSettings splitter).minLineLength ≤ 0 := Int.le_refl 0
  have hsolid := splitter.solid_split t
  have hsentence : ∀ (column : Int) (u : Text), 0 ≤ column →
      (narrowSettings splitter).sentenceLines column later u = loneWords u := fun column u h =>
    paragraphLines_narrow .codePoints h hlater u
  unfold SentenceSettings.lines
  split
  · next hnil =>
    have hnil : splitter.split t = [] := hnil
    rw [hnil]
    rfl
  · next u rest hcons =>
    have hcons : splitter.split t = u :: rest := hcons
    rw [hcons] at hsolid ⊢
    rw [SentenceSettings.foldl_addSentence_of_minLineLength_nonpos _ hwidth hmin later
        (fun v hv => hsolid v (by simp [hv])),
      SentenceSettings.addSentence_of_minLineLength_nonpos _ hwidth hmin first later []
        (hsolid u (by simp)), nil_append, hsentence first u hfirst, flatMap_cons]
    exact congrArg _ (flatMap_congr fun v _ => hsentence later v hlater)

theorem lined_paragraphLines (measure : Measure) (cols : Columns) (t : Text) :
    Lined Implies t (paragraphLines (markdownSettings measure) cols t) (loneWords t) := by
  rcases Int.lt_or_le 0 cols.width with hwidth | hwidth
  · obtain ⟨rows, hfilled, heq⟩ := paragraphLines_eq (markdownSettings measure) hwidth t
    rw [markdownSettings_words] at hfilled
    rw [heq]
    refine ⟨fun l hl => ?_, among_rows hfilled fun w => solid_of_mem_lineWords, ?_⟩
    · obtain ⟨r, hr, rfl⟩ := mem_map.1 hl
      exact Row.newline_not_mem_text fun w hw =>
        ⟨t, hfilled.words_eq ▸ mem_flatMap.2 ⟨r, hr, hw⟩⟩
    · exact opensNumbered_of_rows hfilled.words_eq hfilled.ne_nil hfilled.head fun w =>
        opensNumbered_eq_head
  · -- one line, which holds the text
    obtain ⟨whole, hwhole⟩ : ∃ whole, whole = strip (collapse t) := ⟨_, rfl⟩
    have hlines : paragraphLines (markdownSettings measure) cols t
        = if whole.isEmpty then [] else [whole] := by
      rw [paragraphLines, if_pos hwidth, hwhole]
      rfl
    have hpoints : points whole = points t := points_congr (by simp [hwhole])
    have hopens : startsNumbered whole → opensNumbered t := by
      intro hnumbered
      rw [← opensNumbered_collapse]
      exact opensNumbered_of_strip (hwhole ▸ hnumbered)
    have hflags : Among (numberPoints whole) ((loneWords t).flatMap numberPoints) :=
      among_of_head (hpoints.trans (points_loneWords t).symm) fun hnumbered =>
        exists_head_loneWords (hopens hnumbered)
    rw [hlines]
    split
    · next hempty =>
      obtain rfl : whole = [] := by simpa using hempty
      exact ⟨by simp, hflags, by simp⟩
    · refine ⟨fun l hl hmem => ?_, by simpa using hflags, fun l hl => ?_⟩
      · obtain rfl : l = whole := by simpa using hl
        rw [hwhole] at hmem
        exact absurd (eq_space_of_mem_collapse (strip_subset hmem) isBlank_newline) (by decide)
      · obtain rfl : whole = l := by simpa using hl
        exact hopens

theorem lined_lines (hs : s.markdown) (hwidth : 0 < s.width) (first later : Int) (t : Text) :
    Lined Implies t (s.lines first later (flat t)) (loneSentenceWords s.splitter t) := by
  refine ⟨fun l hl => ?_, among_lines hs hwidth first later (flat t), ?_⟩
  · obtain ⟨rows, hlaid, heq⟩ := s.lines_eq hwidth first later (flat t)
    rw [heq, filling_escape hs] at hl
    exact hlaid.newline_not_mem l hl
  · obtain ⟨rows, hlaid, heq⟩ := s.lines_eq hwidth first later (flat t)
    rw [heq, filling_escape hs]
    refine opensNumbered_of_rows hlaid.words_eq hlaid.ne_nil hlaid.head fun w hw => ?_
    -- the first word is that of the first sentence
    cases hcons : s.splitter.split (flat t) with
    | nil => simp [hcons] at hw
    | cons u rest =>
      have hu : u ∈ (s.splitter.split (flat t)).head? := by simp [hcons]
      have hsolid := s.splitter.solid_split (flat t) u (by simp [hcons])
      rw [hcons, flatMap_cons, head?_append_of_ne_nil _ (s.filling.words_ne_nil hsolid),
        filling_words] at hw
      rw [← opensNumbered_flat, opensNumbered_split hu, ← opensNumbered_of_solid hsolid]
      exact opensNumbered_eq_head hw

theorem lined_words (t : Text) :
    Lined Implies t [unwords (words (flat t))] (loneSentenceWords splitter t) := by
  have hvisible : visible (unwords (words (flat t))) = visible t :=
    ((keeps_flat t).visible_eq.trans (keeps_words (flat t)).visible_eq).symm
  have hopens : startsNumbered (unwords (words (flat t))) → opensNumbered t := by
    intro hnumbered
    have hstrewn := strewn_plain_words (flat t)
    cases hcons : words (flat t) with
    | nil =>
      rw [hcons] at hnumbered
      exact absurd hnumbered (by decide)
    | cons w ws =>
      have hsolid : Solid w := solid_of_mem_plain_words (by rw [hcons]; simp)
      rw [hcons] at hnumbered hstrewn
      rwa [← opensNumbered_flat, opensNumbered_of_strewn hstrewn hsolid, ← startsNumbered_unwords w ws]
  refine ⟨fun l hl => ?_, ?_, fun l hl => ?_⟩
  · by_cases hshown : visible t = []
    · -- there are no words
      have hnil : words (flat t) = [] := by
        by_contra hne
        have hsolid := solid_unwords hne fun w => solid_of_mem_plain_words
        obtain ⟨c, u, hcons, hc⟩ := hsolid.first
        rw [hcons, visible_cons_of_visible hc, hshown] at hvisible
        exact absurd hvisible (by simp)
      obtain rfl : l = [] := by simpa [hnil, unwords, joinWith] using hl
      simp
    · exact (textLines_words hshown).single l hl
  · rw [flatMap_singleton]
    refine among_of_head ?_ fun hnumbered =>
      exists_head_loneSentenceWords splitter (hopens hnumbered)
    rw [points_congr hvisible, points_loneSentenceWords]
  · obtain rfl : unwords (words (flat t)) = l := by simpa using hl
    exact hopens

section Fillers

variable {i : Indents} (hfirst : Margin i.first) (hlater : Margin i.later)

include hfirst hlater

theorem exposes_fillToWidth (measure : Measure) (width : Int) (t : Text) :
    Exposes Implies i t (loneWords t) (fillToWidth measure true width t i) :=
  (lined_paragraphLines measure ⟨width, 0 + measure.of i.first, measure.of i.later⟩
    t).exposes_rejoin hfirst hlater

theorem exposes_fillToWidth_narrow (measure : Measure) (t : Text) :
    Exposes Eq i t (loneWords t) (fillToWidth measure true 1 t i) := by
  have hlines : paragraphLines (markdownSettings measure)
      ⟨1, 0 + measure.of i.first, measure.of i.later⟩ t = loneWords t :=
    paragraphLines_narrow measure (by omega) (by omega) t
  have hlined := lined_paragraphLines measure ⟨1, 0 + measure.of i.first, measure.of i.later⟩ t
  have hfill : fillToWidth measure true 1 t i = rejoin (unlines (i.apply (loneWords t))) := by
    rw [← hlines]
    rfl
  rw [hlines] at hlined
  rw [hfill]
  exact (hlined.self Eq.refl).exposes_rejoin hfirst hlater

theorem exposes_fillBySentence {s : SentenceSettings} (hs : s.markdown) (t : Text) :
    Exposes Implies i t (loneSentenceWords s.splitter t) (fillBySentence s t i) := by
  rcases Int.lt_or_le 0 s.width with hwidth | hwidth
  · rw [fillBySentence, if_neg (by omega)]
    exact (lined_lines hs hwidth _ _ t).exposes_rejoin hfirst hlater
  · rw [fillBySentence, if_pos hwidth]
    exact (lined_words s.splitter t).exposes hfirst hlater

theorem exposes_fillBySentence_narrow (splitter : SentenceSplitter) (t : Text) :
    Exposes Eq i t (loneSentenceWords splitter t) (fillBySentence (narrowSettings splitter) t i) := by
  have hwidth : 0 < (narrowSettings splitter).width := Int.one_pos
  have hlines : (narrowSettings splitter).lines (Measure.codePoints.of i.first)
      (Measure.codePoints.of i.later) (flat t) = loneSentenceWords splitter t :=
    lines_narrow splitter (by omega) (by omega) (flat t)
  have hfill : fillBySentence (narrowSettings splitter) t i
      = rejoin (unlines (i.apply (loneSentenceWords splitter t))) := by
    rw [← hlines]
    rfl
  have hlined := lined_lines (s := narrowSettings splitter) rfl hwidth
    (Measure.codePoints.of i.first) (Measure.codePoints.of i.later) t
  rw [hlines] at hlined
  rw [hfill]
  exact (hlined.self Eq.refl).exposes_rejoin hfirst hlater

end Fillers

end Reflow.Wrap
