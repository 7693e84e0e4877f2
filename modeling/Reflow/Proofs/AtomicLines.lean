import Reflow.Proofs.Filling
import Reflow.Proofs.Glue

/-!
Constructs and line breaks.

A word keeps every construct in it whole, so a line that is broken where the width is reached is not
broken inside a construct. A line that is broken after a sentence may be: sentences are cut with
fewer constructs than words. If no sentence ends inside a construct, the words of the sentences are
the words of the text (`words_eq_of_strewn`), and no line ends inside a construct either.
-/

open List

namespace Reflow.Wrap

open Text Atomic

variable {p : Nat} {t g b : Text}

/-! ## Words of sentences -/

theorem separated_nil : separated [] = [] := by
  have h := (Tag.reseamed_apply [] [' '] []).unique .nil
  exact h

theorem separated_append_blanks {a g b : Text} (ha : ∀ c ∈ a.getLast?, isBlank c = false)
    (hg : ∀ c ∈ g, isBlank c) (hne : g ≠ []) (hb : ∀ c ∈ b.head?, isBlank c = false) :
    separated (a ++ g ++ b) = separated a ++ ' ' :: separated b := by
  rw [separated, collapse_append_blanks ha hg hne hb, Tag.separate_append_cons isBlank_space]
  rfl

/-- A glued blank stands after `p` visible characters. -/
def GluedAt (t : Text) (p : Nat) : Prop :=
  ∃ x c y, marks Construct.wrapping t = x ++ (c, true) :: y ∧ isBlank c = true ∧
    (visible (x.map Prod.fst)).length = p

theorem GluedAt.insideConstruct (h : GluedAt t p) : InsideConstruct t p := by
  obtain ⟨x, c, y, hmarks, hc, rfl⟩ := h
  exact insideConstruct_of_glued hmarks hc

theorem GluedAt.of_marks {t u : Text} {x : List Mark} (hp : GluedAt u p)
    (h : marks Construct.wrapping t = x ++ marks Construct.wrapping u) :
    GluedAt t ((visible (x.map Prod.fst)).length + p) := by
  obtain ⟨z, c, y, hz, hc, rfl⟩ := hp
  refine ⟨x ++ z, c, y, ?_, hc, ?_⟩
  · rw [h, hz, append_assoc]
  · rw [map_append, visible_append, length_append]

theorem exists_marks_append (constructs : List Construct) (a : Text) (c : Char) (b : Text) :
    ∃ x glued y, marks constructs (a ++ c :: b) = x ++ (c, glued) :: y ∧
      x.map Prod.fst = a ∧ y.map Prod.fst = b := by
  have hfst := map_fst_marks constructs (a ++ c :: b)
  obtain ⟨x, z, hmarks, hx, hz⟩ := map_eq_append_iff.1 hfst
  obtain ⟨m, y, rfl, rfl, hy⟩ := map_eq_cons_iff.1 hz
  exact ⟨x, m.2, y, hmarks, hx, hy⟩

/-- A blank at which nothing is glued cuts the work in two. -/
theorem marks_of_not_gluedAt {a b : Text} {c : Char} (hc : isBlank c)
    (h : ¬ GluedAt (a ++ c :: b) (visible a).length) :
    marks Construct.wrapping (a ++ c :: b)
      = marks Construct.wrapping a ++ (c, false) :: marks Construct.wrapping b := by
  obtain ⟨x, glued, y, hmarks, hx, hy⟩ := exists_marks_append Construct.wrapping a c b
  cases glued with
  | true => exact absurd ⟨x, c, y, hmarks, hc, by rw [hx]⟩ h
  | false =>
    obtain ⟨rfl, rfl⟩ := marks_append_gap hmarks (by rw [← hx, length_map])
    exact hmarks

theorem marks_append_blank {constructs : List Construct} {a : Text} {c : Char} (hc : isBlank c) :
    marks constructs (a ++ [c]) = marks constructs a ++ (c, false) :: marks constructs [] := by
  obtain ⟨x, glued, y, hmarks, hx, hy⟩ := exists_marks_append constructs a c []
  obtain rfl : y = [] := map_eq_nil_iff.1 hy
  cases glued with
  | true =>
    obtain ⟨_, q, hq, _⟩ := framed_marks constructs _ x (c, true) [] hmarks hc rfl
    simp at hq
  | false =>
    obtain ⟨rfl, hnil⟩ := marks_append_gap hmarks (by rw [← hx, length_map])
    rw [hmarks, hnil]

theorem words_nil (constructs : List Construct) : Atomic.words constructs [] = [] := by
  rw [Atomic.words, marks_nil, solidRuns]

/-- **Words of sentences.** A text that begins with a sentence and has the others strewn over the
rest has the words of the sentences, if nothing is glued where one sentence ends and the next
begins. -/
theorem words_eq_of_strewn {rest : Text} {sentences : List Text} (h : Strewn rest sentences)
    {s : Text} (hs : Solid s) (hsolid : ∀ u ∈ sentences, Solid u)
    (hrest : ∀ c ∈ rest.head?, isBlank c)
    (hglue : ∀ front back, s :: sentences = front ++ back → front ≠ [] → back ≠ [] →
      ¬ GluedAt (separated (s ++ rest)) (front.flatMap visible).length) :
    lineWords (s ++ rest) = (s :: sentences).flatMap lineWords := by
  induction h generalizing s with
  | @nil g hg =>
    by_cases hne : g = []
    · subst hne
      simp
    · have hsep := separated_append_blanks hs.isBlank_getLast hg hne (b := []) (by simp)
      rw [append_nil, separated_nil] at hsep
      rw [lineWords, hsep, words_append_gap isBlank_space (marks_append_blank isBlank_space)]
      simp [lineWords, words_nil]
  | @cons g u rest sentences hg hrest' hstrewn ih =>
    have hu : Solid u := hsolid u (by simp)
    obtain ⟨c, u', rfl, hc⟩ := hu.first
    have hne : g ≠ [] := by
      rintro rfl
      have := hrest c (by simp)
      rw [hc] at this
      simp at this
    -- the blanks between the first two sentences are one space, and nothing is glued across it
    have hsep : separated (s ++ (g ++ (c :: u') ++ rest))
        = separated s ++ ' ' :: separated ((c :: u') ++ rest) := by
      rw [append_assoc g, ← append_assoc s]
      exact separated_append_blanks hs.isBlank_getLast hg hne (by simp [hc])
    have hmarks := marks_of_not_gluedAt (a := separated s) (b := separated ((c :: u') ++ rest))
      isBlank_space (by
        rw [← hsep, visible_separated]
        simpa using hglue [s] ((c :: u') :: sentences) rfl (by simp) (by simp))
    -- what is glued in the rest would be glued in the whole, behind the first sentence
    have ih := ih hu (fun v hv => hsolid v (by simp [hv])) hrest' (by
      intro front back hfront hne hne' hglued
      refine hglue (s :: front) back (by rw [hfront]; rfl) (by simp) hne' ?_
      have hwhole := hglued.of_marks (t := separated s ++ ' ' :: separated ((c :: u') ++ rest))
        (x := marks Construct.wrapping (separated s) ++ [(' ', false)]) (by rw [hmarks]; simp)
      rw [map_append, map_fst_marks, visible_append, visible_separated] at hwhole
      rw [hsep]
      simpa [visible_cons_of_blank isBlank_space] using hwhole)
    rw [lineWords, hsep, words_append_gap isBlank_space hmarks, flatMap_cons, ← ih]
    rfl

/-- A sentence ends, and another follows, after `p` visible characters of the text. -/
def SentenceBreak (t : Text) (p : Nat) : Prop :=
  ∃ front back, SentenceSplitter.prose.split t = front ++ back ∧ front ≠ [] ∧ back ≠ [] ∧
    (front.flatMap visible).length = p

theorem marks_separated_blank_append (hg : ∀ c ∈ g, isBlank c) (hne : g ≠ [])
    (hb : ∀ c ∈ b.head?, isBlank c = false) :
    separated (g ++ b) = ' ' :: separated b ∧
      marks Construct.wrapping (' ' :: separated b)
        = (' ', false) :: marks Construct.wrapping (separated b) := by
  have hsep := separated_append_blanks (a := []) (by simp) hg hne hb
  rw [separated_nil] at hsep
  exact ⟨hsep, marks_of_none (recognise?_of_blank isBlank_space _)⟩

theorem lineWords_blank_append (hg : ∀ c ∈ g, isBlank c) (hb : ∀ c ∈ b.head?, isBlank c = false) :
    lineWords (g ++ b) = lineWords b := by
  by_cases hne : g = []
  · rw [hne, nil_append]
  · obtain ⟨hsep, hmarks⟩ := marks_separated_blank_append hg hne hb
    rw [lineWords, hsep, ← nil_append (' ' :: _),
      words_append_gap isBlank_space (by simpa using hmarks)]
    simp [words_nil, lineWords]

theorem GluedAt.blank_append (hp : GluedAt (separated b) p) (hg : ∀ c ∈ g, isBlank c)
    (hb : ∀ c ∈ b.head?, isBlank c = false) : GluedAt (separated (g ++ b)) p := by
  by_cases hne : g = []
  · rwa [hne, nil_append]
  · obtain ⟨hsep, hmarks⟩ := marks_separated_blank_append hg hne hb
    rw [hsep]
    simpa [visible_cons_of_blank isBlank_space] using hp.of_marks (x := [(' ', false)]) hmarks

theorem lineWords_eq (h : ∀ p, SentenceBreak t p → ¬ GluedAt (separated t) p) :
    lineWords t = (SentenceSplitter.prose.split t).flatMap lineWords := by
  obtain ⟨hstrewn, hsolid⟩ := Sentence.strewn_splitProse t 0 Sentence.isEnd
  generalize hsentences : Sentence.splitProse t 0 Sentence.isEnd = sentences at hstrewn hsolid
  have hsplit : SentenceSplitter.prose.split t = sentences := hsentences
  simp only [SentenceBreak, hsplit] at h
  rw [hsplit]
  cases hstrewn with
  | nil hg =>
    have hblank := lineWords_blank_append (b := []) hg (by simp)
    rw [append_nil] at hblank
    rw [hblank]
    simp [lineWords, separated_nil, words_nil]
  | @cons g s rest sentences hg hrest hstrewn =>
    have hs : Solid s := hsolid s (by simp)
    have hvisible : ∀ c ∈ (s ++ rest).head?, isBlank c = false := by
      obtain ⟨c, s', rfl, hc⟩ := hs.first
      simp [hc]
    rw [append_assoc] at h ⊢
    rw [lineWords_blank_append hg hvisible]
    refine words_eq_of_strewn hstrewn hs (fun u hu => hsolid u (by simp [hu])) hrest ?_
    intro front back hfront hne hne' hglued
    exact h _ ⟨front, back, hfront, hne, hne', rfl⟩ (hglued.blank_append hg hvisible)

/-! ## Where lines end -/

/-- **Lines end between words.** A line feed in rows of words without line feeds stands after some
of the words, and others follow. -/
theorem exists_words_of_newline {rows : List Row} (hne : ∀ r ∈ rows, r.words ≠ [])
    (hwords : ∀ w ∈ rows.flatMap Row.words, '\n' ∉ w)
    (hp : '\n' ∈ gapAt (unlines (rows.map fun r => unwords r.words)) p) :
    ∃ vs us, rows.flatMap Row.words = vs ++ us ∧ vs ≠ [] ∧ us ≠ [] ∧
      (vs.flatMap visible).length = p := by
  induction rows generalizing p with
  | nil => simp [unlines, joinWith] at hp
  | cons r rows ih =>
    have hline : '\n' ∉ unwords r.words := by
      intro h
      rcases mem_joinWith h with h | ⟨w, hw, h⟩
      · simp at h
      · exact hwords w (by simp [hw]) h
    have hr : r.words ≠ [] := hne r (by simp)
    by_cases hrows : rows = []
    · subst hrows
      exact absurd (mem_gapAt hp).2 hline
    · rw [map_cons, unlines_cons (by simpa using hrows), gapAt_append] at hp
      rcases mem_append.1 hp with hp | hp
      · exact absurd (mem_gapAt hp).2 hline
      split at hp
      · cases hq : p - (visible (unwords r.words)).length with
        | zero =>
          -- the line feed after the row itself
          refine ⟨r.words, rows.flatMap Row.words, rfl, hr, ?_, ?_⟩
          · obtain ⟨r', rows, rfl⟩ := exists_cons_of_ne_nil hrows
            simp [hne r' (by simp)]
          · rw [← visible_unwords]
            omega
        | succ q =>
          rw [hq] at hp
          obtain ⟨vs, us, heq, hvs, hus, hlen⟩ := ih (fun r' hr' => hne r' (by simp [hr']))
            (fun w hw => hwords w (by
              exact mem_append_right _ hw)) hp
          refine ⟨r.words ++ vs, us, by simp [heq], by simp [hvs], hus, ?_⟩
          rw [flatMap_append, length_append, ← visible_unwords]
          omega
      · simp at hp

theorem not_insideConstruct_between_words {vs us : List Text} (h : lineWords t = vs ++ us)
    (hvs : vs ≠ []) (hus : us ≠ []) :
    ¬ InsideConstruct (separated t) (vs.flatMap visible).length := by
  intro hinside
  obtain ⟨vs', us', hwords, rfl, rfl⟩ := map_eq_append_iff.1 h
  have htiles := tiles_words Construct.wrapping (separated t)
  rw [hwords] at htiles
  obtain ⟨x, m, y, hmarks, hgap, hx⟩ :=
    htiles.gap_between (by simpa using hvs) (by simpa using hus)
  rw [← hx] at hinside
  have hglued := glued_of_insideConstruct hmarks hinside
  simp [isGap, hglued] at hgap

/-- Where no line is short, every sentence ends a line. -/
theorem newline_of_sentenceBreak {s : SentenceSettings} (hwidth : 0 < s.width)
    (hmin : s.minLineLength ≤ 0) (hmarkdown : s.markdown = false) (hprose : s.splitter = .prose)
    (hp : SentenceBreak t p) : '\n' ∈ gapAt (unlines (s.lines 0 0 t)) p := by
  obtain ⟨front, back, hsplit, hfront, hback, rfl⟩ := hp
  have hsolid := SentenceSplitter.prose.solid_split t
  rw [hsplit] at hsolid
  have hne : ∀ ss : List Text, ss ≠ [] → (∀ u ∈ ss, Solid u) →
      ss.flatMap (s.sentenceLines 0 0) ≠ [] := by
    intro ss hss hsolid
    obtain ⟨u, us, rfl⟩ := exists_cons_of_ne_nil hss
    obtain ⟨rows, hfilled, heq⟩ := s.sentenceLines_eq hwidth 0 0 u
    obtain ⟨r, rows, rfl⟩ := exists_cons_of_ne_nil
      (hfilled.ne_nil_of_solid (hsolid u (by simp)))
    simp [heq]
  have hvisible : ∀ ss : List Text,
      visible (unlines (ss.flatMap (s.sentenceLines 0 0))) = ss.flatMap visible := by
    intro ss
    rw [visible_unlines]
    induction ss with
    | nil => rfl
    | cons u ss ih =>
      have hu := (keeps_paragraphLines (s := s.filling) hmarkdown ⟨s.width, 0, 0⟩ u).visible_eq
      rw [visible_unlines] at hu
      rw [flatMap_cons, flatMap_append, ih, flatMap_cons, hu]
      rfl
  rw [s.lines_of_minLineLength_nonpos hwidth hmin, hprose, hsplit, flatMap_append, unlines,
    joinWith_append (hne front hfront fun u hu => hsolid u (by simp [hu]))
      (hne back hback fun u hu => hsolid u (by simp [hu])), ← unlines, ← unlines,
    append_assoc, singleton_append, ← hvisible front]
  exact mem_gapAt_of_append isBlank_newline

/-- **Lines end inside constructs exactly where sentences do.** For a text without line feeds and a
positive width, no line of the text wrapped by sentence ends inside a construct, however short a
line may be, if and only if no sentence does. -/
theorem line_ends_outside_constructs_iff {t : Text} (ht : '\n' ∉ t) {width : Int}
    (hwidth : 0 < width) (measure : Measure) :
    (∀ (minLineLength : Int) (p : Nat),
        '\n' ∈ gapAt (bySentence { width, minLineLength, measure } t {}) p →
          ¬ InsideConstruct (separated t) p) ↔
      ∀ p, SentenceBreak t p → ¬ InsideConstruct (separated t) p := by
  have hout : ∀ minLineLength, bySentence { width, minLineLength, measure } t {}
      = Tag.rejoin (unlines (SentenceSettings.lines { width, minLineLength, measure } 0 0 t)) := by
    intro minLineLength
    have hfill : bySentence { width, minLineLength, measure } t {}
        = fillBySentence { width, minLineLength, measure } t {} := rfl
    rw [hfill, fillBySentence_eq, flat_of_no_newline ht, if_neg (by simpa using hwidth)]
  constructor
  · intro h p hp
    refine h 0 p ?_
    rw [hout, newline_mem_rejoin_iff]
    exact newline_of_sentenceBreak hwidth (Int.le_refl 0) rfl rfl hp
  · intro h minLineLength p hp
    rw [hout, newline_mem_rejoin_iff] at hp
    -- the rows hold the words of the text itself
    obtain ⟨rows, hlaid, heq⟩ := SentenceSettings.lines_eq { width, minLineLength, measure }
      hwidth 0 0 t
    have hwords : rows.flatMap Row.words = lineWords t := by
      rw [hlaid.words_eq, lineWords_eq fun q hq hglued => h q hq hglued.insideConstruct]
      rfl
    have htext : rows.map (Row.text (SentenceSettings.filling
        { width, minLineLength, measure }).escape) = rows.map fun r => unwords r.words :=
      map_congr_left fun r _ => Row.text_of_plain rfl r
    rw [heq, htext] at hp
    obtain ⟨vs, us, hsplit, hvs, hus, rfl⟩ := exists_words_of_newline hlaid.ne_nil
      (fun w hw => newline_not_mem_lineWords (hwords ▸ hw)) hp
    exact not_insideConstruct_between_words (hwords ▸ hsplit) hvs hus

/-- In `{% a %} Hello there. Bye` the one sentence break is not in the tag, and so no line ends in it. -/
theorem line_ends_outside_leading_tag :
    let t : Text := ['{', '%', ' ', 'a', ' ', '%', '}', ' ', 'H', 'e', 'l', 'l', 'o', ' ',
      't', 'h', 'e', 'r', 'e', '.', ' ', 'B', 'y', 'e']
    '\n' ∉ t ∧ (0 : Int) < 80 ∧ InsideConstruct (separated t) 2 ∧ SentenceBreak t 16 ∧
      ∀ (minLineLength : Int) (p : Nat),
        '\n' ∈ gapAt (bySentence { width := 80, minLineLength } t {}) p →
          ¬ InsideConstruct (separated t) p := by
  intro t
  obtain ⟨first, second, hsplit, hlength⟩ : ∃ first second,
      SentenceSplitter.prose.split t = [first, second] ∧ (visible first).length = 16 :=
    ⟨t.take 20, t.drop 21, by decide +kernel⟩
  have hinside : InsideConstruct (separated t) 2 ∧ ¬ InsideConstruct (separated t) 16 := by
    unfold InsideConstruct
    decide +kernel
  refine ⟨by decide, by decide, hinside.1, ⟨[first], [second], hsplit, by simpa using hlength⟩,
    (line_ends_outside_constructs_iff (by decide) (by decide) .codePoints).2 ?_⟩
  rintro p ⟨front, back, heq, hfront, hback, rfl⟩
  obtain ⟨u, front, rfl⟩ := exists_cons_of_ne_nil hfront
  obtain ⟨rfl, htail⟩ := List.cons.inj (hsplit.symm.trans heq)
  obtain rfl : front = [] := by
    cases front with
    | nil => rfl
    | cons v front => exact absurd (append_eq_nil_iff.1 (List.cons.inj htail).2.symm).2 hback
  simpa [hlength] using hinside.2

/-- In `{% a Hello there. Bye %}` a sentence ends inside the tag, and so does a line. -/
theorem line_ends_inside_tag :
    '\n' ∈ gapAt (bySentence { width := 80, minLineLength := 0 }
        ['{', '%', ' ', 'a', ' ', 'H', 'e', 'l', 'l', 'o', ' ', 't', 'h', 'e', 'r', 'e', '.', ' ',
          'B', 'y', 'e', ' ', '%', '}'] {}) 14 ∧
      InsideConstruct (separated
        ['{', '%', ' ', 'a', ' ', 'H', 'e', 'l', 'l', 'o', ' ', 't', 'h', 'e', 'r', 'e', '.', ' ',
          'B', 'y', 'e', ' ', '%', '}']) 14 := by
  unfold InsideConstruct
  decide +kernel

end Reflow.Wrap
