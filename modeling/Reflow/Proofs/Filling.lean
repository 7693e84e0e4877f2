import Mathlib.Data.List.Forall2
import Reflow.Proofs.Seams
import Reflow.Proofs.Sentences

/-!
Filled lines as rows of words.

A filled paragraph is a list of `Row`s: the words of each line, and whether the line was begun
because the one before it was full. In that case, and only then, the first word of the line is
escaped. `Filled rows ws` is what filling does to the words `ws`, `Laid` what it does to a list of
sentences; `paragraphLines_eq` and `lines_eq` say that the lines are the texts of such rows. The
widths are gone from there on: whatever a line break depends on, it stands between two words.
-/

open List

namespace Reflow.Wrap

open Text Atomic Tag

variable {escape : Text → Text}

/-! ## Escaped words -/

variable {w t : Text} {s : Settings} {cols : Columns} {sentences : List Text}

theorem dropFinalNewline_of_solid (hw : Solid w) : dropFinalNewline w = w := by
  obtain ⟨t, d, rfl, hd⟩ := hw.last
  rw [dropFinalNewline.eq_def]
  split
  · next rest h => simp_all
  · rfl

theorem toNat_of_isAsciiDigit {c : Char} (h : isAsciiDigit c) : 48 ≤ c.toNat ∧ c.toNat ≤ 57 := by
  simp only [isAsciiDigit, Bool.and_eq_true, decide_eq_true_eq, Char.le_def,
    UInt32.le_iff_toNat_le] at h
  exact h

theorem isBlank_of_isAsciiDigit {c : Char} (h : isAsciiDigit c) : isBlank c = false := by
  have hrange := toNat_of_isAsciiDigit h
  simp only [isBlank, blankRanges, Ranges.contains]
  grind

theorem exists_of_isNumberMarker (h : isNumberMarker w) :
    ∃ ds e, w = ds ++ [e] ∧ ds ≠ [] ∧ (∀ d ∈ ds, isAsciiDigit d) ∧ (e = '.' ∨ e = ')') := by
  unfold isNumberMarker at h
  simp only [Bool.and_eq_true, Bool.or_eq_true, beq_iff_eq] at h
  obtain ⟨hhead, hrest⟩ := h
  have hw : w.takeWhile isAsciiDigit ++ w.dropWhile isAsciiDigit = w :=
    takeWhile_append_dropWhile
  have hne : w.takeWhile isAsciiDigit ≠ [] := by
    cases w with
    | nil => simp at hhead
    | cons c w =>
      have hc : isAsciiDigit c := by simpa using hhead
      simp [hc]
  rcases hrest with hrest | hrest
  · exact ⟨_, '.', by rw [← hrest, hw], hne, fun d => mem_takeWhile_imp, .inl rfl⟩
  · exact ⟨_, ')', by rw [← hrest, hw], hne, fun d => mem_takeWhile_imp, .inr rfl⟩

theorem exists_of_isBareMarker (h : isBareMarker w) :
    (∃ c ∈ ['-', '*', '+', '>'], w = [c]) ∨ w ≠ [] ∧ ∀ c ∈ w, c = '#' := by
  simp only [isBareMarker, Bool.or_eq_true, beq_iff_eq, Bool.and_eq_true, all_eq_true,
    Bool.not_eq_true', isEmpty_eq_false_iff] at h
  rcases h with (((rfl | rfl) | rfl) | rfl) | ⟨hall, hne⟩
  · exact .inl ⟨'-', by simp⟩
  · exact .inl ⟨'*', by simp⟩
  · exact .inl ⟨'+', by simp⟩
  · exact .inl ⟨'>', by simp⟩
  · exact .inr ⟨hne, hall⟩

/-- A word stays, or it is a marker without blanks and gets a backslash in front of some of its
characters. -/
theorem escapeWord_cases (hw : Solid w) :
    escapeWord w = w ∨ (∀ c ∈ w, isBlank c = false) ∧
      ∃ a b, w = a ++ b ∧ b ≠ [] ∧ escapeWord w = a ++ '\\' :: b := by
  unfold escapeWord
  rw [dropFinalNewline_of_solid hw]
  dsimp only
  split
  · next h =>
    obtain ⟨ds, e, rfl, _, hds, he⟩ := exists_of_isNumberMarker h
    refine .inr ⟨fun c hc => ?_, ds, [e], rfl, by simp, by simp⟩
    rcases mem_append.1 hc with hc | hc
    · exact isBlank_of_isAsciiDigit (hds c hc)
    · obtain rfl : c = e := by simpa using hc
      rcases he with rfl | rfl <;> decide
  · split
    · next h =>
      refine .inr ⟨fun c hc => ?_, [], w, rfl, hw.ne_nil, rfl⟩
      rcases exists_of_isBareMarker h with ⟨d, hd, rfl⟩ | ⟨_, hall⟩
      · obtain rfl : c = d := by simpa using hc
        exact isBlank_of_all (by decide) c hd
      · rw [hall c hc]
        decide
    · exact .inl rfl

theorem solid_escapeWord (hw : Solid w) : Solid (escapeWord w) := by
  rcases escapeWord_cases hw with h | ⟨hvisible, a, b, rfl, hb, h⟩
  · rw [h]
    exact hw
  · rw [h]
    obtain ⟨b', d, rfl⟩ : ∃ b' d, b = b' ++ [d] := by
      rcases eq_nil_or_concat' b with rfl | h
      · exact absurd rfl hb
      · exact h
    refine ⟨?_, ⟨a ++ '\\' :: b', d, by simp, hvisible d (by simp)⟩⟩
    cases a with
    | nil => exact ⟨'\\', b' ++ [d], rfl, by simp⟩
    | cons c a => exact ⟨c, a ++ '\\' :: (b' ++ [d]), rfl, hvisible c (by simp)⟩

theorem Settings.solid_escape (s : Settings) (hw : Solid w) : Solid (s.escape w) := by
  unfold Settings.escape
  split
  · exact solid_escapeWord hw
  · exact hw

/-! ## Words of a paragraph -/

theorem Splitter.solid_words (splitter : Splitter) (t : Text) :
    ∀ w ∈ splitter.words t, Solid w := by
  intro w hw
  cases splitter with
  | plain => exact solid_of_mem_plain_words hw
  | markup =>
    obtain ⟨v, hv, rfl⟩ := mem_map.1 hw
    exact solid_of_mem_words v hv

theorem keeps_separate (t : Text) : Respaced KeepsGap t (separate t) := by
  refine ⟨(visible_separate t).symm, fun i _ _ hne => ?_⟩
  rcases gapAt_separate t i with h | h
  · rwa [h]
  · exact absurd h.1 hne

theorem Splitter.keeps_words (splitter : Splitter) (t : Text) :
    Respaced KeepsGap t (unwords (splitter.words t)) := by
  cases splitter with
  | plain => exact Atomic.keeps_words t
  | markup =>
    have h := (tiles_words Construct.wrapping (separate t)).keeps
    rw [map_fst_marks] at h
    exact (keeps_separate t).trans KeepsGap.trans h

/-- The words that a paragraph is filled with. -/
def Settings.words (s : Settings) (t : Text) : List Text := s.splitter.words (s.prepare t)

theorem Settings.keeps_prepare (s : Settings) (t : Text) : Respaced KeepsGap t (s.prepare t) := by
  unfold Settings.prepare
  split
  · exact keeps_collapse t
  · exact .refl KeepsGap.refl t

theorem Settings.keeps_words (s : Settings) (t : Text) :
    Respaced KeepsGap t (unwords (s.words t)) :=
  (s.keeps_prepare t).trans KeepsGap.trans (s.splitter.keeps_words _)

theorem Settings.solid_words (s : Settings) (t : Text) : ∀ w ∈ s.words t, Solid w :=
  s.splitter.solid_words _

theorem Settings.words_ne_nil (s : Settings) (ht : Solid t) : s.words t ≠ [] := by
  intro hnil
  obtain ⟨c, u, rfl, hc⟩ := ht.first
  have h := (s.keeps_words (c :: u)).visible_eq
  rw [hnil, visible_cons_of_visible hc] at h
  simp [unwords, joinWith] at h

/-! ## The text in which constructs are looked for -/

/-- Blanks are collapsed and adjacent tags separated. -/
def separated (t : Text) : Text := separate (collapse t)

theorem visible_separated (t : Text) : visible (separated t) = visible t := by
  rw [separated, visible_separate, visible_collapse]

theorem not_mem_separated (t : Text) : '\n' ∉ separated t := by
  intro h
  obtain ⟨a, b, hab⟩ := append_of_mem h
  have hgap : '\n' ∈ gapAt (separated t) (visible a).length := by
    rw [hab]
    exact mem_gapAt_of_append isBlank_newline
  rcases gapAt_separate (collapse t) (visible a).length with heq | ⟨_, heq⟩
  · rw [separated, heq] at hgap
    have := eq_space_of_mem_collapse (mem_gapAt hgap).2 isBlank_newline
    simp at this
  · rw [separated, heq] at hgap
    simp at hgap

/-- The words of a text as they are put on lines. -/
def lineWords (t : Text) : List Text :=
  (words Construct.wrapping (separated t)).map Atomic.Word.text

theorem newline_not_mem_lineWords (hw : w ∈ lineWords t) : '\n' ∉ w := by
  intro hmem
  obtain ⟨v, hv, rfl⟩ := mem_map.1 hw
  have hsub := (tiles_words Construct.wrapping (separated t)).subset v hv '\n' hmem
  rw [map_fst_marks] at hsub
  exact not_mem_separated t hsub

theorem solid_of_mem_lineWords (hw : w ∈ lineWords t) : Solid w :=
  Splitter.solid_words .markup (collapse t) w hw

theorem strewn_lineWords (t : Text) : Strewn (separated t) (lineWords t) := by
  have h := (tiles_words Construct.wrapping (separated t)).strewn
  rwa [map_fst_marks] at h

/-! ## Rows -/

/-- The words of one line, and whether the line was begun because the one before it was full. -/
structure Row where
  words : List Text
  wrapped : Bool

/-- Words of which the first is escaped. -/
def escapeHead (escape : Text → Text) : List Text → List Text
  | [] => []
  | w :: ws => escape w :: ws

/-- The words of the line as they are written. -/
def Row.shown (escape : Text → Text) (r : Row) : List Text :=
  if r.wrapped then escapeHead escape r.words else r.words

def Row.text (escape : Text → Text) (r : Row) : Text := unwords (r.shown escape)

/-- The rows hold the words in order, none is empty, and all but the first are begun because the
one before is full. -/
structure Filled (rows : List Row) (ws : List Text) : Prop where
  words_eq : rows.flatMap Row.words = ws
  ne_nil : ∀ r ∈ rows, r.words ≠ []
  head : ∀ r ∈ rows.head?, r.wrapped = false
  tail : ∀ r ∈ rows.tail, r.wrapped = true

/-- **Filling.** The lines that words are put on are the rows of a filled paragraph. -/
theorem exists_breakWords (size : Text → Nat) (escape : Text → Text) (cols : Columns)
    (current : List Text) (column : Int) (ws : List Text) :
    ∃ rows, Filled rows (current ++ ws) ∧
      breakWords size escape cols current column ws = rows.map (Row.shown escape) := by
  fun_induction breakWords size escape cols current column ws with
  | case1 current column h =>
    obtain rfl : current = [] := by simpa using h
    exact ⟨[], ⟨rfl, by simp, by simp, by simp⟩, rfl⟩
  | case2 current column h =>
    have hne : current ≠ [] := by simpa using h
    exact ⟨[⟨current, false⟩], ⟨by simp, by simpa using hne, by simp, by simp⟩, rfl⟩
  | case3 current column word rest space hfits ih =>
    obtain ⟨rows, hfilled, heq⟩ := ih
    exact ⟨rows, by simpa using hfilled, heq⟩
  | case4 current column word rest space hfits hnil ih =>
    obtain rfl : current = [] := by simpa using hnil
    exact ih
  | case5 current column word rest space hfits hnil ih =>
    obtain ⟨rows, hfilled, heq⟩ := ih
    -- the first row of what follows starts with the escaped word
    cases rows with
    | nil => exact absurd hfilled.words_eq (by simp)
    | cons r rows =>
      obtain ⟨vs, wrapped⟩ := r
      obtain rfl : wrapped = false := hfilled.head _ rfl
      obtain ⟨v, vs, rfl⟩ := exists_cons_of_ne_nil (hfilled.ne_nil ⟨vs, false⟩ (by simp))
      obtain ⟨rfl, hrest⟩ : v = escape word ∧ vs ++ rows.flatMap Row.words = rest := by
        simpa using hfilled.words_eq
      refine ⟨⟨current, false⟩ :: ⟨word :: vs, true⟩ :: rows, ⟨?_, ?_, by simp, ?_⟩, ?_⟩
      · simp [hrest]
      · have := hfilled.ne_nil
        simp_all
      · have := hfilled.tail
        simp_all
      · rw [heq]
        rfl

variable {r : Row}

theorem Row.forall_shown {P : Text → Prop} (hescape : ∀ w, P w → P (escape w))
    (hr : ∀ w ∈ r.words, P w) : ∀ w ∈ r.shown escape, P w := by
  obtain ⟨ws, wrapped⟩ := r
  cases wrapped with
  | false => exact hr
  | true =>
    cases ws with
    | nil => simp [Row.shown, escapeHead]
    | cons v vs =>
      intro w hw
      rcases mem_cons.1 hw with rfl | hw
      · exact hescape v (hr v (by simp))
      · exact hr w (by simp [hw])

theorem Row.solid_shown (hr : ∀ w ∈ r.words, Solid w) : ∀ w ∈ r.shown s.escape, Solid w :=
  Row.forall_shown (fun _ => s.solid_escape) hr

theorem Row.shown_ne_nil (hr : r.words ≠ []) : r.shown escape ≠ [] := by
  obtain ⟨ws, wrapped⟩ := r
  obtain ⟨v, vs, rfl⟩ := exists_cons_of_ne_nil hr
  cases wrapped <;> simp [Row.shown, escapeHead]

theorem Row.solid_text (hne : r.words ≠ []) (hr : ∀ w ∈ r.words, Solid w) :
    Solid (r.text s.escape) :=
  solid_unwords (Row.shown_ne_nil hne) (Row.solid_shown hr)

theorem paragraphLines_eq_breakWords (s : Settings) (hwidth : 0 < cols.width) (t : Text) :
    paragraphLines s cols t
      = (breakWords s.measure.of s.escape cols [] cols.first (s.words t)).map unwords := by
  obtain ⟨rows, hfilled, heq⟩ :=
    exists_breakWords s.measure.of s.escape cols [] cols.first (s.words t)
  rw [nil_append] at hfilled
  have htrim : ∀ r ∈ rows, s.trim (unwords (r.shown s.escape)) = r.text s.escape := by
    intro r hr
    have hwords : ∀ w ∈ r.words, Solid w := fun w hw =>
      s.solid_words t w (hfilled.words_eq ▸ mem_flatMap.2 ⟨r, hr, hw⟩)
    have hsolid : Solid (r.text s.escape) := Row.solid_text (hfilled.ne_nil r hr) hwords
    unfold Settings.trim
    split
    · exact strip_of_solid hsolid
    · rfl
  unfold paragraphLines
  rw [if_neg (by omega)]
  show (breakWords s.measure.of s.escape cols [] cols.first (s.words t)).map _ = _
  rw [heq, map_map, map_map]
  exact map_congr_left htrim

/-- **A filled paragraph.** Its lines are the rows of its words. -/
theorem paragraphLines_eq (s : Settings) (hwidth : 0 < cols.width) (t : Text) :
    ∃ rows, Filled rows (s.words t) ∧ paragraphLines s cols t = rows.map (Row.text s.escape) := by
  obtain ⟨rows, hfilled, heq⟩ :=
    exists_breakWords s.measure.of s.escape cols [] cols.first (s.words t)
  refine ⟨rows, hfilled, ?_⟩
  rw [paragraphLines_eq_breakWords s hwidth, heq, map_map]
  rfl

theorem Row.text_of_plain (hs : s.markdown = false) (r : Row) :
    r.text s.escape = unwords r.words := by
  obtain ⟨ws, wrapped⟩ := r
  cases wrapped with
  | false => rfl
  | true => cases ws <;> simp [Row.text, Row.shown, escapeHead, Settings.escape, hs]

variable {rows : List Row}

theorem keeps_rows (hne : ∀ r ∈ rows, r.words ≠ []) :
    Respaced KeepsGap (unwords (rows.flatMap Row.words))
      (unlines (rows.map fun r => unwords r.words)) := by
  have hflat : unwords (rows.flatMap Row.words) = unwords (rows.map fun r => unwords r.words) := by
    rw [flatMap_def, unwords, joinWith_flatten (by simpa using hne), map_map]
    rfl
  rw [hflat]
  refine Respaced.joinWith ?_ (by simp) (by simp) fun x y x' y' _ => by simp
  exact forall₂_same.2 fun t _ => .refl KeepsGap.refl t

/-! ## Sentence by sentence -/

/-- How the lines of a sentence are filled. -/
def SentenceSettings.filling (s : SentenceSettings) : Settings := { markdown := s.markdown }

theorem filling_words (s : SentenceSettings) (t : Text) : s.filling.words t = lineWords t := rfl

/-- The rows hold the words of the sentences in order, and none is empty. The first line is not
wrapped, and every other line that is not wrapped starts with the first word of a later sentence. -/
structure Laid (s : SentenceSettings) (sentences : List Text) (rows : List Row) : Prop where
  words_eq : rows.flatMap Row.words = sentences.flatMap s.filling.words
  ne_nil : ∀ r ∈ rows, r.words ≠ []
  head : ∀ r ∈ rows.head?, r.wrapped = false
  own : ∀ r ∈ rows.tail, r.wrapped = false →
    ∃ t ∈ sentences.tail, (s.filling.words t).head? = r.words.head?

theorem Laid.of_filled {s : SentenceSettings} (h : Filled rows (s.filling.words t)) :
    Laid s [t] rows := by
  refine ⟨by simpa using h.words_eq, h.ne_nil, h.head, fun r hr hwrapped => ?_⟩
  rw [h.tail r hr] at hwrapped
  simp at hwrapped

theorem Laid.append {s : SentenceSettings} {more : List Row} (h : Laid s sentences rows)
    (hrows : rows ≠ []) (hsentences : sentences ≠ []) (hmore : Filled more (s.filling.words t)) :
    Laid s (sentences ++ [t]) (rows ++ more) := by
  refine ⟨by simp [h.words_eq, hmore.words_eq], ?_, ?_, ?_⟩
  · intro r hr
    rcases mem_append.1 hr with hr | hr
    · exact h.ne_nil r hr
    · exact hmore.ne_nil r hr
  · rw [head?_append_of_ne_nil _ hrows]
    exact h.head
  · rw [tail_append_of_ne_nil hrows, tail_append_of_ne_nil hsentences]
    intro r hr hwrapped
    rcases mem_append.1 hr with hr | hr
    · obtain ⟨u, hu, heq⟩ := h.own r hr hwrapped
      exact ⟨u, mem_append_left _ hu, heq⟩
    · -- of the new rows only the first is not wrapped
      refine ⟨t, by simp, ?_⟩
      cases more with
      | nil => simp at hr
      | cons r' more =>
        rcases mem_cons.1 hr with rfl | hr
        · obtain ⟨w, ws, hw⟩ := exists_cons_of_ne_nil (hmore.ne_nil r (by simp))
          rw [← hmore.words_eq, flatMap_cons, hw]
          rfl
        · rw [hmore.tail r (by simpa using hr)] at hwrapped
          simp at hwrapped

/-- The first row of the next sentence goes on the last row. -/
theorem Laid.merge {s : SentenceSettings} {more : List Row} {last first : Row}
    (h : Laid s sentences (rows ++ [last])) (hmore : Filled (first :: more) (s.filling.words t)) :
    Laid s (sentences ++ [t]) (rows ++ ⟨last.words ++ first.words, last.wrapped⟩ :: more) := by
  have hlast := h.ne_nil last (by simp)
  refine ⟨?_, ?_, ?_, ?_⟩
  · have h₁ := h.words_eq
    have h₂ := hmore.words_eq
    simp only [flatMap_append, flatMap_cons, flatMap_nil, append_nil] at h₁ h₂ ⊢
    rw [← h₁, ← h₂]
    simp
  · intro r hr
    rcases mem_append.1 hr with hr | hr
    · exact h.ne_nil r (by simp [hr])
    · rcases mem_cons.1 hr with rfl | hr
      · simp [hlast]
      · exact hmore.ne_nil r (by simp [hr])
  · cases rows with
    | nil => simpa using h.head
    | cons r rows => simpa using h.head
  · have hmem : ∀ r ∈ (rows ++ [last]).tail, r.wrapped = false →
        ∃ u ∈ (sentences ++ [t]).tail, (s.filling.words u).head? = r.words.head? := by
      intro r hr hwrapped
      obtain ⟨u, hu, heq⟩ := h.own r hr hwrapped
      refine ⟨u, ?_, heq⟩
      cases sentences with
      | nil => simp at hu
      | cons v vs => simpa using .inl (by simpa using hu)
    -- the rows after the merged one are wrapped, so that one starts as the last row did
    have hafter : ∀ r ∈ more, r.wrapped := hmore.tail
    intro r hr hwrapped
    cases rows with
    | nil =>
      rw [hafter r hr] at hwrapped
      simp at hwrapped
    | cons r' rows =>
      rcases mem_append.1 hr with hr | hr
      · exact hmem r (by simp [hr]) hwrapped
      · rcases mem_cons.1 hr with rfl | hr
        · obtain ⟨u, hu, heq⟩ := hmem last (by simp) hwrapped
          refine ⟨u, hu, ?_⟩
          rw [heq, head?_append_of_ne_nil _ hlast]
        · rw [hafter r hr] at hwrapped
          simp at hwrapped

theorem Row.text_append {last first : Row} (hlast : last.words ≠ []) (hfirst : first.words ≠ [])
    (hwrapped : first.wrapped = false) :
    last.text escape ++ [' '] ++ first.text escape
      = Row.text escape ⟨last.words ++ first.words, last.wrapped⟩ := by
  have hshown : Row.shown escape ⟨last.words ++ first.words, last.wrapped⟩
      = last.shown escape ++ first.shown escape := by
    obtain ⟨ws, wrapped⟩ := last
    obtain ⟨w, ws, rfl⟩ := exists_cons_of_ne_nil hlast
    cases wrapped <;> simp [Row.shown, escapeHead, hwrapped]
  rw [Row.text, Row.text, Row.text, hshown, unwords, unwords, unwords,
    joinWith_append (Row.shown_ne_nil hlast) (Row.shown_ne_nil hfirst)]

theorem SentenceSettings.sentenceLines_eq (s : SentenceSettings) (hwidth : 0 < s.width)
    (column later : Int) (t : Text) :
    ∃ rows, Filled rows (s.filling.words t) ∧
      s.sentenceLines column later t = rows.map (Row.text s.filling.escape) := by
  have hcols : 0 < (⟨s.width, column, later⟩ : Columns).width := hwidth
  exact paragraphLines_eq s.filling hcols t

theorem Filled.ne_nil_of_solid (h : Filled rows (s.words t)) (ht : Solid t) : rows ≠ [] := by
  rintro rfl
  exact s.words_ne_nil ht h.words_eq.symm

/-- **One more sentence.** Adding a sentence to lines that are laid leaves them laid. -/
theorem SentenceSettings.addSentence_eq (s : SentenceSettings) (hwidth : 0 < s.width)
    (start later : Int) (h : Laid s sentences rows) (hrows : rows ≠ [])
    (hsentences : sentences ≠ []) (ht : Solid t) :
    ∃ rows', rows' ≠ [] ∧ Laid s (sentences ++ [t]) rows' ∧
      s.addSentence start later (rows.map (Row.text s.filling.escape)) t
        = rows'.map (Row.text s.filling.escape) := by
  obtain ⟨rows, last, rfl⟩ : ∃ rs r, rows = rs ++ [r] := by
    rcases eq_nil_or_concat' rows with rfl | h
    · exact absurd rfl hrows
    · exact h
  unfold SentenceSettings.addSentence
  simp only [map_append, map_cons, map_nil, getLast?_append,
    getLast?_singleton, Option.some_or, dropLast_concat]
  generalize (if s.isShort (last.text s.filling.escape) = true then
    start + s.measure.of (last.text s.filling.escape) else start) = column
  obtain ⟨more, hmore, heq⟩ := s.sentenceLines_eq hwidth column later t
  obtain ⟨first, more, rfl⟩ := exists_cons_of_ne_nil (hmore.ne_nil_of_solid ht)
  rw [heq, map_cons, SentenceSettings.joinLines]
  split
  · refine ⟨_, by simp, h.merge hmore, ?_⟩
    rw [Row.text_append (h.ne_nil last (by simp)) (hmore.ne_nil first (by simp))
      (hmore.head first rfl)]
    simp
  · exact ⟨_, by simp, h.append hrows hsentences hmore, by simp⟩

/-- **All sentences.** The lines of a text are laid. -/
theorem SentenceSettings.lines_eq (s : SentenceSettings) (hwidth : 0 < s.width)
    (first later : Int) (t : Text) :
    ∃ rows, Laid s (s.splitter.split t) rows ∧
      s.lines first later t = rows.map (Row.text s.filling.escape) := by
  have hsolid := s.splitter.solid_split t
  -- every sentence after the first is one more step
  have hrun : ∀ (rest sentences : List Text) (rows : List Row), (∀ u ∈ rest, Solid u) →
      Laid s sentences rows → rows ≠ [] → sentences ≠ [] →
      ∃ rows', Laid s (sentences ++ rest) rows' ∧
        rest.foldl (s.addSentence later later) (rows.map (Row.text s.filling.escape))
          = rows'.map (Row.text s.filling.escape) := by
    intro rest
    induction rest with
    | nil =>
      intro sentences rows _ h _ _
      exact ⟨rows, by simpa using h, rfl⟩
    | cons u rest ih =>
      intro sentences rows hrest h hrows hsentences
      obtain ⟨rows', hne, h', heq⟩ :=
        s.addSentence_eq hwidth later later h hrows hsentences (hrest u (by simp))
      rw [foldl_cons, heq]
      simpa using ih _ rows' (fun v hv => hrest v (by simp [hv])) h' hne (by simp)
  unfold SentenceSettings.lines
  split
  · next hnil => exact ⟨[], by rw [hnil]; exact ⟨rfl, by simp, by simp, by simp⟩, rfl⟩
  · next u rest hcons =>
    rw [hcons] at hsolid ⊢
    obtain ⟨rows, hfilled, heq⟩ := s.sentenceLines_eq hwidth first later u
    have hne := hfilled.ne_nil_of_solid (hsolid u (by simp))
    have hstart : s.addSentence first later [] u = rows.map (Row.text s.filling.escape) := by
      simpa [SentenceSettings.addSentence] using heq
    rw [hstart]
    exact hrun rest [u] rows (fun v hv => hsolid v (by simp [hv])) (.of_filled hfilled) hne
      (by simp)

/-- Where no line is ever short, a sentence has lines of its own. -/
theorem SentenceSettings.addSentence_of_minLineLength_nonpos (s : SentenceSettings)
    (hwidth : 0 < s.width) (hmin : s.minLineLength ≤ 0) (start later : Int) (lines : List Text)
    {u : Text} (hu : Solid u) :
    s.addSentence start later lines u = lines ++ s.sentenceLines start later u := by
  have hshort : ∀ line, s.isShort line = false := by
    simp only [SentenceSettings.isShort, decide_eq_false_iff_not]
    omega
  unfold SentenceSettings.addSentence
  rcases eq_nil_or_concat' lines with rfl | ⟨init, last, rfl⟩
  · rfl
  · obtain ⟨rows, hfilled, heq⟩ := s.sentenceLines_eq hwidth start later u
    obtain ⟨r, rows, rfl⟩ := exists_cons_of_ne_nil (hfilled.ne_nil_of_solid hu)
    simp [hshort, heq, SentenceSettings.joinLines]

theorem SentenceSettings.foldl_addSentence_of_minLineLength_nonpos (s : SentenceSettings)
    (hwidth : 0 < s.width) (hmin : s.minLineLength ≤ 0) (later : Int) {rest : List Text}
    (hrest : ∀ u ∈ rest, Solid u) (lines : List Text) :
    rest.foldl (s.addSentence later later) lines
      = lines ++ rest.flatMap (s.sentenceLines later later) := by
  induction rest generalizing lines with
  | nil => simp
  | cons u rest ih =>
    rw [foldl_cons,
      s.addSentence_of_minLineLength_nonpos hwidth hmin later later lines (hrest u (by simp)),
      ih fun v hv => hrest v (by simp [hv])]
    simp

theorem SentenceSettings.lines_of_minLineLength_nonpos (s : SentenceSettings)
    (hwidth : 0 < s.width) (hmin : s.minLineLength ≤ 0) (later : Int) (t : Text) :
    s.lines later later t = (s.splitter.split t).flatMap (s.sentenceLines later later) := by
  have hsolid := s.splitter.solid_split t
  unfold SentenceSettings.lines
  split
  · next hnil => rw [hnil]; rfl
  · next u rest hcons =>
    rw [hcons] at hsolid ⊢
    rw [s.foldl_addSentence_of_minLineLength_nonpos hwidth hmin later
        (fun v hv => hsolid v (by simp [hv])),
      s.addSentence_of_minLineLength_nonpos hwidth hmin later later [] (hsolid u (by simp))]
    simp

/-! ## The laid-out text -/

theorem Settings.escape_of_plain {s : Settings} (hs : s.markdown = false) : s.escape = id := by
  funext w
  simp [Settings.escape, hs]

theorem Indents.apply_empty (ls : List Text) : Indents.apply {} ls = ls := by
  cases ls with
  | nil => rfl
  | cons l ls => simp [Indents.apply]

theorem Indents.exists_of_mem_apply {i : Indents} {ls : List Text} {l : Text} (h : l ∈ i.apply ls) :
    ∃ m ∈ ls, l = i.first ++ m ∨ l = i.later ++ m := by
  cases ls with
  | nil => simp [Indents.apply] at h
  | cons m ms =>
    rcases mem_cons.1 h with rfl | h
    · exact ⟨m, by simp, .inl rfl⟩
    · obtain ⟨n, hn, rfl⟩ := mem_map.1 h
      exact ⟨n, by simp [hn], .inr rfl⟩

theorem paragraphAt_eq (s : Settings) (width column : Int) (t : Text) :
    paragraphAt s width column {} t
      = rejoin (unlines (paragraphLines s ⟨width, column, 0⟩ t)) := by
  simp [paragraphAt, Indents.apply_empty]

theorem newline_mem_rejoin_iff {p : Nat} : '\n' ∈ gapAt (rejoin t) p ↔ '\n' ∈ gapAt t p := by
  rcases gapAt_rejoin t p with h | ⟨h, h'⟩
  · rw [h]
  · rw [h, h']
    simp

theorem newline_not_mem_rejoin (ht : '\n' ∉ t) : '\n' ∉ rejoin t := by
  intro h
  obtain ⟨a, b, hab⟩ := append_of_mem h
  have hgap : '\n' ∈ gapAt (rejoin t) (visible a).length := by
    rw [hab]
    exact mem_gapAt_of_append isBlank_newline
  exact ht (mem_gapAt (newline_mem_rejoin_iff.1 hgap)).2

/-- The text with spaces for line feeds. -/
def flat (t : Text) : Text := t.map fun c => if c = '\n' then ' ' else c

theorem flat_of_no_newline (ht : '\n' ∉ t) : flat t = t := by
  refine (map_congr_left fun c hc => ?_).trans (map_id t)
  have hne : c ≠ '\n' := by
    rintro rfl
    exact ht hc
  simp [hne]

theorem fillBySentence_eq (s : SentenceSettings) (t : Text) :
    fillBySentence s t {}
      = if s.width ≤ 0 then unwords (words (flat t))
        else rejoin (unlines (s.lines 0 0 (flat t))) := by
  simp [fillBySentence, flat, Indents.apply_empty]

theorem isBlank_flat (c : Char) : isBlank (if c = '\n' then ' ' else c) = isBlank c := by
  split
  · next h => rw [h, isBlank_space, isBlank_newline]
  · rfl

theorem visible_flat (t : Text) : visible (flat t) = visible t := by
  induction t with
  | nil => rfl
  | cons c t ih =>
    rcases Bool.eq_false_or_eq_true (isBlank c) with hc | hc
    · rw [visible_cons_of_blank hc, flat, map_cons,
        visible_cons_of_blank ((isBlank_flat c).trans hc), ← ih, flat]
    · have hne : c ≠ '\n' := by
        rintro rfl
        simp at hc
      rw [visible_cons_of_visible hc, flat, map_cons, if_neg hne,
        visible_cons_of_visible hc, ← ih, flat]

theorem gapAt_flat (t : Text) (i : Nat) : gapAt (flat t) i = flat (gapAt t i) := by
  induction t generalizing i with
  | nil => simp [flat]
  | cons c t ih =>
    rw [flat, map_cons, ← flat]
    cases i with
    | zero =>
      rw [gapAt, gapAt, isBlank_flat, ih 0]
      split <;> rfl
    | succ i => rw [gapAt, gapAt, isBlank_flat, ih (i + 1), ih i, apply_ite flat]

theorem keeps_flat (t : Text) : Respaced KeepsGap t (flat t) := by
  refine ⟨(visible_flat t).symm, fun i _ _ hne => ?_⟩
  rw [gapAt_flat]
  simpa [flat] using hne

theorem unlines_paragraphLines_of_nonpos (s : Settings) (h : cols.width ≤ 0) (t : Text) :
    unlines (paragraphLines s cols t) = s.trim (s.prepare t) := by
  unfold paragraphLines
  rw [if_pos h]
  cases s.trim (s.prepare t) <;> rfl

theorem keeps_paragraphLines (hs : s.markdown = false) (cols : Columns) (t : Text) :
    Respaced KeepsGap t (unlines (paragraphLines s cols t)) := by
  rcases Int.lt_or_le 0 cols.width with hwidth | hwidth
  · obtain ⟨rows, hfilled, heq⟩ := paragraphLines_eq s hwidth t
    have htext : rows.map (Row.text s.escape) = rows.map fun r => unwords r.words :=
      map_congr_left fun r _ => Row.text_of_plain hs r
    rw [heq, htext]
    refine (s.keeps_words t).trans KeepsGap.trans ?_
    rw [← hfilled.words_eq]
    exact keeps_rows hfilled.ne_nil
  · have htrim : Respaced KeepsGap t (s.trim (s.prepare t)) := by
      refine (s.keeps_prepare t).trans KeepsGap.trans ?_
      unfold Settings.trim
      split
      · exact (Respaced.to_stripLeft KeepsGap.refl _).trans KeepsGap.trans
          (.to_stripRight KeepsGap.refl _)
      · exact .refl KeepsGap.refl _
    rwa [unlines_paragraphLines_of_nonpos s hwidth]

theorem SentenceSettings.keeps_words (s : SentenceSettings) (t : Text) :
    Respaced KeepsGap t (unwords ((s.splitter.split t).flatMap s.filling.words)) := by
  have hflat : unwords ((s.splitter.split t).flatMap s.filling.words)
      = unwords ((s.splitter.split t).map fun u => unwords (s.filling.words u)) := by
    rw [flatMap_def, unwords, joinWith_flatten ?_, map_map]
    · rfl
    · intro ws hws
      obtain ⟨u, hu, rfl⟩ := mem_map.1 hws
      exact s.filling.words_ne_nil (s.splitter.solid_split t u hu)
  rw [hflat]
  refine (s.splitter.keeps_split t).trans KeepsGap.trans ?_
  refine Respaced.joinWith ?_ (by simp) (by simp) fun x y x' y' _ => by simp
  rw [forall₂_map_right_iff]
  exact forall₂_same.2 fun u _ => s.filling.keeps_words u

theorem SentenceSettings.keeps_lines {s : SentenceSettings} (hs : s.markdown = false)
    (hwidth : 0 < s.width) (first later : Int) (t : Text) :
    Respaced KeepsGap t (unlines (s.lines first later t)) := by
  obtain ⟨rows, hlaid, heq⟩ := s.lines_eq hwidth first later t
  have htext : rows.map (Row.text s.filling.escape) = rows.map fun r => unwords r.words :=
    map_congr_left fun r _ => Row.text_of_plain hs r
  rw [heq, htext]
  refine (s.keeps_words t).trans KeepsGap.trans ?_
  rw [← hlaid.words_eq]
  exact keeps_rows hlaid.ne_nil

end Reflow.Wrap
