import Reflow.Proofs.GreedyLines
import Reflow.Proofs.Refilling

/-!
Wrapping wrapped lines again, with words between blanks.

Such a word holds no blank, so the words of the written lines are the words that were put on them
(`words_unlines_unwords`), backslashes included. They are broken where they were: a backslash makes
the first word of a line longer, and that word had not fitted on the line before as it was. What the
lines show is steady in its own right (`breakWords_id`): without escaping the same lines come out, so
no break depends on a backslash that has yet to be written.
-/

open List

namespace Reflow.Text

/-! ## Words of written lines -/

/-- A word between blanks. -/
def Unbroken (w : Text) : Prop := w ≠ [] ∧ ∀ c ∈ w, isBlank c = false

theorem unbroken_of_mem_words {t w : Text} (h : w ∈ words t) : Unbroken w :=
  Atomic.visible_of_mem_words h

theorem words_unwords_append {ws : List Text} {t : Text} (hws : ∀ w ∈ ws, Unbroken w)
    (ht : ∀ c ∈ t.head?, isBlank c) : words (unwords ws ++ t) = ws ++ words t := by
  induction ws with
  | nil => rfl
  | cons w ws ih =>
    obtain ⟨hne, hw⟩ := hws w (by simp)
    have ih := ih fun v hv => hws v (by simp [hv])
    cases ws with
    | nil => exact words_append_of_visible hne hw ht
    | cons v vs =>
      have hsplit : unwords (w :: v :: vs) ++ t = w ++ ' ' :: (unwords (v :: vs) ++ t) := by
        simp [unwords, joinWith]
      rw [hsplit, words_append_of_visible hne hw (by simp [isBlank_space]),
        words_cons_of_blank isBlank_space, ih]
      rfl

/-- The words of written lines are the words on the lines. -/
theorem words_unlines_unwords {rows : List (List Text)} (h : ∀ r ∈ rows, ∀ w ∈ r, Unbroken w) :
    words (unlines (rows.map unwords)) = rows.flatten := by
  induction rows with
  | nil => rfl
  | cons r rows ih =>
    have hr := h r (by simp)
    have ih := ih fun q hq => h q (by simp [hq])
    cases rows with
    | nil =>
      have hone := words_unwords_append (t := []) hr (by simp)
      simpa [unlines, joinWith, words] using hone
    | cons q rows =>
      have hsplit : unlines ((r :: q :: rows).map unwords)
          = unwords r ++ '\n' :: unlines ((q :: rows).map unwords) := by
        simp [unlines, joinWith]
      rw [hsplit, words_unwords_append hr (by simp [isBlank_newline]),
        words_cons_of_blank isBlank_newline, ih]
      rfl

end Reflow.Text

namespace Reflow.Wrap

open Text

variable {w : Text}

/-! ## Escaped words -/

theorem unbroken_escapeWord (hw : Unbroken w) : Unbroken (escapeWord w) := by
  have hsolid : Solid w := solid_of_visible hw.1 hw.2
  refine ⟨(solid_escapeWord hsolid).ne_nil, fun c hc => ?_⟩
  rcases escapeWord_cases hsolid with h | ⟨_, a, b, rfl, _, h⟩
  · exact hw.2 c (h ▸ hc)
  · rw [h] at hc
    rcases mem_append.1 hc with hc | hc
    · exact hw.2 c (by simp [hc])
    · rcases mem_cons.1 hc with rfl | hc
      · decide
      · exact hw.2 c (by simp [hc])

theorem Settings.unbroken_escape (s : Settings) (hw : Unbroken w) : Unbroken (s.escape w) := by
  unfold Settings.escape
  split
  · exact unbroken_escapeWord hw
  · exact hw

theorem Settings.escape_again (s : Settings) (hw : Unbroken w) :
    s.measure.of w ≤ s.measure.of (s.escape w) ∧ s.escape (s.escape w) = s.escape w := by
  unfold Settings.escape
  split
  · exact escapeWord_again s.measure (solid_of_visible hw.1 hw.2)
  · exact ⟨Nat.le_refl _, rfl⟩

/-! ## Lines that need no escaping -/

section Breaking

variable {size : Text → Nat} {escape : Text → Text} {cols : Columns}

/-- **Where escaping changes no word, it changes no line.** -/
theorem breakWords_id {current : List Text} {column : Int} {ws : List Text}
    (h : (breakWords size escape cols current column ws).flatten = current ++ ws) :
    breakWords size id cols current column ws = breakWords size escape cols current column ws := by
  fun_induction breakWords size escape cols current column ws with
  | case1 current column hnil => rw [breakWords, if_pos hnil]
  | case2 current column hcurrent => rw [breakWords, if_neg hcurrent]
  | case3 current column w rest space hfits ih =>
    rw [breakWords, if_pos hfits]
    exact ih (by simpa using h)
  | case4 current column w rest space hfits hnil ih =>
    obtain rfl : current = [] := by simpa using hnil
    rw [breakWords, if_neg hfits, if_pos hnil]
    exact ih h
  | case5 current column w rest space hfits hnil ih =>
    -- the next line starts with the escaped word, which therefore is the word itself
    have hrest : (breakWords size escape cols [escape w] (cols.later + size (escape w)) rest).flatten
        = w :: rest := by simpa using h
    have hw : escape w = w := by
      cases hrows : breakWords size escape cols [escape w] (cols.later + size (escape w)) rest with
      | nil => simp [hrows] at hrest
      | cons r rows =>
        obtain ⟨more, rfl⟩ : [escape w] <+: r :=
          head?_breakWords (by simp) _ rest r (by rw [hrows]; rfl)
        simp only [hrows, flatten_cons, cons_append, cons.injEq] at hrest
        exact hrest.1
    have ih := ih (by rw [hrest, hw]; rfl)
    rw [breakWords, if_neg hfits, if_neg hnil, id, ← ih, hw]

end Breaking

/-! ## Main result -/

/-- **Wrapped lines stay.** For every text, all columns, both measures, with and without escapes:
where words are what stands between blanks, wrapping the written lines again gives the same lines.
The words of these lines are those of the text, and the first of each line but the first is escaped.
The second time no escape is needed: the same lines come out with escaping turned off. -/
theorem plain_wrapping_again {s : Settings} (hs : s.splitter = .plain) {cols : Columns}
    (hwidth : 0 < cols.width) (t : Text) :
    paragraphLines s cols (unlines (paragraphLines s cols t)) = paragraphLines s cols t ∧
      paragraphLines { s with markdown := false } cols (unlines (paragraphLines s cols t))
        = paragraphLines s cols t ∧
      ∃ rows, Filled rows (words t) ∧
        words (unlines (paragraphLines s cols t)) = rows.flatMap (Row.shown s.escape) := by
  obtain ⟨rows, hfilled, hrows⟩ :=
    exists_breakWords s.measure.of s.escape cols [] cols.first (words t)
  rw [nil_append] at hfilled
  have hlines : paragraphLines s cols t = (rows.map (Row.shown s.escape)).map unwords := by
    rw [paragraphLines_eq_breakWords s hwidth, s.words_of_plain hs, hrows]
  have hunbroken : ∀ r ∈ rows.map (Row.shown s.escape), ∀ w ∈ r, Unbroken w := by
    intro r hr
    obtain ⟨q, hq, rfl⟩ := mem_map.1 hr
    refine Row.forall_shown (fun _ => s.unbroken_escape) fun w hw => ?_
    refine unbroken_of_mem_words (t := t) ?_
    rw [← hfilled.words_eq]
    exact mem_flatMap.2 ⟨q, hq, hw⟩
  have hwords : words (unlines (paragraphLines s cols t))
      = (rows.map (Row.shown s.escape)).flatten := by
    rw [hlines, words_unlines_unwords hunbroken]
  -- the rows are a run of themselves, and a run is broken as it was
  have hagain : breakWords s.measure.of s.escape cols [] cols.first
      (rows.map (Row.shown s.escape)).flatten = rows.map (Row.shown s.escape) := by
    have hall : breakWords s.measure.of s.escape cols [] cols.first (words t)
        = [] ++ rows.map (Row.shown s.escape) ++ [] := by simpa using hrows
    exact breakWords_run (fun w hw => s.escape_again (unbroken_of_mem_words hw)) hall (by simp)
  refine ⟨?_, ?_, rows, hfilled, by rw [hwords, flatMap_def]⟩
  · rw [paragraphLines_eq_breakWords s hwidth, s.words_of_plain hs, hwords, hagain, hlines]
  · have hid : breakWords s.measure.of id cols [] cols.first
        (rows.map (Row.shown s.escape)).flatten = rows.map (Row.shown s.escape) :=
      (breakWords_id (by rw [hagain, nil_append])).trans hagain
    have hplain : ({ s with markdown := false } : Settings).splitter = .plain := hs
    rw [paragraphLines_eq_breakWords _ hwidth, Settings.words_of_plain hplain,
      Settings.escape_of_plain rfl, hwords, hid, hlines]

/-- A first word that does not fit, and marks of all kinds at the starts of lines. -/
theorem marks_wrapped_again :
    let s : Settings := { splitter := .plain, measure := .utf8Bytes, markdown := true }
    let cols : Columns := { width := 6, first := 2, later := 1 }
    let rows := ["énorme".toList, "\\- so".toList, "10\\.".toList, "\\## b".toList]
    paragraphLines s cols " énorme - so\n10. ##  b".toList = rows ∧
      paragraphLines s cols (unlines rows) = rows ∧
      paragraphLines { s with markdown := false } cols (unlines rows) = rows := by
  intro s cols rows
  have hrows : paragraphLines s cols " énorme - so\n10. ##  b".toList = rows := by decide +kernel
  obtain ⟨hagain, hplain, -⟩ := @plain_wrapping_again s rfl cols (by decide)
    " énorme - so\n10. ##  b".toList
  rw [hrows] at hagain hplain
  exact ⟨hrows, hagain, hplain⟩

end Reflow.Wrap
