import Reflow.Proofs.Filling

/-!
Filled lines fit, and there are no fewer that do.

Filling is never behind: a line that is filled takes at least the words that the first line of any
other `Fitting` way takes, and what is left can be put on as few lines as before, since words may be
dropped from the front of a way that fits (`Fitting.drop`).
-/

open List

namespace Reflow.Measure

open Text

variable (m : Measure)

/-! ## The width of words on a line -/

theorem ofChar_space : m.ofChar ' ' = 1 := by
  cases m <;> rfl

theorem of_le_of_isInfix {s t : Text} (h : s <:+: t) : m.of s ≤ m.of t := by
  obtain ⟨a, b, rfl⟩ := h
  rw [of_append, of_append]
  omega

theorem of_pos {t : Text} (h : t ≠ []) : 0 < m.of t := by
  obtain ⟨c, t, rfl⟩ := exists_cons_of_ne_nil h
  have hc : 0 < m.ofChar c := by
    cases m with
    | codePoints => exact Nat.one_pos
    | utf8Bytes => exact c.utf8Size_pos
  rw [Measure.of_cons]
  omega

theorem of_unwords_le (us vs ws : List Text) :
    m.of (unwords vs) ≤ m.of (unwords (us ++ vs ++ ws)) :=
  m.of_le_of_isInfix (joinWith_isInfix [' '] us vs ws)

theorem of_unwords_concat (ws : List Text) (w : Text) :
    (m.of (unwords (ws ++ [w])) : Int)
      = m.of (unwords ws) + (m.of w + if ws.isEmpty then 0 else 1) := by
  by_cases hws : ws = []
  · subst hws
    simp [unwords, joinWith]
  · have hempty : ws.isEmpty = false := by simpa using hws
    rw [unwords, joinWith_append hws (by simp), of_append, of_append, hempty]
    simp only [of_cons, of_nil, ofChar_space, joinWith, unwords]
    simp only [Bool.false_eq_true, if_false]
    omega

end Reflow.Measure

namespace Reflow.Wrap

open Text

/-! ## What is known of the lines that words are put on -/

section Breaking

variable {m : Measure} {escape : Text → Text} {cols : Columns}

theorem breakWords_of_fits (start : Int) {current : List Text} {column : Int} {ws : List Text}
    (hcolumn : column = start + m.of (unwords current)) (hne : current ++ ws ≠ [])
    (hfits : start + m.of (unwords (current ++ ws)) ≤ cols.width) :
    breakWords m.of escape cols current column ws = [current ++ ws] := by
  induction ws generalizing current column with
  | nil =>
    rw [append_nil] at hne ⊢
    simp [breakWords, hne]
  | cons w ws ih =>
    -- the words up to `w` are some of those that fit
    have hpart := m.of_unwords_le [] (current ++ [w]) ws
    have hconcat := m.of_unwords_concat current w
    simp only [nil_append, append_assoc, singleton_append] at hpart
    rw [breakWords, if_pos (by omega), ih (by omega) (by simp) (by simpa using hfits)]
    simp

/-- **Lines fit.** A line of two or more words does not reach beyond the width, if the first line does
not start further to the left than the others. -/
theorem fits_of_mem_breakWords {current : List Text} {column : Int} {ws : List Text}
    (hcolumn : cols.later + m.of (unwords current) ≤ column)
    (hcurrent : column ≤ cols.width ∨ current.length ≤ 1) {r : List Text}
    (hr : r ∈ breakWords m.of escape cols current column ws) :
    r.length ≤ 1 ∨ cols.later + m.of (unwords r) ≤ cols.width := by
  have hclosed : current.length ≤ 1 ∨ cols.later + m.of (unwords current) ≤ cols.width := by
    rcases hcurrent with h | h
    · omega
    · exact .inl h
  fun_induction breakWords m.of escape cols current column ws with
  | case1 => simp at hr
  | case2 current column _ =>
    obtain rfl : r = current := by simpa using hr
    exact hclosed
  | case3 current column w rest space hfits ih =>
    -- the column is where the line ends, as long as the words fit
    have hconcat := m.of_unwords_concat current w
    refine ih ?_ (.inl ?_) hr (.inr ?_)
    all_goals
      simp only [space] at hfits ⊢
      omega
  | case4 current column w rest space hfits hnil ih =>
    exact ih (by simp [unwords, joinWith]) (.inr (by simp)) hr (.inl (by simp))
  | case5 current column w rest space hfits hnil ih =>
    rcases mem_cons.1 hr with rfl | hr
    · exact hclosed
    · exact ih (by simp [unwords, joinWith]) (.inr (by simp)) hr (.inl (by simp))

end Breaking

/-! ## Ways to put words on lines -/

/-- A way to put words on lines that start at `column`: the words stay in order, no line is empty, and
a line of two or more words does not reach beyond the width. -/
structure Fitting (m : Measure) (width column : Int) (ws : List Text) (rows : List (List Text)) :
    Prop where
  flatten_eq : rows.flatten = ws
  ne_nil : ∀ r ∈ rows, r ≠ []
  fits : ∀ r ∈ rows, 2 ≤ r.length → column + m.of (unwords r) ≤ width

namespace Fitting

variable {m : Measure} {width column : Int} {ws : List Text} {rows : List (List Text)}

theorem of_cons {r : List Text} (h : Fitting m width column ws (r :: rows)) :
    Fitting m width column rows.flatten rows :=
  ⟨rfl, fun q hq => h.ne_nil q (by simp [hq]), fun q hq => h.fits q (by simp [hq])⟩

theorem tail {w : Text} (h : Fitting m width column (w :: ws) rows) :
    ∃ rows', Fitting m width column ws rows' ∧ rows'.length ≤ rows.length := by
  cases rows with
  | nil => exact absurd h.flatten_eq (by simp)
  | cons r rows =>
    obtain ⟨v, r, rfl⟩ := exists_cons_of_ne_nil (h.ne_nil r (by simp))
    obtain ⟨rfl, rfl⟩ : v = w ∧ r ++ rows.flatten = ws := by simpa using h.flatten_eq
    by_cases hr : r = []
    · subst hr
      exact ⟨rows, h.of_cons, by simp⟩
    · refine ⟨r :: rows, ⟨by simp, ?_, ?_⟩, by simp⟩
      · intro q hq
        rcases mem_cons.1 hq with rfl | hq
        · exact hr
        · exact h.ne_nil q (by simp [hq])
      · intro q hq hlen
        rcases mem_cons.1 hq with rfl | hq
        · have hwhole := h.fits (v :: q) (by simp) (by simp only [length_cons]; omega)
          have hpart := m.of_unwords_le [v] q []
          simp only [append_nil, singleton_append] at hpart
          omega
        · exact h.fits q (by simp [hq]) hlen

/-- **Words may be dropped from the front.** What is left does not need more lines. -/
theorem drop {vs : List Text} (h : Fitting m width column (vs ++ ws) rows) :
    ∃ rows', Fitting m width column ws rows' ∧ rows'.length ≤ rows.length := by
  induction vs generalizing rows with
  | nil => exact ⟨rows, h, Nat.le_refl _⟩
  | cons v vs ih =>
    obtain ⟨rows₁, h₁, hlen₁⟩ := h.tail
    obtain ⟨rows₂, h₂, hlen₂⟩ := ih h₁
    exact ⟨rows₂, h₂, by omega⟩

/-- The first line ends before a word that does not fit on it, so that word and all after it are
left for the other lines. -/
theorem of_overfull {current rest : List Text} {w : Text} (hcurrent : current ≠ [])
    (hover : width < column + m.of (unwords (current ++ [w]))) {r : List Text}
    (h : Fitting m width column (current ++ w :: rest) (r :: rows)) :
    ∃ rows', Fitting m width column (w :: rest) rows' ∧ rows'.length ≤ rows.length := by
  have hflat : r ++ rows.flatten = current ++ w :: rest := by simpa using h.flatten_eq
  obtain ⟨left, hleft⟩ : ∃ left, rows.flatten = left ++ w :: rest := by
    rcases append_eq_append_iff.1 hflat with ⟨left, _, hrows⟩ | ⟨more, rfl, hrows⟩
    · exact ⟨left, hrows⟩
    · cases more with
      | nil => exact ⟨[], by simpa using hrows.symm⟩
      | cons v more =>
        -- a line that holds `current` and `w` would be too wide
        obtain ⟨rfl, _⟩ : w = v ∧ rest = more ++ rows.flatten := by simpa using hrows
        have hpos := length_pos_iff.2 hcurrent
        have hwide := h.fits (current ++ w :: more) (by simp)
          (by simp only [length_append, length_cons]; omega)
        have hpart := m.of_unwords_le [] (current ++ [w]) more
        simp only [nil_append, append_assoc, singleton_append] at hpart
        omega
  exact drop (hleft ▸ h.of_cons)

end Fitting

/-! ## Filling -/

section Filling

variable (m : Measure) (cols : Columns)

theorem Row.shown_id (r : Row) : r.shown id = r.words := by
  obtain ⟨ws, wrapped⟩ := r
  cases wrapped with
  | false => rfl
  | true => cases ws <;> rfl

/-- **Filling keeps the words** in order, and leaves no line empty. -/
theorem flatten_breakWords (column : Int) (ws : List Text) :
    (breakWords m.of id cols [] column ws).flatten = ws ∧
      ∀ r ∈ breakWords m.of id cols [] column ws, r ≠ [] := by
  obtain ⟨rows, hfilled, heq⟩ := exists_breakWords m.of id cols [] column ws
  have hrows : rows.map (Row.shown id) = rows.map Row.words :=
    map_congr_left fun r _ => r.shown_id
  rw [heq, hrows]
  refine ⟨by simpa [flatMap_def] using hfilled.words_eq, fun r hr => ?_⟩
  obtain ⟨row, hrow, rfl⟩ := mem_map.1 hr
  exact hfilled.ne_nil row hrow

/-- **Filling fits**, where all lines start at the same column. -/
theorem fitting_breakWords (ws : List Text) :
    Fitting m cols.width cols.later ws (breakWords m.of id cols [] cols.later ws) := by
  obtain ⟨hflatten, hne⟩ := flatten_breakWords m cols cols.later ws
  refine ⟨hflatten, hne, fun r hr hlen => ?_⟩
  rcases fits_of_mem_breakWords (by simp [unwords, joinWith]) (.inr (by simp)) hr with h | h
  · omega
  · exact h

/-- **No way to put the words on lines is shorter** than going on with the line under way. -/
theorem length_breakWords_le {current : List Text} {column : Int} {ws : List Text}
    (hcolumn : column = cols.later + m.of (unwords current)) {rows : List (List Text)}
    (h : Fitting m cols.width cols.later (current ++ ws) rows) :
    (breakWords m.of id cols current column ws).length ≤ rows.length := by
  fun_induction breakWords m.of id cols current column ws generalizing rows with
  | case1 => simp
  | case2 current column hcurrent =>
    have hne : rows ≠ [] := by
      rintro rfl
      have hnil : current = [] := by simpa using h.flatten_eq.symm
      simp [hnil] at hcurrent
    have hpos := length_pos_iff.2 hne
    simp only [length_singleton]
    omega
  | case3 current column w rest space hfits ih =>
    have hconcat := m.of_unwords_concat current w
    refine ih ?_ (by simpa using h)
    omega
  | case4 current column w rest space hfits hnil ih =>
    obtain rfl : current = [] := by simpa using hnil
    exact ih (by simp [unwords, joinWith]) h
  | case5 current column w rest space hfits hnil ih =>
    have hcurrent : current ≠ [] := by simpa using hnil
    have hconcat := m.of_unwords_concat current w
    -- in no other way do these words fit on one line, so the first line there ends here at the latest
    have hover : cols.width < cols.later + m.of (unwords (current ++ [w])) := by
      omega
    cases rows with
    | nil => exact absurd h.flatten_eq (by simp [hcurrent])
    | cons r rows =>
      obtain ⟨rows', h', hlen⟩ := h.of_overfull hcurrent hover
      have hrest := ih (by simp [unwords, joinWith]) h'
      simp only [length_cons]
      omega

end Filling

/-! ## Main result -/

/-- **Filled lines fit and are as few as can be.** For every text, both ways to cut it into words and
both measures, the lines of a paragraph that starts at the column of its other lines are its words in
order, joined by single spaces; a line of two or more words keeps the width; and no way to put the
words on lines that keeps it has fewer of them. -/
theorem filled_lines_fewest (splitter : Splitter) (measure : Measure) {width : Int}
    (hwidth : 0 < width) (column : Int) (t : Text) :
    ∃ rows, paragraphLines { splitter, measure } ⟨width, column, column⟩ t = rows.map unwords ∧
      Fitting measure width column (splitter.words (collapse t)) rows ∧
      ∀ others, Fitting measure width column (splitter.words (collapse t)) others →
        rows.length ≤ others.length := by
  have hcols : 0 < (⟨width, column, column⟩ : Columns).width := hwidth
  refine ⟨_, paragraphLines_eq_breakWords { splitter, measure } hcols t, ?_, ?_⟩
  · exact fitting_breakWords measure ⟨width, column, column⟩ _
  · intro others hothers
    exact length_breakWords_le measure ⟨width, column, column⟩ (by simp [unwords, joinWith]) hothers

/-- Five words behind a margin of one column, one of them wider than the line. -/
theorem five_words_on_fewest_lines :
    (0 : Int) < 6 ∧
      paragraphLines { splitter := .plain, measure := .utf8Bytes } ⟨6, 1, 1⟩
          ['a', ' ', 'b', 'é', ' ', 'c', ' ', 'w', 'w', 'w', 'w', 'w', 'w', 'w', ' ', 'd']
        = [['a', ' ', 'b', 'é'], ['c'], ['w', 'w', 'w', 'w', 'w', 'w', 'w'], ['d']] ∧
      ∃ rows, paragraphLines { splitter := .plain, measure := .utf8Bytes } ⟨6, 1, 1⟩
            ['a', ' ', 'b', 'é', ' ', 'c', ' ', 'w', 'w', 'w', 'w', 'w', 'w', 'w', ' ', 'd']
          = rows.map unwords ∧
        Fitting .utf8Bytes 6 1 (Splitter.plain.words (collapse
          ['a', ' ', 'b', 'é', ' ', 'c', ' ', 'w', 'w', 'w', 'w', 'w', 'w', 'w', ' ', 'd'])) rows ∧
        ∀ others, Fitting .utf8Bytes 6 1 (Splitter.plain.words (collapse
            ['a', ' ', 'b', 'é', ' ', 'c', ' ', 'w', 'w', 'w', 'w', 'w', 'w', 'w', ' ', 'd'])) others →
          rows.length ≤ others.length :=
  ⟨by decide, by decide, filled_lines_fewest .plain .utf8Bytes (by decide) 1 _⟩

end Reflow.Wrap
