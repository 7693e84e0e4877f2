import Reflow.Proofs.FewestLines

/-!
Lines that are filled greedily.

Words between blanks are put on a line as long as they fit. What comes out is `Greedy`: a line of two
or more words keeps the width, and the first word of each next line would not have fitted on the line
before it. This needs that the first line does not start further to the right than the others. A
single word may reach beyond the width, and then nothing is put after it.
-/

open List

namespace Reflow.Text

/-! ## Words between blanks -/

theorem words_of_visible {w : Text} (hne : w ≠ []) (hw : ∀ c ∈ w, isBlank c = false) :
    words w = [w] := by
  have h := words_append_of_visible (t := []) hne hw (by simp)
  simpa [words] using h

theorem words_collapse (t : Text) : words (collapse t) = words t := by
  -- a visible character goes on with the word after it, so what the collapsed rest starts with counts
  have hhead : ∀ u : Text, (collapse u).head?.map isBlank = u.head?.map isBlank := by
    intro u
    induction u with
    | nil => rfl
    | cons c u ih =>
      rw [collapse.eq_def]
      by_cases hc : isBlank c
      · cases u with
        | nil => simp [hc]
        | cons d u =>
          by_cases hd : isBlank d
          · simpa [hc, hd] using ih
          · simp [hc, hd]
      · simp [hc]
  induction t with
  | nil => rfl
  | cons c t ih =>
    rw [collapse.eq_def]
    by_cases hc : isBlank c
    · rw [words_cons_of_blank hc]
      cases t with
      | nil => simp [hc, words]
      | cons d t =>
        by_cases hd : isBlank d
        · simpa [hc, hd] using ih
        · simpa [hc, hd, words_cons_of_blank isBlank_space] using ih
    · have hrest := hhead t
      simp only [hc, Bool.false_eq_true, if_false]
      cases t with
      | nil => rfl
      | cons d t =>
        obtain ⟨e, u, hu⟩ : ∃ e u, collapse (d :: t) = e :: u := by
          cases hu : collapse (d :: t) with
          | nil => simp [hu] at hrest
          | cons e u => exact ⟨e, u, rfl⟩
        rw [hu] at ih hrest ⊢
        have he : isBlank e = isBlank d := by simpa using hrest
        rw [words, words.eq_def (c :: d :: t)]
        simp only [hc, he, ih]

end Reflow.Text

namespace Reflow.Wrap

open Text

theorem Settings.words_of_plain {s : Settings} (hs : s.splitter = .plain) (t : Text) :
    s.words t = Text.words t := by
  unfold Settings.words Settings.prepare
  rw [hs]
  split
  · exact words_collapse t
  · rfl

/-! ## Greedy lines -/

/-- Lines of words, the first from column `start` and the others from column `later`. A line of two
or more words keeps the width, and the first word of each next line would not have fitted, after a
space, on the line before it. -/
def Greedy (m : Measure) (width later : Int) : Int → List (List Text) → Prop
  | _, [] => True
  | start, r :: rows =>
    (r.length ≤ 1 ∨ start + m.of (unwords r) ≤ width) ∧
      (∀ q ∈ rows.head?, ∀ w ∈ q.head?, width < start + m.of (unwords r) + 1 + m.of w) ∧
      Greedy m width later later rows

section Breaking

variable {m : Measure} {cols : Columns} {current : List Text}

theorem head?_breakWords {size : Text → Nat} {escape : Text → Text} (hne : current ≠ [])
    (column : Int) (ws : List Text) :
    ∀ r ∈ (breakWords size escape cols current column ws).head?, current <+: r := by
  fun_induction breakWords size escape cols current column ws with
  | case1 current column hnil => simp at hnil; exact absurd hnil hne
  | case2 current column _ => simp
  | case3 current column w rest space hfits ih =>
    intro r hr
    exact (prefix_append current [w]).trans (ih (by simp) r hr)
  | case4 current column w rest space hfits hnil ih =>
    simp at hnil
    exact absurd hnil hne
  | case5 current column w rest space hfits hnil ih => simp

/-- The line under way, from column `start`: it ends at `column` and keeps the width, unless it is a
single word; or it is a single word that does not keep it, and nothing goes after it. -/
def UnderWay (m : Measure) (width start : Int) (current : List Text) (column : Int) : Prop :=
  column = start + m.of (unwords current) ∧ (current.length ≤ 1 ∨ column ≤ width) ∨
    current.length = 1 ∧ width < start + m.of (unwords current) ∧ width < column

theorem UnderWay.fits {width start column : Int} (h : UnderWay m width start current column) :
    current.length ≤ 1 ∨ start + m.of (unwords current) ≤ width := by
  rcases h with ⟨rfl, h⟩ | ⟨h, _⟩
  · exact h
  · exact .inl (Nat.le_of_eq h)

/-- **Filling is greedy**, if the first line does not start further to the right than the others. -/
theorem greedy_breakWords {column : Int} {ws : List Text} {start : Int}
    (hstart : start ≤ cols.later) (h : UnderWay m cols.width start current column) :
    Greedy m cols.width cols.later start (breakWords m.of id cols current column ws) := by
  induction ws generalizing current column start with
  | nil =>
    rw [breakWords]
    split
    · trivial
    · exact ⟨h.fits, by simp, trivial⟩
  | cons w ws ih =>
    have hconcat := m.of_unwords_concat current w
    rw [breakWords]
    by_cases hnil : current = []
    · subst hnil
      obtain rfl : column = start := by
        rcases h with ⟨rfl, _⟩ | ⟨h, _⟩
        · simp [unwords, joinWith]
        · simp at h
      have hzero : m.of (unwords []) = 0 := rfl
      simp only [isEmpty_nil, if_true] at hconcat ⊢
      split
      · exact ih hstart (.inl ⟨by omega, .inl (by simp)⟩)
      · refine ih hstart (.inr ⟨rfl, ?_, by omega⟩)
        rw [nil_append] at hconcat
        omega
    · have hempty : current.isEmpty = false := by simpa using hnil
      simp only [hempty, Bool.false_eq_true, if_false] at hconcat ⊢
      split
      · refine ih hstart (.inl ?_)
        rcases h with ⟨rfl, _⟩ | ⟨_, _, hover⟩
        · exact ⟨by omega, .inr (by omega)⟩
        · -- behind a word that is too wide there is no room
          omega
      · refine ⟨h.fits, ?_, ih (Int.le_refl _) (.inl ⟨rfl, .inl (by simp)⟩)⟩
        intro q hq v hv
        obtain ⟨more, rfl⟩ := head?_breakWords (cons_ne_nil _ _) _ ws q hq
        obtain rfl : w = v := by simpa using hv
        rcases h with ⟨rfl, _⟩ | ⟨_, hover, _⟩ <;> omega

end Breaking

variable {m : Measure} {width later start : Int} {rows : List (List Text)} {w : Text}

/-- A line holds its words, and the first word of the next line does not fit on it. -/
theorem Greedy.getElem (h : Greedy m width later start rows) {j : Nat} {r : List Text}
    (hr : rows[j]? = some r) :
    (r.length ≤ 1 ∨ (if j = 0 then start else later) + m.of (unwords r) ≤ width) ∧
      ∀ q, rows[j + 1]? = some q → ∀ w ∈ q.head?,
        width < (if j = 0 then start else later) + m.of (unwords r) + 1 + m.of w := by
  induction rows generalizing start j with
  | nil => simp at hr
  | cons p rows ih =>
    cases j with
    | zero =>
      obtain rfl : p = r := by simpa using hr
      refine ⟨h.1, fun q hq => h.2.1 q ?_⟩
      simpa [head?_eq_getElem?] using hq
    | succ j =>
      have hlater := ih h.2.2 (j := j) (by simpa using hr)
      rw [ite_self] at hlater
      exact hlater

theorem eq_singleton_of_flatten (hne : ∀ r ∈ rows, r ≠ []) (h : rows.flatten = [w]) :
    rows = [[w]] := by
  cases rows with
  | nil => simp at h
  | cons r rows =>
    have hr := length_pos_iff.2 (hne r (by simp))
    have hrows : rows = [] := by
      cases rows with
      | nil => rfl
      | cons q rows =>
        have hq := length_pos_iff.2 (hne q (by simp))
        have hlength := congrArg length h
        simp only [flatten_cons, length_append, length_singleton] at hlength
        omega
    subst hrows
    simpa using h

/-- Words that fit on the first line are put there, and a last word that does not goes below. -/
theorem Greedy.eq_pair (h : Greedy m width later start rows) (hne : ∀ r ∈ rows, r ≠ [])
    {us : List Text} (hus : us ≠ []) (hflatten : rows.flatten = us ++ [w])
    (hfits : us.length ≤ 1 ∨ start + m.of (unwords us) ≤ width)
    (hover : width < start + m.of (unwords us) + 1 + m.of w) : rows = [us, [w]] := by
  cases rows with
  | nil => simp at hflatten
  | cons r rows =>
    obtain ⟨hkeeps, hfull, -⟩ := h
    have hr := length_pos_iff.2 (hne r (by simp))
    have hcut : (r = us ∧ rows.flatten = [w]) ∨
        (∃ v vs, us = r ++ v :: vs ∧ rows.flatten = v :: (vs ++ [w])) ∨ r = us ++ [w] := by
      rcases append_eq_append_iff.1 hflatten with ⟨vs, rfl, hrest⟩ | ⟨vs, rfl, hrest⟩
      · cases vs with
        | nil => exact .inl ⟨by simp, by simpa using hrest⟩
        | cons v vs => exact .inr (.inl ⟨v, vs, rfl, hrest⟩)
      · rcases singleton_eq_append_iff.1 hrest with ⟨rfl, hw⟩ | ⟨rfl, _⟩
        · exact .inl ⟨by simp, hw⟩
        · exact .inr (.inr rfl)
    rcases hcut with ⟨rfl, hlast⟩ | ⟨v, vs, rfl, hlast⟩ | rfl
    · rw [eq_singleton_of_flatten (fun q hq => hne q (by simp [hq])) hlast]
    · -- `v` would have fitted
      cases rows with
      | nil => simp at hlast
      | cons q rows =>
        obtain ⟨u, q, rfl⟩ := exists_cons_of_ne_nil (hne q (by simp))
        obtain rfl : u = v := by
          simp only [flatten_cons, cons_append, cons.injEq] at hlast
          exact hlast.1
        have hnext := hfull (u :: q) rfl u rfl
        have hpart := m.of_unwords_le [] (r ++ [u]) vs
        have hconcat := m.of_unwords_concat r u
        rw [if_neg (by simpa using hne r (by simp))] at hconcat
        simp only [nil_append, append_assoc, singleton_append] at hpart
        simp only [length_append, length_cons] at hfits
        omega
    · -- the last word does not fit
      have hconcat := m.of_unwords_concat us w
      rw [if_neg (by simpa using hus)] at hconcat
      have hpos := length_pos_iff.2 hus
      rw [length_append, length_singleton] at hkeeps
      omega

end Reflow.Wrap
