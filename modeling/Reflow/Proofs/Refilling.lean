import Reflow.Proofs.RelaidSentences
import Reflow.Proofs.TouchingTags

/-!
Filling a paragraph again.

Filled lines are filled with the words that they show: cutting a run of filled lines into words
gives back the words as they were put on lines, backslashes included (`lineWords_of_rows`), and
filling with these breaks the lines where they were broken (`breakWords_run`). So any run of lines
of a filled paragraph stays as it is when it is filled (`fillToWidth_run`), if separating tags has
left none that touch.
-/

open List

namespace Reflow.Wrap

open Text Tag Relaid

variable (measure : Measure)

/-! ## The words of filled lines -/

theorem blank_or_exists_core (t : Text) :
    (∀ c ∈ t, isBlank c) ∨ ∃ g core g', t = g ++ core ++ g' ∧
      (∀ c ∈ g, isBlank c) ∧ (∀ c ∈ g', isBlank c) ∧ Solid core := by
  induction t with
  | nil => exact .inl (by simp)
  | cons c t ih =>
    by_cases hc : isBlank c
    · rcases ih with ht | ⟨g, core, g', rfl, hg, hg', hcore⟩
      · exact .inl (by simpa [hc] using ht)
      · exact .inr ⟨c :: g, core, g', rfl, by simpa [hc] using hg, hg', hcore⟩
    · have hc : isBlank c = false := by simpa using hc
      have hsolid : Solid [c] := ⟨⟨c, [], rfl, hc⟩, ⟨[], c, rfl, hc⟩⟩
      rcases ih with ht | ⟨g, core, g', rfl, hg, hg', hcore⟩
      · exact .inr ⟨[], [c], t, rfl, by simp, ht, hsolid⟩
      · exact .inr ⟨[], [c] ++ g ++ core, g', by simp, by simp, hg', hsolid.append hcore g⟩

theorem lineWords_core {g core g' : Text} (hg : ∀ c ∈ g, isBlank c) (hcore : Solid core)
    (hg' : ∀ c ∈ g', isBlank c) : lineWords (g ++ core ++ g') = lineWords core := by
  have hright : lineWords (core ++ g') = lineWords core := by
    have hwords := words_eq_of_strewn (.nil hg') hcore (by simp)
      (fun c hc => hg' c (mem_of_mem_head? hc)) (by
        intro front back hsplit hfront hback
        have hlen := congrArg length hsplit
        have hpos := length_pos_iff.2 hfront
        have hpos' := length_pos_iff.2 hback
        simp only [length_singleton, length_append] at hlen
        omega)
    simpa using hwords
  rw [append_assoc, lineWords_blank_append hg, hright]
  obtain ⟨c, t, rfl, hc⟩ := hcore.first
  simpa using hc

theorem separated_core {g core g' : Text} (hg : ∀ c ∈ g, isBlank c) (hcore : Solid core)
    (hg' : ∀ c ∈ g', isBlank c) : separated core <:+: separated (g ++ core ++ g') := by
  have hright : separated core <:+: separated (core ++ g') := by
    by_cases hne : g' = []
    · simp [hne]
    · have hsep := separated_append_blanks hcore.isBlank_getLast hg' hne (b := []) (by simp)
      rw [append_nil] at hsep
      rw [hsep]
      exact (prefix_append _ _).isInfix
  by_cases hne : g = []
  · rwa [hne, nil_append]
  · have hhead : ∀ c ∈ (core ++ g').head?, isBlank c = false := by
      obtain ⟨c, u, rfl, hc⟩ := hcore.first
      simpa using hc
    have hsep := separated_append_blanks (a := []) (by simp) hg hne hhead
    rw [nil_append] at hsep
    rw [append_assoc, hsep]
    exact hright.trans ((suffix_cons _ _).trans (suffix_append _ _)).isInfix

theorem lineWords_cases (t : Text) :
    lineWords t = [] ∨ ∃ s, Solid s ∧ separated s <:+: separated t ∧ lineWords t = lineWords s := by
  rcases blank_or_exists_core t with ht | ⟨g, core, g', rfl, hg, hg', hcore⟩
  · have hblank := lineWords_blank_append (b := []) ht (by simp)
    rw [append_nil] at hblank
    rw [hblank]
    simp [lineWords, separated_nil, words_nil]
  · exact .inr ⟨core, hcore, separated_core hg hcore hg', lineWords_core hg hcore hg'⟩

variable {t s : Text} {ls ws : List Text} {size : Text → Nat} {escape : Text → Text} {width : Int}

theorem separated_eq_of_tagsApart (h : TagsApart t) : separated t = collapse t :=
  (h.relays (relays_collapse t)).unseamed.separate_eq

theorem unseamed_of_tagsApart (h : TagsApart t) : Unseamed (separated t) := by
  rw [separated_eq_of_tagsApart h]
  exact (h.relays (relays_collapse t)).unseamed

theorem solid_separated (hs : Solid s) : Solid (separated s) :=
  (reseamed_apply [] [' '] (collapse s)).solid (solid_collapse hs)

theorem collapse_separated (t : Text) : collapse (separated t) = separated t :=
  (reseamed_apply [] [' '] (collapse t)).collapse_eq (.inl rfl) (.inr rfl) (collapse_collapse t)

/-- **The words of a text.** A text with its tags separated is cut into the words that it is filled
with, which single spaces join. -/
theorem cut_lineWords (hs : Solid s) :
    Cut Construct.wrapping (separated s) (lineWords s) ∧ separated s = unwords (lineWords s) ∧
      ∀ w ∈ lineWords s, Solid w ∧ collapse w = w := by
  obtain ⟨ws, hcut⟩ := exists_cut Construct.wrapping (solid_separated hs)
  obtain ⟨hunwords, hcollapse⟩ := hcut.eq_unwords (collapse_separated s)
  have hwords : lineWords s = ws := hcut.words_eq
  rw [hwords]
  exact ⟨hcut, hunwords, fun w hw => ⟨hcut.solid_words w hw, hcollapse w hw⟩⟩

theorem exists_layout (hs : Solid s) {vs : List Text} (h : Forall₂ Shown (lineWords s) vs) :
    ∃ cs, cs ≠ [] ∧ cs.map src = lineWords s ∧ cs.map out = vs ∧ Fit true (joinCells cs) ∧
      src (joinCells cs) = separated s := by
  obtain ⟨hcut, hunwords, hws⟩ := cut_lineWords hs
  obtain ⟨cs, hsrc, hout, hfit⟩ := exists_cells h hws
  refine ⟨cs, ?_, hsrc, hout, fit_joinCells hfit fun c hc => ?_, ?_⟩
  · rintro rfl
    exact hcut.ne_nil hsrc.symm
  · exact (hws _ (hsrc ▸ mem_map.2 ⟨c, hc, rfl⟩)).1
  · rw [src_joinCells, hsrc, hunwords]

/-- **Words read back.** Cutting words as they are shown gives them back. -/
theorem cut_of_shown (hs : Solid s) {vs : List Text} (h : Forall₂ Shown (lineWords s) vs) :
    Cut Construct.wrapping (unwords vs) vs ∧ (∀ v ∈ vs, Solid v ∧ collapse v = v) ∧
      (Unseamed (separated s) → Unseamed (unwords vs)) := by
  obtain ⟨hcut, _, hws⟩ := cut_lineWords hs
  refine ⟨?_, forall_of_shown h hws, ?_⟩
  all_goals obtain ⟨cs, hne, hwords, rfl, hfit, hsrc⟩ := exists_layout hs h
  · rw [← out_joinCells]
    exact (hsrc ▸ hwords ▸ hcut : Cut _ (src (joinCells cs)) (cs.map src)).of_joined hfit
      (joined_joinCells hne)
  · intro ht
    rw [← out_joinCells]
    exact (hsrc ▸ ht : Unseamed (src (joinCells cs))).relaid hfit

/-! ## Lines read back -/

/-- The line shows the words of the row, with or without spaces between tags. -/
structure Shows (row : List Text) (line : Text) : Prop where
  ne_nil : row ≠ []
  solid : Solid line
  collapse_eq : collapse line = line
  separate_eq : separate line = unwords row

theorem shows_unwords {row : List Text} (hne : row ≠ []) (hrow : ∀ v ∈ row, Solid v ∧ collapse v = v)
    (ht : Unseamed (unwords row)) : Shows row (unwords row) ∧ Shows row (rejoin (unwords row)) := by
  have hsolid := solid_unwords hne fun v hv => (hrow v hv).1
  have hcollapse : collapse (unwords row) = unwords row := by
    rw [unwords, collapse_joinWith ⟨by simp, by simp⟩ fun v hv => (hrow v hv).1]
    exact congrArg unwords ((map_congr_left fun v hv => (hrow v hv).2).trans (map_id row))
  have hrejoin := reseamed_apply [' '] [] (unwords row)
  exact ⟨⟨hne, hsolid, hcollapse, ht.separate_eq⟩,
    ⟨hne, hrejoin.solid hsolid, hrejoin.collapse_eq (.inr rfl) (.inl rfl) hcollapse,
      separate_rejoin ht⟩⟩

/-- **Lines read back.** However lines are joined, the words of the text are those of the rows. -/
theorem lineWords_of_rows {rows : List (List Text)} (h : Forall₂ Shows rows ls)
    (hcut : rows ≠ [] → Cut Construct.wrapping (unwords rows.flatten) rows.flatten) {sep : Text}
    (hsep : BlankRun sep) : lineWords (joinWith sep ls) = rows.flatten := by
  have hall : ∀ {rows : List (List Text)} {ls : List Text}, Forall₂ Shows rows ls →
      (∀ r ∈ rows, r ≠ []) ∧ (∀ l ∈ ls, Solid l) ∧ ls.map collapse = ls ∧
        ls.map separate = rows.map unwords := by
    intro rows ls h
    induction h with
    | nil => simp
    | cons hr _ ih =>
      simp only [mem_cons, forall_eq_or_imp, map_cons, cons.injEq]
      exact ⟨⟨hr.ne_nil, ih.1⟩, ⟨hr.solid, ih.2.1⟩, ⟨hr.collapse_eq, ih.2.2.1⟩, hr.separate_eq,
        ih.2.2.2⟩
  obtain ⟨hne, hsolid, hcollapse, hseparate⟩ := hall h
  by_cases hrows : rows = []
  · subst hrows
    cases h
    simp [joinWith, lineWords, separated_nil, words_nil]
  · have hseparated : separated (joinWith sep ls) = unwords rows.flatten := by
      rw [separated, collapse_joinWith hsep hsolid, hcollapse, separate_unwords, hseparate, unwords,
        unwords, joinWith_flatten hne]
      rfl
    rw [lineWords, hseparated]
    exact (hcut hrows).words_eq

/-! ## Breaking lines again -/

/-- The first rows are those that their own words are broken into. -/
theorem exists_breakWords_prefix (cols : Columns) (current : List Text) (column : Int)
    (hescape : ∀ w ∈ ws, size w ≤ size (escape w) ∧ escape (escape w) = escape w)
    {rows more : List (List Text)}
    (h : breakWords size escape cols current column ws = rows ++ more) (hne : rows ≠ []) :
    ∃ vs, rows.flatten = current ++ vs ∧ breakWords size escape cols current column vs = rows := by
  fun_induction breakWords size escape cols current column ws generalizing rows with
  | case1 current column hnil =>
    obtain ⟨rfl, _⟩ := append_eq_nil_iff.1 h.symm
    exact absurd rfl hne
  | case2 current column hcurrent =>
    obtain ⟨row, rows, rfl⟩ := exists_cons_of_ne_nil hne
    obtain ⟨rfl, hnil⟩ := cons.inj h
    obtain ⟨rfl, _⟩ := append_eq_nil_iff.1 hnil.symm
    exact ⟨[], by simp, by simp [breakWords, hcurrent]⟩
  | case3 current column w rest space hfits ih =>
    obtain ⟨vs, hflat, heq⟩ := ih (fun v hv => hescape v (by simp [hv])) h hne
    refine ⟨w :: vs, by simp [hflat], ?_⟩
    rw [breakWords]
    rw [if_pos hfits]
    exact heq
  | case4 current column w rest space hfits hnil ih =>
    obtain ⟨vs, hflat, heq⟩ := ih (fun v hv => hescape v (by simp [hv])) h hne
    have hcurrent : current = [] := by simpa using hnil
    refine ⟨w :: vs, by simp [hflat, hcurrent], ?_⟩
    rw [breakWords]
    rw [if_neg hfits, if_pos hnil]
    exact heq
  | case5 current column w rest space hfits hcurrent ih =>
    -- the word starts a row, escaped; the escaped word is no shorter, so it does not fit either
    obtain ⟨row, rows, rfl⟩ := exists_cons_of_ne_nil hne
    obtain ⟨rfl, hrest⟩ := cons.inj h
    by_cases hrows : rows = []
    · subst hrows
      exact ⟨[], by simp, by simp [breakWords, hcurrent]⟩
    · obtain ⟨vs, hflat, heq⟩ := ih (fun v hv => hescape v (by simp [hv])) hrest hrows
      obtain ⟨hsize, htwice⟩ := hescape w (by simp)
      refine ⟨escape w :: vs, by simp [hflat], ?_⟩
      have hfits' : ¬ column + size (escape w) + (if current.isEmpty = true then 0 else 1)
          ≤ cols.width := by
        omega
      rw [breakWords, if_neg hfits', if_neg hcurrent, htwice, heq]

theorem exists_breakWords_suffix (cols : Columns) (current : List Text) (column : Int)
    {P : Text → Prop} (hws : ∀ w ∈ ws, P w ∧ P (escape w)) {rows more : List (List Text)}
    (h : breakWords size escape cols current column ws = rows ++ more) (hne : rows ≠ []) :
    ∃ vs, breakWords size escape cols [] cols.later vs = more ∧ ∀ v ∈ vs, P v := by
  fun_induction breakWords size escape cols current column ws generalizing rows with
  | case1 current column hcurrent =>
    obtain ⟨rfl, _⟩ := append_eq_nil_iff.1 h.symm
    exact absurd rfl hne
  | case2 current column hcurrent =>
    obtain ⟨row, rows, rfl⟩ := exists_cons_of_ne_nil hne
    obtain ⟨_, rfl⟩ := append_eq_nil_iff.1 (cons.inj h).2.symm
    exact ⟨[], by simp [breakWords], by simp⟩
  | case3 current column w rest space hfits ih => exact ih (fun v hv => hws v (by simp [hv])) h hne
  | case4 current column w rest space hfits hcurrent ih =>
    exact ih (fun v hv => hws v (by simp [hv])) h hne
  | case5 current column w rest space hfits hcurrent ih =>
    obtain ⟨row, rows, rfl⟩ := exists_cons_of_ne_nil hne
    rw [cons_append] at h
    obtain ⟨_, hrest⟩ := cons.inj h
    by_cases hrows : rows = []
    · -- the word that starts a line may start the first one, however long it is
      subst hrows
      refine ⟨escape w :: rest, ?_, ?_⟩
      · rw [← nil_append more, ← hrest, breakWords]
        simp
      · intro v hv
        rcases mem_cons.1 hv with rfl | hv
        · exact (hws w (by simp)).2
        · exact (hws v (by simp [hv])).1
    · exact ih (fun v hv => hws v (by simp [hv])) hrest hrows

/-- **Lines are broken where they were.** The words of a run of lines, as they stand on the lines,
are put on the same lines. -/
theorem breakWords_run {cols : Columns} {column : Int}
    (hescape : ∀ w ∈ ws, size w ≤ size (escape w) ∧ escape (escape w) = escape w)
    {before rows after : List (List Text)}
    (h : breakWords size escape cols [] cols.first ws = before ++ rows ++ after)
    (hcolumn : column = if before = [] then cols.first else cols.later) :
    breakWords size escape cols [] column rows.flatten = rows := by
  have hfrom : ∃ vs, breakWords size escape cols [] column vs = rows ++ after ∧
      ∀ v ∈ vs, size v ≤ size (escape v) ∧ escape (escape v) = escape v := by
    by_cases hbefore : before = []
    · subst hbefore
      rw [hcolumn]
      exact ⟨ws, h, hescape⟩
    · rw [append_assoc] at h
      rw [hcolumn, if_neg hbefore]
      refine exists_breakWords_suffix cols [] cols.first (fun w hw => ⟨hescape w hw, ?_⟩) h hbefore
      rw [(hescape w hw).2, (hescape w hw).2]
      exact ⟨Nat.le_refl _, rfl⟩
  obtain ⟨vs, hvs, hescape'⟩ := hfrom
  by_cases hrows : rows = []
  · subst hrows
    simp [breakWords]
  · obtain ⟨us, hflat, heq⟩ := exists_breakWords_prefix cols [] column hescape' hvs hrows
    rw [hflat, nil_append, heq]

/-- Where the first line starts matters for the first line only. -/
theorem breakWords_first (width first first' later : Int) (current : List Text) (column : Int)
    (ws : List Text) :
    breakWords size escape ⟨width, first, later⟩ current column ws
      = breakWords size escape ⟨width, first', later⟩ current column ws := by
  induction ws generalizing current column with
  | nil => rfl
  | cons w ws ih => simp only [breakWords, ih]

/-- A backslash makes a word longer, and a word that has one is not escaped. -/
theorem escapeWord_again {w : Text} (hw : Solid w) :
    measure.of w ≤ measure.of (escapeWord w) ∧ escapeWord (escapeWord w) = escapeWord w := by
  rcases escapeWord_cases hw with h | ⟨_, a, b, rfl, _, h⟩
  · rw [h, h]
    exact ⟨Nat.le_refl _, rfl⟩
  · refine ⟨?_, escapeWord_eq_self_of_mem (solid_escapeWord hw) (d := '\\') (by simp [h]) (by simp)⟩
    rw [h, Measure.of_append, Measure.of_append, Measure.of_cons]
    omega

/-! ## Filling a paragraph again -/

/-- How a paragraph of Markdown is filled. -/
def markdownSettings (measure : Measure) : Settings := { measure, markdown := true }

theorem markdownSettings_words (t : Text) :
    (markdownSettings measure).words t = lineWords t := rfl

theorem markdownSettings_escape :
    (markdownSettings measure).escape = escapeWord := rfl

theorem forall₂_shown (rows : List Row) :
    Forall₂ Shown (rows.flatMap Row.words) (rows.flatMap (Row.shown escapeWord)) := by
  induction rows with
  | nil => exact .nil
  | cons r rows ih =>
    have hsame : ∀ ws : List Text, Forall₂ Shown ws ws := fun ws =>
      forall₂_same.2 fun w _ => .inl rfl
    have hrow : Forall₂ Shown r.words (r.shown escapeWord) := by
      obtain ⟨ws, wrapped⟩ := r
      cases wrapped with
      | false => exact hsame ws
      | true =>
        cases ws with
        | nil => exact .nil
        | cons w ws => exact .cons (.inr rfl) (hsame ws)
    exact rel_append hrow ih

/-- The lines that the words of a text are put on, line by line. -/
def filledRows (measure : Measure) (cols : Columns) (t : Text) : List (List Text) :=
  breakWords measure.of escapeWord cols [] cols.first (lineWords t)

theorem paragraphLines_eq_filledRows {cols : Columns} (hwidth : 0 < cols.width) (t : Text) :
    paragraphLines (markdownSettings measure) cols t = (filledRows measure cols t).map unwords :=
  paragraphLines_eq_breakWords (markdownSettings measure) hwidth t

theorem filledRows_shown (cols : Columns) (t : Text) :
    Forall₂ Shown (lineWords t) (filledRows measure cols t).flatten ∧
      ∀ r ∈ filledRows measure cols t, r ≠ [] := by
  obtain ⟨rows, hfilled, heq⟩ :=
    exists_breakWords measure.of escapeWord cols [] cols.first (lineWords t)
  rw [nil_append] at hfilled
  rw [filledRows, heq, ← hfilled.words_eq]
  refine ⟨forall₂_shown rows, ?_⟩
  intro r hr
  obtain ⟨row, hrow, rfl⟩ := mem_map.1 hr
  exact Row.shown_ne_nil (hfilled.ne_nil row hrow)

theorem filledRows_run (cols : Columns) (ht : Unseamed (separated t))
    {before rows after : List (List Text)} (h : filledRows measure cols t = before ++ rows ++ after) :
    (∀ r ∈ rows, Shows r (unwords r) ∧ Shows r (rejoin (unwords r))) ∧
      (rows ≠ [] → Cut Construct.wrapping (unwords rows.flatten) rows.flatten) := by
  obtain ⟨hshown, hne⟩ := filledRows_shown measure cols t
  rcases lineWords_cases t with hnil | ⟨s, hs, hinfix, hwords⟩
  · have hrows : filledRows measure cols t = [] := by
      rw [filledRows, hnil]
      rfl
    obtain ⟨_, rfl, _⟩ : before = [] ∧ rows = [] ∧ after = [] := by
      simpa [hrows] using h.symm
    exact ⟨by simp, fun hrows => absurd rfl hrows⟩
  · rw [hwords] at hshown
    obtain ⟨hcut, hvs, hunseamed⟩ := cut_of_shown hs hshown
    have hunseamed := hunseamed (ht.of_isInfix hinfix)
    rw [h] at hne
    -- what is true of all rows joined is true of every run of them
    rw [h, flatten_append, flatten_append] at hcut hvs hunseamed
    constructor
    · intro r hr
      refine shows_unwords (hne r (by simp [hr])) (fun v hv => hvs v ?_)
        (hunseamed.of_isInfix ?_)
      · exact mem_append_left _ (mem_append_right _ (mem_flatten.2 ⟨r, hr, hv⟩))
      · obtain ⟨xs, ys, rfl⟩ := append_of_mem hr
        have hsplit : before.flatten ++ (xs ++ r :: ys).flatten ++ after.flatten
            = before.flatten ++ xs.flatten ++ r ++ (ys.flatten ++ after.flatten) := by simp
        rw [hsplit]
        exact joinWith_isInfix [' '] _ r _
    · intro hrows
      refine hcut.run ?_
      obtain ⟨r, rows, rfl⟩ := exists_cons_of_ne_nil hrows
      simp [hne r (by simp)]

theorem escape_lineWords (t : Text) : ∀ w ∈ lineWords t,
    measure.of w ≤ measure.of (escapeWord w) ∧ escapeWord (escapeWord w) = escapeWord w :=
  fun _ hw => escapeWord_again measure (solid_of_mem_lineWords hw)

/-- **A run of lines of a paragraph, filled again.** However the lines are joined, they are filled as
they were, if the first of them starts where it did. -/
theorem paragraphLines_run {first later : Int} (hwidth : 0 < width) (ht : Unseamed (separated t))
    {before after : List Text}
    (h : paragraphLines (markdownSettings measure) ⟨width, first, later⟩ t = before ++ ls ++ after)
    {column : Int} (hcolumn : column = if before = [] then first else later) {sep : Text}
    (hsep : BlankRun sep) :
    paragraphLines (markdownSettings measure) ⟨width, column, later⟩ (joinWith sep ls) = ls := by
  have hcols : 0 < (⟨width, first, later⟩ : Columns).width := hwidth
  have hcols' : 0 < (⟨width, column, later⟩ : Columns).width := hwidth
  rw [paragraphLines_eq_filledRows measure hcols] at h
  obtain ⟨front, afterRows, hsplit, hfront, rfl⟩ := map_eq_append_iff.1 h
  obtain ⟨beforeRows, rows, rfl, rfl, rfl⟩ := map_eq_append_iff.1 hfront
  obtain ⟨hshows, hcut⟩ := filledRows_run measure ⟨width, first, later⟩ ht hsplit
  have hlines : Forall₂ Shows rows (rows.map unwords) := by
    rw [forall₂_map_right_iff]
    exact forall₂_same.2 fun r hr => (hshows r hr).1
  rw [paragraphLines_eq_filledRows measure hcols']
  refine congrArg (map unwords) ?_
  rw [filledRows, lineWords_of_rows hlines hcut hsep, breakWords_first width column first later]
  refine breakWords_run (escape_lineWords measure t) hsplit ?_
  simpa using hcolumn

theorem newline_not_mem_of_collapse (h : collapse t = t) : '\n' ∉ t := by
  intro hmem
  rw [← h] at hmem
  exact absurd (eq_space_of_mem_collapse hmem isBlank_newline) (by decide)

theorem fillToWidth_eq (hwidth : 0 < width) (t : Text) :
    fillToWidth measure true width t {}
      = rejoin (unlines ((filledRows measure ⟨width, 0, 0⟩ t).map unwords)) := by
  have hcols : 0 < (⟨width, 0, 0⟩ : Columns).width := hwidth
  have hparagraph : fillToWidth measure true width t {}
      = rejoin (unlines (paragraphLines (markdownSettings measure) ⟨width, 0, 0⟩ t)) :=
    paragraphAt_eq (markdownSettings measure) width 0 t
  rw [hparagraph, paragraphLines_eq_filledRows measure hcols]

/-- **Filling lays a text out** in which no tags meet. -/
theorem relays_fillToWidth (hwidth : 0 < width) (ht : TagsApart t) :
    Relays t (fillToWidth measure true width t {}) := by
  obtain ⟨hshown, hne⟩ := filledRows_shown measure ⟨width, 0, 0⟩ t
  have hself : filledRows measure ⟨width, 0, 0⟩ t
      = [] ++ filledRows measure ⟨width, 0, 0⟩ t ++ [] := by simp
  have hshows := (filledRows_run measure ⟨width, 0, 0⟩ (unseamed_of_tagsApart ht) hself).1
  have hlines : Relays t (unlines ((filledRows measure ⟨width, 0, 0⟩ t).map unwords)) := by
    rcases blank_or_exists_core t with hblank | ⟨g, core, g', rfl, hg, hg', hcore⟩
    · have hnil : lineWords t = [] := by
        have hwords := lineWords_blank_append (b := []) hblank (by simp)
        rw [append_nil] at hwords
        rw [hwords]
        simp [lineWords, separated_nil, words_nil]
      rw [filledRows, hnil]
      simpa [breakWords, unlines, joinWith] using relays_nil hblank
    · rw [lineWords_core hg hcore hg'] at hshown
      obtain ⟨cs, _, _, hout, hfit, hsrc⟩ := exists_layout hcore hshown
      have hapart : TagsApart core := ht.of_isInfix ⟨g, g', rfl⟩
      have hwords : Relays core (unwords (filledRows measure ⟨width, 0, 0⟩ (g ++ core ++ g')).flatten) := by
        refine (relays_collapse core).trans ?_
        rw [← separated_eq_of_tagsApart hapart, ← hsrc, ← hout, ← out_joinCells]
        exact .step hfit (.refl _)
      -- from one line to several, a line feed takes the place of a space
      refine .trim hg hg' (hwords.trans ?_)
      rw [unwords, joinWith_flatten hne]
      refine relays_unlines fun l hl => ?_
      obtain ⟨r, hr, rfl⟩ := mem_map.1 hl
      exact newline_not_mem_of_collapse (hshows r hr).1.collapse_eq
  rw [fillToWidth_eq measure hwidth, (ht.relays hlines).rejoin_eq]
  exact hlines

theorem eq_of_isInfix_singleton {α : Type} {ls : List α} {a : α} (h : ls <:+: [a])
    (hne : ls ≠ []) : ls = [a] := by
  refine h.eq_of_length ?_
  have hle := h.length_le
  have hpos := length_pos_iff.2 hne
  simp only [length_singleton] at hle ⊢
  omega

/-- **A run of filled lines, filled again.** -/
theorem fillToWidth_run (hwidth : 0 < width) (ht : Unseamed (separated t)) (hne : ls ≠ [])
    (hls : ls <:+: lines (fillToWidth measure true width t {})) :
    fillToWidth measure true width (unlines ls) {} = unlines ls := by
  have hfill : ∀ u, fillToWidth measure true width u {}
      = unlines ((filledRows measure ⟨width, 0, 0⟩ u).map fun r => rejoin (unwords r)) := by
    intro u
    rw [fillToWidth_eq measure hwidth, rejoin_unlines, map_map]
    rfl
  have hself : filledRows measure ⟨width, 0, 0⟩ t
      = [] ++ filledRows measure ⟨width, 0, 0⟩ t ++ [] := by simp
  have hshows := (filledRows_run measure ⟨width, 0, 0⟩ ht hself).1
  by_cases hrows : filledRows measure ⟨width, 0, 0⟩ t = []
  · rw [hfill t, hrows] at hls
    obtain rfl : ls = [[]] := eq_of_isInfix_singleton hls hne
    rw [hfill]
    simp [filledRows, lineWords, separated_nil, words_nil, breakWords, unlines, joinWith]
  · have hnewline : ∀ l ∈ (filledRows measure ⟨width, 0, 0⟩ t).map fun r => rejoin (unwords r),
        '\n' ∉ l := by
      intro l hl
      obtain ⟨r, hr, rfl⟩ := mem_map.1 hl
      exact newline_not_mem_of_collapse (hshows r hr).2.collapse_eq
    rw [hfill t, lines_unlines (by simpa using hrows) hnewline] at hls
    obtain ⟨_, _, hls⟩ := hls
    obtain ⟨front, after, hsplit, hfront, _⟩ := map_eq_append_iff.1 hls.symm
    obtain ⟨before, rows, rfl, _, rfl⟩ := map_eq_append_iff.1 hfront
    obtain ⟨hshows, hcut⟩ := filledRows_run measure ⟨width, 0, 0⟩ ht hsplit
    have hlines : Forall₂ Shows rows (rows.map fun r => rejoin (unwords r)) := by
      rw [forall₂_map_right_iff]
      exact forall₂_same.2 fun r hr => (hshows r hr).2
    have hwords : lineWords (unlines (rows.map fun r => rejoin (unwords r))) = rows.flatten :=
      lineWords_of_rows hlines hcut ⟨by simp, by simp⟩
    have hagain : filledRows measure ⟨width, 0, 0⟩
        (unlines (rows.map fun r => rejoin (unwords r))) = rows := by
      rw [filledRows, hwords]
      exact breakWords_run (escape_lineWords measure t) hsplit (by simp)
    rw [hfill, hagain]

end Reflow.Wrap
