import Reflow.Proofs.FewestLines
import Reflow.Proofs.RefillingSentences

/-!
Sentences gathered into lines.

Where the width is no limit, the lines are groups of sentences: each group but the last has reached
the least length, and none had reached it before its last sentence (`Grouped`). There is one such
grouping (`Grouped.unique`), and adding sentences one by one makes it (`exists_grouped_foldl`).
-/

open List

namespace Reflow.Wrap

open Text Tag Sentence Relaid

variable {u : Text}

/-! ## Lengths of separated texts -/

@[simp] theorem separate_nil : separate [] = [] := (reseamed_apply [] [' '] []).unique .nil

/-- Nothing is separated across a blank. -/
theorem length_separate_append (a : Text) {b : Text} (hb : ∀ c ∈ b.head?, isBlank c) :
    (separate (a ++ b)).length = (separate a).length + (separate b).length := by
  cases b with
  | nil => simp
  | cons c b =>
    have hc : isBlank c := hb c (by simp)
    have hfirst := separate_append_cons hc [] b
    rw [nil_append, separate_nil, nil_append] at hfirst
    rw [separate_append_cons hc, hfirst, length_append]

theorem length_separate_blank_append {g : Text} (hg : ∀ c ∈ g, isBlank c) (b : Text) :
    (separate (g ++ b)).length = g.length + (separate b).length := by
  induction g with
  | nil => simp
  | cons c g ih =>
    have hfirst := separate_append_cons (hg c (by simp)) [] (g ++ b)
    rw [nil_append, separate_nil, nil_append] at hfirst
    rw [cons_append, hfirst, length_cons, ih fun d hd => hg d (by simp [hd]),
      length_cons]
    omega

theorem lt_length_separate {a g b : Text} (hg : ∀ c ∈ g, isBlank c) (hne : g ≠ []) :
    (separate a).length + (separate b).length < (separate (a ++ (g ++ b))).length := by
  obtain ⟨c, g', rfl⟩ := exists_cons_of_ne_nil hne
  have hpos := length_pos_iff.2 hne
  rw [length_separate_append a (by simpa using hg c (by simp)), length_separate_blank_append hg]
  omega

theorem visible_or_exists_gap (t : Text) :
    (∀ c ∈ t, isBlank c = false) ∨ ∃ v g b, t = v ++ g ++ b ∧ (∀ c ∈ v, isBlank c = false) ∧
      (∀ c ∈ g, isBlank c) ∧ g ≠ [] ∧ ∀ c ∈ b.head?, isBlank c = false := by
  have ht : t.takeWhile (fun c => !isBlank c) ++ t.dropWhile (fun c => !isBlank c) = t :=
    takeWhile_append_dropWhile
  have hv : ∀ c ∈ t.takeWhile (fun c => !isBlank c), isBlank c = false := by
    intro c hc
    simpa using mem_takeWhile_imp hc
  cases hrest : t.dropWhile (fun c => !isBlank c) with
  | nil =>
    rw [hrest, append_nil] at ht
    exact .inl (ht ▸ hv)
  | cons d rest =>
    have hd : isBlank d := by
      have := head?_dropWhile_not (fun c => !isBlank c) t
      simpa [hrest] using this
    have hgap : (d :: rest).takeWhile isBlank ++ (d :: rest).dropWhile isBlank = d :: rest :=
      takeWhile_append_dropWhile
    refine .inr ⟨_, (d :: rest).takeWhile isBlank, (d :: rest).dropWhile isBlank, ?_, hv, ?_, ?_, ?_⟩
    · rw [append_assoc, hgap, ← hrest, ht]
    · intro c hc
      exact mem_takeWhile_imp hc
    · simp [hd]
    · intro c hc
      have := head?_dropWhile_not isBlank (d :: rest)
      rw [hc] at this
      simpa using this

theorem length_separated_le (t : Text) : (separated t).length ≤ (separate t).length := by
  generalize hlen : t.length = len
  induction len using Nat.strong_induction_on generalizing t with
  | _ len ih =>
    rcases visible_or_exists_gap t with ht | ⟨v, g, b, rfl, hv, hg, hne, hb⟩
    · rw [separated, collapse_of_visible ht]
    · have hpos := length_pos_iff.2 hne
      simp only [length_append] at hlen
      have hlast : ∀ c ∈ v.getLast?, isBlank c = false := fun c hc =>
        hv c (mem_of_mem_getLast? hc)
      have hrest := ih b.length (by omega) b rfl
      have hgap := lt_length_separate (a := v) (b := b) hg hne
      rw [separated_append_blanks hlast hg hne hb, append_assoc, separated,
        collapse_of_visible hv, length_append, length_cons]
      omega

theorem separate_unlines (ls : List Text) : separate (unlines ls) = unlines (ls.map separate) := by
  induction ls with
  | nil => exact separate_nil
  | cons l ls ih =>
    by_cases hne : ls = []
    · subst hne
      rfl
    · rw [unlines_cons hne, separate_append_cons isBlank_newline, ih, map_cons,
        unlines_cons (by simpa using hne)]

theorem length_unwords_eq_unlines (ls : List Text) : (unwords ls).length = (unlines ls).length := by
  induction ls with
  | nil => rfl
  | cons l ls ih =>
    by_cases hne : ls = []
    · subst hne
      rfl
    · rw [unwords_cons hne, unlines_cons hne, length_append, length_append,
        length_cons, length_cons, ih]

theorem length_separate_flat (t : Text) : (separate (flat t)).length = (separate t).length := by
  have hsingle : ∀ l ∈ lines t, '\n' ∉ l := fun l hl => newline_not_mem_lines hl
  have hflat := flat_unlines hsingle
  rw [unlines_lines] at hflat
  calc (separate (flat t)).length
      = (unwords ((lines t).map separate)).length := by rw [hflat, separate_unwords]
    _ = (unlines ((lines t).map separate)).length := length_unwords_eq_unlines _
    _ = (separate t).length := by rw [← separate_unlines, unlines_lines]

/-! ## Sentences on one line -/

/-- A sentence on one line: its words joined by single spaces. -/
def oneLine (u : Text) : Text := unwords (lineWords u)

theorem oneLine_eq (hu : Solid u) : oneLine u = separated u :=
  (cut_lineWords hu).2.1.symm

theorem solid_oneLine (hu : Solid u) : Solid (oneLine u) := by
  rw [oneLine_eq hu]
  exact solid_separated hu

theorem length_oneLine_le (hu : Solid u) : (oneLine u).length ≤ (separate u).length := by
  rw [oneLine_eq hu]
  exact length_separated_le u

theorem length_unwords_cons_le {rest : Text} {ss : List Text} (h : Strewn rest ss) {s : Text}
    (hs : Solid s) (hss : ∀ u ∈ ss, Solid u) (hrest : ∀ c ∈ rest.head?, isBlank c) :
    (unwords ((s :: ss).map oneLine)).length ≤ (separate (s ++ rest)).length := by
  have hfirst := length_oneLine_le hs
  induction h generalizing s with
  | @nil g hg =>
    have hlen := length_separate_append s hrest
    have hone : unwords ([s].map oneLine) = oneLine s := rfl
    rw [hone]
    omega
  | @cons g u rest ss hg hrest' hstrewn ih =>
    have hu : Solid u := hss u (by simp)
    -- between two sentences there is a blank at least
    have hne : g ≠ [] := by
      rintro rfl
      obtain ⟨c, u', rfl, hc⟩ := hu.first
      have hblank := hrest c (by simp)
      rw [hc] at hblank
      simp at hblank
    have hnext := ih hu (fun v hv => hss v (by simp [hv])) hrest' (length_oneLine_le hu)
    have hgap := lt_length_separate (a := s) (b := u ++ rest) hg hne
    rw [map_cons, unwords_cons (by simp), length_append, length_cons,
      append_assoc]
    omega

/-- **Sentences take up no more than their text.** On one line they are not longer than the text they
are strewn over, its tags separated. -/
theorem length_unwords_oneLine_le {t : Text} {ss : List Text} (h : Strewn t ss)
    (hss : ∀ u ∈ ss, Solid u) : (unwords (ss.map oneLine)).length ≤ (separate t).length := by
  cases h with
  | nil _ => exact Nat.zero_le _
  | @cons g s rest ss hg hrest hstrewn =>
    have hline := length_unwords_cons_le hstrewn (hss s (by simp)) (fun u hu => hss u (by simp [hu]))
      hrest
    rw [append_assoc, length_separate_blank_append hg]
    omega

/-! ## Groups of sentences -/

/-- Sentences gathered into lines: they stay in order and no line is empty, every line but the last
has reached the least length, and no line of two or more sentences had reached it without its last
one. -/
structure Grouped (minLength : Int) (ss : List Text) (groups : List (List Text)) : Prop where
  flatten_eq : groups.flatten = ss
  ne_nil : ∀ g ∈ groups, g ≠ []
  long : ∀ g ∈ groups.dropLast, minLength ≤ (unwords g).length
  short : ∀ g ∈ groups, 2 ≤ g.length →
    unwords g.dropLast ≠ [] ∧ (unwords g.dropLast).length < minLength

namespace Grouped

variable {minLength : Int} {ss : List Text} {groups : List (List Text)}

theorem nil : Grouped minLength [] [] := ⟨rfl, by simp, by simp, by simp⟩

theorem singleton (v : Text) : Grouped minLength [v] [[v]] :=
  ⟨rfl, by simp, by simp, by simp⟩

theorem merge {init : List (List Text)} {last : List Text}
    (h : Grouped minLength ss (init ++ [last])) (hne : unwords last ≠ [])
    (hlast : (unwords last).length < minLength) (v : Text) :
    Grouped minLength (ss ++ [v]) (init ++ [last ++ [v]]) := by
  have hlong := h.long
  rw [dropLast_concat] at hlong
  refine ⟨by simp [← h.flatten_eq], forall_mem_append.2 ⟨fun g hg => h.ne_nil g (by simp [hg]),
    by simp⟩, by rwa [dropLast_concat], forall_mem_append.2 ⟨fun g hg => h.short g (by simp [hg]),
    forall_mem_singleton.2 fun _ => ?_⟩⟩
  rw [dropLast_concat]
  exact ⟨hne, hlast⟩

theorem append {init : List (List Text)} {last : List Text}
    (h : Grouped minLength ss (init ++ [last])) (hlast : minLength ≤ (unwords last).length)
    (v : Text) : Grouped minLength (ss ++ [v]) (init ++ [last] ++ [[v]]) := by
  have hlong := h.long
  rw [dropLast_concat] at hlong
  refine ⟨by simp [← h.flatten_eq], forall_mem_append.2 ⟨h.ne_nil, by simp⟩, ?_,
    forall_mem_append.2 ⟨h.short, by simp⟩⟩
  rw [dropLast_concat]
  exact forall_mem_append.2 ⟨hlong, forall_mem_singleton.2 hlast⟩

theorem of_cons {g : List Text} (h : Grouped minLength ss (g :: groups)) :
    Grouped minLength groups.flatten groups := by
  refine ⟨rfl, fun q hq => h.ne_nil q (by simp [hq]), fun q hq => h.long q ?_,
    fun q hq => h.short q (by simp [hq])⟩
  have hne : groups ≠ [] := by
    rintro rfl
    simp at hq
  rw [dropLast_cons_of_ne_nil hne]
  exact mem_cons_of_mem _ hq

/-- A first line cannot be longer than another one: it had reached the least length before. -/
theorem eq_nil_of_longer {g more : List Text} {others : List (List Text)}
    (h : Grouped minLength ss (g :: groups)) (h' : Grouped minLength ss ((g ++ more) :: others)) :
    more = [] := by
  by_contra hmore
  have hpos := length_pos_iff.2 hmore
  have hpos' := length_pos_iff.2 (h.ne_nil g (by simp))
  -- the rest of the longer line stands on other lines, so the shorter one is not the last
  have hgroups : groups ≠ [] := by
    rintro rfl
    have hflat := h'.flatten_eq.trans h.flatten_eq.symm
    simp [hmore] at hflat
  have hlong := h.long g (by rw [dropLast_cons_of_ne_nil hgroups]; simp)
  have hshort := (h'.short (g ++ more) (by simp)
    (by rw [length_append]; omega)).2
  rw [dropLast_append_of_ne_nil hmore] at hshort
  have hpart := Measure.codePoints.of_unwords_le [] g more.dropLast
  simp only [Measure.of_codePoints, nil_append] at hpart
  omega

/-- **There is one way to gather sentences.** -/
theorem unique {others : List (List Text)} (h : Grouped minLength ss groups)
    (h' : Grouped minLength ss others) : others = groups := by
  induction groups generalizing ss others with
  | nil =>
    cases others with
    | nil => rfl
    | cons o others =>
      have hflat := h'.flatten_eq.trans h.flatten_eq.symm
      exact absurd (append_eq_nil_iff.1 hflat).1 (h'.ne_nil o (by simp))
  | cons g groups ih =>
    cases others with
    | nil =>
      have hflat := h.flatten_eq.trans h'.flatten_eq.symm
      exact absurd (append_eq_nil_iff.1 hflat).1 (h.ne_nil g (by simp))
    | cons o others =>
      have hflat : o ++ others.flatten = g ++ groups.flatten :=
        h'.flatten_eq.trans h.flatten_eq.symm
      obtain rfl : o = g := by
        rcases append_eq_append_iff.1 hflat with ⟨more, rfl, _⟩ | ⟨more, rfl, _⟩
        · rw [h'.eq_nil_of_longer h, append_nil]
        · rw [h.eq_nil_of_longer h', append_nil]
      have hrest : Grouped minLength groups.flatten others :=
        append_cancel_left hflat ▸ h'.of_cons
      rw [ih h.of_cons hrest]

end Grouped

/-! ## Adding sentences -/

namespace SentenceSettings

variable {s : SentenceSettings}

theorem sentenceLines_of_fits (hwidth : 0 < s.width) {column later : Int} {u : Text} (hu : Solid u)
    (hfits : column + (oneLine u).length ≤ s.width) :
    s.sentenceLines column later u = [oneLine u] := by
  have hcols : 0 < (⟨s.width, column, later⟩ : Columns).width := hwidth
  have hwords : lineWords u ≠ [] := s.filling.words_ne_nil hu
  have hline : breakWords Measure.codePoints.of s.filling.escape ⟨s.width, column, later⟩ [] column
      (lineWords u) = [lineWords u] := by
    refine breakWords_of_fits column (by simp [unwords, joinWith]) (by simpa) ?_
    rw [Measure.of_codePoints]
    exact hfits
  calc s.sentenceLines column later u
      = (breakWords Measure.codePoints.of s.filling.escape ⟨s.width, column, later⟩ [] column
          (lineWords u)).map unwords := paragraphLines_eq_breakWords s.filling hcols u
    _ = [oneLine u] := by rw [hline]; rfl

theorem nextColumn_le (hmin : 0 ≤ s.minLineLength) (ls : List Text) :
    s.nextColumn ls ≤ s.minLineLength := by
  unfold nextColumn
  split
  · exact hmin
  · split
    · next h =>
      simp only [isShort, decide_eq_true_eq] at h
      omega
    · exact hmin

/-- **One more sentence.** Where the width is no limit, adding a sentence to lines that gather those
before it makes lines that gather it too. -/
theorem exists_grouped_addSentence (hmeasure : s.measure = .codePoints) (hwidth : 0 < s.width)
    (hmin : 0 ≤ s.minLineLength) {ss : List Text} {groups : List (List Text)}
    (h : Grouped s.minLineLength (ss.map oneLine) groups) (hss : ∀ v ∈ ss, Solid v) {u : Text}
    (hu : Solid u)
    (hfits : (unwords ((ss ++ [u]).map oneLine)).length + s.minLineLength ≤ s.width) :
    ∃ groups', Grouped s.minLineLength ((ss ++ [u]).map oneLine) groups' ∧
      s.addSentence 0 0 (groups.map unwords) u = groups'.map unwords := by
  have hall : (ss ++ [u]).map oneLine = ss.map oneLine ++ [oneLine u] := by simp
  rw [hall] at hfits ⊢
  have hpart := Measure.codePoints.of_unwords_le (ss.map oneLine) [oneLine u] []
  have hone : unwords [oneLine u] = oneLine u := rfl
  simp only [Measure.of_codePoints, append_nil, hone] at hpart
  have hcolumn := nextColumn_le hmin (groups.map unwords)
  rw [addSentence_eq_addLines, sentenceLines_of_fits hwidth hu (by omega)]
  rcases eq_nil_or_concat' groups with rfl | ⟨init, last, rfl⟩
  · have hnil : ss.map oneLine = [] := by simpa using h.flatten_eq.symm
    rw [hnil]
    exact ⟨[[oneLine u]], .singleton _, rfl⟩
  · have hlast : last ≠ [] := h.ne_nil last (by simp)
    have hjoin : unwords (last ++ [oneLine u]) = unwords last ++ [' '] ++ oneLine u :=
      unwords_append hlast (by simp)
    have hnonempty : unwords last ≠ [] := by
      have hmem : ∀ v ∈ last, Solid v := by
        intro v hv
        have hv' : v ∈ ss.map oneLine := by
          rw [← h.flatten_eq]
          exact mem_flatten.2 ⟨last, by simp, hv⟩
        obtain ⟨w, hw, rfl⟩ := mem_map.1 hv'
        exact solid_oneLine (hss w hw)
      exact (solid_unwords hlast hmem).ne_nil
    rw [map_append, map_singleton, addLines_concat, joinLines]
    by_cases hshort : ((unwords last).length : Int) < s.minLineLength
    · refine ⟨_, h.merge hnonempty hshort _, ?_⟩
      have htakes : (s.isShort (unwords last)
          && decide ((s.measure.of (unwords last) : Int) + 1 + s.measure.of (oneLine u) ≤ s.width))
            := by
        rw [isShort, hmeasure]
        simp only [Measure.of_codePoints, Bool.and_eq_true, decide_eq_true_eq]
        exact ⟨hshort, by omega⟩
      rw [if_pos htakes, ← hjoin, map_append, map_singleton]
    · refine ⟨_, h.append (by omega) _, ?_⟩
      have htakes : s.isShort (unwords last) = false := by
        rw [isShort, hmeasure]
        simpa using hshort
      rw [htakes]
      simp [hone]

theorem exists_grouped_foldl (hmeasure : s.measure = .codePoints) (hwidth : 0 < s.width)
    (hmin : 0 ≤ s.minLineLength) {done todo : List Text} {groups : List (List Text)}
    (h : Grouped s.minLineLength (done.map oneLine) groups) (hsolid : ∀ v ∈ done ++ todo, Solid v)
    (hfits : (unwords ((done ++ todo).map oneLine)).length + s.minLineLength ≤ s.width) :
    ∃ groups', Grouped s.minLineLength ((done ++ todo).map oneLine) groups' ∧
      todo.foldl (s.addSentence 0 0) (groups.map unwords) = groups'.map unwords := by
  induction todo generalizing done groups with
  | nil =>
    rw [append_nil]
    exact ⟨groups, h, rfl⟩
  | cons u todo ih =>
    have hassoc : done ++ u :: todo = done ++ [u] ++ todo := by simp
    rw [hassoc] at hsolid hfits ⊢
    have hpart := Measure.codePoints.of_unwords_le [] ((done ++ [u]).map oneLine) (todo.map oneLine)
    rw [nil_append, ← map_append, Measure.of_codePoints, Measure.of_codePoints] at hpart
    obtain ⟨groups', h', heq⟩ := exists_grouped_addSentence hmeasure hwidth hmin h
      (fun v hv => hsolid v (by simp [hv])) (hsolid u (by simp)) (by omega)
    rw [foldl_cons, heq]
    exact ih h' hsolid hfits

end SentenceSettings

/-! ## Main result -/

/-- **Sentences are gathered by the least length.** For every text and every least length, where the
width leaves room for the whole text behind a short line, the lines are groups of sentences, each on
one line: every line but the last has the least length, and a line of several sentences had not
reached it without the last of them. No other grouping is such. -/
theorem sentences_gathered_by_least_length {minLength width : Int} (hmin : 0 ≤ minLength) {t : Text}
    (hwidth : (separate t).length + minLength ≤ width) :
    ∃ groups, Grouped minLength ((SentenceSplitter.prose.split (flat t)).map oneLine) groups ∧
      (∀ others, Grouped minLength ((SentenceSplitter.prose.split (flat t)).map oneLine) others →
        others = groups) ∧
      bySentence { width, minLineLength := minLength } t {}
        = rejoin (unlines (groups.map unwords)) := by
  obtain ⟨hstrewn, hsolid⟩ := strewn_splitProse (flat t) 0 isEnd
  have hlength := length_unwords_oneLine_le hstrewn hsolid
  rw [length_separate_flat] at hlength
  have hout : bySentence { width, minLineLength := minLength } t {}
      = if width ≤ 0 then unwords (words (flat t))
        else rejoin (unlines (SentenceSettings.lines { width, minLineLength := minLength } 0 0 (flat t))) :=
    fillBySentence_eq { width, minLineLength := minLength } t
  rcases Int.lt_or_le 0 width with hpos | hnonpos
  · have hstart : Grouped minLength (([] : List Text).map oneLine) [] := .nil
    obtain ⟨groups, hgroups, heq⟩ := SentenceSettings.exists_grouped_foldl
      (s := { width, minLineLength := minLength }) rfl hpos hmin hstart (by simpa using hsolid) (by
        rw [nil_append]
        show _ + minLength ≤ width
        omega)
    refine ⟨groups, hgroups, fun _ => hgroups.unique, ?_⟩
    rw [hout, if_neg (by omega), SentenceSettings.lines_eq_foldl rfl]
    exact congrArg (fun ls => rejoin (unlines ls)) heq
  · -- only the empty text leaves no width at all
    have hnil : t = [] := by
      rw [← (reseamed_apply [] [' '] t).eq_nil_iff, ← length_eq_zero_iff]
      change (separate t).length = 0
      omega
    subst hnil
    have hsplit : SentenceSplitter.prose.split (flat []) = [] := by
      simp [SentenceSplitter.split, flat, splitProse, spans, words_nil, gather]
    rw [hsplit, hout, if_pos hnonpos]
    exact ⟨[], .nil, fun _ => Grouped.nil.unique, rejoin_nil.symm⟩

/-- Three sentences, of which the first two are short, around a pair of tags. -/
theorem three_sentences_gathered :
    (0 : Int) ≤ 6 ∧
      ((separate ['A', 'b', '.', ' ', 'C', 'd', '.', '\n', '{', '{', 'x', '}', '}', '{', '{', 'y', '}',
        '}']).length : Int) + 6 ≤ 25 ∧
      bySentence { width := 25, minLineLength := 6 }
          ['A', 'b', '.', ' ', 'C', 'd', '.', '\n', '{', '{', 'x', '}', '}', '{', '{', 'y', '}', '}'] {}
        = ['A', 'b', '.', ' ', 'C', 'd', '.', '\n', '{', '{', 'x', '}', '}', '{', '{', 'y', '}', '}'] ∧
      ∃ groups, Grouped 6 ((SentenceSplitter.prose.split (flat ['A', 'b', '.', ' ', 'C', 'd', '.', '\n',
          '{', '{', 'x', '}', '}', '{', '{', 'y', '}', '}'])).map oneLine) groups ∧
        (∀ others, Grouped 6 ((SentenceSplitter.prose.split (flat ['A', 'b', '.', ' ', 'C', 'd', '.',
          '\n', '{', '{', 'x', '}', '}', '{', '{', 'y', '}', '}'])).map oneLine) others →
          others = groups) ∧
        bySentence { width := 25, minLineLength := 6 }
            ['A', 'b', '.', ' ', 'C', 'd', '.', '\n', '{', '{', 'x', '}', '}', '{', '{', 'y', '}', '}'] {}
          = rejoin (unlines (groups.map unwords)) :=
  ⟨by decide, by decide +kernel, by decide +kernel,
    sentences_gathered_by_least_length (by decide) (by decide +kernel)⟩

end Reflow.Wrap
