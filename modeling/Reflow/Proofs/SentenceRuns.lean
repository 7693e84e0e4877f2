import Reflow.Proofs.RefillingSentences

/-!
A run of the lines of a text, filled sentence by sentence again.

Lines are only ever added at the end, so lines that are cut in two are made by the sentences on
either side of the cut, one of which the cut may divide (`Parted`). The parts are sentences again if
no construct reaches across (`SentenceCut.parted`). The lines before the cut are made as they were;
those after it are too unless the first of them starts a sentence and the line before it is short,
for then it was made from further right (`exists_parted`).
-/

open List

namespace Reflow.Relaid

open Text Sentence

/-! ## Sentences on either side of a cut -/

theorem SentenceCut.uncons {s : Text} {ss : List Text} (hne : ss ≠ [])
    (h : SentenceCut (unwords (s :: ss)) (s :: ss)) :
    (∃ ws, Cut Construct.prose s ws ∧ Unended ws ∧ ∃ w ∈ ws.getLast?, isEnd w) ∧
      Apart Construct.prose s [' '] (unwords ss) ∧ SentenceCut (unwords ss) ss := by
  rw [unwords_cons hne] at h
  generalize htext : s ++ ' ' :: unwords ss = text at h
  cases h with
  | last _ _ => exact absurd rfl hne
  | @cons _ g t ws _ hcut hunended hended hapart hrest =>
    obtain ⟨rfl, rfl⟩ := space_append_inj (solid_unwords hne hrest.solid_sentences) hrest.solid
      hapart.blank.2 htext
    exact ⟨⟨ws, hcut, hunended, hended⟩, hapart, hrest⟩

theorem SentenceCut.exists_of_singleton {t s : Text} (h : SentenceCut t [s]) :
    ∃ ws, Cut Construct.prose s ws ∧ Unended ws := by
  cases h with
  | last hcut hws => exact ⟨_, hcut, hws⟩
  | cons _ _ _ _ hrest => exact absurd rfl hrest.ne_nil

/-- Sentences cut in two lists, between two of them or within one. -/
inductive Parted : List Text → List Text → List Text → Prop
  | start (ss : List Text) : Parted ss [] ss
  | within {x y : Text} (ss : List Text) : Solid x → Solid y →
      Parted ((x ++ [' '] ++ y) :: ss) [x] (y :: ss)
  | cons (s : Text) {ss xs ys : List Text} : Parted ss xs ys → Parted (s :: ss) (s :: xs) ys

theorem Parted.unwords_eq {ss xs ys : List Text} (h : Parted ss xs ys) (hxs : xs ≠ [])
    (hys : ys ≠ []) : unwords ss = unwords xs ++ [' '] ++ unwords ys := by
  induction h with
  | start ss => exact absurd rfl hxs
  | @within x y ss _ _ =>
    by_cases hss : ss = []
    · subst hss
      rfl
    · simp [unwords, joinWith]
  | @cons s ss xs ys h ih =>
    by_cases hnil : xs = []
    · subst hnil
      cases h
      simp [unwords, joinWith]
    · have hss : ss ≠ [] := by
        rintro rfl
        cases h
        exact hys rfl
      rw [unwords_cons hss, ih hnil hys, unwords_cons hnil]
      simp

theorem exists_cut_within {x y : Text} {ws : List Text} (hx : Solid x) (hy : Solid y)
    (hapart : Apart Construct.prose x [' '] y) (hcut : Cut Construct.prose (x ++ [' '] ++ y) ws)
    (hws : Unended ws) :
    (∃ us, Cut Construct.prose x us ∧ Unended us) ∧
      ∃ vs, Cut Construct.prose y vs ∧ Unended vs ∧ vs.getLast? = ws.getLast? := by
  obtain ⟨us, hus⟩ := exists_cut Construct.prose hx
  obtain ⟨vs, hvs⟩ := exists_cut Construct.prose hy
  obtain rfl : us ++ vs = ws := by rw [← (hus.append hapart hvs).words_eq, hcut.words_eq]
  have hdrop : (us ++ vs).dropLast = us ++ vs.dropLast := dropLast_append_of_ne_nil hvs.ne_nil
  rw [Unended, hdrop] at hws
  refine ⟨⟨us, hus, fun w hw => hws w ?_⟩, vs, hvs, fun w hw => hws w (by simp [hw]), ?_⟩
  · exact mem_append_left _ (dropLast_subset us hw)
  · rw [getLast?_append, Option.or_of_isSome]
    simpa using hvs.ne_nil

/-- **Sentences on either side.** If no construct reaches across the cut, the sentences of either
side are its parts. -/
theorem SentenceCut.parted {ss xs ys : List Text} (hcut : SentenceCut (unwords ss) ss)
    (h : Parted ss xs ys) (hxs : xs ≠ []) (hys : ys ≠ [])
    (hapart : Apart Construct.prose (unwords xs) [' '] (unwords ys)) :
    SentenceCut (unwords xs) xs ∧ SentenceCut (unwords ys) ys := by
  -- the cut is inside the first sentence, right after it, or further on
  induction h with
  | start ss => exact absurd rfl hxs
  | @within x y ss hx hy =>
    by_cases hss : ss = []
    · subst hss
      obtain ⟨ws, hwords, hunended⟩ := hcut.exists_of_singleton
      obtain ⟨⟨us, hus, hus'⟩, vs, hvs, hvs', _⟩ := exists_cut_within hx hy hapart hwords hunended
      exact ⟨.last hus hus', .last hvs hvs'⟩
    · obtain ⟨⟨ws, hwords, hunended, hended⟩, hnext, hrest⟩ := hcut.uncons hss
      have htext : unwords (y :: ss) = y ++ [' '] ++ unwords ss := by simp [unwords_cons hss]
      rw [htext] at hapart ⊢
      obtain ⟨hxy, hy'⟩ := hapart.between hnext
      obtain ⟨⟨us, hus, hus'⟩, vs, hvs, hvs', hlast⟩ := exists_cut_within hx hy hxy hwords hunended
      exact ⟨.last hus hus', .cons hvs hvs' (hlast ▸ hended) hy' hrest⟩
  | @cons s ss xs ys h ih =>
    by_cases hnil : xs = []
    · subst hnil
      cases h
      obtain ⟨⟨ws, hwords, hunended, _⟩, _, hrest⟩ := hcut.uncons hys
      exact ⟨.last hwords hunended, hrest⟩
    · have hss : ss ≠ [] := by
        rintro rfl
        cases h
        exact hys rfl
      obtain ⟨⟨ws, hwords, hunended, hended⟩, hnext, hrest⟩ := hcut.uncons hss
      have htext : unwords (s :: xs) = s ++ [' '] ++ unwords xs := by simp [unwords_cons hnil]
      rw [htext] at hapart ⊢
      rw [h.unwords_eq hnil hys] at hnext
      obtain ⟨hfirst, hothers⟩ := hnext.between hapart
      obtain ⟨hleft, hright⟩ := ih hrest hnil hys hothers
      exact ⟨.cons hwords hunended hended hfirst hleft, hright⟩

end Reflow.Relaid

namespace Reflow.Wrap

open Text Sentence Tag Relaid

namespace SentenceSettings

variable {s : SentenceSettings} {ls : List Text} (xs : List Text)

/-! ## Lines are added at the end -/

theorem nextColumn_append (h : ls ≠ []) : s.nextColumn (xs ++ ls) = s.nextColumn ls := by
  obtain ⟨init, last, rfl⟩ := (eq_nil_or_concat' ls).resolve_left h
  simp [nextColumn, getLast?_append]

theorem addLines_append (h : ls ≠ []) (rows : List Text) :
    s.addLines (xs ++ ls) rows = xs ++ s.addLines ls rows := by
  obtain ⟨init, last, rfl⟩ := (eq_nil_or_concat' ls).resolve_left h
  rw [← append_assoc, addLines_concat, addLines_concat, append_assoc]

theorem addSentence_append (h : ls ≠ []) (t : Text) :
    s.addSentence 0 0 (xs ++ ls) t = xs ++ s.addSentence 0 0 ls t := by
  rw [addSentence_eq_addLines, nextColumn_append xs h, addLines_append xs h,
    addSentence_eq_addLines]

theorem addSentence_ne_nil (h : ls ≠ []) (t : Text) : s.addSentence 0 0 ls t ≠ [] := by
  rw [addSentence_eq_addLines]
  exact addLines_ne_nil (.inl h)

theorem foldl_append_lines (h : ls ≠ []) (ts : List Text) :
    ts.foldl (s.addSentence 0 0) (xs ++ ls) = xs ++ ts.foldl (s.addSentence 0 0) ls := by
  induction ts generalizing ls with
  | nil => rfl
  | cons t ts ih =>
    rw [foldl_cons, foldl_cons, addSentence_append xs h, ih (addSentence_ne_nil h t)]

theorem settled_append_lines (h : ls ≠ []) {ts : List Text} :
    s.Settled (xs ++ ls) ts ↔ s.Settled ls ts := by
  induction ts generalizing ls with
  | nil => exact Iff.rfl
  | cons t ts ih =>
    rw [Settled, Settled, nextColumn_append xs h, addSentence_append xs h,
      ih (addSentence_ne_nil h t)]

/-! ## Lines cut in two -/

/-- What follows the lines of earlier sentences is the end of the rows that were added. -/
theorem exists_of_addLines {ls rows xs ys : List Text} (h : s.addLines ls rows = xs ++ ys)
    (hlen : ls.length ≤ xs.length) (hxs : xs ≠ []) (hys : ys ≠ []) :
    ∃ front, rows = front ++ ys ∧
      (front = [] ∧ xs = ls ∨ front ≠ [] ∧ s.addLines ls front = xs) := by
  rcases eq_nil_or_concat' ls with rfl | ⟨init, last, rfl⟩
  · exact ⟨xs, h, .inr ⟨hxs, rfl⟩⟩
  · simp only [addLines_concat] at h ⊢
    obtain ⟨zs, rfl⟩ : ∃ zs, xs = init ++ zs := by
      refine (prefix_of_prefix_length_le ⟨_, h⟩ (prefix_append xs ys) ?_).imp
        fun _ => Eq.symm
      simp only [length_append, length_singleton] at hlen
      omega
    rw [append_assoc] at h
    replace h := append_cancel_left h
    have hzs : zs ≠ [] := by
      rintro rfl
      simp only [append_nil, length_append, length_singleton] at hlen
      omega
    obtain ⟨z, zs, rfl⟩ := exists_cons_of_ne_nil hzs
    -- the first of the new lines has joined the last of the old ones, or it stands after it
    cases rows with
    | nil =>
      rw [joinLines, cons_append, cons.injEq] at h
      exact absurd (append_eq_nil_iff.1 h.2.symm).2 hys
    | cons row rows =>
      rw [joinLines] at h
      split at h
      · next hjoin =>
        obtain ⟨rfl, rfl⟩ := h
        exact ⟨row :: zs, rfl, .inr ⟨by simp, by rw [joinLines, if_pos hjoin]⟩⟩
      · next hjoin =>
        rw [cons_append, cons.injEq] at h
        obtain ⟨rfl, h⟩ := h
        cases zs with
        | nil => exact ⟨[], h, .inl ⟨rfl, rfl⟩⟩
        | cons z zs =>
          obtain ⟨rfl, rfl⟩ := h
          exact ⟨row :: zs, rfl, .inr ⟨by simp, by rw [joinLines, if_neg hjoin]⟩⟩

theorem solid_of_mem_sentenceLines (hwidth : 0 < s.width) {column later : Int} {t l : Text}
    (h : l ∈ s.sentenceLines column later t) : Solid l := by
  obtain ⟨rows, hfilled, heq⟩ := s.sentenceLines_eq hwidth column later t
  rw [heq] at h
  obtain ⟨r, hr, rfl⟩ := mem_map.1 h
  refine Row.solid_text (hfilled.ne_nil r hr) fun w hw => s.filling.solid_words t w ?_
  rw [← hfilled.words_eq]
  exact mem_flatMap.2 ⟨r, hr, hw⟩

/-- **Sentences on either side of a line break.** The lines before it are made by the sentences
before it. The lines after it are made by those after it if the line before it is not short. -/
theorem exists_parted (hs : s.markdown) (hwidth : 0 < s.width) {ls ts : List Text}
    (hts : ∀ t ∈ ts, TagsApart t) (hsettled : s.Settled ls ts) {xs ys : List Text}
    (h : ts.foldl (s.addSentence 0 0) ls = xs ++ ys) (hlen : ls.length ≤ xs.length)
    (hxs : xs ≠ []) (hys : ys ≠ []) :
    ∃ us vs, Parted ts us vs ∧ vs ≠ [] ∧
      (s.Settled ls us ∧ us.foldl (s.addSentence 0 0) ls = xs) ∧
      ((∀ l ∈ xs.getLast?, s.isShort l = false) →
        s.Settled [] vs ∧ vs.foldl (s.addSentence 0 0) [] = ys) := by
  induction ts generalizing ls with
  | nil =>
    rw [foldl_nil] at h
    rw [h, length_append] at hlen
    have hpos := length_pos_iff.2 hys
    omega
  | cons t ts ih =>
    obtain ⟨hne, hwords, hrest⟩ := hsettled
    have hadd := s.addSentence_eq_addLines ls t
    rw [foldl_cons] at h
    by_cases hlen' : (s.addSentence 0 0 ls t).length ≤ xs.length
    · obtain ⟨us, vs, hparted, hvs, ⟨hsettled, hfold⟩, hlong⟩ :=
        ih (fun u hu => hts u (by simp [hu])) hrest h hlen'
      exact ⟨t :: us, vs, .cons t hparted, hvs, ⟨⟨hne, hwords, hsettled⟩, hfold⟩, hlong⟩
    · -- the lines break where the sentence is added or between two of its lines
      obtain ⟨zs, hsplit, hzs⟩ : ∃ zs, s.addSentence 0 0 ls t = xs ++ zs ∧ zs ≠ [] := by
        have hdrop : (s.addSentence 0 0 ls t).drop xs.length ≠ [] := by
          rw [Ne, drop_eq_nil_iff]
          exact hlen'
        rw [← take_append_drop xs.length (s.addSentence 0 0 ls t),
          foldl_append_lines _ hdrop] at h
        have htake : (s.addSentence 0 0 ls t).take xs.length = xs :=
          append_inj_left h (by rw [length_take]; omega)
        refine ⟨_, ?_, hdrop⟩
        conv_lhs => rw [← take_append_drop xs.length (s.addSentence 0 0 ls t), htake]
      rw [hsplit, foldl_append_lines xs hzs] at h
      rw [hsplit, settled_append_lines xs hzs] at hrest
      obtain rfl := append_cancel_left h
      rw [hadd] at hsplit
      obtain ⟨front, hrows, ⟨rfl, rfl⟩ | ⟨hfront, hxs'⟩⟩ := exists_of_addLines hsplit hlen hxs hzs
      · refine ⟨[], t :: ts, .start _, by simp, ⟨trivial, rfl⟩, fun hlong => ?_⟩
        -- nothing precedes the sentence on its line, so it starts at the first column
        have hcolumn : s.nextColumn xs = s.nextColumn [] := by
          obtain ⟨init, last, rfl⟩ := (eq_nil_or_concat' xs).resolve_left hxs
          simp [nextColumn, hlong last (by simp)]
        have hfirst : s.addSentence 0 0 [] t = zs := by
          rw [addSentence_eq_addLines, ← hcolumn, hrows]
          rfl
        rw [hcolumn] at hne hwords
        exact ⟨⟨hne, hwords, hfirst ▸ hrest⟩, by rw [foldl_cons, hfirst]⟩
      · have hapart : TagsApart t := hts t (by simp)
        have hrows' : s.sentenceLines (s.nextColumn ls) 0 t = [] ++ front ++ zs := hrows
        have hrows'' : s.sentenceLines (s.nextColumn ls) 0 t = front ++ zs ++ [] := by simpa using hrows
        have hleft : s.sentenceLines (s.nextColumn ls) 0 (unwords front) = front :=
          sentenceLines_run hs hwidth hapart hrows' (by simp)
        have hright : s.sentenceLines (s.nextColumn []) 0 (unwords zs) = zs :=
          sentenceLines_run hs hwidth hapart hrows'' (by simp [hfront, nextColumn])
        have hsolid : ∀ l ∈ front ++ zs, Solid l := fun l hl =>
          solid_of_mem_sentenceLines hwidth (hrows ▸ hl)
        have ht : t = unwords front ++ [' '] ++ unwords zs := by
          rw [← unwords_append hfront hzs, ← hrows, hwords]
        have hadd' : s.addSentence 0 0 ls (unwords front) = xs := by
          rw [addSentence_eq_addLines, hleft, hxs']
        have hfirst : s.addSentence 0 0 [] (unwords zs) = zs := by
          rw [addSentence_eq_addLines, hright]
          rfl
        refine ⟨[unwords front], unwords zs :: ts, ?_, by simp, ⟨⟨?_, ?_, trivial⟩, hadd'⟩,
          fun _ => ⟨⟨?_, ?_, ?_⟩, ?_⟩⟩
        · rw [ht]
          exact .within ts (solid_unwords hfront fun l hl => hsolid l (by simp [hl]))
            (solid_unwords hzs fun l hl => hsolid l (by simp [hl]))
        · rwa [hleft]
        · rw [hleft]
        · rwa [hright]
        · rw [hright]
        · rwa [hfirst]
        · rw [foldl_cons, hfirst]

/-! ## Lines and the sentences that make them -/

/-- The sentences make the lines, and are found again in them as they are. -/
structure Composed (s : SentenceSettings) (ss ls : List Text) : Prop where
  cut : SentenceCut (unwords ss) ss
  tagsApart : TagsApart (unwords ss)
  settled : s.Settled [] ss
  lines_eq : ss.foldl (s.addSentence 0 0) [] = ls

namespace Composed

variable {ss ls : List Text}

theorem unwords_eq (h : s.Composed ss ls) : unwords ls = unwords ss := by
  rw [← h.lines_eq, h.settled.unwords_foldl, nil_append]

theorem lines_again (h : s.Composed ss ls) (hsplit : s.splitter = .prose) :
    s.lines 0 0 (unwords ls) = ls := by
  have hback := h.cut.splitProse_eq (g := []) (by simp)
  rw [append_nil] at hback
  rw [lines_eq_foldl hsplit, h.unwords_eq, hback, h.lines_eq]

/-- **Lines cut in two**, where no construct reaches across. -/
theorem split (hs : s.markdown) (hwidth : 0 < s.width) {xs ys : List Text}
    (h : s.Composed ss (xs ++ ys)) (hxs : xs ≠ []) (hys : ys ≠ [])
    (hapart : Apart Construct.prose (unwords xs) [' '] (unwords ys)) :
    (∃ us, s.Composed us xs) ∧
      ((∀ l ∈ xs.getLast?, s.isShort l = false) → ∃ vs, s.Composed vs ys) := by
  obtain ⟨us, vs, hparted, hvs, ⟨hsettled, hfold⟩, hlong⟩ := exists_parted hs hwidth
    (fun t ht => (h.cut.tagsApart h.tagsApart t ht).2) h.settled h.lines_eq (by simp) hxs hys
  have hus : us ≠ [] := by
    rintro rfl
    exact hxs hfold.symm
  -- the text is cut where the lines are
  have hleft : unwords us = unwords xs := by
    rw [← hfold, hsettled.unwords_foldl, nil_append]
  have htext := hparted.unwords_eq hus hvs
  have hright : unwords vs = unwords ys := by
    have hlines := h.unwords_eq
    rw [unwords_append hxs hys, htext, hleft] at hlines
    exact (append_cancel_left hlines).symm
  rw [← hleft, ← hright] at hapart
  obtain ⟨hcut, hcut'⟩ := h.cut.parted hparted hus hvs hapart
  have htags := h.tagsApart
  rw [htext] at htags
  refine ⟨⟨us, hcut, htags.of_isInfix ?_, hsettled, hfold⟩, fun hshort => ⟨vs, hcut',
    htags.of_isInfix ?_, (hlong hshort).1, (hlong hshort).2⟩⟩
  · rw [append_assoc]
    exact (prefix_append _ _).isInfix
  · exact (suffix_append _ _).isInfix

end Composed

theorem exists_composed (hs : s.markdown) (hsplit : s.splitter = .prose)
    (hwidth : 0 < s.width) {t : Text} (ht : TagsApart t) :
    Relays t (unwords (s.lines 0 0 t)) ∧
      (s.lines 0 0 t = [] ∨ ∃ ss, s.Composed ss (s.lines 0 0 t)) := by
  rcases splitProse_cases t with ⟨hnil, hrelays⟩ | ⟨core, hcut, hrelays⟩
  · have hlines : s.lines 0 0 t = [] := by
      rw [lines_eq_foldl hsplit, hnil]
      rfl
    rw [hlines]
    exact ⟨hrelays, .inl rfl⟩
  · have hapart : TagsApart core := ht.relays hrelays
    obtain ⟨ss, hlaid, hsettled, hfold⟩ := exists_foldl_again hs hwidth [] (hcut.tagsApart hapart)
    obtain ⟨hcut', hrelays'⟩ := hcut.of_laidOut hapart hlaid
    have hcomposed : s.Composed ss (s.lines 0 0 t) :=
      ⟨hcut', hapart.relays hrelays', hsettled, by rw [hfold, lines_eq_foldl hsplit]⟩
    rw [hcomposed.unwords_eq]
    exact ⟨hrelays.trans hrelays', .inr ⟨ss, hcomposed⟩⟩

/-! ## Runs of lines -/

/-- No construct reaches from the first lines into the others. -/
def Unbridged (xs ys : List Text) : Prop :=
  xs = [] ∨ ys = [] ∨ Apart Construct.prose (unwords xs) [' '] (unwords ys)

/-- A run of lines that can do without the others: no construct reaches across its ends, and the
line before it is not short. -/
structure Detached (s : SentenceSettings) (before run after : List Text) : Prop where
  unbridged_before : Unbridged before (run ++ after)
  unbridged_after : Unbridged (before ++ run) after
  long : ∀ l ∈ before.getLast?, s.isShort l = false

/-- **A run of lines is made by sentences of its own.** -/
theorem Composed.run (hs : s.markdown) (hwidth : 0 < s.width)
    {ss before run after : List Text} (h : s.Composed ss (before ++ run ++ after)) (hrun : run ≠ [])
    (hdetached : s.Detached before run after) : ∃ vs, s.Composed vs run := by
  obtain ⟨hbefore, hafter, hlong⟩ := hdetached
  by_cases hnil : before = []
  · subst hnil
    by_cases hend : after = []
    · subst hend
      exact ⟨ss, by simpa using h⟩
    · exact (h.split hs hwidth hrun hend ((hafter.resolve_left hrun).resolve_left hend)).1
  · have hstart := (hbefore.resolve_left hnil).resolve_left (by simp [hrun])
    rw [append_assoc] at h
    obtain ⟨vs, hvs⟩ := (h.split hs hwidth hnil (by simp [hrun]) hstart).2 hlong
    by_cases hend : after = []
    · subst hend
      exact ⟨vs, by simpa using hvs⟩
    · have hstop := (hafter.resolve_left (by simp [hrun])).resolve_left hend
      rw [unwords_append hrun hend] at hstart
      rw [unwords_append hnil hrun] at hstop
      exact (hvs.split hs hwidth hrun hend (hstart.between hstop).2).1

end SentenceSettings

/-! ## Filling a run of lines again -/

/-- **Filling sentence by sentence** lays out a text in which no tags meet. -/
theorem fillBySentence_eq_unlines {s : SentenceSettings} (hs : s.markdown)
    (hsplit : s.splitter = .prose) (hwidth : 0 < s.width) {t : Text} (ht : TagsApart t) :
    fillBySentence s t {} = unlines (s.lines 0 0 (flat t)) ∧ Relays t (fillBySentence s t {}) := by
  obtain ⟨rows, hlaid, hrows⟩ := exists_lines_eq hs hwidth (flat t)
  have hnewline : ∀ l ∈ s.lines 0 0 (flat t), '\n' ∉ l := hrows ▸ hlaid.newline_not_mem
  have hflat := (relays_flat t).1
  have hrelays : Relays t (unlines (s.lines 0 0 (flat t))) :=
    hflat.trans ((SentenceSettings.exists_composed hs hsplit hwidth (ht.relays hflat)).1.trans
      (relays_unlines hnewline))
  rw [fillBySentence_eq, if_neg (by omega), (ht.relays hrelays).rejoin_eq]
  exact ⟨rfl, hrelays⟩

/-- **A run of filled lines, filled again.** -/
theorem fillBySentence_run {s : SentenceSettings} (hs : s.markdown)
    (hsplit : s.splitter = .prose) (hwidth : 0 < s.width) {t : Text} (ht : TagsApart t)
    {before run after : List Text} (hrun : run ≠ [])
    (h : lines (fillBySentence s t {}) = before ++ run ++ after)
    (hdetached : s.Detached before run after) :
    fillBySentence s (unlines run) {} = unlines run := by
  have hflat := (relays_flat t).1
  obtain ⟨rows, hlaid, hrows⟩ := exists_lines_eq hs hwidth (flat t)
  have hnewline : ∀ l ∈ s.lines 0 0 (flat t), '\n' ∉ l := hrows ▸ hlaid.newline_not_mem
  obtain ⟨hfill, _⟩ := fillBySentence_eq_unlines hs hsplit hwidth ht
  rcases (SentenceSettings.exists_composed hs hsplit hwidth (ht.relays hflat)).2 with
    hnil | ⟨ss, hcomposed⟩
  · -- there is nothing in the text but blanks
    have hpart : run <:+: [[]] := by
      refine ⟨before, after, ?_⟩
      rw [← h, hfill, hnil]
      rfl
    have hempty : s.lines 0 0 (flat []) = [] := by
      rw [SentenceSettings.lines_eq_foldl hsplit]
      simp [flat, splitProse, spans, words_nil, gather]
    rw [eq_of_isInfix_singleton hpart hrun]
    show fillBySentence s [] {} = []
    rw [fillBySentence_eq, if_neg (by omega), hempty]
    exact rejoin_nil
  · have hlines : s.lines 0 0 (flat t) = before ++ run ++ after := by
      rw [← h, hfill, lines_unlines ?_ hnewline]
      intro hnil
      refine hcomposed.cut.solid.ne_nil ?_
      rw [← hcomposed.unwords_eq, hnil]
      rfl
    rw [hlines] at hcomposed hnewline
    obtain ⟨vs, hvs⟩ := hcomposed.run hs hwidth hrun hdetached
    have hrunLines : ∀ l ∈ run, '\n' ∉ l := fun l hl => hnewline l (by simp [hl])
    have hapart : TagsApart (unlines run) := by
      refine TagsApart.relays ?_ (relays_unlines hrunLines)
      rw [hvs.unwords_eq]
      exact hvs.tagsApart
    rw [(fillBySentence_eq_unlines hs hsplit hwidth hapart).1, flat_unlines hrunLines,
      hvs.lines_again hsplit]

end Reflow.Wrap
