import Reflow.Proofs.Refilling

/-!
Filling sentence by sentence again.

The lines of a text are made sentence by sentence, each sentence filled from where the last line
stands. Joined by spaces, these lines are the sentences as they were laid out
(`exists_foldl_again`), and cutting them into sentences finds these sentences again
(`SentenceCut.of_laidOut`). Each is filled from where it was, so the lines are the same.
-/

open List

namespace Reflow.Relaid

open Text Sentence Wrap Tag

/-! ## Sentences of a collapsed text -/

variable {t : Text} {ss : List Text} {zs : List Cell} {cs : List (List Cell)}

theorem SentenceCut.isInfix (h : SentenceCut t ss) : ∀ s ∈ ss, s <:+: t := by
  induction h with
  | last _ _ => simp
  | @cons s g t ws ss _ _ _ _ _ ih =>
    intro u hu
    rcases mem_cons.1 hu with rfl | hu
    · exact ⟨[], g ++ t, by simp⟩
    · exact (ih u hu).trans (suffix_append _ _).isInfix

theorem SentenceCut.solid_sentences (h : SentenceCut t ss) : ∀ s ∈ ss, Solid s := by
  induction h with
  | last hcut _ => simpa using hcut.solid
  | @cons s g t ws ss hcut _ _ _ _ ih =>
    intro u hu
    rcases mem_cons.1 hu with rfl | hu
    · exact hcut.solid
    · exact ih u hu

theorem SentenceCut.ne_nil (h : SentenceCut t ss) : ss ≠ [] := by
  cases h <;> simp

theorem Joined.subset (h : Joined zs cs) : ∀ c ∈ cs, ∀ z ∈ c, z ∈ zs := by
  induction h with
  | last c => simp
  | cons c g g' _ ih =>
    intro d hd z hz
    rcases mem_cons.1 hd with rfl | hd
    · exact mem_append_left _ hz
    · exact mem_append_right _ (mem_cons_of_mem _ (ih d hd z hz))

theorem Joined.ne_nil (h : Joined zs cs) : cs ≠ [] := by
  cases h <;> simp

theorem Joined.out_eq_unwords (h : Joined zs cs) (hzs : ∀ z ∈ zs, z.Squeezes) :
    out zs = unwords (cs.map out) := by
  induction h with
  | last c => rfl
  | @cons c g g' zs cs hjoined ih =>
    have hspace : g' = [' '] := hzs (.gap g g') (by simp)
    rw [out_append, out_gap, ih fun z hz => hzs z (by simp [hz]), map_cons,
      unwords_cons (by simpa using hjoined.ne_nil), hspace]
    rfl

theorem SentenceCut.collapse (h : SentenceCut t ss) :
    SentenceCut (collapse t) (ss.map collapse) ∧
      collapse t = unwords (ss.map collapse) := by
  obtain ⟨zs, hfit, hall, rfl⟩ := exists_squeezed t
  obtain ⟨cs, rfl, hcut, hjoined⟩ := h.relaid hfit
  have hout : cs.map out = (cs.map src).map collapse := by
    rw [map_map]
    exact map_congr_left fun c hc =>
      out_eq_collapse (hjoined.fit hfit c hc) fun z hz => hall z (hjoined.subset c hc z hz)
  rw [← hout, ← out_eq_collapse hfit hall]
  exact ⟨hcut, hjoined.out_eq_unwords hall⟩

/-! ## Sentences as they are laid out -/

/-- How a sentence may be laid out: its words as they are shown, joined by spaces. -/
def LaidOut (s s' : Text) : Prop := ∃ vs, Forall₂ Shown (lineWords s) vs ∧ s' = unwords vs

theorem exists_sentence_cells {ss' : List Text} (h : Forall₂ LaidOut ss ss')
    (hss : ∀ s ∈ ss, Solid s ∧ TagsApart s) :
    ∃ cs : List (List Cell), cs.map src = ss.map collapse ∧ cs.map out = ss' ∧
      ∀ c ∈ cs, Fit true c := by
  induction h with
  | nil => exact ⟨[], rfl, rfl, by simp⟩
  | @cons s s' ss ss' hs _ ih =>
    obtain ⟨cs, hsrc, hout, hall⟩ := ih fun u hu => hss u (by simp [hu])
    obtain ⟨hsolid, hapart⟩ := hss s (by simp)
    obtain ⟨vs, hshown, rfl⟩ := hs
    obtain ⟨ds, _, _, hds, hfit, hcollapse⟩ := exists_layout hsolid hshown
    refine ⟨joinCells ds :: cs, ?_, ?_, by simpa using ⟨hfit, hall⟩⟩
    · rw [map_cons, map_cons, hcollapse, separated_eq_of_tagsApart hapart, hsrc]
    · rw [map_cons, out_joinCells, hds, hout]

theorem SentenceCut.tagsApart (h : SentenceCut t ss) (ht : TagsApart t) :
    ∀ s ∈ ss, Solid s ∧ TagsApart s := fun s hs =>
  ⟨h.solid_sentences s hs, ht.of_isInfix (h.isInfix s hs)⟩

/-- **Sentences read back.** Sentences as they were laid out are a layout of the text, and cutting it
gives them back. -/
theorem SentenceCut.of_laidOut {ss' : List Text} (hcut : SentenceCut t ss) (ht : TagsApart t)
    (h : Forall₂ LaidOut ss ss') : SentenceCut (unwords ss') ss' ∧ Relays t (unwords ss') := by
  obtain ⟨hcollapse, hunwords⟩ := hcut.collapse
  obtain ⟨cs, hsrc, hout, hall⟩ := exists_sentence_cells h (hcut.tagsApart ht)
  have hsolid : ∀ c ∈ cs, Solid (src c) := fun c hc =>
    hcollapse.solid_sentences _ (hsrc ▸ mem_map.2 ⟨c, hc, rfl⟩)
  have hne : cs ≠ [] := by
    rintro rfl
    exact hcollapse.ne_nil hsrc.symm
  have hfit := fit_joinCells hall hsolid
  have htext : src (joinCells cs) = Text.collapse t := by rw [src_joinCells, hsrc, hunwords]
  rw [← hout, ← out_joinCells]
  constructor
  · refine SentenceCut.of_joined ?_ hfit (joined_joinCells hne)
    rw [htext, hsrc]
    exact hcollapse
  · refine (relays_collapse t).trans ?_
    rw [← htext]
    exact .step hfit (.refl _)

end Reflow.Relaid

namespace Reflow.Wrap

open Text Sentence Tag Relaid

/-! ## Adding sentences again -/

theorem unwords_append_congr {xs ys : List Text} (hxs : xs ≠ []) (hys : ys ≠ [])
    (h : unwords xs = unwords ys) (zs : List Text) :
    unwords (xs ++ zs) = unwords (ys ++ zs) ∧ unwords (zs ++ xs) = unwords (zs ++ ys) := by
  by_cases hzs : zs = []
  · subst hzs
    simpa using h
  · rw [unwords_append hxs hzs, unwords_append hys hzs, unwords_append hzs hxs,
      unwords_append hzs hys, h]
    exact ⟨rfl, rfl⟩

namespace SentenceSettings

variable {s : SentenceSettings}

theorem sentenceLines_eq_markdown (hs : s.markdown) (column later : Int) (t : Text) :
    s.sentenceLines column later t
      = paragraphLines (markdownSettings .codePoints) ⟨s.width, column, later⟩ t := by
  unfold sentenceLines
  rw [hs]
  rfl

theorem sentenceLines_run (hs : s.markdown) (hwidth : 0 < s.width) {column later : Int}
    {t : Text} (ht : TagsApart t) {before ls after : List Text}
    (h : s.sentenceLines column later t = before ++ ls ++ after) {column' : Int}
    (hcolumn : column' = if before = [] then column else later) :
    s.sentenceLines column' later (unwords ls) = ls := by
  rw [sentenceLines_eq_markdown hs] at h ⊢
  exact paragraphLines_run .codePoints hwidth (unseamed_of_tagsApart ht) h hcolumn
    ⟨by simp, by simp⟩

theorem laidOut_sentenceLines (hs : s.markdown) (hwidth : 0 < s.width) (column later : Int)
    (t : Text) : LaidOut t (unwords (s.sentenceLines column later t)) := by
  have hcols : 0 < (⟨s.width, column, later⟩ : Columns).width := hwidth
  obtain ⟨hshown, hne⟩ := filledRows_shown .codePoints ⟨s.width, column, later⟩ t
  refine ⟨_, hshown, ?_⟩
  rw [sentenceLines_eq_markdown hs, paragraphLines_eq_filledRows _ hcols, unwords, unwords,
    joinWith_flatten hne]
  rfl

theorem sentenceLines_ne_nil (hwidth : 0 < s.width) (column later : Int) {t : Text}
    (ht : Solid t) : s.sentenceLines column later t ≠ [] := by
  obtain ⟨rows, hfilled, heq⟩ := s.sentenceLines_eq hwidth column later t
  rw [heq]
  simpa using hfilled.ne_nil_of_solid ht

theorem joinLines_ne_nil (last : Text) (ls : List Text) : s.joinLines last ls ≠ [] := by
  fun_cases joinLines s last ls <;> simp

/-- Whether the next sentence goes on in the last line or not, the lines read the same. -/
theorem unwords_joinLines (last : Text) {ls : List Text} (h : ls ≠ []) :
    unwords (s.joinLines last ls) = unwords (last :: ls) := by
  obtain ⟨l, ls, rfl⟩ := exists_cons_of_ne_nil h
  rw [joinLines]
  split
  · by_cases hnil : ls = []
    · subst hnil
      simp [unwords, joinWith]
    · rw [unwords_cons hnil, unwords_cons (by simp), unwords_cons hnil]
      simp
  · rfl

/-- The column at which the next sentence starts. -/
def nextColumn (s : SentenceSettings) (ls : List Text) : Int :=
  match ls.getLast? with
  | none => 0
  | some last => if s.isShort last then s.measure.of last else 0

/-- Lines with the lines of the next sentence after them. -/
def addLines (s : SentenceSettings) (ls rows : List Text) : List Text :=
  match ls.getLast? with
  | none => rows
  | some last => ls.dropLast ++ s.joinLines last rows

theorem addLines_nil (rows : List Text) : s.addLines [] rows = rows := rfl

theorem addLines_concat (init : List Text) (last : Text) (rows : List Text) :
    s.addLines (init ++ [last]) rows = init ++ s.joinLines last rows := by
  simp [addLines]

theorem addSentence_eq_addLines (ls : List Text) (t : Text) :
    s.addSentence 0 0 ls t = s.addLines ls (s.sentenceLines (s.nextColumn ls) 0 t) := by
  unfold addSentence addLines nextColumn
  cases ls.getLast? with
  | none => rfl
  | some last => simp only [Int.zero_add]

theorem addLines_ne_nil {ls rows : List Text} (h : ls ≠ [] ∨ rows ≠ []) :
    s.addLines ls rows ≠ [] := by
  rcases eq_nil_or_concat' ls with rfl | ⟨init, last, rfl⟩
  · simpa [addLines_nil] using h
  · simp [addLines_concat, joinLines_ne_nil]

theorem unwords_addLines (ls : List Text) {rows : List Text} (h : rows ≠ []) :
    unwords (s.addLines ls rows) = unwords (ls ++ rows) := by
  rcases eq_nil_or_concat' ls with rfl | ⟨init, last, rfl⟩
  · rfl
  · have hjoin := unwords_joinLines (s := s) last h
    rw [addLines_concat, (unwords_append_congr (joinLines_ne_nil _ _) (by simp) hjoin init).2]
    simp

/-- Sentences that are added one by one to lines, each as it is laid out there. -/
def Settled (s : SentenceSettings) (ls : List Text) : List Text → Prop
  | [] => True
  | t :: ts => s.sentenceLines (s.nextColumn ls) 0 t ≠ [] ∧
      unwords (s.sentenceLines (s.nextColumn ls) 0 t) = t ∧ s.Settled (s.addSentence 0 0 ls t) ts

theorem Settled.unwords_foldl {ls ts : List Text} (h : s.Settled ls ts) :
    unwords (ts.foldl (s.addSentence 0 0) ls) = unwords (ls ++ ts) := by
  induction ts generalizing ls with
  | nil => simp
  | cons t ts ih =>
    obtain ⟨hne, hwords, hrest⟩ := h
    have hadd : unwords (s.addSentence 0 0 ls t) = unwords (ls ++ [t]) := by
      have hone : unwords (s.sentenceLines (s.nextColumn ls) 0 t) = unwords [t] := hwords
      rw [addSentence_eq_addLines, unwords_addLines ls hne,
        (unwords_append_congr hne (by simp) hone ls).2]
    have hlines : s.addSentence 0 0 ls t ≠ [] := by
      rw [addSentence_eq_addLines]
      exact addLines_ne_nil (.inr hne)
    rw [foldl_cons, ih hrest, (unwords_append_congr hlines (by simp) hadd ts).1]
    simp

/-- **All sentences again.** The sentences as they are laid out make the same lines. -/
theorem exists_foldl_again (hs : s.markdown) (hwidth : 0 < s.width) (ls : List Text)
    {ts : List Text} (hts : ∀ t ∈ ts, Solid t ∧ TagsApart t) :
    ∃ ts', Forall₂ LaidOut ts ts' ∧ s.Settled ls ts' ∧
      ts'.foldl (s.addSentence 0 0) ls = ts.foldl (s.addSentence 0 0) ls := by
  induction ts generalizing ls with
  | nil => exact ⟨[], .nil, trivial, rfl⟩
  | cons t ts ih =>
    obtain ⟨ht, hapart⟩ := hts t (by simp)
    have hne := sentenceLines_ne_nil hwidth (s.nextColumn ls) 0 ht
    have hlaid := laidOut_sentenceLines hs hwidth (s.nextColumn ls) 0 t
    have hrun : s.sentenceLines (s.nextColumn ls) 0 t
        = [] ++ s.sentenceLines (s.nextColumn ls) 0 t ++ [] := by simp
    have hagain : s.sentenceLines (s.nextColumn ls) 0
          (unwords (s.sentenceLines (s.nextColumn ls) 0 t))
        = s.sentenceLines (s.nextColumn ls) 0 t :=
      sentenceLines_run hs hwidth hapart hrun (by simp)
    have hadd : s.addSentence 0 0 ls (unwords (s.sentenceLines (s.nextColumn ls) 0 t))
        = s.addSentence 0 0 ls t := by
      rw [addSentence_eq_addLines, hagain, addSentence_eq_addLines]
    obtain ⟨ts', hlaid', hsettled, hfold⟩ := ih (s.addSentence 0 0 ls t) fun u hu =>
      hts u (by simp [hu])
    refine ⟨_ :: ts', .cons hlaid hlaid', ⟨?_, ?_, ?_⟩, ?_⟩
    · rwa [hagain]
    · rw [hagain]
    · rwa [hadd]
    · rw [foldl_cons, foldl_cons, hadd, hfold]

theorem lines_eq_foldl (hsplit : s.splitter = .prose) (later : Int) (t : Text) :
    s.lines later later t = (splitProse t 0 isEnd).foldl (s.addSentence later later) [] := by
  have hsentences : s.splitter.split t = splitProse t 0 isEnd := by
    rw [hsplit]
    rfl
  unfold lines
  rw [hsentences]
  split
  · next h => rw [h]; rfl
  · next u rest h => rw [h]; rfl

end SentenceSettings

theorem splitProse_cases (t : Text) :
    splitProse t 0 isEnd = [] ∧ Relays t [] ∨
      ∃ core, SentenceCut core (splitProse t 0 isEnd) ∧ Relays t core := by
  rcases blank_or_exists_core t with ht | ⟨g, core, g', rfl, hg, hg', hcore⟩
  · have hwords := words_append_blank Construct.prose [] ht
    rw [nil_append, words_nil] at hwords
    exact .inl ⟨by simp [splitProse, spans, hwords, gather], relays_nil ht⟩
  · obtain ⟨ws, hcut⟩ := exists_cut Construct.prose hcore
    obtain ⟨ss, hss⟩ := exists_sentenceCut hcut
    have hsplit : splitProse (g ++ core ++ g') 0 isEnd = ss := by
      rw [append_assoc, splitProse_blank_append hg, hss.splitProse_eq hg']
    exact .inr ⟨core, by rwa [hsplit], .trim hg hg' (.refl core)⟩

end Reflow.Wrap
