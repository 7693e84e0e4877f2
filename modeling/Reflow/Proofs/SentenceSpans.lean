import Reflow.Proofs.RelaidSentences
import Reflow.Proofs.Spans

/-!
Sentences with their places.

A sentence runs from the start of the first word of a group to the end of its last (`Covers`). The
words of a text tile it, so its sentences do too (`sentenceTiling_spans`). What a group takes up of
the text is strewn with its words (`strewn_slice`), so the words of the stretch are the words of the
group.
-/

open List

namespace Reflow.Sentence

open Text Atomic

variable {constructs : List Construct} {t : Text} {group : List Word}

/-! ## Stretches of a text -/

theorem slice_append_slice {i j k : Nat} (hij : i ≤ j) (hjk : j ≤ k) :
    slice t i j ++ slice t j k = slice t i k := by
  have hdrop : t.drop j = (t.drop i).drop (j - i) := by
    rw [drop_drop]
    congr 1
    omega
  have hlen : k - i = (j - i) + (k - j) := by omega
  rw [slice, slice, slice, hdrop, hlen, take_add]

theorem mem_slice {i j : Nat} {c : Char} :
    c ∈ slice t i j ↔ ∃ k, i ≤ k ∧ k < j ∧ t[k]? = some c := by
  constructor
  · intro h
    obtain ⟨k, hk⟩ := getElem?_of_mem h
    rw [slice, getElem?_take] at hk
    by_cases hlt : k < j - i
    · rw [if_pos hlt, getElem?_drop] at hk
      exact ⟨i + k, by omega, by omega, hk⟩
    · rw [if_neg hlt] at hk
      simp at hk
  · rintro ⟨k, hik, hkj, hc⟩
    apply mem_of_getElem? (i := k - i)
    rw [slice, getElem?_take_of_lt (by omega), getElem?_drop,
      show i + (k - i) = k by omega, hc]

theorem length_slice {i j : Nat} (hj : j ≤ t.length) : (slice t i j).length = j - i := by
  rw [slice, length_take, length_drop]
  omega

theorem start_le_stop (w : Word) : w.start ≤ w.stop := Nat.le_add_right _ _

theorem stop_le_length {w : Word} (hw : w ∈ words constructs t) : w.stop ≤ t.length := by
  obtain ⟨htext, hlt⟩ := (wordTiling_words constructs t).text_eq w hw
  have hlen := congrArg length htext
  rw [slice, length_take, length_drop] at hlen
  simp only [Word.stop] at hlen hlt ⊢
  omega

/-! ## Groups of words -/

/-- A run of the words of a text. -/
structure WordRun (constructs : List Construct) (t : Text) (group : List Word) : Prop where
  ne_nil : group ≠ []
  part : group <:+: words constructs t

namespace WordRun

variable {group : List Word}

theorem pairwise (h : WordRun constructs t group) : group.Pairwise fun a b => a.stop < b.start :=
  (tiles_words constructs t).pairwise.sublist h.part.sublist

theorem within (h : WordRun constructs t group) {first last : Word}
    (hfirst : group.head? = some first) (hlast : group.getLast? = some last) {w : Word}
    (hw : w ∈ group) : first.start ≤ w.start ∧ w.stop ≤ last.stop := by
  have hpairs := h.pairwise
  constructor
  · obtain ⟨rest, rfl⟩ := head?_eq_some_iff.1 hfirst
    rcases mem_cons.1 hw with rfl | hw
    · exact Nat.le_refl _
    · have hlt := (pairwise_cons.1 hpairs).1 w hw
      have := start_le_stop first
      omega
  · obtain ⟨init, rfl⟩ := getLast?_eq_some_iff.1 hlast
    rcases mem_append.1 hw with hw | hw
    · have hlt := (pairwise_append.1 hpairs).2.2 w hw last (by simp)
      have := start_le_stop last
      omega
    · obtain rfl : w = last := by simpa using hw
      exact Nat.le_refl _

end WordRun

/-- The sentence is the stretch of the text from the first word of the group to the last. -/
structure Covers (t : Text) (group : List Word) (s : Span) : Prop where
  text_eq : s.text = slice t s.start s.stop
  nonempty : s.start < s.stop
  starts : ∃ w ∈ group, w.start = s.start
  stops : ∃ w ∈ group, w.stop = s.stop
  within : ∀ w ∈ group, s.start ≤ w.start ∧ w.stop ≤ s.stop

/-- **A run of words makes a sentence.** -/
theorem WordRun.exists_covers (h : WordRun constructs t group) :
    ∃ s, spanOf t group = some s ∧ Covers t group s := by
  obtain ⟨first, hfirst⟩ : ∃ w, group.head? = some w := by
    obtain ⟨w, ws, rfl⟩ := exists_cons_of_ne_nil h.ne_nil
    exact ⟨w, rfl⟩
  obtain ⟨last, hlast⟩ : ∃ w, group.getLast? = some w :=
    ⟨_, getLast?_eq_some_getLast h.ne_nil⟩
  have hmemfirst := mem_of_mem_head? hfirst
  have hmemlast := mem_of_getLast? hlast
  have hlength := stop_le_length (h.part.subset hmemlast)
  have hlt := ((wordTiling_words constructs t).text_eq last (h.part.subset hmemlast)).2
  have hle := (h.within hfirst hlast hmemlast).1
  -- the stretch is as long as its offsets say
  have hstop : (⟨slice t first.start last.stop, first.start⟩ : Span).stop = last.stop := by
    simp only [Span.stop, length_slice hlength]
    omega
  refine ⟨⟨slice t first.start last.stop, first.start⟩, by simp only [spanOf, hfirst, hlast], ?_⟩
  refine ⟨by rw [hstop], by rw [hstop]; exact Nat.lt_of_le_of_lt hle hlt, ⟨first, hmemfirst, rfl⟩,
    ⟨last, hmemlast, hstop.symm⟩, fun w hw => ?_⟩
  rw [hstop]
  exact h.within hfirst hlast hw

/-! ## Sentences and their words -/

section Spans

variable (minLength : Int) (ends : Text → Bool)

/-- The words of a text, gathered into sentences. -/
def wordGroups (constructs : List Construct) (t : Text) (minLength : Int) (ends : Text → Bool) :
    List (List Word) := gather Word.text ends minLength [] (words constructs t)

variable {minLength ends} in
theorem spans_eq : spans constructs t minLength ends
    = (wordGroups constructs t minLength ends).filterMap (spanOf t) := rfl

theorem flatten_wordGroups :
    (wordGroups constructs t minLength ends).flatten = words constructs t := by
  rw [wordGroups, flatten_gather, nil_append]

variable {minLength ends}

theorem wordRun_of_mem {group : List Word} (h : group ∈ wordGroups constructs t minLength ends) :
    WordRun constructs t group := by
  refine ⟨ne_nil_of_mem_gather h, ?_⟩
  rw [← flatten_wordGroups minLength ends]
  exact infix_of_mem_flatten h

theorem exists_group_of_mem {s : Span} (h : s ∈ spans constructs t minLength ends) :
    ∃ group ∈ wordGroups constructs t minLength ends, Covers t group s := by
  obtain ⟨group, hgroup, hs⟩ := mem_filterMap.1 h
  obtain ⟨s', hs', hcovers⟩ := (wordRun_of_mem hgroup).exists_covers
  obtain rfl : s' = s := Option.some.inj (hs'.symm.trans hs)
  exact ⟨group, hgroup, hcovers⟩

variable (minLength ends) in
theorem exists_span_of_word {w : Word} (hw : w ∈ words constructs t) :
    ∃ s ∈ spans constructs t minLength ends, s.start ≤ w.start ∧ w.stop ≤ s.stop := by
  rw [← flatten_wordGroups minLength ends] at hw
  obtain ⟨group, hgroup, hw⟩ := mem_flatten.1 hw
  obtain ⟨s, hs, hcovers⟩ := (wordRun_of_mem hgroup).exists_covers
  refine ⟨s, ?_, hcovers.within w hw⟩
  exact mem_filterMap.2 ⟨group, hgroup, hs⟩

/-- A row of sentences that tiles a text. -/
structure SentenceTiling (constructs : List Construct) (t : Text) (ss : List Span) : Prop where
  /-- A sentence holds the stretch of the text that it covers, which is not empty. -/
  text_eq : ∀ s ∈ ss, s.text = slice t s.start s.stop ∧ s.start < s.stop
  /-- Sentences stand in order and do not meet. -/
  ordered : ss.Pairwise fun a b => a.stop < b.start
  /-- Outside the sentences everything is blank. -/
  outside : ∀ i c, t[i]? = some c → (∀ s ∈ ss, ¬ (s.start ≤ i ∧ i < s.stop)) → isBlank c = true
  /-- An atomic span lies inside exactly one sentence. -/
  whole : ∀ a ∈ Atomic.spans constructs t, a.construct.isSome = true →
    ∃! s, s ∈ ss ∧ s.start ≤ a.start ∧ a.stop ≤ s.stop

theorem pairwise_spans :
    (spans constructs t minLength ends).Pairwise fun a b => a.stop < b.start := by
  rw [spans_eq, pairwise_filterMap]
  have hwords := (tiles_words constructs t).pairwise
  rw [← flatten_wordGroups minLength ends] at hwords
  refine (pairwise_flatten.1 hwords).2.imp_of_mem ?_
  intro group group' hgroup hgroup' hbefore s hs s' hs'
  obtain ⟨_, hspan, hcovers⟩ := (wordRun_of_mem hgroup).exists_covers
  obtain ⟨_, hspan', hcovers'⟩ := (wordRun_of_mem hgroup').exists_covers
  obtain rfl := Option.some.inj (hspan.symm.trans hs)
  obtain rfl := Option.some.inj (hspan'.symm.trans hs')
  -- the last word of the one group is before the first of the other
  obtain ⟨w, hw, hstop⟩ := hcovers.stops
  obtain ⟨v, hv, hstart⟩ := hcovers'.starts
  rw [← hstop, ← hstart]
  exact hbefore w hw v hv

/-- **The sentences of a text tile it**, and keep its constructs whole. -/
theorem sentenceTiling_spans (constructs : List Construct) (t : Text) (minLength : Int)
    (ends : Text → Bool) : SentenceTiling constructs t (spans constructs t minLength ends) := by
  have htiling := wordTiling_words constructs t
  refine ⟨?_, pairwise_spans, ?_, ?_⟩
  · intro s hs
    obtain ⟨_, _, hcovers⟩ := exists_group_of_mem hs
    exact ⟨hcovers.text_eq, hcovers.nonempty⟩
  · intro i c hc hout
    refine htiling.outside i c hc fun w hw hin => ?_
    obtain ⟨s, hs, hstart, hstop⟩ := exists_span_of_word minLength ends hw
    exact hout s hs ⟨by omega, by omega⟩
  · intro a ha hatomic
    obtain ⟨w, ⟨hw, hlo, hhi⟩, _⟩ := htiling.whole a ha hatomic
    obtain ⟨s, hs, hstart, hstop⟩ := exists_span_of_word minLength ends hw
    refine ⟨s, ⟨hs, by omega, by omega⟩, ?_⟩
    rintro s' ⟨hs', hlo', hhi'⟩
    -- two sentences around one construct share the place where it starts
    have hpos := Atomic.start_lt_stop_of_atomic ha hatomic
    exact Atomic.eq_of_apart pairwise_spans hs' hs ⟨hlo', by omega⟩ ⟨by omega, by omega⟩

end Spans

/-! ## Constructs without blanks -/

/-- Where no blank is glued, nothing that is glued matters. -/
theorem solidRuns_of_no_glued_blank {ms : List Mark} (h : ∀ m ∈ ms, isGap m = isBlank m.1)
    (start : Nat) :
    solidRuns start ms = solidRuns start (ms.map fun m => (m.1, false)) := by
  have hgap : ∀ m ∈ ms, isGap (m.1, false) = isGap m := by
    intro m hm
    rw [h m hm]
    simp [isGap]
  induction ms generalizing start with
  | nil => rfl
  | cons m ms ih =>
    have ih := ih (fun n hn => h n (by simp [hn])) (start + 1) fun n hn => hgap n (by simp [hn])
    have hm := hgap m (by simp)
    conv_lhs => rw [solidRuns.eq_def]
    conv_rhs => rw [map_cons, solidRuns.eq_def]
    cases ms with
    | nil => simp only [hm, map_nil, solidRuns]
    | cons next ms =>
      have hnext := hgap next (by simp)
      simp only [hm, ih, map_cons]
      cases solidRuns (start + 1) ((next.1, false) :: ms.map fun m => (m.1, false)) with
      | nil => rfl
      | cons w ws => simp only [hnext]

/-- No atomic span of the text has a blank in it. -/
def NoBlankInside (constructs : List Construct) (t : Text) : Prop :=
  ∀ a ∈ Atomic.spans constructs t, a.construct.isSome = true → ∀ c ∈ a.text, isBlank c = false

instance (constructs : List Construct) (t : Text) : Decidable (NoBlankInside constructs t) :=
  decidable_of_iff
    ((Atomic.spans constructs t).all fun a =>
      !a.construct.isSome || a.text.all fun c => !isBlank c)
    (by simp [NoBlankInside, or_iff_not_imp_left, Option.isSome_iff_ne_none])

theorem noBlankInside_nil (t : Text) : NoBlankInside [] t := by
  intro a ha hatomic
  obtain ⟨k, hk⟩ := Option.isSome_iff_exists.1 hatomic
  obtain ⟨before, after, hnil, _⟩ := (Atomic.spanTiling_spans [] t).atomic a ha k hk
  simp at hnil

theorem NoBlankInside.isBlank_eq (h : NoBlankInside constructs t) {a : Atomic.Span}
    (ha : a ∈ Atomic.spans constructs t) (hatomic : a.construct.isSome) {i : Nat}
    (hlo : a.start ≤ i) (hhi : i < a.stop) {c : Char} (hc : t[i]? = some c) :
    isBlank c = false := by
  apply h a ha hatomic
  rw [(Atomic.spanTiling_spans constructs t).text_eq a ha]
  exact mem_slice.2 ⟨i, hlo, hhi, hc⟩

theorem NoBlankInside.visible_words (h : NoBlankInside constructs t) {w : Word}
    (hw : w ∈ words constructs t) : w.text ≠ [] ∧ ∀ c ∈ w.text, isBlank c = false := by
  refine ⟨(solid_of_mem_words w hw).ne_nil, fun c hc => ?_⟩
  rw [((wordTiling_words constructs t).text_eq w hw).1] at hc
  obtain ⟨i, hlo, hhi, hchar⟩ := mem_slice.1 hc
  by_contra hblank
  have hblank : isBlank c := by simpa using hblank
  -- a blank inside a word would lie in an atomic span
  obtain ⟨a, ha, hatomic, hstart, hstop⟩ :=
    (wordTiling_words constructs t).blanks w hw i c hlo hhi hchar hblank
  have hvisible := h.isBlank_eq ha hatomic hstart hstop hchar
  rw [hblank] at hvisible
  exact absurd hvisible (by simp)

/-- **Constructs without blanks change no word.** -/
theorem words_eq_of_no_blank (h : NoBlankInside constructs t) :
    Atomic.words constructs t = Atomic.words [] t := by
  have hgap : ∀ m ∈ marks constructs t, isGap m = isBlank m.1 := by
    intro m hm
    obtain ⟨c, glued⟩ := m
    by_cases hglued : glued
    · -- a glued character is a character of a construct
      subst hglued
      obtain ⟨i, hi⟩ := getElem?_of_mem hm
      obtain ⟨a, ha, hatomic, hlo, hhi⟩ := exists_span_of_glued hi
      have hchar : t[i]? = some c := by
        rw [getElem?_marks constructs, hi]
        rfl
      rw [h.isBlank_eq ha hatomic hlo hhi hchar]
      simp [isGap]
    · simp [isGap, hglued]
  have hchars : (marks constructs t).map (fun m => (m.1, false))
      = ((marks constructs t).map Prod.fst).map fun c => (c, false) := by
    rw [map_map]
    rfl
  rw [Atomic.words, Atomic.words, solidRuns_of_no_glued_blank hgap, Atomic.marks_no_constructs,
    hchars, map_fst_marks]

theorem map_text_words_nil (t : Text) : (Atomic.words [] t).map Word.text = words t := by
  rw [Atomic.words, Atomic.marks_no_constructs, ← Atomic.words_eq_solidRuns]

/-! ## The words of a stretch -/

/-- The stretch from the first word of a run to the last has the words of the run. -/
theorem strewn_slice (h : WordRun constructs t group) {first last : Word}
    (hfirst : group.head? = some first) (hlast : group.getLast? = some last) :
    Strewn (slice t first.start last.stop) (group.map Word.text) := by
  have htiling := wordTiling_words constructs t
  have hgaps := htiling.gaps.infix h.part
  induction group generalizing first with
  | nil => exact absurd rfl h.ne_nil
  | cons w ws ih =>
    obtain rfl : w = first := by simpa using hfirst
    obtain ⟨htext, hlt⟩ := htiling.text_eq w (h.part.subset (by simp))
    cases ws with
    | nil =>
      obtain rfl : w = last := by simpa using hlast
      rw [← htext]
      exact .singleton w.text
    | cons v vs =>
      obtain ⟨⟨hbefore, hblank⟩, hgaps⟩ := isChain_cons_cons.1 hgaps
      have hrun : WordRun constructs t (v :: vs) :=
        ⟨by simp, (suffix_cons w (v :: vs)).isInfix.trans h.part⟩
      have hle : v.start ≤ last.stop := by
        have := (hrun.within rfl hlast (mem_of_getLast? hlast)).1
        have := start_le_stop last
        omega
      have hlength : v.start ≤ t.length :=
        (start_le_stop v).trans (stop_le_length (h.part.subset (by simp)))
      -- the word, the blanks after it, and what the words behind take up
      have hgap : ∀ c ∈ slice t w.stop v.start, isBlank c := all_eq_true.1 hblank
      have hhead : ∀ c ∈ (slice t w.stop v.start ++ slice t v.start last.stop).head?,
          isBlank c := by
        intro c hc
        have hlen : (slice t w.stop v.start).length = v.start - w.stop := length_slice hlength
        rw [head?_append_of_ne_nil _ (ne_nil_of_length_pos (by omega))] at hc
        exact hgap c (mem_of_mem_head? hc)
      have hcons := Strewn.cons (g := []) (w := w.text) (by simp) hhead
        ((ih hrun rfl hlast hgaps).blank_append hgap)
      rw [nil_append, slice_append_slice (by omega) hle, htext,
        slice_append_slice (by omega) (by omega)] at hcons
      rw [map_cons, htext]
      exact hcons

/-- A group whose words have no blanks in them is the words of its stretch. -/
theorem NoBlankInside.exists_span (h : NoBlankInside constructs t)
    (hrun : WordRun constructs t group) :
    (spanOf t group).map (fun s => unwords (words s.text))
      = some (unwords (group.map Word.text)) := by
  obtain ⟨s, hs, _⟩ := hrun.exists_covers
  have hs' := hs
  rw [spanOf] at hs'
  split at hs'
  · rename_i first last hfirst hlast
    have htext : s.text = slice t first.start last.stop := by
      rw [← Option.some.inj hs']
    have hwords : words s.text = group.map Word.text := by
      rw [htext]
      apply words_of_strewn (strewn_slice hrun hfirst hlast)
      intro w hw
      obtain ⟨v, hv, rfl⟩ := mem_map.1 hw
      exact h.visible_words (hrun.part.subset hv)
    rw [hs, Option.map_some, hwords]
  · simp at hs'

/-- **Sentences with their places, written with single spaces, are the sentences.** -/
theorem map_spans_eq_split (h : NoBlankInside constructs t) (minLength : Int) (ends : Text → Bool) :
    (spans constructs t minLength ends).map (fun s => unwords (words s.text))
      = split t minLength ends := by
  have hgroups : ∀ group ∈ wordGroups constructs t minLength ends,
      (spanOf t group).map (fun s => unwords (words s.text))
        = some (unwords (group.map Word.text)) :=
    fun group hgroup => h.exists_span (wordRun_of_mem hgroup)
  have htexts : gather id ends minLength [] (words t)
      = (wordGroups constructs t minLength ends).map (map Word.text) := by
    rw [← map_text_words_nil, ← words_eq_of_no_blank h]
    exact Relaid.gather_map Word.text minLength [] (words constructs t)
  rw [spans_eq, map_filterMap, filterMap_congr hgroups, split, htexts, map_map,
    filterMap_eq_map']
  rfl

/-- **Sentence spans refine sentences.** Sentences with their places stand in the text as they are
read, in order and apart, with nothing but blanks around them and every atomic span whole. Where no
atomic span has a blank inside, as where there are no constructs, they are the sentences of the text
up to the blanks between their words. -/
theorem sentence_spans_refine_split (constructs : List Construct) (t : Text) (minLength : Int)
    (ends : Text → Bool) :
    SentenceTiling constructs t (spans constructs t minLength ends) ∧
      (NoBlankInside constructs t →
        (spans constructs t minLength ends).map (fun s => unwords (words s.text))
          = split t minLength ends) ∧
      (spans [] t minLength ends).map (fun s => unwords (words s.text))
        = split t minLength ends :=
  ⟨sentenceTiling_spans constructs t minLength ends,
    fun h => map_spans_eq_split h minLength ends,
    map_spans_eq_split (noBlankInside_nil t) minLength ends⟩

/-- Two sentences, one with a code span, with blanks of all kinds between their words. -/
theorem sentence_spans_of_code :
    NoBlankInside Construct.prose "See\n the `code.` now.  It\tends.\n".toList ∧
      (spans Construct.prose "See\n the `code.` now.  It\tends.\n".toList 0 isEnd).map
          (fun s => unwords (words s.text))
        = split "See\n the `code.` now.  It\tends.\n".toList 0 isEnd :=
  have h : NoBlankInside Construct.prose "See\n the `code.` now.  It\tends.\n".toList := by
    decide +kernel
  ⟨h, (sentence_spans_refine_split Construct.prose _ 0 isEnd).2.1 h⟩

end Reflow.Sentence
