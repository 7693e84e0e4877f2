import Mathlib.Data.List.Induction
import Reflow.Proofs.AtomicLines
import Reflow.Proofs.RelaidWords

/-!
Sentences of a text laid out anew.

Whether a word ends a sentence is read off its last characters, backwards. A backslash of a new
layout stands after digits and in front of a marker, so it is never among the letters, and where it
comes before the end mark the word is a number and ends no sentence (`isEnd_relaid`). So cutting
into sentences commutes with laying out (`SentenceCut.relaid`).
-/

open List

namespace Reflow.Relaid

open Text Atomic Sentence

/-! ## Characters -/

/-- The code points of the ranges, one by one. -/
def members (rs : Ranges) : List Nat := rs.flatMap fun r => range' r.1 r.2

theorem mem_members {rs : Ranges} {n : Nat} (h : rs.contains n) : n ∈ members rs := by
  fun_induction Ranges.contains rs n with
  | case1 => simp at h
  | case2 => simp at h
  | case3 lo count rest n hlo hhi =>
    exact mem_flatMap.2 ⟨(lo, count), by simp, mem_range'_1.2 ⟨by omega, hhi⟩⟩
  | case4 lo count rest n hlo hhi ih =>
    exact mem_append_right _ (ih h)

theorem forall_of_contains {rs : Ranges} {p : Char → Prop}
    (hall : ∀ n ∈ members rs, p (Char.ofNat n)) {c : Char} (hc : rs.contains c.toNat) : p c := by
  have h := hall c.toNat (mem_members hc)
  rwa [Char.ofNat_toNat] at h

/-- The character is nothing that a sentence ends in, read backwards. -/
def isDull (c : Char) : Bool := !isLowercase c && !isCloser c && !isEndMark c

theorem isDull_of_isBlank {c : Char} (h : isBlank c) : isDull c :=
  forall_of_contains (p := fun c => isDull c) (by decide +kernel) h

theorem isWordPart_of_isBlank {c : Char} (h : isBlank c) : isWordPart c = false :=
  forall_of_contains (p := fun c => isWordPart c = false) (by decide +kernel) h

theorem isSentenceLetter_of_isBlank {c : Char} (h : isBlank c) : isSentenceLetter c = false := by
  have hpart := isWordPart_of_isBlank h
  simp only [isWordPart, Bool.or_eq_false_iff] at hpart
  exact hpart.1.1.1.1.1.1

theorem isDull_of_isAsciiDigit {c : Char} (h : isAsciiDigit c) : isDull c := by
  refine @forall_of_contains [(48, 10)] (fun c => isDull c) (by decide +kernel) c ?_
  have hrange := Wrap.toNat_of_isAsciiDigit h
  simp only [Ranges.contains]
  grind

theorem isDull_backslash : isDull '\\' := by decide +kernel

theorem letter_of_mem_markable {c : Char} (h : c ∈ markable) :
    isLowercase c = false ∧ isSentenceLetter c = false := by
  have hall : (markable.all fun d => !isLowercase d && !isSentenceLetter d) := by
    decide +kernel
  simpa using all_eq_true.1 hall c h

/-! ## Reading backwards -/

/-- If there is a last character, no sentence ends in it. -/
def Dull (t : Text) : Prop := ∀ c ∈ t.getLast?, isDull c = true

/-- The letters at the end reach back to the edge of a word. -/
def reachesEdge (t : Text) : Bool :=
  match t.reverse.dropWhile isSentenceLetter with
  | c :: _ => !isWordPart c
  | [] => true

theorem reachesEdge_concat (t : Text) (c : Char) :
    reachesEdge (t ++ [c]) = if isSentenceLetter c then reachesEdge t else !isWordPart c := by
  rw [reachesEdge, reverse_append, reverse_singleton, singleton_append,
    dropWhile_cons]
  by_cases hc : isSentenceLetter c
  · rw [if_pos hc, if_pos hc, reachesEdge]
  · rw [if_neg hc, if_neg hc]

theorem endsInLetters_concat (t : Text) (c : Char) :
    endsInLetters (t ++ [c]).reverse
      = (isLowercase c && t.getLast?.any isSentenceLetter && reachesEdge (t ++ [c])) := by
  rcases eq_nil_or_concat' t with rfl | ⟨u, b, rfl⟩
  · simp [endsInLetters]
  · have hreverse : (u ++ [b] ++ [c]).reverse = c :: b :: u.reverse := by simp
    rw [reachesEdge, hreverse, getLast?_concat]
    rfl

variable {t g : Text} {ws ss : List Text}

theorem endsInLetters_of_dull (h : Dull t) : endsInLetters t.reverse = false := by
  rcases eq_nil_or_concat' t with rfl | ⟨u, c, rfl⟩
  · rfl
  · have hc : isDull c := h c (by simp)
    simp only [isDull, Bool.and_eq_true, Bool.not_eq_true'] at hc
    rw [endsInLetters_concat, hc.1.1]
    rfl

/-- The text ends in a character of the class, and before it in letters. -/
def endsInLettersThen (kind : Char → Bool) (t : Text) : Bool :=
  match t.reverse with
  | c :: before => kind c && endsInLetters before
  | [] => false

theorem endsBackwards_concat (t : Text) (c : Char) :
    endsBackwards (t ++ [c]).reverse
      = if isEndMark c then endsInLetters t.reverse || endsInLettersThen isCloser t
        else isCloser c && endsInLettersThen isEndMark t := by
  rw [reverse_append]
  rfl

section Backwards

variable {free : Bool} {xs ys : List Cell} {c : Char}

theorem BlankRun.getLast {g : Text} (hg : BlankRun g) : ∃ c, g.getLast? = some c ∧ isBlank c :=
  ⟨_, getLast?_eq_some_getLast hg.1, hg.2 _ (getLast_mem hg.1)⟩

theorem getLast_of_gap {g g' : Text} (h : Fit free (xs ++ .gap g g' :: ys)) :
    (∃ c ∈ (src (xs ++ [.gap g g'])).getLast?, isBlank c) ∧
      ∃ c ∈ (out (xs ++ [.gap g g'])).getLast?, isBlank c := by
  obtain ⟨hg, hg', _, _⟩ := h.right
  obtain ⟨c, hc, hblank⟩ := hg.getLast
  obtain ⟨d, hd, hblank'⟩ := hg'.getLast
  refine ⟨⟨c, ?_, hblank⟩, ⟨d, ?_, hblank'⟩⟩
  · simp [getLast?_append, hc]
  · simp [getLast?_append, hd]

theorem dull_of_getLast_blank {t : Text} (h : ∃ c ∈ t.getLast?, isBlank c) : Dull t := by
  obtain ⟨c, hc, hblank⟩ := h
  intro d hd
  obtain rfl : c = d := Option.some.inj (hc.symm.trans hd)
  exact isDull_of_isBlank hblank

theorem dull_before_mark (h : Fit free (xs ++ .mark :: ys)) : Dull (src xs) ∧ Dull (out xs) := by
  rcases eq_nil_or_concat' xs with rfl | ⟨xs, z, rfl⟩
  · simp [Dull]
  · rw [append_assoc] at h
    have hz := h.right
    cases z with
    | char c =>
      have hdigit : isAsciiDigit c := hz.2.1
      simpa [Dull] using isDull_of_isAsciiDigit hdigit
    | gap g g' =>
      obtain ⟨hsrc, hout⟩ := getLast_of_gap h
      exact ⟨dull_of_getLast_blank hsrc, dull_of_getLast_blank hout⟩
    | mark =>
      obtain ⟨c, rest, hnext, _⟩ := hz.2.1
      exact absurd hnext (by simp)

theorem dull_of_getLast {z : Cell} (h : Fit free (xs ++ z :: ys)) (hz : ∀ c, z ≠ .char c) :
    Dull (src (xs ++ [z])) ∧ Dull (out (xs ++ [z])) := by
  cases z with
  | char c => exact absurd rfl (hz c)
  | gap g g' =>
    obtain ⟨hsrc, hout⟩ := getLast_of_gap h
    exact ⟨dull_of_getLast_blank hsrc, dull_of_getLast_blank hout⟩
  | mark =>
    refine ⟨?_, ?_⟩
    · simpa using (dull_before_mark h).1
    · simpa [Dull] using isDull_backslash

theorem not_mark_before (h : Fit free (xs ++ .mark :: .char c :: ys)) :
    isLowercase c = false ∧ isSentenceLetter c = false := by
  obtain ⟨d, rest, hnext, hd⟩ := h.right.2.1
  obtain ⟨rfl, _⟩ : c = d ∧ ys = rest := by simpa using hnext
  exact letter_of_mem_markable hd

theorem reachesEdge_relaid (h : Fit free (xs ++ .char c :: ys)) (hc : isSentenceLetter c) :
    reachesEdge (out xs) = reachesEdge (src xs) := by
  induction xs using reverseRecOn generalizing c ys with
  | nil => rfl
  | append_singleton xs z ih =>
    rw [append_assoc] at h
    cases z with
    | char d =>
      rw [src_append, out_append, src_char, out_char, src_nil, out_nil, reachesEdge_concat,
        reachesEdge_concat]
      by_cases hd : isSentenceLetter d
      · rw [if_pos hd, if_pos hd, ih h hd]
      · rw [if_neg hd, if_neg hd]
    | gap g g' =>
      have hedge : ∀ {t : Text}, (∃ e ∈ t.getLast?, isBlank e) → reachesEdge t := by
        intro t ht
        obtain ⟨e, he, hblank⟩ := ht
        obtain ⟨u, rfl⟩ := getLast?_eq_some_iff.1 he
        rw [reachesEdge_concat, isSentenceLetter_of_isBlank hblank, isWordPart_of_isBlank hblank]
        rfl
      obtain ⟨hsrc, hout⟩ := getLast_of_gap h
      rw [hedge hsrc, hedge hout]
    | mark => simp [(not_mark_before h).2] at hc

/-- The text ends in a letter exactly if the layout does, before a lowercase letter. -/
theorem getLast_any_relaid (h : Fit free (xs ++ .char c :: ys)) (hc : isLowercase c) :
    (out xs).getLast?.any isSentenceLetter = (src xs).getLast?.any isSentenceLetter := by
  rcases eq_nil_or_concat' xs with rfl | ⟨xs, z, rfl⟩
  · rfl
  · rw [append_assoc] at h
    cases z with
    | char d => simp
    | gap g g' =>
      obtain ⟨⟨d, hd, hblank⟩, ⟨e, he, hblank'⟩⟩ := getLast_of_gap h
      rw [hd, he, Option.any_some, Option.any_some, isSentenceLetter_of_isBlank hblank,
        isSentenceLetter_of_isBlank hblank']
    | mark => simp [(not_mark_before h).1] at hc

theorem endsInLetters_relaid (h : Fit free (xs ++ ys)) :
    endsInLetters (out xs).reverse = endsInLetters (src xs).reverse := by
  rcases eq_nil_or_concat' xs with rfl | ⟨xs, z, rfl⟩
  · rfl
  · rw [append_assoc] at h
    by_cases hz : ∀ c, z ≠ .char c
    · obtain ⟨hsrc, hout⟩ := dull_of_getLast h hz
      rw [endsInLetters_of_dull hsrc, endsInLetters_of_dull hout]
    · obtain ⟨c, rfl⟩ : ∃ c, z = .char c := by simpa using hz
      rw [src_append, out_append, src_char, out_char, src_nil, out_nil, endsInLetters_concat,
        endsInLetters_concat, reachesEdge_concat, reachesEdge_concat]
      by_cases hlower : isLowercase c
      · rw [getLast_any_relaid h hlower]
        by_cases hletter : isSentenceLetter c
        · rw [reachesEdge_relaid h hletter]
        · rw [if_neg hletter, if_neg hletter]
      · simp [hlower]

theorem endsInLettersThen_relaid (h : Fit free (xs ++ ys)) {kind : Char → Bool}
    (hkind : ∀ c, isDull c → kind c = false) :
    endsInLettersThen kind (out xs) = endsInLettersThen kind (src xs) := by
  rcases eq_nil_or_concat' xs with rfl | ⟨xs, z, rfl⟩
  · rfl
  · rw [append_assoc] at h
    by_cases hz : ∀ c, z ≠ .char c
    · have hfalse : ∀ {t : Text}, Dull t → endsInLettersThen kind t = false := by
        intro t ht
        rcases eq_nil_or_concat' t with rfl | ⟨u, c, rfl⟩
        · rfl
        · have hc := hkind c (ht c (by simp))
          simp [endsInLettersThen, hc]
      obtain ⟨hsrc, hout⟩ := dull_of_getLast h hz
      rw [hfalse hsrc, hfalse hout]
    · obtain ⟨c, rfl⟩ : ∃ c, z = .char c := by simpa using hz
      have hletters := endsInLetters_relaid h
      simp [endsInLettersThen, hletters]

theorem isEnd_of_solid {w : Text} (hw : Solid w) : isEnd w = endsBackwards w.reverse := by
  obtain ⟨u, c, rfl, hc⟩ := hw.last
  have hspace : (c == ' ') = false := by
    rw [beq_eq_false_iff_ne]
    rintro rfl
    simp at hc
  rw [isEnd.eq_def, reverse_append, reverse_singleton, singleton_append]
  split
  · next rest hnewline =>
    obtain ⟨rfl, _⟩ := cons.inj hnewline
    simp at hc
  · rw [dropWhile_cons, hspace]
    rfl

/-- **Ends of sentences.** A word ends a sentence exactly if it does in the layout. -/
theorem isEnd_relaid (h : Fit free xs) (hsolid : Solid (src xs)) :
    isEnd (out xs) = isEnd (src xs) := by
  rw [isEnd_of_solid hsolid, isEnd_of_solid (h.solid hsolid)]
  obtain ⟨xs, c, rfl, _⟩ := h.exists_concat hsolid
  have hdull : ∀ d, isDull d → isCloser d = false ∧ isEndMark d = false := by
    intro d hd
    simp only [isDull, Bool.and_eq_true, Bool.not_eq_true'] at hd
    exact ⟨hd.1.2, hd.2⟩
  rw [src_append, out_append, src_char, out_char, src_nil, out_nil, endsBackwards_concat,
    endsBackwards_concat, endsInLetters_relaid h,
    endsInLettersThen_relaid h fun d hd => (hdull d hd).1,
    endsInLettersThen_relaid h fun d hd => (hdull d hd).2]

end Backwards

/-! ## Cutting into sentences -/

/-- No word but the last ends a sentence. -/
def Unended (ws : List Text) : Prop := ∀ w ∈ ws.dropLast, isEnd w = false

/-- Texts cut at gaps between words, after each word that ends a sentence. -/
inductive SentenceCut : Text → List Text → Prop
  | last {s : Text} {ws : List Text} : Cut Construct.prose s ws → Unended ws → SentenceCut s [s]
  | cons {s g t : Text} {ws ss : List Text} : Cut Construct.prose s ws → Unended ws →
      (∃ w ∈ ws.getLast?, isEnd w = true) → Apart Construct.prose s g t → SentenceCut t ss →
      SentenceCut (s ++ g ++ t) (s :: ss)

theorem Unended.cons {w : Text} (h : Unended ws) (hne : ws ≠ []) (hw : isEnd w = false) :
    Unended (w :: ws) := by
  intro v hv
  rw [dropLast_cons_of_ne_nil hne] at hv
  rcases mem_cons.1 hv with rfl | hv
  · exact hw
  · exact h v hv

theorem exists_sentenceCut (h : Cut Construct.prose t ws) : ∃ ss, SentenceCut t ss := by
  induction h with
  | @last w hw huncut => exact ⟨[w], .last (.last hw huncut) (by simp [Unended])⟩
  | @cons w g t ws hw huncut hapart hcut ih =>
    obtain ⟨ss, hss⟩ := ih
    by_cases hend : isEnd w
    · exact ⟨w :: ss, .cons (.last hw huncut) (by simp [Unended]) ⟨w, by simp, hend⟩ hapart hss⟩
    · have hend : isEnd w = false := by simpa using hend
      -- the word goes with the first sentence after it
      cases hss with
      | last hs hunended =>
        exact ⟨_, .last (.cons hw huncut hapart hs) (hunended.cons hs.ne_nil hend)⟩
      | @cons s k u vs ss hs hunended hended hsapart hss =>
        obtain ⟨hleft, hright⟩ := hapart.assoc hsapart
        obtain ⟨v, hv, hvend⟩ := hended
        have hlast : v ∈ (w :: vs).getLast? := by rwa [getLast?_cons_of_ne_nil hs.ne_nil]
        have hcons := SentenceCut.cons (.cons hw huncut hleft hs) (hunended.cons hs.ne_nil hend)
          ⟨v, hlast, hvend⟩ hright hss
        exact ⟨_, by simpa using hcons⟩

/-! ## The sentences of a text -/

section Gather

variable {α β : Type} {text : α → Text} {ends : Text → Bool}

theorem joinedLength_nonneg {ws : List Text} (h : ws ≠ []) : 0 ≤ joinedLength ws := by
  have hpos := length_pos_iff.2 h
  unfold joinedLength
  omega

theorem gather_append {current init items : List α} (hinit : ∀ x ∈ init, ends (text x) = false) :
    gather text ends 0 current (init ++ items) = gather text ends 0 (current ++ init) items := by
  induction init generalizing current with
  | nil => rw [nil_append, append_nil]
  | cons x init ih =>
    rw [cons_append, gather, hinit x (by simp), Bool.false_and]
    simp only [Bool.false_eq_true, if_false]
    rw [ih fun y hy => hinit y (by simp [hy]), append_assoc, singleton_append]

theorem gather_ended {current init items : List α} {item : α}
    (hinit : ∀ x ∈ init, ends (text x) = false) (hitem : ends (text item)) :
    gather text ends 0 current (init ++ item :: items)
      = (current ++ init ++ [item]) :: gather text ends 0 [] items := by
  have hlen : 0 ≤ joinedLength ((current ++ init ++ [item]).map text) :=
    joinedLength_nonneg (by simp)
  rw [gather_append hinit, gather, hitem, if_pos (by simpa using hlen)]

theorem gather_last {current init : List α} {item : α} (hinit : ∀ x ∈ init, ends (text x) = false) :
    gather text ends 0 current (init ++ [item]) = [current ++ init ++ [item]] := by
  by_cases hitem : ends (text item)
  · rw [gather_ended hinit hitem]
    rfl
  · simp [gather_append hinit, gather, hitem]

theorem gather_map (f : β → α) (minLength : Int) (current items : List β) :
    gather text ends minLength (current.map f) (items.map f)
      = (gather (fun x => text (f x)) ends minLength current items).map (map f) := by
  induction items generalizing current with
  | nil => cases current <;> simp [gather]
  | cons x items ih =>
    have hgroup : current.map f ++ [f x] = (current ++ [x]).map f := by simp
    have hlengths : ((current ++ [x]).map f).map text
        = (current ++ [x]).map fun x => text (f x) := by simp
    rw [map_cons, gather, gather, hgroup, hlengths, ih]
    have hnil := ih []
    rw [map_nil] at hnil
    rw [hnil, apply_ite (map (map f)), map_cons]

end Gather

theorem Cut.exists_edges {constructs : List Construct} (h : Cut constructs t ws) :
    ∃ first last, (words constructs t).head? = some first ∧ first.start = 0 ∧
      (words constructs t).getLast? = some last ∧ last.stop = t.length := by
  induction h with
  | @last w hw huncut =>
    rw [words_of_uncut huncut hw.ne_nil]
    exact ⟨⟨w, 0⟩, ⟨w, 0⟩, rfl, rfl, rfl, by simp [Word.stop]⟩
  | @cons w g t ws hw huncut hapart _ ih =>
    obtain ⟨_, last, _, _, hlast, hstop⟩ := ih
    rw [words_append hapart, words_of_uncut huncut hw.ne_nil]
    refine ⟨⟨w, 0⟩, shift (w.length + g.length) last, rfl, rfl, ?_, ?_⟩
    · rw [getLast?_append, getLast?_map, hlast]
      rfl
    · simp only [Word.stop, shift, length_append] at hstop ⊢
      omega

theorem Cut.spanOf_eq {constructs : List Construct} {s : Text} (h : Cut constructs s ws)
    (rest : Text) : spanOf (s ++ rest) (words constructs s) = some ⟨s, 0⟩ := by
  obtain ⟨first, last, hfirst, hstart, hlast, hstop⟩ := h.exists_edges
  have hslice := slice_append [] s rest
  rw [nil_append, length_nil, Nat.zero_add] at hslice
  simp only [spanOf, hfirst, hlast, hstart, hstop, hslice]

/-- The stretches of a text do not depend on the text before it. -/
theorem spanOf_shift (a t : Text) (group : List Word) :
    (spanOf (a ++ t) (group.map (shift a.length))).map Sentence.Span.text
      = (spanOf t group).map Sentence.Span.text := by
  have hslice : ∀ i j, slice (a ++ t) (i + a.length) (j + a.length) = slice t i j := by
    intro i j
    rw [slice, slice, Nat.add_comm i, drop_length_add_append, Nat.add_comm j,
      Nat.add_sub_add_left]
  have hstop : ∀ w : Word, (shift a.length w).stop = w.stop + a.length := by
    simp only [Word.stop, shift]
    omega
  rw [spanOf, spanOf, head?_map, getLast?_map]
  cases group.head? with
  | none => rfl
  | some first =>
    cases group.getLast? with
    | none => rfl
    | some last =>
      simp only [Option.map_some, hstop]
      rw [shift, hslice]

theorem Cut.exists_concat {s : Text} (h : Cut Construct.prose s ws) (hws : Unended ws) :
    ∃ init w, words Construct.prose s = init ++ [w] ∧
      (∀ v ∈ init, isEnd v.text = false) ∧ ws.getLast? = some w.text := by
  have htexts := h.words_eq
  obtain ⟨init, w, hwords⟩ := (eq_nil_or_concat' (words Construct.prose s)).resolve_left
    (by rintro hnil; exact h.ne_nil (by rw [← htexts, hnil]; rfl))
  subst htexts
  rw [hwords] at hws ⊢
  refine ⟨init, w, rfl, fun v hv => hws _ ?_, by simp⟩
  simpa using ⟨v, hv, rfl⟩

theorem words_append_blank (constructs : List Construct) (t : Text)
    (hg : ∀ c ∈ g, isBlank c) : words constructs (t ++ g) = words constructs t := by
  induction g using List.reverseRecOn with
  | nil => rw [append_nil]
  | append_singleton g c ih =>
    have hc : isBlank c := hg c (by simp)
    have hgap : isGap (c, false) := by simp [isGap, hc]
    rw [← ih fun d hd => hg d (by simp [hd]), ← append_assoc, Atomic.words,
      Wrap.marks_append_blank hc, marks_nil, solidRuns_append_gap hgap]
    simp [Atomic.words, solidRuns]

/-- The sentences of a text do not depend on the text before it. -/
theorem splitProse_shift (a t : Text) :
    ((gather Word.text isEnd 0 [] ((Atomic.words Construct.prose t).map (shift a.length))).filterMap
      (spanOf (a ++ t))).map Sentence.Span.text = splitProse t 0 isEnd := by
  have hshift : gather Word.text isEnd 0 []
        ((words Construct.prose t).map (shift a.length)) = _ :=
    gather_map (shift a.length) 0 [] (words Construct.prose t)
  rw [hshift, splitProse, Sentence.spans, map_filterMap, map_filterMap,
    filterMap_map]
  exact filterMap_congr fun group _ => spanOf_shift a t group

theorem splitProse_blank_append (hg : ∀ c ∈ g, isBlank c) (t : Text) :
    splitProse (g ++ t) 0 isEnd = splitProse t 0 isEnd := by
  have hwords : words Construct.prose (g ++ t)
      = (words Construct.prose t).map (shift g.length) := by
    rw [Atomic.words, marks_blank_append hg, solidRuns_blank_append hg, solidRuns_shift]
    rfl
  rw [← splitProse_shift g t, ← hwords]
  rfl

/-- **The sentences of a text** are those it is cut into; blanks at the end are in none. -/
theorem SentenceCut.splitProse_eq (h : SentenceCut t ss) (hg : ∀ c ∈ g, isBlank c) :
    splitProse (t ++ g) 0 isEnd = ss := by
  induction h with
  | @last s ws hcut hws =>
    obtain ⟨init, w, hwords, hinit, _⟩ := hcut.exists_concat hws
    rw [splitProse, Sentence.spans, words_append_blank Construct.prose s hg, hwords,
      gather_last hinit, nil_append, ← hwords, filterMap_cons, hcut.spanOf_eq g]
    rfl
  | @cons s k t ws ss hcut hws hended hapart _ ih =>
    obtain ⟨init, w, hwords, hinit, hlast⟩ := hcut.exists_concat hws
    obtain ⟨v, hv, hend⟩ := hended
    obtain rfl : w.text = v := Option.some.inj (hlast.symm.trans hv)
    have hgather : gather Word.text isEnd 0 [] (words Construct.prose (s ++ k ++ t ++ g))
        = words Construct.prose s ::
            gather Word.text isEnd 0 []
              ((words Construct.prose (t ++ g)).map (shift (s ++ k).length)) := by
      rw [words_append_blank _ _ hg, words_append_blank _ _ hg, words_append hapart, hwords,
        append_assoc, singleton_append, gather_ended hinit hend, nil_append,
        length_append]
    have hspan := hcut.spanOf_eq (k ++ t ++ g)
    have hrest := splitProse_shift (s ++ k) (t ++ g)
    rw [← append_assoc, ← append_assoc] at hspan
    rw [← append_assoc, ih] at hrest
    rw [splitProse, Sentence.spans, hgather, filterMap_cons, hspan, map_cons, hrest]

/-! ## Laying out anew -/

theorem SentenceCut.solid (h : SentenceCut t ss) : Solid t := by
  induction h with
  | last hcut _ => exact hcut.solid
  | cons hcut _ _ _ _ ih => exact hcut.solid.append ih _

theorem Unended.relaid {cs : List (List Cell)} (hfit : ∀ c ∈ cs, Fit true c)
    (hsolid : ∀ c ∈ cs, Solid (src c)) (h : Unended (cs.map src)) : Unended (cs.map out) := by
  intro w hw
  rw [← map_dropLast] at hw
  obtain ⟨c, hc, rfl⟩ := mem_map.1 hw
  have hmem := dropLast_subset _ hc
  rw [isEnd_relaid (hfit c hmem) (hsolid c hmem)]
  exact h _ (by rw [← map_dropLast]; exact mem_map.2 ⟨c, hc, rfl⟩)

/-- **Cutting into sentences commutes with laying out.** -/
theorem SentenceCut.relaid {free : Bool} {zs : List Cell} (hfit : Fit free zs)
    (h : SentenceCut (src zs) ss) :
    ∃ cs, ss = cs.map src ∧ SentenceCut (out zs) (cs.map out) ∧ Joined zs cs := by
  generalize ht : src zs = t at h
  induction h generalizing free zs with
  | last hcut hws =>
    subst ht
    obtain ⟨cs, rfl, hcs, hjoined⟩ := hcut.relaid hfit
    have hsolid : ∀ c ∈ cs, Solid (src c) := fun c hc =>
      hcut.solid_words _ (mem_map.2 ⟨c, hc, rfl⟩)
    exact ⟨[zs], rfl, .last hcs (hws.relaid (hjoined.fit hfit) hsolid), .last zs⟩
  | @cons s g t ws ss hcut hws hended hapart hss ih =>
    obtain ⟨xs, g', ys, rfl, rfl, rfl⟩ := hfit.exists_gap (by simpa using ht)
      hcut.solid.isBlank_getLast hapart.blank hss.solid.isBlank_head
    obtain ⟨vs, rfl, hvs, hwords⟩ := hcut.relaid hfit.left
    have hall := hwords.fit hfit.left
    obtain ⟨cs, rfl, hcs, hjoined⟩ := ih hfit.right.2.2.2 rfl
    have hsolid : ∀ c ∈ vs, Solid (src c) := fun c hc =>
      hcut.solid_words _ (mem_map.2 ⟨c, hc, rfl⟩)
    -- the last word ends the sentence also as it is laid out
    have hended' : ∃ w ∈ (vs.map out).getLast?, isEnd w := by
      obtain ⟨w, hw, hend⟩ := hended
      rw [getLast?_map] at hw ⊢
      obtain ⟨v, hv, rfl⟩ := Option.map_eq_some_iff.1 hw
      have hmem := mem_of_getLast? hv
      refine ⟨out v, by rw [hv]; rfl, ?_⟩
      rw [isEnd_relaid (hall v hmem) (hsolid v hmem)]
      exact hend
    refine ⟨xs :: cs, rfl, ?_, .cons xs g g' hjoined⟩
    rw [out_append, out_gap, ← append_assoc]
    exact .cons hvs (hws.relaid hall hsolid) hended' (apart_lockstep hfit hapart) hcs

theorem SentenceCut.of_joined {free : Bool} {zs : List Cell} {cs : List (List Cell)}
    (h : SentenceCut (src zs) (cs.map src)) (hfit : Fit free zs) (hjoined : Joined zs cs) :
    SentenceCut (out zs) (cs.map out) := by
  obtain ⟨cs', hcs, hout, hjoined'⟩ := h.relaid hfit
  rwa [hjoined.unique hjoined' hfit hcs]

end Reflow.Relaid
