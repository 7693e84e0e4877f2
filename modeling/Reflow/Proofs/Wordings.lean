import Reflow.Proofs.HardBreaks
import Reflow.Proofs.Refilling

/-!
Words that end in a backslash.

A text is `Escaping` if it has no backslash in front of a blank. Blanks may be collapsed and put
between tags, and the text still is. The words that are put on lines, and the sentences that these
may be taken from, stand in it with blanks between them; so none but the last of them ends in a
backslash, and the last does not either if a line feed follows. A `Wording` is a way to cut texts
into words of which this can be said, and both that fillers use are.
-/

open List

namespace Reflow.Relaid

open Text Tag Wrap

/-! ## Backslashes before blanks -/

theorem escaping_cons_iff {c : Char} {t : Text} :
    Escaping (c :: t) ↔ (c = '\\' → ∀ d ∈ t.head?, isBlank d = false) ∧ Escaping t := by
  constructor
  · refine fun h => ⟨?_, h.of_isInfix (suffix_cons c t).isInfix⟩
    rintro rfl d hd
    obtain ⟨u, rfl⟩ := head?_eq_some_iff.1 hd
    by_contra hblank
    exact h d (by simpa using hblank) ⟨[], u, rfl⟩
  · rintro ⟨hfirst, ht⟩ d hd hpart
    rcases infix_cons_iff.1 hpart with ⟨u, hu⟩ | hpart
    · obtain ⟨rfl, rfl⟩ : '\\' = c ∧ d :: u = t := by simpa using hu
      rw [hfirst rfl d rfl] at hd
      exact absurd hd (by simp)
    · exact ht d hd hpart

theorem Escaping.append {a t : Text} (ht : Escaping t) (ha : '\\' ∉ a) : Escaping (a ++ t) := by
  induction a with
  | nil => exact ht
  | cons c a ih =>
    rw [mem_cons, not_or] at ha
    exact escaping_cons_iff.2 ⟨fun hc => absurd hc.symm ha.1, ih ha.2⟩

theorem Escaping.reseamed {s t : Text} (h : Reseamed [] [' '] s t) (hs : Escaping s) :
    Escaping t := by
  induction h with
  | nil => exact hs
  | @seam k s t _ ih =>
    refine (ih (hs.of_isInfix (suffix_append _ s).isInfix)).append ?_
    cases k <;> decide
  | @char c s t _ h ih =>
    obtain ⟨hfirst, hs⟩ := escaping_cons_iff.1 hs
    exact escaping_cons_iff.2 ⟨by rwa [h.head?_eq], ih hs⟩

theorem Escaping.separated {t : Text} (ht : Escaping t) : Escaping (separated t) :=
  (ht.relays (relays_collapse t)).reseamed (reseamed_apply [] [' '] (collapse t))

theorem escaping_append_cons {a b : Text} {c : Char} (hc : isBlank c) :
    Escaping (a ++ c :: b) ↔ Escaping a ∧ endsInBackslash a = false ∧ Escaping b := by
  constructor
  · refine fun h => ⟨h.of_isInfix (prefix_append _ _).isInfix, ?_,
      h.of_isInfix ((suffix_cons c b).trans (suffix_append a _)).isInfix⟩
    by_contra hslash
    obtain ⟨a, rfl⟩ := getLast?_eq_some_iff.1 (endsInBackslash_iff.1 (by simpa using hslash))
    exact h c hc ⟨a, b, by simp⟩
  · rintro ⟨ha, hslash, hb⟩
    induction a with
    | nil =>
      refine escaping_cons_iff.2 ⟨?_, hb⟩
      rintro rfl
      simp at hc
    | cons d a ih =>
      obtain ⟨hfirst, ha⟩ := escaping_cons_iff.1 ha
      cases a with
      | nil =>
        refine escaping_cons_iff.2 ⟨?_, ih ha rfl⟩
        rintro rfl
        exact absurd hslash (by decide)
      | cons e a =>
        have hlast : endsInBackslash (e :: a) = endsInBackslash (d :: e :: a) :=
          endsInBackslash_congr getLast?_cons_cons.symm
        exact escaping_cons_iff.2 ⟨hfirst, ih ha (hlast.trans hslash)⟩

end Reflow.Relaid

namespace Reflow.Wrap

open Text Relaid

variable {ws : List Text} {t : Text}

/-! ## Words -/

theorem strewn_unwords (ws : List Text) : Strewn (unwords ws) ws := by
  induction ws with
  | nil => exact .nil (by simp [unwords, joinWith])
  | cons w ws ih =>
    by_cases hws : ws = []
    · subst hws
      exact .singleton w
    · rw [unwords_cons hws, ← nil_append w]
      have hspace : ∀ c ∈ [' '], isBlank c := by simp
      exact .cons (by simp) (by simp) (ih.blank_append hspace)

/-- Of parts that are strewn over a text, only the last can end in a backslash, if the text has none
before a blank. -/
theorem endsInBackslash_of_strewn (h : Strewn t ws) (hne : ∀ w ∈ ws, w ≠ []) (ht : Escaping t) :
    ∀ w ∈ ws.dropLast, endsInBackslash w = false := by
  induction h with
  | nil _ => simp
  | @cons g w rest ws hg hrest hstrewn ih =>
    by_cases hws : ws = []
    · simp [hws]
    · have hmore : rest ≠ [] := by
        rintro rfl
        obtain ⟨v, vs, rfl⟩ := exists_cons_of_ne_nil hws
        generalize hnil : ([] : Text) = s at hstrewn
        cases hstrewn with
        | cons _ _ _ => simp [hne v (by simp)] at hnil
      obtain ⟨c, more, rfl⟩ := exists_cons_of_ne_nil hmore
      have hparts := (escaping_append_cons (hrest c rfl)).1 ht
      rw [dropLast_cons_of_ne_nil hws]
      intro v hv
      rcases mem_cons.1 hv with rfl | hv
      · rw [← hparts.2.1]
        exact endsInBackslash_congr (getLast?_append_of_ne_nil _ (hne v (by simp))).symm
      · refine ih (fun u hu => hne u (by simp [hu])) (ht.of_isInfix ?_) v hv
        exact (suffix_append _ _).isInfix

theorem isInfix_of_strewn {t w : Text} (h : Strewn t ws) (hw : w ∈ ws) : w <:+: t := by
  induction h with
  | nil _ => simp at hw
  | @cons g v rest ws _ _ _ ih =>
    rcases mem_cons.1 hw with rfl | hw
    · exact ⟨g, rest, rfl⟩
    · exact (ih hw).trans (suffix_append _ _).isInfix

/-- Words that are joined by spaces have no backslash before a blank if the text that they are
strewn over has none. -/
theorem escaping_unwords (h : Strewn t ws) (hne : ∀ w ∈ ws, w ≠ []) (ht : Escaping t) :
    Escaping (unwords ws) := by
  have hwords : ∀ w ∈ ws, Escaping w := fun w hw => ht.of_isInfix (isInfix_of_strewn h hw)
  have hends := endsInBackslash_of_strewn h hne ht
  clear h hne
  induction ws with
  | nil => simp [Escaping, unwords, joinWith]
  | cons w ws ih =>
    by_cases hws : ws = []
    · subst hws
      exact hwords w (by simp)
    · rw [dropLast_cons_of_ne_nil hws] at hends
      rw [unwords_cons hws]
      refine (escaping_append_cons isBlank_space).2 ⟨hwords w (by simp), hends w (by simp), ?_⟩
      exact ih (fun v hv => hwords v (by simp [hv])) fun v hv => hends v (by simp [hv])

theorem exists_of_visible_concat {u v : Text} {c : Char} (h : visible u = v ++ [c]) :
    ∃ a g, u = a ++ c :: g ∧ ∀ d ∈ g, isBlank d := by
  induction u using reverseRecOn with
  | nil => simp at h
  | append_singleton u d ih =>
    rw [visible_append] at h
    by_cases hd : isBlank d
    · rw [visible_cons_of_blank hd, visible_nil, append_nil] at h
      obtain ⟨a, g, rfl, hg⟩ := ih h
      refine ⟨a, g ++ [d], by simp, fun e he => ?_⟩
      rcases mem_append.1 he with he | he
      · exact hg e he
      · obtain rfl : e = d := by simpa using he
        exact hd
    · rw [visible_cons_of_visible (by simpa using hd)] at h
      obtain rfl : d = c := by simpa using (append_inj' h rfl).2
      exact ⟨u, [], rfl, by simp⟩

/-- A way to cut texts into the words that are put on lines. -/
structure Wording (words : Text → List Text) : Prop where
  visible_eq : ∀ u, (words u).flatMap visible = visible u
  exists_lineWords : ∀ u, ∀ w ∈ words u, ∃ t, w ∈ lineWords t
  /-- A word that ends in a backslash is the last, or a blank follows in the text. -/
  escaping : ∀ {u}, Escaping u → ∀ w ∈ (words u).dropLast, endsInBackslash w = false

namespace Wording

variable {words : Text → List Text} (h : Wording words)

include h

theorem ne_nil {u : Text} (hu : visible u ≠ []) : words u ≠ [] := by
  intro hnil
  rw [← h.visible_eq u, hnil] at hu
  exact hu rfl

theorem endsInBackslash_eq {u : Text} (hu : Escaping (u ++ ['\n'])) :
    ∀ w ∈ words u, endsInBackslash w = false := by
  obtain ⟨hescaping, _⟩ := (escaping_append_cons isBlank_newline).1 hu
  rcases eq_nil_or_concat' (words u) with hnil | ⟨front, last, hlast⟩
  · simp [hnil]
  · have hinner := h.escaping hescaping
    rw [hlast, dropLast_concat] at hinner
    rw [hlast]
    intro w hw
    rcases mem_append.1 hw with hw | hw
    · exact hinner w hw
    · obtain rfl : w = last := by simpa using hw
      by_contra hslash
      obtain ⟨a, ha⟩ := getLast?_eq_some_iff.1 (endsInBackslash_iff.1 (by simpa using hslash))
      -- the backslash is the last visible character of the text
      have hvisible : visible u = (front.flatMap visible ++ visible a) ++ ['\\'] := by
        rw [← h.visible_eq u, hlast, ha]
        simp [visible_append, visible_cons_of_visible]
      obtain ⟨b, g, rfl, hg⟩ := exists_of_visible_concat hvisible
      cases g with
      | nil => exact hu '\n' isBlank_newline ⟨b, [], by simp⟩
      | cons d g => exact hu d (hg d (by simp)) ⟨b, g ++ ['\n'], by simp⟩

end Wording

theorem wording_lineWords : Wording lineWords where
  visible_eq u := by
    rw [← visible_unwords, ← (strewn_lineWords u).keeps.visible_eq, visible_separated]
  exists_lineWords u w hw := ⟨u, hw⟩
  escaping hu := by
    refine endsInBackslash_of_strewn (strewn_lineWords _) (fun w hw => ?_) hu.separated
    exact (solid_of_mem_lineWords hw).ne_nil

/-- The words of a text that is filled sentence by sentence. -/
def sentenceWords (splitter : SentenceSplitter) (t : Text) : List Text :=
  (splitter.split (flat t)).flatMap lineWords

/-- Sentences are strewn over a text that has no backslash before a blank if the text that they are
cut from has none. -/
theorem exists_strewn_split (splitter : SentenceSplitter) (ht : Escaping t) :
    ∃ u, Escaping u ∧ Strewn u (splitter.split t) := by
  cases splitter with
  | prose => exact ⟨t, ht, (Sentence.strewn_splitProse t 0 Sentence.isEnd).1⟩
  | plain =>
    refine ⟨unwords (SentenceSplitter.plain.split t), ?_, strewn_unwords _⟩
    rw [unwords_split_plain]
    refine escaping_unwords (Atomic.strewn_plain_words t) (fun w hw => ?_) ht
    exact (Atomic.solid_of_mem_plain_words hw).ne_nil

theorem dropLast_flatMap_concat {α : Type} {f : α → List Text} {x : α} (hx : f x ≠ [])
    (xs : List α) : ((xs ++ [x]).flatMap f).dropLast = xs.flatMap f ++ (f x).dropLast := by
  rw [flatMap_append, flatMap_singleton, dropLast_append_of_ne_nil hx]

theorem wording_sentenceWords (splitter : SentenceSplitter) : Wording (sentenceWords splitter) where
  visible_eq u := by
    have hwords : ∀ s, (lineWords s).flatMap visible = visible s := wording_lineWords.visible_eq
    rw [sentenceWords, flatMap_assoc, flatMap_congr fun s _ => hwords s,
      ← visible_unwords, ← (splitter.keeps_split (flat u)).visible_eq, ← (keeps_flat u).visible_eq]
  exists_lineWords u w hw := by
    obtain ⟨s, _, hs⟩ := mem_flatMap.1 hw
    exact ⟨s, hs⟩
  escaping {u} hu := by
    have hsolid := splitter.solid_split (flat u)
    obtain ⟨v, hv, hstrewn⟩ := exists_strewn_split splitter (hu.relays (relays_flat u).1)
    have hends := endsInBackslash_of_strewn hstrewn (fun s hs => (hsolid s hs).ne_nil) hv
    have hescaping : ∀ s ∈ splitter.split (flat u), Escaping s := fun s hs =>
      hv.of_isInfix (isInfix_of_strewn hstrewn hs)
    rw [sentenceWords]
    rcases eq_nil_or_concat' (splitter.split (flat u)) with hnil | ⟨front, last, hlast⟩
    · simp [hnil]
    · rw [hlast] at hsolid hends hescaping ⊢
      have hne : lineWords last ≠ [] :=
        Settings.words_ne_nil (markdownSettings .codePoints) (hsolid last (by simp))
      rw [dropLast_concat] at hends
      rw [dropLast_flatMap_concat hne]
      intro w hw
      rcases mem_append.1 hw with hw | hw
      · -- a sentence that is not the last does not end in a backslash, as if a line feed followed
        obtain ⟨s, hs, hw⟩ := mem_flatMap.1 hw
        refine wording_lineWords.endsInBackslash_eq ?_ w hw
        refine (escaping_append_cons isBlank_newline).2 ⟨hescaping s ?_, hends s hs, ?_⟩
        · exact mem_append_left _ hs
        · simp [Escaping]
      · exact wording_lineWords.escaping (hescaping last (by simp)) w hw

end Reflow.Wrap
