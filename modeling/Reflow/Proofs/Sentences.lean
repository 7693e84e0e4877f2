import Reflow.Proofs.Words
import Reflow.Wrap.LineWrapper

/-!
Sentences as stretches of the text.

Words are gathered into groups, and a sentence is the stretch of the text from the first word of a
group through its last. As words tile the text, so do groups of words (`Tiles.group`): between two
sentences there are gaps and nothing else. Hence the sentences of prose are strewn over the text
(`strewn_splitProse`), and whichever way a text is cut into sentences, joining them by spaces keeps
its visible characters and their separations (`keeps_split`).
-/

open List

namespace Reflow.Atomic

open Text

/-! ## Groups of words -/

/-- **Groups tile.** A group of the words in front takes up a stretch of the marks: gaps before it,
the stretch from the start of its first word to the end of its last, and then the marks that hold
the other words. -/
theorem Tiles.group {start : Nat} {ms : List Mark} {group others : List Word}
    (h : Tiles start ms (group ++ others)) (hne : group ≠ []) (hsolid : ∀ w ∈ group, Solid w.text) :
    ∃ g core rest, ms = g ++ core ++ rest ∧ (∀ m ∈ g, isGap m) ∧
      Solid (core.map Prod.fst) ∧ (∀ m ∈ rest.head?, isGap m) ∧
      Tiles (start + g.length + core.length) rest others ∧
      (∀ w ∈ group.head?, w.start = start + g.length) ∧
      ∀ w ∈ group.getLast?, w.stop = start + g.length + core.length := by
  induction group generalizing start ms with
  | nil => exact absurd rfl hne
  | cons v group ih =>
    generalize hall : v :: group ++ others = all at h
    cases h with
    | nil _ => simp at hall
    | @cons _ g w rest ws hg _ _ hrest htiles =>
      obtain ⟨rfl, rfl⟩ : v = ⟨w.map Prod.fst, start + g.length⟩ ∧ group ++ others = ws := by
        simpa using hall
      have hw : Solid (w.map Prod.fst) := hsolid ⟨w.map Prod.fst, start + g.length⟩ (by simp)
      by_cases hgroup : group = []
      · subst hgroup
        refine ⟨g, w, rest, rfl, hg, hw, hrest, htiles, by simp, ?_⟩
        simp [Word.stop]
      · -- the stretch goes on through the gaps before the next word
        obtain ⟨g', core, rest', rfl, _, hcore, hrest', htiles', _, hlast⟩ :=
          ih htiles hgroup fun u hu => hsolid u (by simp [hu])
        have hlen : start + g.length + (w ++ g' ++ core).length
            = start + g.length + w.length + g'.length + core.length := by
          simp only [length_append]; omega
        refine ⟨g, w ++ g' ++ core, rest', by simp, hg, ?_, hrest', ?_, by simp, ?_⟩
        · rw [map_append, map_append]
          exact hw.append hcore _
        · rw [hlen]
          exact htiles'
        · intro u hu
          rw [hlen]
          refine hlast u ?_
          rwa [getLast?_cons_of_ne_nil hgroup] at hu

end Reflow.Atomic

namespace Reflow.Sentence

open Text Atomic

/-! ## Gathering -/

section Gather

variable {α : Type} {text : α → Text} {ends : Text → Bool} {minLength : Int}

theorem flatten_gather (current items : List α) :
    (gather text ends minLength current items).flatten = current ++ items := by
  fun_induction gather text ends minLength current items with
  | case1 current h =>
    have : current = [] := by simpa using h
    simp [this]
  | case2 current h => simp
  | case3 current item rest group h ih => simp [group, ih]
  | case4 current item rest group h ih => simp [group, ih]

theorem ne_nil_of_mem_gather {current items group : List α}
    (h : group ∈ gather text ends minLength current items) : group ≠ [] := by
  fun_induction gather text ends minLength current items with
  | case1 => simp at h
  | case2 current hne =>
    obtain rfl : group = current := by simpa using h
    simpa using hne
  | case3 current item rest g hends ih =>
    rcases mem_cons.1 h with rfl | h
    · simp [g]
    · exact ih h
  | case4 current item rest g hends ih => exact ih h

end Gather

/-! ## Sentences of prose -/

theorem slice_append (a b c : Text) : slice (a ++ b ++ c) a.length (a.length + b.length) = b := by
  unfold slice
  rw [append_assoc, drop_left, Nat.add_sub_cancel_left, take_left]

/-- Groups of words become solid stretches of the text, with blanks between them. -/
theorem strewn_spans {a : Text} {ms : List Mark} {groups : List (List Word)}
    (h : Tiles a.length ms groups.flatten) (hne : ∀ group ∈ groups, group ≠ [])
    (hsolid : ∀ w ∈ groups.flatten, Solid w.text) :
    Strewn (ms.map Prod.fst)
        ((groups.filterMap (spanOf (a ++ ms.map Prod.fst))).map Span.text) ∧
      ∀ s ∈ (groups.filterMap (spanOf (a ++ ms.map Prod.fst))).map Span.text, Solid s := by
  induction groups generalizing a ms with
  | nil => exact ⟨h.strewn, by simp⟩
  | cons group groups ih =>
    obtain ⟨g, core, rest, rfl, hg, hcore, hrest, htiles, hfirst, hlast⟩ :=
      h.group (hne group (by simp)) fun w hw => hsolid w (by simp [hw])
    obtain ⟨first, hfirst'⟩ : ∃ w, group.head? = some w := by
      cases group with
      | nil => exact absurd rfl (hne [] (by simp))
      | cons w ws => exact ⟨w, rfl⟩
    obtain ⟨last, hlast'⟩ : ∃ w, group.getLast? = some w :=
      ⟨_, getLast?_eq_some_getLast (hne group (by simp))⟩
    -- the group's own stretch
    have hspan : spanOf (a ++ (g ++ core ++ rest).map Prod.fst) group
        = some ⟨core.map Prod.fst, first.start⟩ := by
      have hstart := hfirst first hfirst'
      have hstop := hlast last hlast'
      have hslice := slice_append (a ++ g.map Prod.fst) (core.map Prod.fst) (rest.map Prod.fst)
      simp only [length_append, length_map] at hslice
      simp only [spanOf, hfirst', hlast', hstart, hstop, map_append]
      simp only [append_assoc] at hslice ⊢
      rw [hslice]
    -- the others, in the text after it
    have hlen : (a ++ (g ++ core).map Prod.fst).length = a.length + g.length + core.length := by
      simp only [length_append, length_map]; omega
    have hrest' := ih (a := a ++ (g ++ core).map Prod.fst) (by rw [hlen]; exact htiles)
      (fun gr hgr => hne gr (by simp [hgr])) (fun w hw => hsolid w (by
        rw [flatten_cons]; exact mem_append_right _ hw))
    rw [append_assoc, ← map_append] at hrest'
    rw [filterMap_cons, hspan]
    constructor
    · have hcons := Strewn.cons (w := core.map Prod.fst) (Tiles.isBlank_of_isGap hg)
        (Tiles.isBlank_of_head?_isGap hrest) hrest'.1
      rwa [← map_append, ← map_append] at hcons
    · intro s hs
      rcases mem_cons.1 hs with rfl | hs
      · exact hcore
      · exact hrest'.2 s hs

/-- **Sentences of prose.** They are solid stretches of the text, strewn over it. -/
theorem strewn_splitProse (t : Text) (minLength : Int) (ends : Text → Bool) :
    Strewn t (splitProse t minLength ends) ∧ ∀ s ∈ splitProse t minLength ends, Solid s := by
  have hflat : (gather Word.text ends minLength [] (words Construct.prose t)).flatten
      = words Construct.prose t := by rw [flatten_gather, nil_append]
  have htiles : Tiles ([] : Text).length (marks Construct.prose t)
      (gather Word.text ends minLength [] (words Construct.prose t)).flatten := by
    rw [hflat]
    exact tiles_words _ t
  have h := strewn_spans htiles (fun _ => ne_nil_of_mem_gather)
    (by rw [hflat]; exact solid_of_mem_words)
  rw [map_fst_marks] at h
  exact h

end Reflow.Sentence

namespace Reflow.Wrap

open Text Sentence

theorem SentenceSplitter.solid_split (splitter : SentenceSplitter) (t : Text) :
    ∀ s ∈ splitter.split t, Solid s := by
  intro s hs
  cases splitter with
  | plain =>
    obtain ⟨group, hgroup, rfl⟩ := mem_map.1 hs
    refine solid_unwords (ne_nil_of_mem_gather hgroup) fun w hw => ?_
    have hmem : w ∈ (gather id isEnd defaultMinLength [] (words t)).flatten :=
      mem_flatten.2 ⟨group, hgroup, hw⟩
    rw [flatten_gather] at hmem
    exact Atomic.solid_of_mem_plain_words hmem
  | prose => exact (strewn_splitProse t 0 isEnd).2 s hs

theorem unwords_split_plain (t : Text) :
    unwords (SentenceSplitter.plain.split t) = unwords (words t) := by
  have hflat : (gather id isEnd defaultMinLength [] (words t)).flatten = words t := by
    rw [flatten_gather, nil_append]
  conv_rhs => rw [← hflat, unwords, joinWith_flatten fun _ => ne_nil_of_mem_gather]
  rfl

theorem SentenceSplitter.keeps_split (splitter : SentenceSplitter) (t : Text) :
    Respaced KeepsGap t (unwords (splitter.split t)) := by
  cases splitter with
  | plain =>
    rw [unwords_split_plain]
    exact Atomic.keeps_words t
  | prose => exact (strewn_splitProse t 0 isEnd).1.keeps

end Reflow.Wrap
