import Mathlib.Data.List.Induction
import Reflow.Proofs.Filling

/-!
Backslashes that wrapping puts in.

`Marked place out src` says that `src` is what is left of the visible text of `out` when some
backslashes are deleted, all of them at places that satisfy `place`. While a paragraph is laid out,
the places are the `FirstWord` ones, which are told by the gaps alone and survive every pass that
closes gaps inside a line or opens new lines (`FirstWord.respaced`).
-/

open List

namespace Reflow.Wrap

open Text

variable {i : Nat} {t : Text}

/-! ## First words of lines -/

/-- The places of the visible characters in first words of lines: the start of the text, the places
after a line feed, and the places next to such a place with no gap between. -/
inductive FirstWord (t : Text) : Nat → Prop
  | start : FirstWord t 0
  | line {i : Nat} : '\n' ∈ gapAt t i → FirstWord t i
  | next {i : Nat} : FirstWord t i → gapAt t (i + 1) = [] → FirstWord t (i + 1)

/-- No gap is opened except by a line feed, and line feeds stay. -/
def Soft (g h : Text) : Prop := (g = [] → h = [] ∨ '\n' ∈ h) ∧ ('\n' ∈ g → '\n' ∈ h)

theorem Soft.refl (g : Text) : Soft g g := ⟨.inl, id⟩

theorem Soft.of_mem {h : Text} (hh : '\n' ∈ h) (g : Text) : Soft g h :=
  ⟨fun _ => .inr hh, fun _ => hh⟩

namespace FirstWord

variable {s t : Text} {i : Nat}

/-- **First words survive.** A soft change of layout leaves every visible character of a first word
in a first word. -/
theorem respaced (h : Respaced Soft s t) (hi : i < (visible s).length) (hs : FirstWord s i) :
    FirstWord t i := by
  induction hs with
  | start => exact .start
  | @line i hline =>
    rcases Nat.eq_zero_or_pos i with rfl | hpos
    · exact .start
    · exact .line ((h.gap i hpos hi).2 hline)
  | @next i _ hgap ih =>
    have ih := ih (by omega)
    rcases (h.gap (i + 1) (by omega) hi).1 hgap with hnil | hline
    · exact .next ih hnil
    · exact .line hline

theorem append_right (hi : i < (visible s).length) (hs : FirstWord s i) (t : Text) :
    FirstWord (s ++ t) i := by
  have hgap : ∀ j, j < (visible s).length → gapAt (s ++ t) j = gapAt s j := by
    intro j hj
    rw [gapAt_append, if_neg (by omega), append_nil]
  induction hs with
  | start => exact .start
  | @line i hline => exact .line (by rwa [hgap i hi])
  | @next i _ hnil ih => exact .next (ih (by omega)) (by rwa [hgap (i + 1) hi])

theorem after_newline (a : Text) (hs : FirstWord s i) :
    FirstWord (a ++ '\n' :: s) ((visible a).length + i) := by
  have hgap : ∀ j, gapAt (a ++ '\n' :: s) ((visible a).length + (j + 1)) = gapAt s (j + 1) := by
    intro j
    rw [gapAt_append, gapAt_eq_nil_of_lt (by omega), if_pos (by omega), nil_append,
      Nat.add_sub_cancel_left, gapAt, if_pos isBlank_newline]
  have hzero : FirstWord (a ++ '\n' :: s) (visible a).length :=
    .line (mem_gapAt_of_append isBlank_newline)
  induction hs with
  | start => exact hzero
  | @line i hline =>
    cases i with
    | zero => exact hzero
    | succ i => exact .line (by rwa [hgap])
  | @next i _ hnil ih => exact .next ih ((hgap i).trans hnil)

theorem of_visible {a : Text} {c : Char} (ha : ∀ d ∈ a, isBlank d = false)
    (hc : isBlank c = false) (t : Text) : FirstWord (a ++ c :: t) a.length := by
  have hgap : ∀ j, j ≤ a.length → gapAt (a ++ c :: t) j = [] := by
    intro j hj
    rw [gapAt_append, gapAt_of_visible ha, visible_eq_self ha, nil_append]
    split
    · rw [Nat.sub_eq_zero_of_le hj, gapAt_zero_of_visible hc]
    · rfl
  have key : ∀ j, j ≤ a.length → FirstWord (a ++ c :: t) j := by
    intro j
    induction j with
    | zero => exact fun _ => .start
    | succ j ih => exact fun hj => .next (ih (by omega)) (hgap (j + 1) hj)
  exact key a.length (Nat.le_refl _)

end FirstWord

/-! ## Marked backslashes -/

/-- The visible text of `src` is what is left of the visible text of `out` when the marked
characters are deleted. These are backslashes, at places that satisfy `place`. -/
def Marked (place : Text → Nat → Prop) (out src : Text) : Prop :=
  ∃ vs : List (Char × Bool), vs.map Prod.fst = visible out ∧
    (vs.filter fun v => !v.2).map Prod.fst = visible src ∧
    ∀ x c y, vs = x ++ (c, true) :: y → c = '\\' ∧ place out x.length

namespace Marked

variable {place place' : Text → Nat → Prop} {out out' src src' : Text}

theorem of_visible_eq (h : visible out = visible src) : Marked place out src := by
  refine ⟨(visible out).map fun c => (c, false), ?_, ?_, ?_⟩
  · rw [map_map]
    exact map_id _
  · rw [filter_map, ← h]
    simp [Function.comp_def]
  · intro x c y hx
    have hmem : (c, true) ∈ (visible out).map fun c => (c, false) := by
      rw [hx]
      simp
    simp at hmem

theorem source (h : Marked place out src) (hsrc : visible src = visible src') :
    Marked place out src' := by
  obtain ⟨vs, hout, hkept, hmarks⟩ := h
  exact ⟨vs, hout, hkept.trans hsrc, hmarks⟩

theorem relocate (h : Marked place out src) (hvisible : visible out = visible out')
    (hplace : ∀ i, (visible out)[i]? = some '\\' → place out i → place' out' i) :
    Marked place' out' src := by
  obtain ⟨vs, hout, hkept, hmarks⟩ := h
  refine ⟨vs, hout.trans hvisible, hkept, fun x c y hx => ?_⟩
  obtain ⟨rfl, hp⟩ := hmarks x c y hx
  refine ⟨rfl, hplace x.length ?_ hp⟩
  rw [← hout, hx]
  simp

/-- **Concatenation.** Two texts may be put together if the places of either are places of the
whole. -/
theorem append (h : Marked place out src) (h' : Marked place' out' src')
    (hleft : ∀ i, i < (visible out).length → place out i → place (out ++ out') i)
    (hright : ∀ i, place' out' i → place (out ++ out') ((visible out).length + i)) :
    Marked place (out ++ out') (src ++ src') := by
  obtain ⟨vs, hout, hkept, hmarks⟩ := h
  obtain ⟨vs', hout', hkept', hmarks'⟩ := h'
  have hlen : vs.length = (visible out).length := by rw [← hout, length_map]
  refine ⟨vs ++ vs', by simp [hout, hout'], by simp [hkept, hkept'], fun x c y hx => ?_⟩
  rcases append_eq_append_iff.1 hx with ⟨x', rfl, hx'⟩ | ⟨y', hvs, hy⟩
  · obtain ⟨hc, hp⟩ := hmarks' x' c y hx'
    refine ⟨hc, ?_⟩
    rw [length_append, hlen]
    exact hright _ hp
  · cases y' with
    | nil =>
      obtain ⟨hc, hp⟩ := hmarks' [] c y (by simpa using hy.symm)
      obtain rfl : vs = x := by simpa using hvs
      refine ⟨hc, ?_⟩
      rw [hlen]
      exact hright 0 hp
    | cons m y' =>
      obtain ⟨rfl, rfl⟩ : m = (c, true) ∧ y = y' ++ vs' := by
        simpa [eq_comm] using hy
      obtain ⟨hc, hp⟩ := hmarks x c y' hvs
      refine ⟨hc, hleft _ ?_ hp⟩
      rw [← hlen, hvs]
      simp

theorem respaced (h : Marked FirstWord out src) (hsoft : Respaced Soft out out') :
    Marked FirstWord out' src := by
  refine h.relocate hsoft.visible_eq fun i hi hfirst => hfirst.respaced hsoft ?_
  exact (List.getElem?_eq_some_iff.1 hi).1

theorem join (h : Marked FirstWord out src) (h' : Marked FirstWord out' src') :
    Marked FirstWord (out ++ '\n' :: out') (src ++ '\n' :: src') := by
  have hline : Marked (fun t i => FirstWord (out ++ t) ((visible out).length + i))
      ('\n' :: out') ('\n' :: src') := by
    have hvisible : ∀ t : Text, visible ('\n' :: t) = visible t :=
      fun t => visible_cons_of_blank isBlank_newline t
    refine (h'.relocate (hvisible out').symm fun i _ hp => ?_).source (hvisible src').symm
    exact hp.after_newline out
  exact h.append hline (fun i hi hp => hp.append_right hi _) fun i hp => hp

theorem unlines {outs srcs : List Text} (h : Forall₂ (Marked FirstWord) outs srcs) :
    Marked FirstWord (unlines outs) (unlines srcs) := by
  induction h with
  | nil => exact of_visible_eq rfl
  | @cons out src outs srcs hout houts ih =>
    by_cases hnil : outs = []
    · subst hnil
      cases houts
      exact hout
    · have hsrcs : srcs ≠ [] := by
        rintro rfl
        cases houts
        exact hnil rfl
      rw [unlines_cons hnil, unlines_cons hsrcs]
      exact hout.join ih

theorem insert {a : Text} (ha : ∀ c ∈ a, isBlank c = false) (t : Text) :
    Marked FirstWord (a ++ '\\' :: t) (a ++ t) := by
  have hplain : ∀ (u : Text) (c : Char), (c, true) ∉ u.map fun c => (c, false) := by simp
  refine ⟨a.map (fun c => (c, false)) ++ ('\\', true) :: (visible t).map (fun c => (c, false)),
    ?_, ?_, ?_⟩
  · have hback : visible ('\\' :: t) = '\\' :: visible t :=
      visible_cons_of_visible isBlank_backslash t
    rw [visible_append, hback, visible_eq_self ha]
    simp [Function.comp_def]
  · rw [visible_append, visible_eq_self ha]
    simp [filter_map, Function.comp_def]
  · intro x c y hx
    -- the backslash is the only character that is marked
    rcases append_eq_append_iff.1 hx with ⟨x', rfl, hx'⟩ | ⟨y', hvs, hy⟩
    · cases x' with
      | nil =>
        obtain ⟨rfl, _⟩ : '\\' = c ∧ _ := by simpa using hx'
        exact ⟨rfl, by simpa using FirstWord.of_visible ha isBlank_backslash t⟩
      | cons m x' =>
        obtain ⟨_, hrest⟩ := cons.inj hx'
        exact absurd (hrest ▸ by simp) (hplain (visible t) c)
    · cases y' with
      | nil =>
        obtain ⟨rfl, _⟩ : c = '\\' ∧ _ := by simpa using hy
        have hx : x.length = a.length := by
          have := congrArg length hvs
          simpa using this.symm
        exact ⟨rfl, hx ▸ FirstWord.of_visible ha isBlank_backslash t⟩
      | cons m y' =>
        obtain ⟨rfl, _⟩ := cons.inj hy
        exact absurd (hvs ▸ by simp) (hplain a c)

end Marked

/-- **A row.** The backslash that a line may get stands in its first word. -/
theorem Row.marked {s : Settings} {r : Row} (hr : ∀ w ∈ r.words, Solid w) :
    Marked FirstWord (r.text s.escape) (unwords r.words) := by
  obtain ⟨ws, wrapped⟩ := r
  cases wrapped with
  | false => exact .of_visible_eq rfl
  | true =>
    cases ws with
    | nil => exact .of_visible_eq rfl
    | cons w ws =>
      show Marked FirstWord (unwords (s.escape w :: ws)) (unwords (w :: ws))
      by_cases hs : s.markdown
      · have hescape : s.escape w = escapeWord w := by simp [Settings.escape, hs]
        rw [hescape]
        rcases escapeWord_cases (hr w (by simp)) with h | ⟨hvisible, a, b, rfl, _, h⟩
        · rw [h]
          exact .of_visible_eq rfl
        · -- the word, its marked backslash, and the other words
          obtain ⟨g, hg⟩ : ∃ g, ∀ v, unwords (v :: ws) = v ++ g := by
            by_cases hws : ws = []
            · exact ⟨[], fun v => by simp [hws, unwords, joinWith]⟩
            · exact ⟨' ' :: unwords ws, fun v => unwords_cons hws v⟩
          rw [h, hg, hg, append_assoc, append_assoc]
          exact Marked.insert (fun c hc => hvisible c (by simp [hc])) _
      · have hescape : s.escape w = w := by simp [Settings.escape, hs]
        rw [hescape]
        exact .of_visible_eq rfl

/-! ## Places in the text -/

/-- What may stand before a character in the first word of a line: whole lines, then blanks, then
visible characters. -/
def InFirstWord (before : Text) : Prop :=
  ∃ a g w, before = a ++ g ++ w ∧ (∀ c ∈ a.getLast?, c = '\n') ∧
    (∀ c ∈ g, isBlank c = true) ∧ ∀ c ∈ w, isBlank c = false

/-- After `i` visible characters there is a backslash, at the end of a line or in the first word of
a line. -/
def EscapePlace (t : Text) (i : Nat) : Prop :=
  ∃ before after, t = before ++ '\\' :: after ∧ (visible before).length = i ∧
    (after.head? = some '\n' ∨ InFirstWord before)

theorem exists_of_getElem?_visible {c : Char} (h : (visible t)[i]? = some c) :
    ∃ before after, t = before ++ c :: after ∧ (visible before).length = i := by
  induction t generalizing i with
  | nil => simp at h
  | cons d t ih =>
    rcases Bool.eq_false_or_eq_true (isBlank d) with hd | hd
    · rw [visible_cons_of_blank hd] at h
      obtain ⟨before, after, rfl, hlen⟩ := ih h
      exact ⟨d :: before, after, rfl, by rw [visible_cons_of_blank hd, hlen]⟩
    · rw [visible_cons_of_visible hd] at h
      cases i with
      | zero =>
        obtain rfl : d = c := by simpa using h
        exact ⟨[], t, rfl, rfl⟩
      | succ i =>
        obtain ⟨before, after, rfl, hlen⟩ := ih (by simpa using h)
        exact ⟨d :: before, after, rfl, by rw [visible_cons_of_visible hd, length_cons, hlen]⟩

theorem exists_gapAt_length (t : Text) :
    ∃ a, t = a ++ gapAt t (visible t).length ∧ ∀ c ∈ a.getLast?, isBlank c = false := by
  induction t using reverseRecOn with
  | nil => exact ⟨[], by simp, by simp⟩
  | append_singleton t c ih =>
    rcases Bool.eq_false_or_eq_true (isBlank c) with hc | hc
    · obtain ⟨a, ht, ha⟩ := ih
      refine ⟨a, ?_, ha⟩
      have hlen : (visible (t ++ [c])).length = (visible t).length := by
        rw [visible_append, visible_cons_of_blank hc]
        simp
      rw [hlen, gapAt_append, if_pos (Nat.le_refl _), Nat.sub_self, gapAt, if_pos hc, gapAt_nil,
        ← append_assoc, ← ht]
    · have hlen : (visible (t ++ [c])).length = (visible t).length + 1 := by
        rw [visible_append, visible_cons_of_visible hc]
        simp
      rw [hlen, gapAt_append, gapAt_eq_nil_of_lt (Nat.lt_succ_self _), if_pos (by omega),
        Nat.add_sub_cancel_left]
      simp [gapAt, hc]

theorem FirstWord.inFirstWord (h : FirstWord t i) {before after : Text} {c : Char}
    (ht : t = before ++ c :: after) (hc : isBlank c = false) (hi : (visible before).length = i) :
    InFirstWord before := by
  induction h generalizing before c after with
  | start =>
    refine ⟨[], before, [], by simp, by simp, fun d hd => ?_, by simp⟩
    by_contra hblank
    have hmem : d ∈ visible before := mem_filter.2 ⟨hd, by simp [hblank]⟩
    rw [eq_nil_of_length_eq_zero hi] at hmem
    simp at hmem
  | line hline =>
    subst ht hi
    rw [gapAt_before_visible hc] at hline
    obtain ⟨a, ha, _⟩ := exists_gapAt_length before
    obtain ⟨g, g', hg⟩ := append_of_mem hline
    refine ⟨a ++ g ++ ['\n'], g', [], ?_, by simp, fun d hd => ?_, by simp⟩
    · rw [hg] at ha
      rw [ha]
      simp
    · have hd : d ∈ gapAt before (visible before).length := by
        rw [hg]
        simp [hd]
      exact (mem_gapAt hd).1
  | @next i _ hnil ih =>
    subst ht
    rw [← hi, gapAt_before_visible hc] at hnil
    obtain ⟨a, ha, hlast⟩ := exists_gapAt_length before
    rw [hnil, append_nil] at ha
    subst ha
    -- the character before is visible, and in the first word too
    rcases eq_nil_or_concat' before with rfl | ⟨b, d, rfl⟩
    · simp at hi
    have hd : isBlank d = false := hlast d (by simp)
    have hlen : (visible b).length = i := by
      rw [visible_append, visible_cons_of_visible hd] at hi
      simpa using hi
    obtain ⟨a, g, w, rfl, ha, hg, hw⟩ :=
      ih (show b ++ [d] ++ c :: after = b ++ d :: (c :: after) by simp) hd hlen
    refine ⟨a, g, w ++ [d], by simp, ha, hg, fun e he => ?_⟩
    rcases mem_append.1 he with he | he
    · exact hw e he
    · obtain rfl : e = d := by simpa using he
      exact hd

theorem FirstWord.escapePlace (h : FirstWord t i) (hi : (visible t)[i]? = some '\\') :
    EscapePlace t i := by
  obtain ⟨before, after, ht, hlen⟩ := exists_of_getElem?_visible hi
  exact ⟨before, after, ht, hlen, .inr (h.inFirstWord ht isBlank_backslash hlen)⟩

theorem EscapePlace.append_right (h : EscapePlace t i) (u : Text) : EscapePlace (t ++ u) i := by
  obtain ⟨before, after, rfl, hlen, hplace⟩ := h
  refine ⟨before, after ++ u, by simp, hlen, hplace.imp_left fun hline => ?_⟩
  rw [head?_append, hline]
  rfl

theorem EscapePlace.after_line {t a : Text} (h : EscapePlace t i) (ha : a.getLast? = some '\n') :
    EscapePlace (a ++ t) ((visible a).length + i) := by
  obtain ⟨before, after, rfl, hlen, hplace⟩ := h
  refine ⟨a ++ before, after, by simp, by simp [hlen], hplace.imp_right ?_⟩
  rintro ⟨b, g, w, rfl, hb, hg, hw⟩
  refine ⟨a ++ b, g, w, by simp, fun c hc => ?_, hg, hw⟩
  rw [getLast?_append] at hc
  cases hlast : b.getLast? with
  | none =>
    rw [hlast, ha] at hc
    simpa using hc.symm
  | some d =>
    rw [hlast] at hc
    obtain rfl : d = c := by simpa using hc
    exact hb d hlast

namespace Marked

variable {out out' src src' : Text}

theorem escapePlace (h : Marked FirstWord out src) : Marked EscapePlace out src :=
  h.relocate rfl fun _ hi hp => hp.escapePlace hi

theorem hardBreak (h : Marked EscapePlace out src) :
    Marked EscapePlace (out ++ ['\\', '\n']) src := by
  have hbreak : Marked (fun _ i => EscapePlace (out ++ ['\\', '\n']) ((visible out).length + i))
      ['\\', '\n'] [] := by
    refine ⟨[('\\', true)], by decide, by decide, fun x c y hx => ?_⟩
    cases x with
    | nil =>
      obtain ⟨rfl, _⟩ : '\\' = c ∧ [] = y := by simpa using hx
      exact ⟨rfl, out, ['\n'], rfl, rfl, .inl rfl⟩
    | cons m x => simp at hx
  simpa using h.append hbreak (fun i _ hp => hp.append_right _) fun i hp => hp

end Marked

end Reflow.Wrap
