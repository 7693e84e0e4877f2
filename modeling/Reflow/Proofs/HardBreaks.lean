import Reflow.Proofs.VisibleText

/-!
Hard breaks, part by part.

Whether a line feed is a hard break is decided by the line that it ends (`endsHard`). So the parts
of two texts with a break between them are the parts of the one and then those of the other
(`hardSegments_append`), and a wrapper that keeps hard breaks wraps each text on its own.
-/

open List hiding splitOn splitOn_ne_nil find?

namespace Reflow.Wrap

open Text

variable {t l : Text} (wrap : LineWrapper)

/-! ## Cutting -/

theorem hardSegments_ne_nil (t : Text) : hardSegments t ≠ [] := by
  obtain ⟨p, ps, hcons⟩ := (hardCut_hardSegments t).exists_cons
  simp [hcons]

theorem hardSegments_eq_singleton (h : (hardSegments t).length = 1) : hardSegments t = [t] := by
  have hcut := hardCut_hardSegments t
  obtain ⟨p, hp⟩ := length_eq_one_iff.1 h
  rw [hp] at hcut ⊢
  cases hcut with
  | last => rfl
  | cut _ _ hnil => cases hnil

/-- **A hard break cuts the text in two**, whatever stands before and after it. -/
theorem hardSegments_append {sep : Text} (hsep : IsHardBreak sep) (a b : Text) :
    hardSegments (a ++ sep ++ b) = hardSegments a ++ hardSegments b := by
  fun_induction hardSegments a with
  | case1 => rcases hsep with rfl | rfl <;> simp [hardSegments]
  | case2 rest ih | case3 rest ih => simpa [hardSegments] using ih
  | case4 c cs _ _ hnil _ => exact absurd hnil (hardSegments_ne_nil cs)
  | case5 c cs hslash hspaces segment rest hcons ih =>
    -- a break at this character would end before `sep` does, and so be one without `sep`
    have hslash' : ∀ more, c = '\\' → cs ++ sep ++ b = '\n' :: more → False := by
      intro more hc hmore
      cases cs with
      | nil => rcases hsep with rfl | rfl <;> simp at hmore
      | cons d ds => exact hslash ds hc (by rw [(cons.inj hmore).1])
    have hspaces' : ∀ more, c = ' ' → cs ++ sep ++ b = ' ' :: '\n' :: more → False := by
      intro more hc hmore
      rcases cs with _ | ⟨d, _ | ⟨e, es⟩⟩
      · rcases hsep with rfl | rfl <;> simp at hmore
      · rcases hsep with rfl | rfl <;> simp at hmore
      · obtain ⟨rfl, rfl, _⟩ : d = ' ' ∧ e = '\n' ∧ es ++ sep ++ b = more := by simpa using hmore
        exact hspaces es hc rfl
    rw [cons_append, cons_append, hardSegments.eq_4 _ _ hslash' hspaces', ih, hcons]
    rfl

theorem hardSegments_joinWith {us : List Text} (hne : us ≠ []) :
    hardSegments (joinWith ['\\', '\n'] us) = us.flatMap hardSegments := by
  induction us with
  | nil => exact absurd rfl hne
  | cons u us ih =>
    by_cases hus : us = []
    · subst hus
      simp [joinWith]
    · rw [joinWith_cons hus, hardSegments_append (.inl rfl), ih hus, flatMap_cons]

/-! ## Counting -/

theorem length_le_flatMap_hardSegments (us : List Text) :
    us.length ≤ (us.flatMap hardSegments).length := by
  induction us with
  | nil => simp
  | cons u us ih =>
    have hpos := length_pos_iff.2 (hardSegments_ne_nil u)
    rw [flatMap_cons, length_append, length_cons]
    omega

/-- Texts that together have no more parts than there are texts have no hard breaks. -/
theorem hardSegments_of_length_flatMap_le {us : List Text}
    (h : (us.flatMap hardSegments).length ≤ us.length) : ∀ u ∈ us, hardSegments u = [u] := by
  induction us with
  | nil => simp
  | cons v us ih =>
    have hpos := length_pos_iff.2 (hardSegments_ne_nil v)
    have hle := length_le_flatMap_hardSegments us
    rw [flatMap_cons, length_append, length_cons] at h
    intro u hu
    rcases mem_cons.1 hu with rfl | hu
    · exact hardSegments_eq_singleton (by omega)
    · exact ih (by omega) u hu

theorem HardCut.flatMap_hardSegments {ts : List Text} (h : HardCut t ts) :
    ts.flatMap hardSegments = hardSegments t := by
  induction h with
  | last t => simp
  | cut s hsep _ ih => rw [flatMap_cons, ih, hardSegments_append hsep]

theorem hardSegments_of_mem {t p : Text} (h : p ∈ hardSegments t) : hardSegments p = [p] := by
  refine hardSegments_of_length_flatMap_le ?_ p h
  rw [(hardCut_hardSegments t).flatMap_hardSegments]

/-- The line would be ended by a hard break. -/
def endsHard (l : Text) : Bool := l.endsWith ['\\'] || l.endsWith [' ', ' ']

theorem endsHard_cons {c : Char} (hslash : c :: l ≠ ['\\']) (hspaces : c :: l ≠ [' ', ' ']) :
    endsHard (c :: l) = endsHard l := by
  have hsuffix : ∀ s : Text, c :: l ≠ s → endsWith (c :: l) s = l.endsWith s := by
    intro s hs
    rw [endsWith, endsWith, Bool.eq_iff_iff, isSuffixOf_iff_suffix,
      isSuffixOf_iff_suffix, suffix_cons_iff, or_iff_right hs.symm]
  rw [endsHard, endsHard, hsuffix _ hslash, hsuffix _ hspaces]

/-- The line ends in a backslash. -/
def endsInBackslash (l : Text) : Bool := l.endsWith ['\\']

theorem endsInBackslash_iff : endsInBackslash l ↔ l.getLast? = some '\\' := by
  rw [endsInBackslash, endsWith, isSuffixOf_iff_suffix, getLast?_eq_some_iff]
  exact exists_congr fun _ => eq_comm

theorem endsInBackslash_congr {l m : Text} (h : l.getLast? = m.getLast?) :
    endsInBackslash l = endsInBackslash m := by
  rw [Bool.eq_iff_iff, endsInBackslash_iff, endsInBackslash_iff, h]

theorem endsInBackslash_of_not_endsHard (h : endsHard l = false) : endsInBackslash l = false :=
  (Bool.or_eq_false_iff.1 h).1

theorem endsHard_of_visible (h : ∀ c ∈ l.getLast?, isBlank c = false) :
    endsHard l = endsInBackslash l := by
  have hspaces : l.endsWith [' ', ' '] = false := by
    rw [endsWith, Bool.eq_false_iff, Ne, isSuffixOf_iff_suffix]
    rintro ⟨a, rfl⟩
    simp at h
  rw [endsHard, hspaces, Bool.or_false, endsInBackslash]

/-- **Hard breaks are counted line by line.** There is one at the end of every line, but the last,
that ends in a backslash or two spaces. -/
theorem length_hardSegments (t : Text) :
    (hardSegments t).length = (lines t).dropLast.countP endsHard + 1 := by
  have hcons : ∀ (l rest : Text), (l :: lines rest).dropLast = l :: (lines rest).dropLast :=
    fun l rest => dropLast_cons_of_ne_nil (splitOn_ne_nil '\n' rest)
  fun_induction hardSegments t with
  | case1 => rfl
  | case2 rest ih =>
    have hlines : lines ('\\' :: '\n' :: rest) = ['\\'] :: lines rest := by simp [lines, splitOn]
    rw [hlines, hcons, countP_cons_of_pos (by decide), length_cons, ih]
  | case3 rest ih =>
    have hlines : lines (' ' :: ' ' :: '\n' :: rest) = [' ', ' '] :: lines rest := by
      simp [lines, splitOn]
    rw [hlines, hcons, countP_cons_of_pos (by decide), length_cons, ih]
  | case4 c cs _ _ hnil _ => exact absurd hnil (hardSegments_ne_nil cs)
  | case5 c cs hslash hspaces segment rest hsegments ih =>
    rw [hsegments] at ih
    rw [length_cons, ← length_cons (a := segment), ih]
    by_cases hc : c = '\n'
    · have hlines : lines (c :: cs) = [] :: lines cs := by simp [lines, splitOn, hc]
      rw [hlines, hcons, countP_cons_of_neg (by decide)]
    · obtain ⟨l, ls, hl⟩ := exists_cons_of_ne_nil (splitOn_ne_nil '\n' cs)
      have hl : lines cs = l :: ls := hl
      have hlines : lines (c :: cs) = (c :: l) :: ls := by
        rw [lines] at hl
        simp [lines, splitOn, hc, hl]
      rw [hlines, hl]
      by_cases hls : ls = []
      · simp [hls]
      · -- the line is followed by a line feed, which is no hard break with `c` or without
        have htext : cs = l ++ '\n' :: unlines ls := by
          rw [← unlines_lines cs, hl, unlines_cons hls]
        have hends : endsHard (c :: l) = endsHard l := by
          refine endsHard_cons (fun h => ?_) fun h => ?_
          · obtain ⟨rfl, rfl⟩ := cons.inj h
            exact hslash _ rfl htext
          · obtain ⟨rfl, rfl⟩ := cons.inj h
            exact hspaces _ rfl htext
        rw [dropLast_cons_of_ne_nil hls, dropLast_cons_of_ne_nil hls, countP_cons,
          countP_cons, hends]

/-! ## Wrapping part by part -/

theorem wrapLaterSegments_append (indent : Text) (ps qs : List Text) :
    wrapLaterSegments wrap indent (ps ++ qs)
      = wrapLaterSegments wrap indent ps ++ wrapLaterSegments wrap indent qs := by
  induction ps with
  | nil => rfl
  | cons p ps ih => simp [wrapLaterSegments, ih]

theorem keepHardBreaks_eq (t : Text) :
    keepHardBreaks wrap t {} = joinWith ['\\', '\n'] ((hardSegments t).map fun p => wrap p {}) := by
  have hlater : ∀ (p : Text) (ps : List Text), wrap p {} ++ wrapLaterSegments wrap [] ps
      = joinWith ['\\', '\n'] ((p :: ps).map fun p => wrap p {}) := by
    intro p ps
    induction ps generalizing p with
    | nil => simp [wrapLaterSegments, joinWith]
    | cons q ps ih =>
      rw [wrapLaterSegments, map_cons, joinWith_cons (by simp), ← ih q]
      simp
  obtain ⟨p, ps, hsegments⟩ := (hardCut_hardSegments t).exists_cons
  rw [keepHardBreaks, hsegments]
  exact hlater p ps

theorem hardSegments_keepHardBreaks (t : Text) :
    hardSegments (keepHardBreaks wrap t {})
      = (hardSegments t).flatMap fun p => hardSegments (wrap p {}) := by
  rw [keepHardBreaks_eq, hardSegments_joinWith (by simpa using hardSegments_ne_nil t),
    flatMap_map]

/-! ## Texts that stay -/

theorem length_joinWith_hardSegments_le (t : Text) :
    (joinWith ['\\', '\n'] (hardSegments t)).length ≤ t.length := by
  have key : ∀ {t : Text} {ts : List Text}, HardCut t ts →
      (joinWith ['\\', '\n'] ts).length ≤ t.length := by
    intro t ts h
    induction h with
    | last t => exact Nat.le_refl _
    | @cut s sep t ts hsep hcut ih =>
      obtain ⟨u, us, rfl⟩ := hcut.exists_cons
      rw [joinWith_cons (by simp)]
      rcases hsep with rfl | rfl
      all_goals
        simp only [length_append, length_cons, length_nil] at ih ⊢
        omega
  exact key (hardCut_hardSegments t)

/-- A text is its parts, joined by backslash breaks, unless it has a break of two spaces. -/
theorem joinWith_hardSegments_iff :
    joinWith ['\\', '\n'] (hardSegments t) = t ↔ ¬ [' ', ' ', '\n'] <:+: t := by
  constructor
  · -- a break of two spaces would be written one character shorter
    rintro h ⟨a, b, rfl⟩
    have hlen := congrArg length h
    rw [hardSegments_append (.inr rfl),
      joinWith_append (hardSegments_ne_nil a) (hardSegments_ne_nil b)] at hlen
    have ha := length_joinWith_hardSegments_le a
    have hb := length_joinWith_hardSegments_le b
    simp only [length_append, length_cons, length_nil] at hlen
    omega
  · have key : ∀ {t : Text} {ts : List Text}, HardCut t ts → ¬ [' ', ' ', '\n'] <:+: t →
        joinWith ['\\', '\n'] ts = t := by
      intro t ts h
      induction h with
      | last t => exact fun _ => rfl
      | @cut s sep t ts hsep hcut ih =>
        intro hno
        obtain ⟨u, us, rfl⟩ := hcut.exists_cons
        rcases hsep with rfl | rfl
        · have hrest : joinWith ['\\', '\n'] (u :: us) = t :=
            ih fun hpart => hno (hpart.trans (suffix_append _ _).isInfix)
          rw [joinWith_cons (by simp), hrest]
        · exact absurd ⟨s, t, rfl⟩ hno
    exact key (hardCut_hardSegments t)

/-- **A text that stays.** Each of its breaks is a backslash, and each of its parts stays. -/
theorem keepHardBreaks_eq_self_iff {wrap : LineWrapper} :
    keepHardBreaks wrap t {} = t ↔
      ¬ [' ', ' ', '\n'] <:+: t ∧ ∀ p ∈ hardSegments t, wrap p {} = p := by
  rw [← joinWith_hardSegments_iff]
  constructor
  · intro h
    -- the wrapped parts have no breaks of their own, since there are no more of them
    have hparts : ((hardSegments t).map fun p => wrap p {}).flatMap hardSegments
        = hardSegments t := by
      rw [flatMap_map, ← hardSegments_keepHardBreaks, h]
    have hunbroken : ∀ u ∈ (hardSegments t).map fun p => wrap p {}, hardSegments u = [u] :=
      hardSegments_of_length_flatMap_le (by rw [hparts, length_map])
    have hmap : ((hardSegments t).map fun p => wrap p {}) = hardSegments t := by
      rw [flatMap_congr (g := fun u => [u]) hunbroken, flatMap_singleton'] at hparts
      exact hparts
    refine ⟨?_, fun p hp => ?_⟩
    · rw [keepHardBreaks_eq, hmap] at h
      exact h
    · exact map_inj_left.1 (hmap.trans (map_id _).symm) p hp
  · rintro ⟨hjoin, hparts⟩
    rw [keepHardBreaks_eq, map_congr_left (g := id) hparts, map_id, hjoin]

/-! ## Main result -/

/-- **Keeping hard breaks is a homomorphism.** Two texts with a hard break of either kind between
them are wrapped as each is on its own, and the break is written as a backslash. This holds whatever
wraps the parts, and it does not matter how the first text ends, how the second one begins, or which
breaks they have themselves. The second text has the indent of later lines on all of its lines, so
with one indent for all lines the three texts are wrapped alike. -/
theorem wrapping_across_hard_break (wrap : LineWrapper) {sep : Text} (hsep : IsHardBreak sep)
    (a b : Text) (indents : Indents) :
    keepHardBreaks wrap (a ++ sep ++ b) indents
      = keepHardBreaks wrap a indents ++ ['\\', '\n']
        ++ keepHardBreaks wrap b ⟨indents.later, indents.later⟩ := by
  obtain ⟨p, ps, ha⟩ := (hardCut_hardSegments a).exists_cons
  obtain ⟨q, qs, hb⟩ := (hardCut_hardSegments b).exists_cons
  unfold keepHardBreaks
  rw [hardSegments_append hsep, ha, hb]
  show wrap p indents ++ wrapLaterSegments wrap indents.later (ps ++ q :: qs) = _
  rw [wrapLaterSegments_append, wrapLaterSegments]
  simp

/-- Two spaces and a line feed after a backslash and a space, and before a line feed. -/
theorem quoted_texts_across_hard_break :
    IsHardBreak [' ', ' ', '\n'] ∧
      toWidth .codePoints true 6 ("one two\\ ".toList ++ [' ', ' ', '\n'] ++ "\nthree".toList)
          ⟨['>', ' '], ['>', ' ']⟩
        = toWidth .codePoints true 6 "one two\\ ".toList ⟨['>', ' '], ['>', ' ']⟩ ++ ['\\', '\n']
          ++ toWidth .codePoints true 6 "\nthree".toList ⟨['>', ' '], ['>', ' ']⟩ :=
  ⟨.inr rfl, wrapping_across_hard_break (keepTagLines (fillToWidth .codePoints true 6)) (.inr rfl)
    "one two\\ ".toList "\nthree".toList ⟨['>', ' '], ['>', ' ']⟩⟩

end Reflow.Wrap
