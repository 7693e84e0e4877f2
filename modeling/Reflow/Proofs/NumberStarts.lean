import Reflow.Proofs.AddedBreaks

/-!
Lines that start with a number and a point.

Only the first point of a line can make it an item of a numbered list, so a line is described by one
flag for each of its points (`numberPoints`). The passes over tags cut and join texts at delimiters,
which have no digits or points in them, and leave the flags as they are.
-/

open List

namespace Reflow.Wrap

open Text Tag

/-! ## Points -/

/-- The number of points in a text. -/
def points (t : Text) : Nat := t.count '.'

@[simp] theorem points_nil : points [] = 0 := rfl

@[simp] theorem points_append (s t : Text) : points (s ++ t) = points s + points t :=
  count_append

variable {c : Char} {s t w l : Text} {ws : List Text} {ys : List Bool}

theorem points_cons_of_ne (h : c ≠ '.') (t : Text) : points (c :: t) = points t :=
  count_cons_of_ne h

theorem points_visible (t : Text) : points (visible t) = points t :=
  count_filter (by decide)

theorem points_congr (h : visible s = visible t) : points s = points t := by
  rw [← points_visible s, h, points_visible]

theorem points_of_blank (h : ∀ c ∈ t, isBlank c) : points t = 0 := by
  rw [← points_visible, visible_eq_nil h, points_nil]

theorem visible_flatten (ts : List Text) : visible ts.flatten = ts.flatMap visible := by
  induction ts with
  | nil => rfl
  | cons t ts ih => rw [flatten_cons, visible_append, ih, flatMap_cons]

theorem points_unwords (ws : List Text) : points (unwords ws) = points ws.flatten :=
  points_congr (by rw [visible_unwords, visible_flatten])

theorem points_unlines (ls : List Text) : points (unlines ls) = points ls.flatten :=
  points_congr (by rw [visible_unlines, visible_flatten])

theorem points_escapeWord (hw : Solid w) : points (escapeWord w) = points w := by
  rcases escapeWord_cases hw with h | ⟨_, a, b, rfl, _, h⟩
  · rw [h]
  · rw [h, points_append, points_append, points_cons_of_ne (by decide)]

/-! ## Numbers -/

/-- The line starts with ASCII digits and a point. -/
def startsNumbered (l : Text) : Bool :=
  l.head?.any isAsciiDigit && (l.dropWhile isAsciiDigit).head? == some '.'

/-- A digit or a point. -/
def InNumber (c : Char) : Prop := isAsciiDigit c = true ∨ c = '.'

theorem startsNumbered_iff :
    startsNumbered l ↔ ∃ ds, ds ≠ [] ∧ (∀ d ∈ ds, isAsciiDigit d) ∧ ds ++ ['.'] <+: l := by
  unfold startsNumbered
  rw [Bool.and_eq_true, beq_iff_eq]
  constructor
  · rintro ⟨hhead, hpoint⟩
    refine ⟨l.takeWhile isAsciiDigit, ?_, fun d => mem_takeWhile_imp, ?_⟩
    · obtain ⟨c, t, rfl⟩ := exists_cons_of_ne_nil (l := l) (by rintro rfl; simp at hhead)
      have hc : isAsciiDigit c := by simpa using hhead
      simp [hc]
    · obtain ⟨u, hu⟩ := head?_eq_some_iff.1 hpoint
      conv_rhs => rw [← takeWhile_append_dropWhile (p := isAsciiDigit) (l := l), hu]
      simp
  · rintro ⟨ds, hne, hds, u, rfl⟩
    obtain ⟨d, rest, rfl⟩ := exists_cons_of_ne_nil hne
    have hpoint : isAsciiDigit '.' = false := by decide
    have hdrop : ((d :: rest) ++ ['.'] ++ u).dropWhile isAsciiDigit = '.' :: u := by
      rw [append_assoc, dropWhile_append_of_pos hds]
      simp [hpoint]
    rw [hdrop]
    simp [hds d (by simp)]

theorem points_pos_of_startsNumbered (h : startsNumbered l) : 0 < points l := by
  obtain ⟨ds, _, _, u, rfl⟩ := startsNumbered_iff.1 h
  simp only [points_append]
  have hpoint : points ['.'] = 1 := by decide
  omega

theorem startsNumbered_congr {m : Text}
    (h : ∀ w : Text, (∀ c ∈ w, InNumber c) → (w <+: l ↔ w <+: m)) :
    startsNumbered l = startsNumbered m := by
  rw [Bool.eq_iff_iff, startsNumbered_iff, startsNumbered_iff]
  refine exists_congr fun ds => and_congr_right fun _ => and_congr_right fun hds => h _ ?_
  intro c hc
  rcases mem_append.1 hc with hc | hc
  · exact .inl (hds c hc)
  · exact .inr (by simpa using hc)

theorem isBlank_of_inNumber (h : InNumber c) : isBlank c = false := by
  rcases h with h | rfl
  · exact isBlank_of_isAsciiDigit h
  · decide

theorem startsNumbered_append {b : Text} (hb : ∀ c ∈ b.head?, ¬ InNumber c) (a : Text) :
    startsNumbered (a ++ b) = startsNumbered a := by
  refine startsNumbered_congr fun w hw => ⟨fun h => ?_, fun h => h.trans (prefix_append a b)⟩
  cases b with
  | nil => simpa using h
  | cons c b => exact prefix_of_not_mem (fun hc => hb c rfl (hw c hc)) h

theorem startsNumbered_of_head (h : ∀ c ∈ l.head?, ¬ InNumber c) : startsNumbered l = false := by
  rw [← nil_append l, startsNumbered_append h]
  rfl

theorem not_inNumber_of_blank (h : isBlank c) : ¬ InNumber c := by
  intro hc
  rw [isBlank_of_inNumber hc] at h
  exact absurd h (by simp)

theorem not_inNumber_of_mem_delimiter {k : TagKind} (hc : c ∈ k.closing ∨ c ∈ k.opening) :
    ¬ InNumber c := by
  have hall : ∀ {t : Text}, (t.all fun d => !isAsciiDigit d && d != '.') → c ∈ t →
      ¬ InNumber c := by
    intro t ht hmem hin
    have hd := all_eq_true.1 ht c hmem
    rcases hin with hin | rfl
    · simp [hin] at hd
    · simp at hd
  rcases hc with hc | hc
  · exact hall (by cases k <;> decide) hc
  · exact hall (by cases k <;> decide) hc

theorem not_inNumber_closing (k : TagKind) (t : Text) :
    ∀ c ∈ (k.closing ++ t).head?, ¬ InNumber c := by
  intro c hc
  rw [head?_append_of_ne_nil _ (by cases k <;> simp [TagKind.closing])] at hc
  exact not_inNumber_of_mem_delimiter (.inl (mem_of_head? hc))

theorem not_inNumber_opening (k : TagKind) (t : Text) :
    ∀ c ∈ (k.opening ++ t).head?, ¬ InNumber c := by
  intro c hc
  rw [head?_append_of_ne_nil _ (by cases k <;> simp [TagKind.opening])] at hc
  exact not_inNumber_of_mem_delimiter (.inr (mem_of_head? hc))

theorem startsNumbered_reseamed {old new : Text} (h : Tag.Reseamed old new s t) :
    startsNumbered s = startsNumbered t := by
  refine startsNumbered_congr fun w hw => ?_
  induction h generalizing w with
  | nil => exact Iff.rfl
  | @seam k s t _ _ =>
    -- a delimiter ends what is looked for, at once
    have hseam : ∀ {g u : Text}, w <+: seam g k ++ u → w = [] := by
      intro g u hprefix
      cases w with
      | nil => rfl
      | cons c w =>
        obtain ⟨v, hv⟩ := hprefix
        refine absurd (hw c (by simp)) (not_inNumber_closing k (g ++ k.opening ++ u) c ?_)
        rw [seam] at hv
        rw [← append_assoc, ← append_assoc, ← hv]
        rfl
    constructor <;> intro hprefix <;> simp [hseam hprefix]
  | @char c s t _ _ ih =>
    cases w with
    | nil => simp
    | cons d w =>
      rw [cons_prefix_cons, cons_prefix_cons, ih w fun e he => hw e (by simp [he])]

theorem startsNumbered_rejoin (t : Text) : startsNumbered (rejoin t) = startsNumbered t :=
  (startsNumbered_reseamed (reseamed_apply [' '] [] t)).symm

theorem startsNumbered_unwords (w : Text) (ws : List Text) :
    startsNumbered (unwords (w :: ws)) = startsNumbered w := by
  by_cases hws : ws = []
  · subst hws
    rfl
  · rw [unwords_cons hws]
    exact startsNumbered_append (by simpa using not_inNumber_of_blank isBlank_space) w

/-! ## First words -/

/-- The first word of the text starts with a number and a point. -/
def opensNumbered (t : Text) : Bool := startsNumbered (firstWord t)

theorem startsNumbered_stripLeft (t : Text) : startsNumbered (stripLeft t) = opensNumbered t := by
  rcases visible_or_eq_lead_append (stripLeft t) with hvisible | ⟨c, v, heq, hc⟩
  · have hlead := lead_of_visible hvisible []
    rw [append_nil] at hlead
    rw [opensNumbered, firstWord, hlead]
    simp [lead]
  · conv_lhs => rw [heq]
    exact startsNumbered_append (by simpa using not_inNumber_of_blank hc) _

theorem points_pos_of_opensNumbered (h : opensNumbered t) : 0 < points t := by
  rw [← startsNumbered_stripLeft] at h
  rw [← points_congr (visible_stripLeft t)]
  exact points_pos_of_startsNumbered h

theorem opensNumbered_of_startsNumbered (h : startsNumbered t) : opensNumbered t := by
  obtain ⟨ds, hne, hds, u, rfl⟩ := startsNumbered_iff.1 h
  obtain ⟨d, rest, rfl⟩ := exists_cons_of_ne_nil hne
  have hd := isBlank_of_isAsciiDigit (hds d (by simp))
  rw [← startsNumbered_stripLeft]
  simpa [stripLeft, hd] using h

theorem opensNumbered_of_strip (h : startsNumbered (strip t)) : opensNumbered t := by
  obtain ⟨g, _, hg⟩ := exists_stripRight (stripLeft t)
  obtain ⟨ds, hne, hds, hprefix⟩ := startsNumbered_iff.1 h
  rw [← startsNumbered_stripLeft]
  exact startsNumbered_iff.2 ⟨ds, hne, hds, hprefix.trans ⟨g, hg.symm⟩⟩

theorem opensNumbered_cons_of_visible (hc : isBlank c = false) (t : Text) :
    opensNumbered (c :: t) = startsNumbered (c :: t) := by
  rw [← startsNumbered_stripLeft]
  simp [stripLeft, hc]

theorem opensNumbered_cons_of_blank (hc : isBlank c) (t : Text) :
    opensNumbered (c :: t) = opensNumbered t := by
  rw [opensNumbered, firstWord_cons_of_blank hc, opensNumbered]

theorem opensNumbered_of_solid (hw : Solid w) : opensNumbered w = startsNumbered w := by
  obtain ⟨c, t, rfl, hc⟩ := hw.first
  exact opensNumbered_cons_of_visible hc t

theorem opensNumbered_append (h : opensNumbered s) (t : Text) : opensNumbered (s ++ t) := by
  rw [← startsNumbered_stripLeft] at h
  obtain ⟨ds, hne, hds, u, hu⟩ := startsNumbered_iff.1 h
  obtain ⟨g, hg, hs⟩ := exists_stripLeft s
  rw [opensNumbered, hs, ← hu, append_assoc, firstWord_blank_append hg]
  refine opensNumbered_of_startsNumbered (startsNumbered_iff.2 ⟨ds, hne, hds, ?_⟩)
  exact ⟨u ++ t, by simp⟩

theorem opensNumbered_of_strewn (h : Strewn t (w :: ws)) (hw : Solid w) :
    opensNumbered t = startsNumbered w := by
  rw [← opensNumbered_of_solid hw, opensNumbered, opensNumbered]
  cases h with
  | cons hg hrest _ =>
    rw [append_assoc, firstWord_blank_append hg, firstWord_append hw hrest]

theorem strewn_ne_nil (h : Strewn t ws) (ht : opensNumbered t) : ws ≠ [] := by
  rintro rfl
  have hblank := h.isBlank_of_nil
  have hnil : firstWord t = [] := by
    have hword := firstWord_blank_append hblank []
    rwa [append_nil] at hword
  rw [opensNumbered, hnil] at ht
  exact absurd ht (by decide)

theorem opensNumbered_collapse (t : Text) : opensNumbered (collapse t) = opensNumbered t := by
  rw [opensNumbered, (firstWord_collapse t).1, opensNumbered]

theorem opensNumbered_reseamed {old new : Text} (h : Tag.Reseamed old new s t) :
    opensNumbered s = opensNumbered t := by
  induction h with
  | nil => rfl
  | @seam k s t h _ =>
    obtain ⟨c, u, hk, hc⟩ : ∃ c u, k.closing = c :: u ∧ isBlank c = false := by
      cases k <;> exact ⟨_, _, rfl, by decide⟩
    have hseam : ∀ g u : Text,
        opensNumbered (seam g k ++ u) = startsNumbered (seam g k ++ u) := by
      intro g u
      rw [seam, hk]
      exact opensNumbered_cons_of_visible hc _
    rw [hseam, hseam]
    exact startsNumbered_reseamed (.seam k h)
  | @char c s t hnone h ih =>
    rcases Bool.eq_false_or_eq_true (isBlank c) with hc | hc
    · rw [opensNumbered_cons_of_blank hc, opensNumbered_cons_of_blank hc, ih]
    · rw [opensNumbered_cons_of_visible hc, opensNumbered_cons_of_visible hc]
      exact startsNumbered_reseamed (.char hnone h)

theorem opensNumbered_separated (t : Text) : opensNumbered (separated t) = opensNumbered t := by
  rw [← opensNumbered_collapse t]
  exact (opensNumbered_reseamed (reseamed_apply [] [' '] (collapse t))).symm

theorem opensNumbered_eq_head (hw : (lineWords t).head? = some w) :
    opensNumbered t = startsNumbered w := by
  obtain ⟨ws, hws⟩ := head?_eq_some_iff.1 hw
  have hstrewn := strewn_lineWords t
  rw [hws] at hstrewn
  rw [← opensNumbered_separated,
    opensNumbered_of_strewn hstrewn (solid_of_mem_lineWords (mem_of_head? hw))]

theorem firstWord_flat (t : Text) : firstWord (flat t) = firstWord t ∧ lead (flat t) = lead t := by
  induction t with
  | nil => exact ⟨rfl, rfl⟩
  | cons c t ih =>
    rw [flat, map_cons, ← flat]
    rcases Bool.eq_false_or_eq_true (isBlank c) with hc | hc
    · have hflat := (isBlank_flat c).trans hc
      rw [firstWord_cons_of_blank hflat, firstWord_cons_of_blank hc, lead_cons_of_blank hflat,
        lead_cons_of_blank hc]
      exact ⟨ih.1, rfl⟩
    · have hne : c ≠ '\n' := by
        rintro rfl
        simp at hc
      rw [if_neg hne, firstWord_cons_of_visible hc, firstWord_cons_of_visible hc,
        lead_cons_of_visible hc, lead_cons_of_visible hc, ih.2]
      exact ⟨rfl, rfl⟩

theorem opensNumbered_flat (t : Text) : opensNumbered (flat t) = opensNumbered t := by
  rw [opensNumbered, (firstWord_flat t).1, opensNumbered]

/-! ## Flags -/

/-- For each point of a line, whether digits, and nothing but digits, stand before it. -/
def numberPoints (l : Text) : List Bool :=
  (replicate (points l) false).set 0 (startsNumbered l)

@[simp] theorem length_numberPoints (l : Text) : (numberPoints l).length = points l := by
  simp [numberPoints]

theorem numberPoints_congr {m : Text} (hpoints : points l = points m)
    (hstarts : startsNumbered l = startsNumbered m) : numberPoints l = numberPoints m := by
  rw [numberPoints, hpoints, hstarts, numberPoints]

theorem numberPoints_of_not (h : startsNumbered l = false) :
    numberPoints l = replicate (points l) false := by
  rw [numberPoints, h]
  cases points l <;> rfl

theorem numberPoints_of_points (h : points l = 0) : numberPoints l = [] := by
  rw [numberPoints, h]
  rfl

theorem numberPoints_of_numbered (h : startsNumbered l) :
    ∃ n, points l = n + 1 ∧ numberPoints l = true :: replicate n false := by
  obtain ⟨n, hn⟩ := Nat.exists_eq_add_of_lt (points_pos_of_startsNumbered h)
  rw [Nat.zero_add] at hn
  refine ⟨n, hn, ?_⟩
  rw [numberPoints, h, hn]
  rfl

theorem startsNumbered_eq_head (l : Text) :
    startsNumbered l = ((numberPoints l).head? == some true) := by
  cases hl : startsNumbered l with
  | false =>
    rw [numberPoints_of_not hl]
    cases points l <;> rfl
  | true =>
    obtain ⟨n, _, heq⟩ := numberPoints_of_numbered hl
    rw [heq]
    rfl

theorem numberPoints_append {a b : Text} (hstarts : startsNumbered (a ++ b) = startsNumbered a)
    (hb : startsNumbered b = false) : numberPoints (a ++ b) = numberPoints a ++ numberPoints b := by
  rw [numberPoints_of_not hb]
  cases ha : startsNumbered a with
  | false =>
    rw [numberPoints_of_not ha, numberPoints_of_not (hstarts.trans ha), points_append,
      replicate_add]
  | true =>
    obtain ⟨n, hn, heq⟩ := numberPoints_of_numbered ha
    obtain ⟨m, hm, heq'⟩ := numberPoints_of_numbered (hstarts.trans ha)
    rw [points_append] at hm
    obtain rfl : m = n + points b := by omega
    rw [heq, heq', replicate_add]
    rfl

theorem numberPoints_rejoin (l : Text) : numberPoints (rejoin l) = numberPoints l :=
  numberPoints_congr (points_congr (visible_rejoin l)) (startsNumbered_rejoin l)

theorem length_flatMap_numberPoints (ls : List Text) :
    (ls.flatMap numberPoints).length = points ls.flatten := by
  induction ls with
  | nil => rfl
  | cons l ls ih =>
    rw [flatMap_cons, length_append, length_numberPoints, ih, flatten_cons,
      points_append]

/-- If the first flag is set, so is the second. -/
abbrev Implies (x y : Bool) : Prop := x = true → y = true

/-- Every flag that is set is set in the second list. -/
abbrev Among : List Bool → List Bool → Prop := Forall₂ Implies

theorem Among.trans {xs zs : List Bool} (h : Among xs ys) (h' : Among ys zs) : Among xs zs := by
  induction h generalizing zs with
  | nil => exact h'
  | cons hx _ ih =>
    cases h' with
    | cons hy hrest => exact .cons (fun h => hy (hx h)) (ih hrest)

theorem Among.refl (xs : List Bool) : Among xs xs := forall₂_same.2 fun _ _ => id

theorem Among.append {xs xs' ys' : List Bool} (h : Among xs xs') (h' : Among ys ys') :
    Among (xs ++ ys) (xs' ++ ys') := rel_append h h'

theorem among_replicate_false {n : Nat} (h : ys.length = n) :
    Among (replicate n false) ys := by
  subst h
  induction ys with
  | nil => exact .nil
  | cons y ys ih => exact .cons (by simp) ih

/-- **A line and its words.** If the line has the points of the words and starts as the first of them
does, its flags are among theirs. -/
theorem among_of_head (hpoints : points l = points ws.flatten)
    (hhead : startsNumbered l → ∃ w ∈ ws.head?, startsNumbered w) :
    Among (numberPoints l) (ws.flatMap numberPoints) := by
  cases hl : startsNumbered l with
  | false =>
    rw [numberPoints_of_not hl]
    exact among_replicate_false (by rw [length_flatMap_numberPoints, hpoints])
  | true =>
    obtain ⟨w, hw, hnumbered⟩ := hhead hl
    obtain ⟨rest, rfl⟩ := head?_eq_some_iff.1 hw
    obtain ⟨n, hn, heq⟩ := numberPoints_of_numbered hl
    obtain ⟨m, hm, heq'⟩ := numberPoints_of_numbered hnumbered
    rw [heq, flatMap_cons, heq', cons_append]
    refine .cons id (among_replicate_false ?_)
    rw [length_append, length_replicate, length_flatMap_numberPoints]
    rw [flatten_cons, points_append] at hpoints
    omega

end Reflow.Wrap
