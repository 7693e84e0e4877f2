import Mathlib.Data.List.Basic
import Mathlib.Data.List.TakeWhile
import Reflow.Text.Basic

/-!
Visible text and the gaps in it.

The gap at place `i` is the run of blanks that stands after exactly `i` visible characters. Places
count visible characters only, so the same place can be looked up in a text before and after it was
laid out. `Respaced R s t` says that the visible text is the same, and `R` holds of the two gaps at
every place between two visible characters; the blanks at the ends are left out, as wrapping drops
them.
-/

open List

namespace Reflow.Text

/-! ## The visible part -/

@[simp] theorem visible_nil : visible [] = [] := rfl

@[simp] theorem visible_append (s t : Text) : visible (s ++ t) = visible s ++ visible t := by
  simp [visible]

variable {c : Char} {g w sep t b a : Text} {ts ws : List Text}

theorem visible_cons_of_blank (h : isBlank c) (t : Text) : visible (c :: t) = visible t := by
  simp [visible, h]

theorem visible_cons_of_visible (h : isBlank c = false) (t : Text) :
    visible (c :: t) = c :: visible t := by
  simp [visible, h]

theorem visible_eq_nil (hg : ∀ c ∈ g, isBlank c) : visible g = [] := by
  simpa [visible] using hg

theorem visible_eq_self (hw : ∀ c ∈ w, isBlank c = false) : visible w = w := by
  simpa [visible] using hw

theorem isBlank_of_all (hw : (w.all fun c => !isBlank c)) : ∀ c ∈ w, isBlank c = false := by
  simpa using hw

theorem visible_joinWith (hsep : ∀ c ∈ sep, isBlank c) (ts : List Text) :
    visible (joinWith sep ts) = ts.flatMap visible := by
  fun_induction joinWith sep ts with
  | case1 => rfl
  | case2 t => simp
  | case3 t ts _ ih => simp [visible_eq_nil hsep, ih]

theorem visible_unwords (ws : List Text) : visible (unwords ws) = ws.flatMap visible :=
  visible_joinWith (by simp) ws

theorem visible_unlines (ls : List Text) : visible (unlines ls) = ls.flatMap visible :=
  visible_joinWith (by simp) ls

/-! ## Joining -/

theorem joinWith_cons (h : ts ≠ []) (t : Text) :
    joinWith sep (t :: ts) = t ++ sep ++ joinWith sep ts := by
  cases ts with
  | nil => exact absurd rfl h
  | cons u us => rfl

theorem joinWith_append {ss : List Text} (hs : ss ≠ []) (ht : ts ≠ []) :
    joinWith sep (ss ++ ts) = joinWith sep ss ++ sep ++ joinWith sep ts := by
  induction ss with
  | nil => exact absurd rfl hs
  | cons s ss ih =>
    by_cases hne : ss = []
    · subst hne
      simp [joinWith_cons ht, joinWith]
    · rw [cons_append, joinWith_cons (by simp [hne]), joinWith_cons hne, ih hne]
      simp

theorem joinWith_isInfix (sep : Text) (xs ys zs : List Text) :
    joinWith sep ys <:+: joinWith sep (xs ++ ys ++ zs) := by
  by_cases hys : ys = []
  · rw [hys]
    exact nil_infix
  · have hleft : joinWith sep ys <:+: joinWith sep (xs ++ ys) := by
      by_cases hxs : xs = []
      · simp [hxs]
      · rw [joinWith_append hxs hys]
        exact (suffix_append _ _).isInfix
    by_cases hzs : zs = []
    · rwa [hzs, append_nil]
    · rw [joinWith_append (by simp [hys]) hzs, append_assoc]
      exact hleft.trans (prefix_append _ _).isInfix

theorem joinWith_flatten {tss : List (List Text)} (h : ∀ ts ∈ tss, ts ≠ []) :
    joinWith sep tss.flatten = joinWith sep (tss.map (joinWith sep)) := by
  induction tss with
  | nil => rfl
  | cons ts tss ih =>
    have ih := ih fun us hus => h us (by simp [hus])
    by_cases htss : tss = []
    · subst htss
      simp [joinWith]
    · have hflat : tss.flatten ≠ [] := by
        obtain ⟨us, tss, rfl⟩ := exists_cons_of_ne_nil htss
        simp [h us (by simp)]
      rw [flatten_cons, joinWith_append (h ts (by simp)) hflat, ih, map_cons,
        joinWith_cons (by simpa using htss)]

theorem mem_joinWith (h : c ∈ joinWith sep ts) : c ∈ sep ∨ ∃ t ∈ ts, c ∈ t := by
  fun_induction joinWith sep ts with
  | case1 => simp at h
  | case2 t => exact .inr ⟨t, by simp, h⟩
  | case3 t ts _ ih =>
    rcases mem_append.1 h with h | h
    · rcases mem_append.1 h with h | h
      · exact .inr ⟨t, by simp, h⟩
      · exact .inl h
    · rcases ih h with h | ⟨u, hu, h⟩
      · exact .inl h
      · exact .inr ⟨u, by simp [hu], h⟩

theorem unlines_cons {ls : List Text} (h : ls ≠ []) (l : Text) :
    unlines (l :: ls) = l ++ '\n' :: unlines ls := by
  simp [unlines, joinWith_cons h]

theorem unwords_cons (h : ws ≠ []) (w : Text) : unwords (w :: ws) = w ++ ' ' :: unwords ws := by
  simp [unwords, joinWith_cons h]

theorem splitOn_ne_nil (sep : Char) (t : Text) : splitOn sep t ≠ [] := by
  fun_cases splitOn sep t <;> simp

theorem joinWith_splitOn (sep : Char) (t : Text) : joinWith [sep] (splitOn sep t) = t := by
  fun_induction splitOn sep t with
  | case1 => rfl
  | case2 cs ih => rw [joinWith_cons (splitOn_ne_nil _ _), ih]; rfl
  | case3 c cs _ h ih => exact absurd h (splitOn_ne_nil _ _)
  | case4 c cs _ piece rest h ih =>
    rw [h] at ih
    cases rest with
    | nil => simpa [joinWith] using ih
    | cons r rs => simpa [joinWith] using ih

theorem unlines_lines (t : Text) : unlines (lines t) = t := joinWith_splitOn '\n' t

theorem newline_not_mem_lines {l : Text} (h : l ∈ lines t) : '\n' ∉ l := by
  unfold lines at h
  fun_induction splitOn '\n' t generalizing l with
  | case1 => simp_all
  | case2 cs ih =>
    rcases mem_cons.1 h with rfl | h
    · simp
    · exact ih h
  | case3 c cs _ hnil ih => exact absurd hnil (splitOn_ne_nil _ _)
  | case4 c cs hc piece rest hcons ih =>
    rcases mem_cons.1 h with rfl | h
    · have hpiece := ih (l := piece) (by rw [hcons]; simp)
      simpa [Ne.symm hc] using hpiece
    · exact ih (by rw [hcons]; simp [h])

theorem splitOn_append (sep : Char) (a b : Text) :
    splitOn sep (a ++ sep :: b) = splitOn sep a ++ splitOn sep b := by
  induction a with
  | nil => simp [splitOn]
  | cons c a ih =>
    rw [cons_append, splitOn, splitOn, ih]
    by_cases hc : c = sep
    · simp [hc]
    · obtain ⟨piece, rest, hpieces⟩ := exists_cons_of_ne_nil (splitOn_ne_nil sep a)
      simp [hc, hpieces]

theorem splitOn_joinWith {sep : Char} (hne : ts ≠ []) (h : ∀ t ∈ ts, sep ∉ t) :
    splitOn sep (joinWith [sep] ts) = ts := by
  have hwhole : ∀ t : Text, sep ∉ t → splitOn sep t = [t] := by
    intro t ht
    induction t with
    | nil => rfl
    | cons c t ih =>
      have hc : c ≠ sep := by
        rintro rfl
        simp at ht
      simp [splitOn, hc, ih fun hmem => ht (by simp [hmem])]
  induction ts with
  | nil => exact absurd rfl hne
  | cons t ts ih =>
    by_cases hts : ts = []
    · subst hts
      exact hwhole t (h t (by simp))
    · rw [joinWith_cons hts, append_assoc, singleton_append, splitOn_append,
        hwhole t (h t (by simp)), ih hts fun u hu => h u (by simp [hu])]
      rfl

theorem lines_unlines {ls : List Text} (hne : ls ≠ []) (h : ∀ l ∈ ls, '\n' ∉ l) :
    lines (unlines ls) = ls := splitOn_joinWith hne h

theorem lines_append_newline (a b : Text) : lines (a ++ '\n' :: b) = lines a ++ lines b :=
  splitOn_append '\n' a b

theorem lines_of_no_newline (h : '\n' ∉ t) : lines t = [t] := by
  have hlines : lines (unlines [t]) = [t] := lines_unlines (by simp) (by simpa using h)
  exact hlines

/-! ## Gaps -/

/-- The blanks that stand after exactly `i` visible characters. -/
def gapAt : Text → Nat → Text
  | [], _ => []
  | c :: cs, 0 => if isBlank c then c :: gapAt cs 0 else []
  | c :: cs, i + 1 => if isBlank c then gapAt cs (i + 1) else gapAt cs i

@[simp] theorem gapAt_nil (i : Nat) : gapAt [] i = [] := by
  cases i <;> rfl

/-- **The gap of a concatenation.** A place up to the end of the first part has the first part's
gap; from the end of the first part on, the gap of the second part is added. -/
theorem gapAt_append (s t : Text) (i : Nat) :
    gapAt (s ++ t) i =
      gapAt s i ++ if (visible s).length ≤ i then gapAt t (i - (visible s).length) else [] := by
  induction s generalizing i with
  | nil => simp
  | cons c s ih =>
    rcases Bool.eq_false_or_eq_true (isBlank c) with hc | hc
    · rw [visible_cons_of_blank hc]
      cases i with
      | zero =>
        rw [cons_append, gapAt, gapAt, if_pos hc, if_pos hc, ih 0, cons_append]
      | succ i => rw [cons_append, gapAt, gapAt, if_pos hc, if_pos hc, ih (i + 1)]
    · rw [visible_cons_of_visible hc]
      cases i with
      | zero => simp [gapAt, hc]
      | succ i => simp [gapAt, hc, ih i]

theorem gapAt_eq_nil_of_lt {i : Nat} (h : (visible t).length < i) : gapAt t i = [] := by
  induction t generalizing i with
  | nil => simp
  | cons c t ih =>
    obtain ⟨j, rfl⟩ : ∃ j, i = j + 1 := ⟨i - 1, by omega⟩
    rcases Bool.eq_false_or_eq_true (isBlank c) with hc | hc
    · rw [visible_cons_of_blank hc] at h
      rw [gapAt, if_pos hc, ih h]
    · rw [visible_cons_of_visible hc, length_cons] at h
      simp [gapAt, hc, ih (by omega : (visible t).length < j)]

theorem gapAt_zero_of_blank (hg : ∀ c ∈ g, isBlank c) : gapAt g 0 = g := by
  induction g with
  | nil => rfl
  | cons c g ih =>
    rw [gapAt, if_pos (hg c (by simp)), ih fun d hd => hg d (by simp [hd])]

theorem gapAt_zero_of_visible (h : isBlank c = false) (t : Text) : gapAt (c :: t) 0 = [] := by
  simp [gapAt, h]

theorem gapAt_before_visible {d : Char} (hd : isBlank d = false) :
    gapAt (b ++ d :: a) (visible b).length = gapAt b (visible b).length := by
  rw [gapAt_append, if_pos (Nat.le_refl _), Nat.sub_self, gapAt_zero_of_visible hd,
    append_nil]

theorem mem_gapAt {i : Nat} (h : c ∈ gapAt t i) : isBlank c ∧ c ∈ t := by
  induction t generalizing i with
  | nil => simp at h
  | cons d t ih =>
    rcases Bool.eq_false_or_eq_true (isBlank d) with hd | hd
    · cases i with
      | zero =>
        rw [gapAt, if_pos hd] at h
        rcases mem_cons.1 h with rfl | h
        · exact ⟨hd, by simp⟩
        · exact ⟨(ih h).1, by simp [(ih h).2]⟩
      | succ i =>
        rw [gapAt, if_pos hd] at h
        exact ⟨(ih h).1, by simp [(ih h).2]⟩
    · cases i with
      | zero => simp [gapAt, hd] at h
      | succ i =>
        have h' : c ∈ gapAt t i := by simpa [gapAt, hd] using h
        exact ⟨(ih h').1, by simp [(ih h').2]⟩

theorem mem_gapAt_of_append (hc : isBlank c) : c ∈ gapAt (a ++ c :: b) (visible a).length := by
  rw [gapAt_append, Nat.sub_self, gapAt, if_pos hc]
  simp

theorem gapAt_of_visible (hw : ∀ c ∈ w, isBlank c = false) (i : Nat) : gapAt w i = [] := by
  refine eq_nil_iff_forall_not_mem.2 fun c hc => ?_
  have h := mem_gapAt hc
  rw [hw c h.2] at h
  exact absurd h.1 (by simp)

/-! ## Trimming and collapsing -/

theorem exists_stripLeft (t : Text) : ∃ g, (∀ c ∈ g, isBlank c) ∧ t = g ++ stripLeft t := by
  refine ⟨t.takeWhile isBlank, fun c hc => ?_, (takeWhile_append_dropWhile).symm⟩
  exact mem_takeWhile_imp hc

theorem exists_dropEndWhile (p : Char → Bool) (t : Text) :
    ∃ g, (∀ c ∈ g, p c) ∧ t = dropEndWhile p t ++ g := by
  induction t with
  | nil => exact ⟨[], by simp, rfl⟩
  | cons c t ih =>
    obtain ⟨g, hg, ht⟩ := ih
    rw [dropEndWhile]
    split
    · next hnil =>
      rw [hnil] at ht
      split
      · next hc => exact ⟨c :: g, by simpa [hc] using hg, by simp [ht]⟩
      · exact ⟨g, hg, by simp [ht]⟩
    · next d ds hcons =>
      refine ⟨g, hg, ?_⟩
      rw [hcons] at ht
      simp [← ht]

theorem dropEndWhile_append {p : Char → Bool} (hg : ∀ c ∈ g, p c) (a : Text) :
    dropEndWhile p (a ++ g) = dropEndWhile p a := by
  induction a with
  | nil =>
    induction g with
    | nil => rfl
    | cons c g ih =>
      have ih : dropEndWhile p g = [] := ih fun d hd => hg d (by simp [hd])
      simp [dropEndWhile, ih, hg c (by simp)]
  | cons c a ih => rw [cons_append, dropEndWhile, ih, dropEndWhile]

theorem dropEndWhile_concat {p : Char → Bool} {d : Char} (hd : p d = false) (a : Text) :
    dropEndWhile p (a ++ [d]) = a ++ [d] := by
  induction a with
  | nil => simp [dropEndWhile, hd]
  | cons c a ih =>
    rw [cons_append, dropEndWhile, ih]
    cases a <;> rfl

theorem exists_stripRight (t : Text) : ∃ g, (∀ c ∈ g, isBlank c) ∧ t = stripRight t ++ g :=
  exists_dropEndWhile isBlank t

@[simp] theorem visible_stripLeft (t : Text) : visible (stripLeft t) = visible t := by
  obtain ⟨g, hg, ht⟩ := exists_stripLeft t
  conv_rhs => rw [ht, visible_append, visible_eq_nil hg, nil_append]

@[simp] theorem visible_stripRight (t : Text) : visible (stripRight t) = visible t := by
  obtain ⟨g, hg, ht⟩ := exists_stripRight t
  conv_rhs => rw [ht, visible_append, visible_eq_nil hg, append_nil]

@[simp] theorem visible_strip (t : Text) : visible (strip t) = visible t := by
  simp [strip]

@[simp] theorem visible_collapse (t : Text) : visible (collapse t) = visible t := by
  fun_induction collapse t with
  | case1 => rfl
  | case2 c hc => simp [visible, hc]
  | case3 c hc d ds hd ih => rw [ih, visible_cons_of_blank hc]
  | case4 c hc d ds hd ih =>
    rw [visible_cons_of_blank isBlank_space, ih, visible_cons_of_blank hc]
  | case5 c cs hc ih =>
    have hc' : isBlank c = false := by simpa using hc
    rw [visible_cons_of_visible hc', visible_cons_of_visible hc', ih]

theorem gapAt_collapse (t : Text) (i : Nat) :
    gapAt (collapse t) i = if gapAt t i = [] then [] else [' '] := by
  fun_induction collapse t generalizing i with
  | case1 => simp
  | case2 c hc => cases i <;> simp [gapAt, hc]
  | case3 c hc d ds hd ih => cases i <;> simp [ih, gapAt, hc, hd]
  | case4 c hc d ds hd ih =>
    have hd' : isBlank d = false := by simpa using hd
    cases i with
    | zero => simp [gapAt, hc, ih, hd']
    | succ i => simp [gapAt, hc, ih, hd']
  | case5 c cs hc ih => cases i <;> simp [gapAt, hc, ih]

theorem eq_space_of_mem_collapse (h : c ∈ collapse t) (hc : isBlank c) : c = ' ' := by
  fun_induction collapse t with
  | case1 => simp at h
  | case2 d hd => simpa using h
  | case3 d hd e es he ih => exact ih h
  | case4 d hd e es he ih =>
    rcases mem_cons.1 h with h | h
    · exact h
    · exact ih h
  | case5 d ds hd ih =>
    rcases mem_cons.1 h with rfl | h
    · exact absurd hc (by simpa using hd)
    · exact ih h

theorem collapse_append_of_visible (ha : ∀ c ∈ a.getLast?, isBlank c = false) (t : Text) :
    collapse (a ++ t) = collapse a ++ collapse t := by
  fun_induction collapse a with
  | case1 => rfl
  | case2 c hc =>
    have := ha c (by simp)
    rw [hc] at this
    simp at this
  | case3 c hc d ds hd ih =>
    rw [cons_append, cons_append, collapse, if_pos hc]
    simp only [hd, if_true]
    exact ih (by simpa using ha)
  | case4 c hc d ds hd ih =>
    rw [cons_append, cons_append, collapse, if_pos hc]
    simp only [hd]
    exact congrArg (' ' :: ·) (ih (by simpa using ha))
  | case5 c cs hc ih =>
    have hstep : ∀ u, collapse (c :: u) = c :: collapse u := by
      intro u
      rw [collapse.eq_def]
      simp [hc]
    rw [cons_append, hstep]
    refine congrArg (c :: ·) (ih fun d hd => ha d ?_)
    cases cs with
    | nil => simp at hd
    | cons e es => simpa using hd

/-- **A run of blanks cuts the work in two**, and leaves a space. -/
theorem collapse_append_blanks (ha : ∀ c ∈ a.getLast?, isBlank c = false)
    (hg : ∀ c ∈ g, isBlank c) (hne : g ≠ []) (hb : ∀ c ∈ b.head?, isBlank c = false) :
    collapse (a ++ g ++ b) = collapse a ++ ' ' :: collapse b := by
  rw [append_assoc, collapse_append_of_visible ha]
  congr 1
  induction g with
  | nil => exact absurd rfl hne
  | cons c g ih =>
    have hc : isBlank c := hg c (by simp)
    rw [collapse.eq_def]
    cases g with
    | nil =>
      cases b with
      | nil => simp [hc, collapse]
      | cons d b => simp [hc, hb d (by simp)]
    | cons d g =>
      have hd : isBlank d := hg d (by simp)
      simp only [hc, hd, if_true, cons_append]
      exact ih (fun e he => hg e (by simp at he ⊢; tauto)) (by simp)

/-! ## Texts laid out anew -/

/-- `t` has the visible text of `s`, and `R` relates the gaps of the two at every place between two
visible characters. -/
structure Respaced (R : Text → Text → Prop) (s t : Text) : Prop where
  visible_eq : visible s = visible t
  gap : ∀ i, 0 < i → i < (visible s).length → R (gapAt s i) (gapAt t i)

namespace Respaced

variable {R : Text → Text → Prop} {s t u a a' b b' g g' : Text}

theorem refl (hR : ∀ g, R g g) (t : Text) : Respaced R t t := ⟨rfl, fun _ _ _ => hR _⟩

theorem trans (hR : ∀ g h k, R g h → R h k → R g k) (h₁ : Respaced R s t)
    (h₂ : Respaced R t u) : Respaced R s u := by
  refine ⟨h₁.visible_eq.trans h₂.visible_eq, fun i hi hlt => ?_⟩
  exact hR _ _ _ (h₁.gap i hi hlt) (h₂.gap i hi (h₁.visible_eq ▸ hlt))

theorem of_blank (hg : ∀ c ∈ g, isBlank c) (hg' : ∀ c ∈ g', isBlank c) : Respaced R g g' := by
  refine ⟨by rw [visible_eq_nil hg, visible_eq_nil hg'], fun i _ hlt => ?_⟩
  simp [visible_eq_nil hg] at hlt

/-- **Concatenation.** Two texts laid out anew may be put together if `R` relates the gaps at the
place where they meet. -/
theorem append (ha : Respaced R a a') (hb : Respaced R b b')
    (h : 0 < (visible a).length → 0 < (visible b).length →
      R (gapAt a (visible a).length ++ gapAt b 0) (gapAt a' (visible a).length ++ gapAt b' 0)) :
    Respaced R (a ++ b) (a' ++ b') := by
  refine ⟨by simp [ha.visible_eq, hb.visible_eq], fun i hi hlt => ?_⟩
  rw [visible_append, length_append] at hlt
  rw [gapAt_append, gapAt_append, ← ha.visible_eq]
  rcases Nat.lt_trichotomy i (visible a).length with hi' | rfl | hi'
  · rw [if_neg (by omega), if_neg (by omega), append_nil, append_nil]
    exact ha.gap i hi hi'
  · rw [if_pos (Nat.le_refl _), if_pos (Nat.le_refl _), Nat.sub_self]
    exact h hi (by omega)
  · have ha' : gapAt a' i = [] := gapAt_eq_nil_of_lt (ha.visible_eq ▸ hi')
    rw [gapAt_eq_nil_of_lt hi', ha', if_pos (by omega), if_pos (by omega), nil_append,
      nil_append]
    exact hb.gap _ (by omega) (by omega)

theorem join (ha : Respaced R a a') (hb : Respaced R b b') (hg : ∀ c ∈ g, isBlank c)
    (hg' : ∀ c ∈ g', isBlank c) (hR : ∀ x y x' y', R (x ++ g ++ y) (x' ++ g' ++ y')) :
    Respaced R (a ++ g ++ b) (a' ++ g' ++ b') := by
  rw [append_assoc, append_assoc]
  have hgb : Respaced R (g ++ b) (g' ++ b') :=
    (of_blank hg hg').append hb (by simp [visible_eq_nil hg])
  refine ha.append hgb fun _ _ => ?_
  have hz : ∀ {x : Text} (y : Text), (∀ c ∈ x, isBlank c) →
      gapAt (x ++ y) 0 = x ++ gapAt y 0 := by
    intro x y hx
    rw [gapAt_append, visible_eq_nil hx, gapAt_zero_of_blank hx]
    simp
  rw [hz b hg, hz b' hg', ← append_assoc, ← append_assoc]
  exact hR _ _ _ _

theorem joinWith {ts us : List Text} (h : Forall₂ (Respaced R) ts us)
    (hg : ∀ c ∈ g, isBlank c) (hg' : ∀ c ∈ g', isBlank c)
    (hR : ∀ x y x' y', R (x ++ g ++ y) (x' ++ g' ++ y')) :
    Respaced R (joinWith g ts) (joinWith g' us) := by
  induction h with
  | nil => exact of_blank (by simp [Text.joinWith]) (by simp [Text.joinWith])
  | @cons t u ts us htu htus ih =>
    by_cases hts : ts = []
    · subst hts
      cases htus
      exact htu
    · have hus : us ≠ [] := by
        rintro rfl
        cases htus
        exact hts rfl
      rw [joinWith_cons hts, joinWith_cons hus]
      exact htu.join ih hg hg' hR

theorem blank_append (hg : ∀ c ∈ g, isBlank c) (h : Respaced R s t) : Respaced R (g ++ s) t := by
  have hnil : Respaced R g [] := of_blank hg (by simp)
  simpa using hnil.append h (by simp [visible_eq_nil hg])

theorem append_blank (hg : ∀ c ∈ g, isBlank c) (h : Respaced R s t) : Respaced R (s ++ g) t := by
  have hnil : Respaced R g [] := of_blank hg (by simp)
  simpa using h.append hnil (by simp [visible_eq_nil hg])

theorem to_blank_append (hg : ∀ c ∈ g, isBlank c) (h : Respaced R s t) : Respaced R s (g ++ t) := by
  have hnil : Respaced R [] g := of_blank (by simp) hg
  simpa using hnil.append h (by simp)

theorem to_stripLeft (hR : ∀ g, R g g) (t : Text) : Respaced R t (stripLeft t) := by
  obtain ⟨g, hg, ht⟩ := exists_stripLeft t
  conv_lhs => rw [ht]
  exact (refl hR _).blank_append hg

theorem to_stripRight (hR : ∀ g, R g g) (t : Text) : Respaced R t (stripRight t) := by
  obtain ⟨g, hg, ht⟩ := exists_stripRight t
  conv_lhs => rw [ht]
  exact (refl hR _).append_blank hg

end Respaced

/-! ## Separation -/

/-- A gap that is there stays there. -/
def KeepsGap (g h : Text) : Prop := g ≠ [] → h ≠ []

theorem KeepsGap.refl (g : Text) : KeepsGap g g := id

theorem KeepsGap.trans (g h k : Text) (h₁ : KeepsGap g h) (h₂ : KeepsGap h k) : KeepsGap g k :=
  h₂ ∘ h₁

theorem keeps_collapse (t : Text) : Respaced KeepsGap t (collapse t) := by
  refine ⟨(visible_collapse t).symm, fun i _ _ hne => ?_⟩
  rw [gapAt_collapse, if_neg hne]
  simp

/-! ## Texts strewn with blanks -/

/-- The parts stand in the text one after the other, with blanks and nothing else around them, and a
part that is not at the end is followed by a blank. -/
inductive Strewn : Text → List Text → Prop
  | nil {g : Text} : (∀ c ∈ g, isBlank c = true) → Strewn g []
  | cons {g w rest : Text} {ws : List Text} : (∀ c ∈ g, isBlank c = true) →
      (∀ c ∈ rest.head?, isBlank c = true) → Strewn rest ws → Strewn (g ++ w ++ rest) (w :: ws)

theorem Strewn.isBlank_of_nil (h : Strewn t []) : ∀ c ∈ t, isBlank c := by
  cases h with
  | nil hg => exact hg

theorem Strewn.singleton (w : Text) : Strewn w [w] := by
  have hnil : ∀ c ∈ ([] : Text), isBlank c := by simp
  have hcons := Strewn.cons (w := w) hnil (by simp) (.nil hnil)
  simpa using hcons

theorem Strewn.blank_append (hg : ∀ c ∈ g, isBlank c) (h : Strewn t ws) : Strewn (g ++ t) ws := by
  have happend : ∀ {k : Text}, (∀ c ∈ k, isBlank c) → ∀ c ∈ g ++ k, isBlank c := by
    intro k hk c hc
    rcases mem_append.1 hc with hc | hc
    · exact hg c hc
    · exact hk c hc
  cases h with
  | nil hk => exact .nil (happend hk)
  | cons hk hrest hstrewn =>
    rw [← append_assoc, ← append_assoc]
    exact .cons (happend hk) hrest hstrewn

/-- **Parts keep separations.** Joined by single spaces, the parts have the visible text of the
whole, and they are separated wherever it was. -/
theorem Strewn.keeps (h : Strewn t ws) : Respaced KeepsGap t (unwords ws) := by
  induction h with
  | nil hg => exact .of_blank hg (by simp [unwords, joinWith])
  | @cons g w rest ws hg hrest hstrewn ih =>
    rw [append_assoc]
    refine Respaced.blank_append hg ?_
    have hrefl : Respaced KeepsGap w w := .refl KeepsGap.refl _
    by_cases hws : ws = []
    · subst hws
      exact hrefl.append_blank hstrewn.isBlank_of_nil
    · rw [unwords_cons hws]
      have hjoin : Respaced KeepsGap (w ++ [] ++ rest) (w ++ [' '] ++ unwords ws) :=
        hrefl.join ih (by simp) (by simp) fun x y x' y' _ => by simp
      simpa using hjoin

/-! ## Solid texts -/

/-- The text begins and ends with a visible character. -/
structure Solid (w : Text) : Prop where
  first : ∃ c t, w = c :: t ∧ isBlank c = false
  last : ∃ t d, w = t ++ [d] ∧ isBlank d = false

theorem Solid.ne_nil (h : Solid w) : w ≠ [] := by
  obtain ⟨c, t, rfl, _⟩ := h.first
  simp

theorem Solid.isBlank_head (h : Solid w) : ∀ c ∈ w.head?, isBlank c = false := by
  intro c hc
  obtain ⟨d, v, rfl, hd⟩ := h.first
  obtain rfl : d = c := by simpa using hc
  exact hd

theorem Solid.isBlank_getLast (h : Solid w) : ∀ c ∈ w.getLast?, isBlank c = false := by
  intro c hc
  obtain ⟨v, d, rfl, hd⟩ := h.last
  obtain rfl : d = c := by simpa using hc
  exact hd

theorem solid_of_visible (hne : w ≠ []) (h : ∀ c ∈ w, isBlank c = false) : Solid w := by
  obtain ⟨c, t, hfirst⟩ := exists_cons_of_ne_nil hne
  obtain ⟨t', d, hlast⟩ := (eq_nil_or_concat' w).resolve_left hne
  exact ⟨⟨c, t, hfirst, h c (by simp [hfirst])⟩, ⟨t', d, hlast, h d (by simp [hlast])⟩⟩

theorem Solid.visible_around_blank (h : Solid (a ++ c :: b)) (hc : isBlank c) :
    0 < (visible a).length ∧ 0 < (visible b).length := by
  constructor
  · obtain ⟨d, u, hd, hdv⟩ := h.first
    cases a with
    | nil =>
      obtain ⟨rfl, _⟩ := cons.inj hd
      rw [hc] at hdv
      simp at hdv
    | cons e a =>
      obtain ⟨rfl, _⟩ := cons.inj hd
      rw [visible_cons_of_visible hdv]
      simp
  · have hlast := h.isBlank_getLast
    rcases eq_nil_or_concat' b with rfl | ⟨b, d, rfl⟩
    · have := hlast c (by simp)
      rw [hc] at this
      simp at this
    · have hd : isBlank d = false := hlast d (by simp [getLast?_cons])
      rw [visible_append, visible_cons_of_visible hd]
      simp

theorem Solid.append {v : Text} (hv : Solid v) (hw : Solid w) (g : Text) : Solid (v ++ g ++ w) := by
  obtain ⟨c, t, rfl, hc⟩ := hv.first
  obtain ⟨u, d, rfl, hd⟩ := hw.last
  exact ⟨⟨c, t ++ g ++ (u ++ [d]), by simp, hc⟩, ⟨c :: t ++ g ++ u, d, by simp, hd⟩⟩

theorem solid_unwords (hne : ws ≠ []) (h : ∀ w ∈ ws, Solid w) : Solid (unwords ws) := by
  induction ws with
  | nil => exact absurd rfl hne
  | cons w ws ih =>
    by_cases hws : ws = []
    · subst hws
      exact h w (by simp)
    · rw [unwords_cons hws, ← singleton_append, ← append_assoc]
      exact (h w (by simp)).append (ih hws fun v hv => h v (by simp [hv])) [' ']

theorem strip_of_solid (h : Solid w) : strip w = w := by
  have hleft : stripLeft w = w := by
    obtain ⟨c, t, rfl, hc⟩ := h.first
    simp [stripLeft, hc]
  obtain ⟨t, d, rfl, hd⟩ := h.last
  rw [strip, hleft]
  exact dropEndWhile_concat hd t

end Reflow.Text
