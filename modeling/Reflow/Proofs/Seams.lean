import Reflow.Proofs.Gaps
import Reflow.Tag.Adjacent

/-!
Seams between tags.

`separate` and `rejoin` are one replacement, from left to right, of the text of a *seam*: a closing
delimiter, a gap, and an opening delimiter of the same kind. `Reseamed` is the graph of that
replacement, and everything about the two passes is proved by induction on it. `SeamAt t i` is the
exact account of what `rejoin` does to the gaps (`gapAt_rejoin_of_seamAt`,
`gapAt_rejoin_of_not_seamAt`): it takes out every single space at a seam.
-/

open List

namespace Reflow.Tag

open Text

/-! ## Delimiters -/

/-- A closing delimiter, a gap and an opening delimiter of one kind. -/
def seam (gap : Text) (k : TagKind) : Text := k.closing ++ gap ++ k.opening

variable {k : TagKind} {c : Char} {gap t : Text} {i : Nat}

theorem isBlank_of_mem_closing (h : c ∈ k.closing) : isBlank c = false :=
  isBlank_of_all (by cases k <;> decide) c h

theorem isBlank_of_mem_opening (h : c ∈ k.opening) : isBlank c = false :=
  isBlank_of_all (by cases k <;> decide) c h

theorem seam_kind_unique {k' : TagKind} (h : seam gap k <+: t) (h' : seam gap k' <+: t) :
    k = k' := by
  obtain ⟨r, rfl⟩ := h
  cases k <;> cases k' <;> simp_all [seam, TagKind.closing]

theorem mem_all (k : TagKind) : k ∈ TagKind.all := by
  cases k <;> simp [TagKind.all]

theorem seamKind?_eq_some (h : seamKind? gap t = some k) : seam gap k <+: t := by
  have hk := find?_some h
  exact isPrefixOf_iff_prefix.1 hk

theorem seamKind?_eq_none_iff : seamKind? gap t = none ↔ ∀ k, ¬ seam gap k <+: t := by
  unfold seamKind? seam
  rw [find?_eq_none]
  constructor
  · intro h k hk
    exact h k (mem_all k) (List.isPrefixOf_iff_prefix.2 hk)
  · intro h k _ hk
    exact h k (List.isPrefixOf_iff_prefix.1 hk)

theorem seamKind?_seam (gap : Text) (k : TagKind) (t : Text) :
    seamKind? gap (seam gap k ++ t) = some k := by
  cases hk : seamKind? gap (seam gap k ++ t) with
  | none => exact absurd (prefix_append _ _) (seamKind?_eq_none_iff.1 hk k)
  | some k' => rw [seam_kind_unique (seamKind?_eq_some hk) (prefix_append _ _)]

/-! ## The graph of the replacement -/

/-- Reading from left to right, every seam with `old` in it gets `new` instead; a character at
which no seam starts stays. -/
inductive Reseamed (old new : Text) : Text → Text → Prop
  | nil : Reseamed old new [] []
  | seam (k : TagKind) {s t : Text} : Reseamed old new s t →
      Reseamed old new (seam old k ++ s) (seam new k ++ t)
  | char {c : Char} {s t : Text} : seamKind? old (c :: s) = none → Reseamed old new s t →
      Reseamed old new (c :: s) (c :: t)

theorem reseamed_applyAfter (old new : Text) (before : Option Char) (t : Text) :
    Reseamed old new t ((reseam old new).applyAfter before t) := by
  fun_induction Rule.applyAfter (reseam old new) before t with
  | case1 => exact .nil
  | case2 before c cs n new' h ih =>
    -- the rule has found a kind, so the text starts with a seam of it
    simp only [reseam, Rule.ofText, Option.map_eq_some_iff, Prod.mk.injEq] at h
    obtain ⟨k, hk, hn, rfl⟩ := h
    obtain ⟨rest, hrest⟩ := seamKind?_eq_some hk
    have hdrop : cs.drop n = rest := by
      have hlen : (seam old k).length = n + 1 := hn
      have h1 : (c :: cs).drop (n + 1) = rest := by
        rw [← hrest, ← hlen, drop_left]
      simpa using h1
    rw [hdrop] at ih ⊢
    have hseam := Reseamed.seam k ih
    rwa [hrest] at hseam
  | case3 before c cs hno ih =>
    refine .char ?_ ih
    cases hk : seamKind? old (c :: cs) with
    | none => rfl
    | some k =>
      have hpos : 0 < (k.closing ++ old ++ k.opening).length := by
        cases k <;> simp [TagKind.closing]
      refine absurd ?_ (hno ((k.closing ++ old ++ k.opening).length - 1)
        (k.closing ++ new ++ k.opening))
      simp only [reseam, Rule.ofText, hk, Option.map_some]
      rw [Nat.succ_eq_add_one, Nat.sub_add_cancel hpos]

theorem reseamed_apply (old new t : Text) : Reseamed old new t ((reseam old new).apply t) :=
  reseamed_applyAfter old new none t

theorem Reseamed.unique {old new s t' : Text} (h : Reseamed old new s t)
    (h' : Reseamed old new s t') : t = t' := by
  -- at each place the text starts with a seam of one kind or with none, so both go the same way
  induction h generalizing t' with
  | nil =>
    generalize hs : ([] : Text) = s at h'
    cases h' with
    | nil => rfl
    | seam k _ => cases k <;> simp [Tag.seam, TagKind.closing] at hs
    | char _ _ => simp at hs
  | @seam k s t _ ih =>
    generalize hs : Tag.seam old k ++ s = s' at h'
    cases h' with
    | nil => cases k <;> simp [Tag.seam, TagKind.closing] at hs
    | @seam k' s' t' h' =>
      have hpre : Tag.seam old k' <+: Tag.seam old k ++ s := by
        rw [hs]; exact prefix_append _ _
      obtain rfl : k = k' := seam_kind_unique (prefix_append _ s) hpre
      rw [ih (append_cancel_left hs ▸ h')]
    | char hno _ =>
      rw [← hs, seamKind?_seam] at hno
      exact absurd hno (by simp)
  | @char c s t hno _ ih =>
    generalize hs : c :: s = s' at h'
    cases h' with
    | nil => simp at hs
    | seam k' _ =>
      rw [hs, seamKind?_seam] at hno
      exact absurd hno (by simp)
    | char _ h' =>
      obtain ⟨rfl, rfl⟩ := cons.inj hs
      rw [ih h']

theorem prefix_of_not_mem {w a b : Text} (hc : c ∉ w) (h : w <+: a ++ c :: b) : w <+: a := by
  rcases Nat.lt_or_ge a.length w.length with hlt | hge
  · -- longer than `a`, it would reach as far as `c`
    have hac : a ++ [c] <+: w := by
      refine prefix_of_prefix_length_le ⟨b, by simp⟩ h ?_
      rw [length_append, length_singleton]
      omega
    exact absurd (hac.subset (by simp)) hc
  · exact prefix_of_prefix_length_le h (prefix_append _ _) hge

/-- **A character outside seams cuts the work in two.** -/
theorem reseam_append_cons {old new : Text} (hc : ∀ k, c ∉ seam old k) (a b : Text) :
    (reseam old new).apply (a ++ c :: b)
      = (reseam old new).apply a ++ c :: (reseam old new).apply b := by
  have hb : Reseamed old new (c :: b) (c :: (reseam old new).apply b) := by
    refine .char (seamKind?_eq_none_iff.2 fun k hk => ?_) (reseamed_apply old new b)
    have hk' : seam old k <+: [] := prefix_of_not_mem (a := []) (hc k) hk
    cases k <;> simp [seam, TagKind.closing] at hk'
  have key : ∀ {s t : Text}, Reseamed old new s t →
      Reseamed old new (s ++ c :: b) (t ++ c :: (reseam old new).apply b) := by
    intro s t h
    induction h with
    | nil => exact hb
    | seam k _ ih => rw [append_assoc, append_assoc]; exact .seam k ih
    | char hno _ ih =>
      refine .char (seamKind?_eq_none_iff.2 fun k hk => ?_) ih
      exact seamKind?_eq_none_iff.1 hno k (prefix_of_not_mem (hc k) hk)
  exact (reseamed_apply old new (a ++ c :: b)).unique (key (reseamed_apply old new a))

/-! ## What the replacement does to the gaps -/

theorem gapAt_seam {g : Text} (hg : ∀ c ∈ g, isBlank c) (k : TagKind) (t : Text) (i : Nat) :
    gapAt (seam g k ++ t) i =
      (if i = k.closing.length then g else []) ++
        if k.closing.length + k.opening.length ≤ i then
          gapAt t (i - (k.closing.length + k.opening.length)) else [] := by
  have hc : visible k.closing = k.closing := visible_eq_self fun _ => isBlank_of_mem_closing
  have ho : visible k.opening = k.opening := visible_eq_self fun _ => isBlank_of_mem_opening
  have hgap : gapAt g (i - k.closing.length)
      = if i - k.closing.length = 0 then g else [] := by
    split
    · next h => rw [h, gapAt_zero_of_blank hg]
    · next h => exact gapAt_eq_nil_of_lt (by rw [visible_eq_nil hg, length_nil]; omega)
  rw [seam, gapAt_append, gapAt_append, gapAt_append]
  simp only [visible_append, hc, ho, visible_eq_nil hg, append_nil, length_append,
    gapAt_of_visible fun _ => isBlank_of_mem_closing,
    gapAt_of_visible fun _ => isBlank_of_mem_opening, hgap, nil_append, ite_self]
  by_cases hi : i = k.closing.length
  · simp [hi]
  · split
    · rw [if_neg (by omega)]
    · rfl

theorem visible_seam {g : Text} (hg : ∀ c ∈ g, isBlank c) (k : TagKind) :
    visible (seam g k) = k.closing ++ k.opening := by
  simp [seam, visible_eq_nil hg, visible_eq_self fun _ => isBlank_of_mem_closing,
    visible_eq_self fun _ => isBlank_of_mem_opening]

namespace Reseamed

variable {old new s t : Text}

theorem visible_eq (hold : ∀ c ∈ old, isBlank c) (hnew : ∀ c ∈ new, isBlank c)
    (h : Reseamed old new s t) : visible s = visible t := by
  induction h with
  | nil => rfl
  | seam k _ ih => rw [visible_append, visible_append, visible_seam hold, visible_seam hnew, ih]
  | @char c s t _ _ ih =>
    rw [← singleton_append (l := s), ← singleton_append (l := t), visible_append,
      visible_append, ih]

/-- A gap stays, or it was `old` and is now `new`. There are visible characters before it in the
second case, as a seam starts with a delimiter. -/
theorem gapAt_eq_or (hold : ∀ c ∈ old, isBlank c) (hnew : ∀ c ∈ new, isBlank c)
    (h : Reseamed old new s t) (i : Nat) :
    gapAt t i = gapAt s i ∨ 0 < i ∧ gapAt s i = old ∧ gapAt t i = new := by
  induction h generalizing i with
  | nil => exact .inl rfl
  | @seam k s t _ ih =>
    rw [gapAt_seam hold, gapAt_seam hnew]
    have hc : 0 < k.closing.length := by cases k <;> simp [TagKind.closing]
    have ho : 0 < k.opening.length := by cases k <;> simp [TagKind.opening]
    -- the gap is the one between the delimiters, or after the seam, or inside a delimiter
    by_cases hi : i = k.closing.length
    · rw [if_pos hi, if_pos hi, if_neg (by omega), if_neg (by omega)]
      exact .inr ⟨by omega, by simp⟩
    · rw [if_neg hi, if_neg hi]
      by_cases hle : k.closing.length + k.opening.length ≤ i
      · rw [if_pos hle, if_pos hle]
        rcases ih (i - (k.closing.length + k.opening.length)) with h | h
        · exact .inl (by rw [h])
        · exact .inr ⟨by omega, by simpa using h.2⟩
      · rw [if_neg hle, if_neg hle]
        exact .inl rfl
  | @char c s t _ _ ih =>
    cases i with
    | zero =>
      rcases ih 0 with h | h
      · exact .inl (by rw [gapAt, gapAt, h])
      · exact absurd h.1 (Nat.lt_irrefl 0)
    | succ i =>
      rw [gapAt, gapAt]
      split
      · exact ih (i + 1)
      · rcases ih i with h | h
        · exact .inl h
        · exact .inr ⟨by omega, h.2⟩

end Reseamed

theorem visible_separate (t : Text) : visible (separate t) = visible t :=
  ((reseamed_apply [] [' '] t).visible_eq (by simp) (by simp)).symm

theorem visible_rejoin (t : Text) : visible (rejoin t) = visible t :=
  ((reseamed_apply [' '] [] t).visible_eq (by simp) (by simp)).symm

theorem gapAt_separate (t : Text) (i : Nat) :
    gapAt (separate t) i = gapAt t i ∨ gapAt t i = [] ∧ gapAt (separate t) i = [' '] :=
  ((reseamed_apply [] [' '] t).gapAt_eq_or (by simp) (by simp) i).imp_right And.right

theorem gapAt_rejoin (t : Text) (i : Nat) :
    gapAt (rejoin t) i = gapAt t i ∨ gapAt t i = [' '] ∧ gapAt (rejoin t) i = [] :=
  ((reseamed_apply [' '] [] t).gapAt_eq_or (by simp) (by simp) i).imp_right And.right

theorem not_mem_seam_nil (hc : isBlank c) (k : TagKind) : c ∉ seam [] k := by
  intro h
  rcases mem_append.1 h with h | h
  · rw [append_nil] at h
    rw [isBlank_of_mem_closing h] at hc
    exact absurd hc (by simp)
  · rw [isBlank_of_mem_opening h] at hc
    exact absurd hc (by simp)

theorem separate_append_cons (hc : isBlank c) (a b : Text) :
    separate (a ++ c :: b) = separate a ++ c :: separate b :=
  reseam_append_cons (not_mem_seam_nil hc) a b

theorem rejoin_append_newline (a b : Text) :
    rejoin (a ++ '\n' :: b) = rejoin a ++ '\n' :: rejoin b := by
  refine reseam_append_cons (fun k => ?_) a b
  cases k <;> decide

@[simp] theorem rejoin_nil : rejoin [] = [] := (reseamed_apply [' '] [] []).unique .nil

theorem rejoin_cons (h : ∀ k, ¬ seam [' '] k <+: c :: t) : rejoin (c :: t) = c :: rejoin t :=
  (reseamed_apply [' '] [] (c :: t)).unique
    (.char (seamKind?_eq_none_iff.2 h) (reseamed_apply [' '] [] t))

theorem rejoin_unlines (ls : List Text) : rejoin (unlines ls) = unlines (ls.map rejoin) := by
  induction ls with
  | nil => exact rejoin_nil
  | cons l ls ih =>
    by_cases hne : ls = []
    · subst hne; rfl
    · rw [unlines_cons hne, rejoin_append_newline, ih, map_cons, unlines_cons (by simpa)]

/-! ## Where spaces are taken out -/

/-- Reading `t` from left to right, `rejoin` finds a seam with a single space at place `i`: the text
starts with one, or it starts with one and the place is in what follows it, or it starts with none
and the place is in what follows the first character. -/
inductive SeamAt : Text → Nat → Prop
  | here (k : TagKind) (t : Text) : SeamAt (seam [' '] k ++ t) k.closing.length
  | later (k : TagKind) {t : Text} {i : Nat} : SeamAt t i →
      SeamAt (seam [' '] k ++ t) (k.closing.length + k.opening.length + i)
  | skip {c : Char} {t : Text} {i : Nat} : seamKind? [' '] (c :: t) = none → SeamAt t i →
      SeamAt (c :: t) ((visible [c]).length + i)

theorem not_seamAt_nil (i : Nat) : ¬ SeamAt [] i := by
  intro h
  generalize hs : ([] : Text) = s at h
  cases h with
  | here k _ | later k _ => cases k <;> simp [seam, TagKind.closing] at hs
  | skip _ _ => simp at hs

theorem seamAt_seam_iff :
    SeamAt (seam [' '] k ++ t) i ↔
      i = k.closing.length ∨ ∃ j, i = k.closing.length + k.opening.length + j ∧ SeamAt t j := by
  constructor
  · intro h
    generalize hs : seam [' '] k ++ t = s at h
    have hpre : seam [' '] k <+: s := hs ▸ prefix_append _ _
    cases h with
    | here k' t' =>
      obtain rfl := seam_kind_unique hpre (prefix_append _ t')
      exact .inl rfl
    | @later k' t' j h =>
      obtain rfl := seam_kind_unique hpre (prefix_append _ t')
      exact .inr ⟨j, rfl, append_cancel_left hs ▸ h⟩
    | skip hno _ => exact absurd hpre (seamKind?_eq_none_iff.1 hno k)
  · rintro (rfl | ⟨j, rfl, h⟩)
    · exact .here k t
    · exact .later k h

theorem seamAt_cons_iff (hno : seamKind? [' '] (c :: t) = none) :
    SeamAt (c :: t) i ↔ ∃ j, i = (visible [c]).length + j ∧ SeamAt t j := by
  constructor
  · intro h
    generalize hs : c :: t = s at h
    rw [hs] at hno
    cases h with
    | here k t' => exact absurd (prefix_append _ _) (seamKind?_eq_none_iff.1 hno k)
    | later k _ => exact absurd (prefix_append _ _) (seamKind?_eq_none_iff.1 hno k)
    | @skip c' t' j _ h =>
      obtain ⟨rfl, rfl⟩ := cons.inj hs
      exact ⟨j, rfl, h⟩
  · rintro ⟨j, rfl, h⟩
    exact .skip hno h

theorem SeamAt.pos (h : SeamAt t i) : 0 < i := by
  induction h with
  | here k _ => cases k <;> simp [TagKind.closing]
  | later k _ ih => omega
  | skip _ _ ih => omega

theorem SeamAt.exists_append (h : SeamAt t i) :
    ∃ a k b, t = a ++ seam [' '] k ++ b ∧ i = (visible a).length + k.closing.length := by
  induction h with
  | here k t => exact ⟨[], k, t, rfl, by simp⟩
  | @later k t i _ ih =>
    obtain ⟨a, k', b, rfl, rfl⟩ := ih
    refine ⟨seam [' '] k ++ a, k', b, by simp, ?_⟩
    rw [visible_append, visible_seam (by simp), length_append, length_append]
    omega
  | @skip c t i _ _ ih =>
    obtain ⟨a, k, b, rfl, rfl⟩ := ih
    refine ⟨c :: a, k, b, by simp, ?_⟩
    rw [← singleton_append (l := a), visible_append, length_append]
    omega

theorem SeamAt.delimiters (h : SeamAt t i) :
    ∃ k : TagKind, k.closing <:+ (visible t).take i ∧ k.opening <+: (visible t).drop i := by
  obtain ⟨a, k, b, rfl, rfl⟩ := h.exists_append
  have hvisible : visible (a ++ seam [' '] k ++ b)
      = (visible a ++ k.closing) ++ (k.opening ++ visible b) := by
    rw [visible_append, visible_append, visible_seam (by simp)]
    simp
  have hlen : (visible a).length + k.closing.length = (visible a ++ k.closing).length := by simp
  refine ⟨k, ?_, ?_⟩
  · rw [hvisible, hlen, take_left]
    exact suffix_append _ _
  · rw [hvisible, hlen, drop_left]
    exact prefix_append _ _

/-- **What rejoining does.** The gap at a seam is a single space, and it is closed; every other gap
stays. -/
theorem gapAt_rejoin_of_seamAt (h : SeamAt t i) : gapAt t i = [' '] ∧ gapAt (rejoin t) i = [] := by
  have key : ∀ {s u : Text}, Reseamed [' '] [] s u → ∀ i, SeamAt s i →
      gapAt s i = [' '] ∧ gapAt u i = [] := by
    intro s u hsu
    induction hsu with
    | nil => exact fun i hi => absurd hi (not_seamAt_nil i)
    | @seam k s u _ ih =>
      intro i hi
      rw [gapAt_seam (by simp), gapAt_seam (by simp)]
      have ho : 0 < k.opening.length := by cases k <;> simp [TagKind.opening]
      rcases seamAt_seam_iff.1 hi with rfl | ⟨j, rfl, hj⟩
      · rw [if_pos rfl, if_pos rfl, if_neg (by omega), if_neg (by omega)]
        simp
      · have hne : ¬ k.closing.length + k.opening.length + j = k.closing.length := by omega
        have hle : k.closing.length + k.opening.length
            ≤ k.closing.length + k.opening.length + j := by omega
        simp only [if_neg hne, if_pos hle, Nat.add_sub_cancel_left, nil_append]
        exact ih j hj
    | @char c s u hno _ ih =>
      intro i hi
      obtain ⟨j, rfl, hj⟩ := (seamAt_cons_iff hno).1 hi
      have hpos := hj.pos
      rw [← singleton_append (l := s), ← singleton_append (l := u), gapAt_append,
        gapAt_append, if_pos (by omega), if_pos (by omega), Nat.add_sub_cancel_left,
        gapAt_eq_nil_of_lt (by omega)]
      simpa using ih j hj
  exact key (reseamed_apply [' '] [] t) i h

theorem gapAt_rejoin_of_not_seamAt (h : ¬ SeamAt t i) : gapAt (rejoin t) i = gapAt t i := by
  have key : ∀ {s u : Text}, Reseamed [' '] [] s u → ∀ i, ¬ SeamAt s i →
      gapAt u i = gapAt s i := by
    intro s u hsu
    induction hsu with
    | nil => exact fun i _ => rfl
    | @seam k s u _ ih =>
      intro i hi
      rw [seamAt_seam_iff, not_or] at hi
      rw [gapAt_seam (by simp), gapAt_seam (by simp), if_neg hi.1, if_neg hi.1]
      by_cases hle : k.closing.length + k.opening.length ≤ i
      · rw [if_pos hle, if_pos hle, ih _ fun hj => hi.2 ⟨_, by omega, hj⟩]
      · rw [if_neg hle, if_neg hle]
    | @char c s u hno _ ih =>
      intro i hi
      rw [seamAt_cons_iff hno] at hi
      rw [← singleton_append (l := s), ← singleton_append (l := u), gapAt_append,
        gapAt_append]
      by_cases hle : (visible [c]).length ≤ i
      · rw [if_pos hle, if_pos hle, ih _ fun hj => hi ⟨_, by omega, hj⟩]
      · rw [if_neg hle, if_neg hle]
  exact key (reseamed_apply [' '] [] t) i h

end Reflow.Tag
