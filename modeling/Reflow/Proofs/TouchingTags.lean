import Mathlib.Data.List.Infix
import Reflow.Proofs.ShownWords

/-!
Tags that touch.

Rejoining undoes separating (`separate_rejoin`) as long as separating has left no tags that touch
(`Unseamed`), which it may do where delimiters share a character, as in `%}{%}{%`. Laying a text out
keeps this: any part of a layout between visible characters is the layout of a part of the text
(`Spaced.exists_part`).
-/

open List

namespace Reflow.Relaid

open Text

/-! ## Parts of a layout -/

/-- Gaps are runs of blanks, before and after. -/
def Spaced (zs : List Cell) : Prop :=
  ∀ g g', Cell.gap g g' ∈ zs → BlankRun g ∧ BlankRun g'

theorem Fit.spaced {free : Bool} {zs : List Cell} (h : Fit free zs) : Spaced zs := by
  intro g g' hmem
  obtain ⟨xs, ys, rfl⟩ := append_of_mem hmem
  exact ⟨h.right.1, h.right.2.1⟩

namespace Spaced

variable {zs : List Cell}

theorem of_subset {ws : List Cell} (h : Spaced zs) (hsub : ∀ z ∈ ws, z ∈ zs) : Spaced ws :=
  fun g g' hmem => h g g' (hsub _ hmem)

/-- Cells can be split where their output is, unless that is between two blanks. -/
theorem exists_split (h : Spaced zs) {a b : Text} (heq : out zs = a ++ b)
    (hcut : (∀ c ∈ a.getLast?, isBlank c = false) ∨ ∀ c ∈ b.head?, isBlank c = false) :
    ∃ xs ys, zs = xs ++ ys ∧ out xs = a ∧ out ys = b := by
  induction zs generalizing a with
  | nil =>
    obtain ⟨rfl, rfl⟩ := append_eq_nil_iff.1 heq.symm
    exact ⟨[], [], rfl, rfl, rfl⟩
  | cons z zs ih =>
    have hzs : Spaced zs := h.of_subset (by simp_all)
    have hout : z.out ++ out zs = a ++ b := heq
    rcases append_eq_append_iff.1 hout with ⟨a', rfl, hrest⟩ | ⟨k, hz, rfl⟩
    · have hcut' : (∀ c ∈ a'.getLast?, isBlank c = false) ∨ ∀ c ∈ b.head?, isBlank c = false := by
        refine hcut.imp (fun hlast c hc => hlast c ?_) id
        rw [getLast?_append, hc]
        rfl
      obtain ⟨xs, ys, rfl, rfl, hys⟩ := ih hzs hrest hcut'
      exact ⟨z :: xs, ys, rfl, rfl, hys⟩
    · by_cases ha : a = []
      · subst ha
        exact ⟨[], z :: zs, rfl, rfl, heq⟩
      · by_cases hk : k = []
        · subst hk
          exact ⟨[z], zs, rfl, by simpa [out] using hz, rfl⟩
        · -- only a run of blanks is that long, and it would be cut inside
          obtain ⟨c, k, rfl⟩ := exists_cons_of_ne_nil hk
          obtain ⟨a, d, rfl⟩ := (eq_nil_or_concat' a).resolve_left ha
          have hlen : 2 ≤ z.out.length := by
            rw [hz]
            simp only [length_append, length_cons, length_nil]
            omega
          cases z with
          | char e => exact absurd hlen (by simp [Cell.out])
          | mark => exact absurd hlen (by simp [Cell.out])
          | gap g g' =>
            have hg' := (h g g' (by simp)).2.2
            have hblank : g' = a ++ [d] ++ c :: k := hz
            rw [hblank] at hg'
            rcases hcut with hlast | hhead
            · have hd := hlast d (by simp)
              rw [hg' d (by simp)] at hd
              exact absurd hd (by simp)
            · have hc := hhead c (by simp)
              rw [hg' c (by simp)] at hc
              exact absurd hc (by simp)

/-- **Parts of a layout.** A part between visible characters is the layout of some cells. -/
theorem exists_part (h : Spaced zs) {s : Text} (hs : Solid s) (hpart : s <:+: out zs) :
    ∃ xs ws ys, zs = xs ++ ws ++ ys ∧ out ws = s := by
  obtain ⟨a, b, heq⟩ := hpart
  have hlast : ∀ c ∈ (a ++ s).getLast?, isBlank c = false := by
    obtain ⟨t, d, rfl, hd⟩ := hs.last
    simpa [getLast?_append] using hd
  obtain ⟨front, ys, rfl, hfront, _⟩ := h.exists_split heq.symm (.inl hlast)
  have hspaced : Spaced front := h.of_subset (by simp_all)
  obtain ⟨xs, ws, rfl, _, hws⟩ := hspaced.exists_split hfront (.inr hs.isBlank_head)
  exact ⟨xs, ws, ys, rfl, hws⟩

theorem src_eq (h : Spaced zs) (hout : ∀ c ∈ out zs, isBlank c = false ∧ c ≠ '\\') :
    src zs = out zs := by
  induction zs with
  | nil => rfl
  | cons z zs ih =>
    have ih := ih (h.of_subset (by simp_all))
    cases z with
    | char c => rw [src_char, out_char, ih fun d hd => hout d (by simp [hd])]
    | gap g g' =>
      obtain ⟨hne, hg'⟩ := (h g g' (by simp)).2
      obtain ⟨c, g', rfl⟩ := exists_cons_of_ne_nil hne
      have hc := (hout c (by simp)).1
      rw [hg' c (by simp)] at hc
      exact absurd hc (by simp)
    | mark => exact absurd rfl (hout '\\' (by simp)).2

theorem isBlank_src (h : Spaced zs) (hout : ∀ c ∈ out zs, isBlank c) : ∀ c ∈ src zs, isBlank c := by
  induction zs with
  | nil => simp
  | cons z zs ih =>
    have ih := ih (h.of_subset (by simp_all))
    cases z with
    | char c =>
      intro d hd
      rcases mem_cons.1 hd with rfl | hd
      · exact hout d (by simp)
      · exact ih (fun e he => hout e (by simp [he])) d hd
    | gap g g' =>
      intro d hd
      rcases mem_append.1 hd with hd | hd
      · exact (h g g' (by simp)).1.2 d hd
      · exact ih (fun e he => hout e (by simp [he])) d hd
    | mark =>
      have hmark := hout '\\' (by simp)
      exact absurd hmark (by simp)

theorem isInfix_src (h : Spaced zs) {s : Text} (hs : ∀ c ∈ s, isBlank c = false ∧ c ≠ '\\')
    (hpart : s <:+: out zs) : s <:+: src zs := by
  by_cases hne : s = []
  · rw [hne]
    exact nil_infix
  · have hsolid : Solid s := solid_of_visible hne fun c hc => (hs c hc).1
    obtain ⟨xs, ws, ys, rfl, rfl⟩ := h.exists_part hsolid hpart
    rw [← Spaced.src_eq (h.of_subset (by simp_all)) hs]
    exact ⟨src xs, src ys, by simp⟩

end Spaced

/-- **What a layout shows, the text has**, if it holds neither blanks nor backslashes. -/
theorem Relays.isInfix {t u : Text} (h : Relays t u) {s : Text}
    (hs : ∀ c ∈ s, isBlank c = false ∧ c ≠ '\\') (hpart : s <:+: u) : s <:+: t := by
  induction h with
  | refl t => exact hpart
  | trim _ _ _ ih => exact (ih hpart).trans ⟨_, _, rfl⟩
  | step hfit _ ih => exact hfit.spaced.isInfix_src hs (ih hpart)

/-- No backslash stands in front of a blank. -/
def Escaping (t : Text) : Prop := ∀ c, isBlank c = true → ¬ ['\\', c] <:+: t

theorem escaping_iff {t : Text} : Escaping t ↔
    ∀ s ∈ t.tails, s.head? = some '\\' → (s.tail.head?.all fun c => !isBlank c) := by
  constructor
  · intro h s hs hslash
    rw [Option.all_eq_true]
    intro c hc
    obtain ⟨u, rfl⟩ := head?_eq_some_iff.1 hslash
    obtain ⟨v, rfl⟩ := head?_eq_some_iff.1 hc
    have hpart : ['\\', c] <:+: t := by
      refine IsInfix.trans ?_ ((mem_tails _ _).1 hs).isInfix
      exact ⟨[], v, rfl⟩
    by_contra hblank
    exact h c (by simpa using hblank) hpart
  · rintro h c hc ⟨a, b, rfl⟩
    have hvisible := h ('\\' :: c :: b) ((mem_tails _ _).2 ⟨a, by simp⟩) rfl
    simp [hc] at hvisible

instance (t : Text) : Decidable (Escaping t) := decidable_of_iff' _ escaping_iff

theorem Escaping.of_isInfix {s t : Text} (ht : Escaping t) (hs : s <:+: t) : Escaping s :=
  fun c hc hpart => ht c hc (hpart.trans hs)

/-- A backslash that a layout adds stands in front of the character that it escapes. -/
theorem Escaping.relaid {free : Bool} {zs : List Cell} (ht : Escaping (src zs)) (h : Fit free zs) :
    Escaping (out zs) := by
  rintro c hc ⟨a, b, heq⟩
  have hout : out zs = (a ++ ['\\']) ++ c :: b := by simpa using heq.symm
  obtain ⟨xs, ys, rfl, hxs, hys⟩ :=
    h.spaced.exists_split hout (.inl (by simp [isBlank_backslash]))
  -- the blank is the first of a gap, before and after
  obtain ⟨g, g', rest, rfl⟩ : ∃ g g' rest, ys = .gap g g' :: rest := by
    cases ys with
    | nil => simp at hys
    | cons y rest =>
      have hfit := h.right
      cases y with
      | gap g g' => exact ⟨g, g', rest, rfl⟩
      | char d =>
        have hd := hfit.1
        rw [(cons.inj hys).1, hc] at hd
        exact absurd hd (by simp)
      | mark =>
        rw [← (cons.inj hys).1] at hc
        exact absurd hc (by simp)
  obtain ⟨front, z, rfl⟩ := (eq_nil_or_concat' xs).resolve_left (by rintro rfl; simp at hxs)
  cases z with
  | char d =>
    obtain rfl : d = '\\' := by
      have hlast := congrArg getLast? hxs
      simpa using hlast
    obtain ⟨hne, hg⟩ := (h.spaced g g' (by simp)).1
    obtain ⟨e, g, rfl⟩ := exists_cons_of_ne_nil hne
    exact ht e (hg e (by simp)) ⟨src front, g ++ src rest, by simp⟩
  | gap k k' =>
    obtain ⟨hne, hk'⟩ := (h.spaced k k' (by simp)).2
    obtain ⟨k', d, rfl⟩ := (eq_nil_or_concat' k').resolve_left hne
    obtain rfl : d = '\\' := by
      have hlast := congrArg getLast? hxs
      simpa using hlast
    have hblank := hk' '\\' (by simp)
    exact absurd hblank (by simp)
  | mark =>
    rw [append_assoc] at h
    obtain ⟨_, ⟨d, more, hnext, _⟩, _⟩ := h.right
    exact absurd hnext (by simp)

theorem Escaping.relays {t u : Text} (ht : Escaping t) (h : Relays t u) : Escaping u := by
  induction h with
  | refl t => exact ht
  | trim _ _ _ ih => exact ih (ht.of_isInfix ⟨_, _, rfl⟩)
  | step hfit _ ih => exact ih (ht.relaid hfit)

end Reflow.Relaid

namespace Reflow.Tag

open Text Relaid

/-! ## Tags that touch -/

/-- No closing delimiter is directly followed by an opening one of its kind. -/
def Unseamed (t : Text) : Prop := ∀ k : TagKind, ¬ seam [] k <:+: t

instance (t : Text) : Decidable (Unseamed t) :=
  decidable_of_iff (∀ k ∈ TagKind.all, ¬ seam [] k <:+: t)
    ⟨fun h k => h k (mem_all k), fun h k _ => h k⟩

variable {s t old new : Text}

theorem Unseamed.of_isInfix (h : Unseamed t) (hs : s <:+: t) : Unseamed s :=
  fun k hk => h k (hk.trans hs)

theorem reseam_eq_self (h : ∀ k, ¬ seam old k <:+: t) : (reseam old new).apply t = t := by
  have hself : ∀ {s : Text}, s <:+ t → Reseamed old new s s := by
    intro s hs
    induction s with
    | nil => exact .nil
    | cons c s ih =>
      refine .char (seamKind?_eq_none_iff.2 fun k hk => ?_) (ih ((suffix_cons c s).trans hs))
      exact h k (hk.isInfix.trans hs.isInfix)
  exact (reseamed_apply old new t).unique (hself (suffix_refl t))

theorem Unseamed.separate_eq (h : Unseamed t) : separate t = t := reseam_eq_self h

/-- What a rejoined text starts with, the text does, up to the end of a tag that is followed by
another. -/
theorem Reseamed.isPrefix (h : Reseamed [' '] [] s t) {w : Text}
    (hw : ∀ k : TagKind, ¬ k.closing ++ k.opening.take 1 <:+: w) (hpre : w <+: t) : w <+: s := by
  induction h generalizing w with
  | nil => exact hpre
  | @seam k s t _ _ =>
    obtain ⟨c, rest, hopening⟩ : ∃ c rest, k.opening = c :: rest := by
      cases k <;> exact ⟨_, _, rfl⟩
    by_cases hlen : w.length ≤ k.closing.length
    · have hclosing : w <+: k.closing :=
        prefix_of_prefix_length_le hpre (by simp [Tag.seam]) hlen
      exact hclosing.trans (by simp [Tag.seam])
    · have hmore : k.closing ++ [c] <+: w := by
        have hseam : k.closing ++ [c] <+: Tag.seam [] k ++ t := by simp [Tag.seam, hopening]
        exact prefix_of_prefix_length_le hseam hpre (by simp; omega)
      refine absurd hmore.isInfix ?_
      have := hw k
      rwa [hopening] at this
  | @char c s t _ _ ih =>
    rcases prefix_cons_iff.1 hpre with rfl | ⟨u, rfl, hu⟩
    · exact nil_prefix
    · refine cons_prefix_cons.2 ⟨rfl, ih (fun k hk => hw k ?_) hu⟩
      exact hk.trans (suffix_cons c u).isInfix

/-- **Rejoining is undone by separating**, in a text whose tags do not touch. -/
theorem separate_rejoin (ht : Unseamed t) : separate (rejoin t) = t := by
  have key : ∀ {s u : Text}, Reseamed [' '] [] s u → Unseamed s → Reseamed [] [' '] u s := by
    intro s u h
    induction h with
    | nil => exact fun _ => .nil
    | seam k _ ih => exact fun hs => .seam k (ih (hs.of_isInfix (suffix_append _ _).isInfix))
    | @char c s u _ h ih =>
      intro hs
      refine .char (seamKind?_eq_none_iff.2 fun k hk => ?_)
        (ih (hs.of_isInfix (suffix_cons c s).isInfix))
      -- nothing was rejoined inside these delimiters, so they touch in the text already
      obtain ⟨d, w, hseam⟩ : ∃ d w, seam [] k = d :: w := by cases k <;> exact ⟨_, _, rfl⟩
      have hw : ∀ k' : TagKind, ¬ k'.closing ++ k'.opening.take 1 <:+: w := by
        intro k'
        cases k <;> obtain ⟨rfl, rfl⟩ := cons.inj hseam <;> cases k' <;> decide
      rw [hseam, cons_prefix_cons] at hk
      refine hs k ?_
      rw [hseam, hk.1]
      exact (cons_prefix_cons.2 ⟨rfl, h.isPrefix hw hk.2⟩).isInfix
  exact (reseamed_apply [] [' '] (rejoin t)).unique (key (reseamed_apply [' '] [] t) ht)

theorem separate_unwords (ws : List Text) : separate (unwords ws) = unwords (ws.map separate) := by
  induction ws with
  | nil => exact (reseamed_apply [] [' '] []).unique .nil
  | cons w ws ih =>
    by_cases hne : ws = []
    · subst hne
      rfl
    · rw [unwords_cons hne, separate_append_cons isBlank_space, ih, map_cons,
        unwords_cons (by simpa using hne)]

/-- No closing delimiter is followed by an opening one of its kind, blanks apart. -/
def TagsApart (t : Text) : Prop :=
  ∀ (k : TagKind) (gap : Text), (∀ c ∈ gap, isBlank c = true) → ¬ seam gap k <:+: t

theorem TagsApart.of_isInfix (h : TagsApart t) (hs : s <:+: t) : TagsApart s :=
  fun k gap hgap hk => h k gap hgap (hk.trans hs)

theorem TagsApart.unseamed (h : TagsApart t) : Unseamed t := fun k => h k [] (by simp)

theorem TagsApart.rejoin_eq (h : TagsApart t) : rejoin t = t :=
  reseam_eq_self fun k => h k [' '] (by simp)

/-! ## Separating and rejoining collapsed texts -/

theorem Reseamed.head?_eq (h : Reseamed old new s t) : t.head? = s.head? := by
  cases h with
  | nil => rfl
  | seam k _ => cases k <;> rfl
  | char _ _ => rfl

theorem Reseamed.eq_nil_iff (h : Reseamed old new s t) : t = [] ↔ s = [] := by
  rw [← head?_eq_none_iff, h.head?_eq, head?_eq_none_iff]

theorem getLast?_seam (gap : Text) (k : TagKind) : (seam gap k).getLast? = k.opening.getLast? := by
  cases k <;> simp [seam, TagKind.opening]

theorem Reseamed.getLast?_eq (h : Reseamed old new s t) : t.getLast? = s.getLast? := by
  induction h with
  | nil => rfl
  | seam k _ ih =>
    rw [getLast?_append, getLast?_append, ih, getLast?_seam, getLast?_seam]
  | char _ _ ih => rw [getLast?_cons, getLast?_cons, ih]

theorem Reseamed.solid (h : Reseamed old new s t) (hs : Solid s) : Solid t := by
  obtain ⟨c, u, rfl, hc⟩ := hs.first
  obtain ⟨v, rfl⟩ := head?_eq_some_iff.1 h.head?_eq
  refine ⟨⟨c, v, rfl, hc⟩, ?_⟩
  obtain ⟨v', d, hv⟩ := (eq_nil_or_concat' (c :: v)).resolve_left (by simp)
  refine ⟨v', d, hv, hs.isBlank_getLast d ?_⟩
  rw [← h.getLast?_eq, hv]
  simp

theorem collapse_seam {gap : Text} (hgap : gap = [] ∨ gap = [' ']) (k : TagKind) (t : Text) :
    collapse (seam gap k ++ t) = seam gap k ++ collapse t := by
  have hseam : collapse (seam gap k) = seam gap k := by
    rcases hgap with rfl | rfl <;> cases k <;> decide
  have hlast : ∀ c ∈ (seam gap k).getLast?, isBlank c = false := by
    rw [getLast?_seam]
    exact fun c hc => isBlank_of_mem_opening (mem_of_mem_getLast? hc)
  rw [collapse_append_of_visible hlast, hseam]

theorem Reseamed.collapse_eq (hold : old = [] ∨ old = [' ']) (hnew : new = [] ∨ new = [' '])
    (h : Reseamed old new s t) (hs : collapse s = s) : collapse t = t := by
  induction h with
  | nil => rfl
  | seam k _ ih =>
    rw [collapse_seam hold] at hs
    rw [collapse_seam hnew, ih (append_cancel_left hs)]
  | @char c s t _ h ih =>
    by_cases hc : isBlank c
    · by_cases hhead : ∀ d ∈ s.head?, isBlank d = false
      · have hcons : ∀ u : Text, (∀ d ∈ u.head?, isBlank d = false) →
            collapse (c :: u) = ' ' :: collapse u := fun u hu =>
          collapse_append_blanks (a := []) (g := [c]) (by simp) (by simpa using hc) (by simp) hu
        rw [hcons s hhead, cons.injEq] at hs
        rw [hcons t (by rwa [h.head?_eq]), ih hs.2, hs.1]
      · -- of two blanks in a row one would have been dropped
        cases s with
        | nil => simp at hhead
        | cons d s =>
          have hd : isBlank d := by simpa using hhead
          have hdrop : collapse (c :: d :: s) = collapse (d :: s) := by
            rw [collapse.eq_def]
            simp [hc, hd]
          have hlen := length_collapse_le (d :: s)
          rw [← hdrop, hs, length_cons] at hlen
          omega
    · have hc : isBlank c = false := by simpa using hc
      rw [collapse_cons_of_visible hc, cons.injEq] at hs
      rw [collapse_cons_of_visible hc, ih hs.2]

/-! ## Tags in a layout -/

theorem isBlank_of_mem_seam_nil {k : TagKind} {c : Char} (hc : c ∈ seam [] k) :
    isBlank c = false ∧ c ≠ '\\' := by
  refine ⟨?_, ?_⟩
  · by_contra hblank
    exact not_mem_seam_nil (by simpa using hblank) k hc
  · rintro rfl
    cases k <;> exact absurd hc (by decide)

theorem Unseamed.relaid {free : Bool} {zs : List Cell} (ht : Unseamed (src zs)) (h : Fit free zs) :
    Unseamed (out zs) := fun k hk =>
  ht k (h.spaced.isInfix_src (fun _ => isBlank_of_mem_seam_nil) hk)

theorem TagsApart.relaid {free : Bool} {zs : List Cell} (ht : TagsApart (src zs)) (h : Fit free zs) :
    TagsApart (out zs) := by
  intro k gap hgap hk
  have hclosing : ∀ c ∈ k.closing, isBlank c = false ∧ c ≠ '\\' := fun c hc =>
    isBlank_of_mem_seam_nil (k := k) (by simp [seam, hc])
  have hopening : ∀ c ∈ k.opening, isBlank c = false ∧ c ≠ '\\' := fun c hc =>
    isBlank_of_mem_seam_nil (k := k) (by simp [seam, hc])
  have hsolid : Solid k.closing ∧ Solid k.opening :=
    ⟨solid_of_visible (by cases k <;> simp [TagKind.closing]) fun c hc => (hclosing c hc).1,
      solid_of_visible (by cases k <;> simp [TagKind.opening]) fun c hc => (hopening c hc).1⟩
  -- the cells of the two delimiters and of the gap between them
  obtain ⟨xs, ws, ys, rfl, hws⟩ := h.spaced.exists_part (hsolid.1.append hsolid.2 gap) hk
  have hspaced : Relaid.Spaced ws := h.spaced.of_subset (by simp_all)
  obtain ⟨front, os, rfl, hfront, hos⟩ := hspaced.exists_split hws (.inr hsolid.2.isBlank_head)
  have hspaced' : Relaid.Spaced front := hspaced.of_subset (by simp_all)
  obtain ⟨cs, gs, rfl, hcs, hgs⟩ := hspaced'.exists_split hfront (.inl hsolid.1.isBlank_getLast)
  have hsrc : src cs = k.closing ∧ src os = k.opening := by
    rw [← hcs, ← hos]
    rw [← hcs] at hclosing
    rw [← hos] at hopening
    exact ⟨Relaid.Spaced.src_eq (hspaced.of_subset (by simp_all)) hclosing,
      Relaid.Spaced.src_eq (hspaced.of_subset (by simp_all)) hopening⟩
  rw [← hgs] at hgap
  refine ht k (src gs) (Relaid.Spaced.isBlank_src (hspaced.of_subset (by simp_all)) hgap) ?_
  exact ⟨src xs, src ys, by simp [seam, hsrc.1, hsrc.2]⟩

theorem TagsApart.relays {u : Text} (ht : TagsApart t) (h : Relays t u) : TagsApart u := by
  induction h with
  | refl t => exact ht
  | trim _ _ _ ih => exact ih (ht.of_isInfix ⟨_, _, rfl⟩)
  | step hfit _ ih => exact ih (ht.relaid hfit)

end Reflow.Tag
