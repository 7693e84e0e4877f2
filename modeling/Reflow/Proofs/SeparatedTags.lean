import Reflow.Proofs.Seams

/-!
Separating tags and rejoining them.

A spaced seam of a separated text has its space either from the text itself, or from a seam that was
separated. In the second case two closing delimiters end at that space, and since no closing
delimiter ends with a shorter one, the two seams are the same seam (`space_of_reseamed`). So
`rejoin` finds the places that `separate` chose, and no others.
-/

open List

namespace Reflow.Tag

/-! ## What the separated text shows of the text -/

theorem space_not_mem {w : Text} (hw : ∀ c ∈ w, isBlank c = false) : ' ' ∉ w := by
  intro h
  have := hw ' ' h
  simp at this

/-- A visible start of the separated text is a start of the text: spaces put in come later. -/
theorem prefix_of_reseamed {s t w : Text} (h : Reseamed [] [' '] s t)
    (hw : ∀ c ∈ w, isBlank c = false) (hp : w <+: t) : w <+: s := by
  induction h generalizing w with
  | nil => exact hp
  | @seam k s t _ ih =>
    have hclosing : w <+: k.closing := by
      refine prefix_of_not_mem (space_not_mem hw) (b := k.opening ++ t) ?_
      simpa [seam] using hp
    exact hclosing.trans ⟨k.opening ++ s, by simp [seam]⟩
  | @char c s t _ _ ih =>
    cases w with
    | nil => exact nil_prefix
    | cons d w =>
      rw [cons_prefix_cons] at hp ⊢
      exact ⟨hp.1, ih (fun x hx => hw x (by simp [hx])) hp.2⟩

/-- **Where a space of the separated text comes from.** Between visible texts it stands in the text
as well, or it was put in after a closing delimiter. -/
theorem space_of_reseamed {s t v w : Text} (h : Reseamed [] [' '] s t)
    (hv : ∀ c ∈ v, isBlank c = false) (hw : ∀ c ∈ w, isBlank c = false) (hp : v ++ ' ' :: w <+: t) :
    v ++ ' ' :: w <+: s ∨ ∃ k : TagKind, k.closing <:+ v := by
  induction h generalizing v with
  | nil => simp at hp
  | @seam k s t _ _ =>
    -- both `v` and the closing delimiter reach up to the first space
    obtain ⟨rest, hrest⟩ := hp
    have hv' : v <+: k.closing := by
      refine prefix_of_not_mem (space_not_mem hv) (b := k.opening ++ t) ⟨' ' :: w ++ rest, ?_⟩
      simpa [seam] using hrest
    have hclosing : k.closing <+: v := by
      refine prefix_of_not_mem (space_not_mem fun _ => isBlank_of_mem_closing)
        (b := w ++ rest) ⟨' ' :: k.opening ++ t, ?_⟩
      simpa [seam] using hrest.symm
    have heq : k.closing = v := hclosing.eq_of_length_le hv'.length_le
    exact .inr ⟨k, heq ▸ suffix_rfl⟩
  | @char c s t _ hst ih =>
    cases v with
    | nil =>
      rw [nil_append, cons_prefix_cons] at hp
      refine .inl ?_
      rw [nil_append, cons_prefix_cons]
      exact ⟨hp.1, prefix_of_reseamed hst hw hp.2⟩
    | cons d v =>
      rw [cons_append, cons_prefix_cons] at hp
      rcases ih (fun x hx => hv x (by simp [hx])) hp.2 with hs | ⟨k, hk⟩
      · refine .inl ?_
        rw [cons_append, cons_prefix_cons]
        exact ⟨hp.1, hs⟩
      · exact .inr ⟨k, hk.trans (suffix_cons d v)⟩

theorem not_closing_suffix_tail (k k' : TagKind) : ¬ k'.closing <:+ k.closing.tail := by
  cases k <;> cases k' <;> decide

/-! ## The way back -/

theorem Reseamed.converse {s t : Text} (h : Reseamed [] [' '] s t)
    (hs : ∀ k, ¬ Tag.seam [' '] k <:+: s) : Reseamed [' '] [] t s := by
  induction h with
  | nil => exact .nil
  | @seam k s t _ ih =>
    exact .seam k (ih fun j hj => hs j (hj.trans (suffix_append _ s).isInfix))
  | @char c s t _ hst ih =>
    refine .char (seamKind?_eq_none_iff.2 fun k hk => ?_)
      (ih fun j hj => hs j (hj.trans (suffix_cons c s).isInfix))
    -- no seam was separated at `c`, so a spaced seam here begins with a character of the text
    obtain ⟨d, v, hdv⟩ : ∃ d v, k.closing = d :: v := by cases k <;> exact ⟨_, _, rfl⟩
    have hseam : Tag.seam [' '] k = d :: (v ++ ' ' :: k.opening) := by simp [Tag.seam, hdv]
    have hv : ∀ x ∈ v, isBlank x = false := by
      intro x hx
      exact isBlank_of_mem_closing (k := k) (by simp [hdv, hx])
    rw [hseam, cons_prefix_cons] at hk
    rcases space_of_reseamed hst hv (fun _ => isBlank_of_mem_opening) hk.2 with hin | ⟨k', hk'⟩
    · refine hs k (IsPrefix.isInfix ?_)
      rw [hseam, cons_prefix_cons]
      exact ⟨hk.1, hin⟩
    · refine not_closing_suffix_tail k k' ?_
      rwa [hdv, tail_cons]

theorem separate_seam (k : TagKind) (t : Text) :
    separate (k.closing ++ k.opening ++ t) = k.closing ++ [' '] ++ k.opening ++ separate t := by
  have h := Reseamed.seam k (reseamed_apply [] [' '] t)
  rw [seam, append_nil] at h
  exact (reseamed_apply [] [' '] _).unique h

/-- **Separated tags are rejoined.** If no closing delimiter of the text is followed by exactly one
space and an opening delimiter of the same kind, then taking the spaces at seams out again gives the
text back; and where the text begins with a seam a space was put in. -/
theorem rejoin_separate {t : Text}
    (h : ∀ k : TagKind, ¬ (k.closing ++ [' '] ++ k.opening) <:+: t) :
    rejoin (separate t) = t ∧ ∀ (k : TagKind) (rest : Text), t = k.closing ++ k.opening ++ rest →
      separate t = k.closing ++ [' '] ++ k.opening ++ separate rest := by
  refine ⟨?_, fun k rest ht => by rw [ht, separate_seam]⟩
  exact (reseamed_apply [' '] [] (separate t)).unique ((reseamed_apply [] [' '] t).converse h)

/-- Seams that overlap, of two kinds, and a seam with two spaces. -/
theorem rejoin_separate_overlapping :
    let t := "%\x7d\x7b%\x7d\x7b%--><!--><!--#\x7d  \x7b#".toList
    (∀ k : TagKind, ¬ (k.closing ++ [' '] ++ k.opening) <:+: t) ∧
      separate t = "%\x7d \x7b%\x7d\x7b%--> <!--><!--#\x7d  \x7b#".toList ∧
      rejoin (separate t) = t := by
  intro t
  have h : ∀ k : TagKind, ¬ (k.closing ++ [' '] ++ k.opening) <:+: t := by
    intro k
    cases k <;> decide +kernel
  exact ⟨h, by decide +kernel, (rejoin_separate h).1⟩

end Reflow.Tag
