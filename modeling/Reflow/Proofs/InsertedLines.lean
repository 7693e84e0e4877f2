import Reflow.Proofs.TagSpacing

/-!
The empty lines between tags and block content.

There is never more than one between two lines, since the two kinds of line are disjoint
(`not_isContent_of_isTagOnly`): the first visible character of a tag is a brace or an angle bracket,
which starts neither a list item nor a table row. There is never one too many either
(`length_spaceLines_le`).
-/

open List

namespace Reflow.Tag

open Text

/-! ## Where a tag meets block content -/

theorem exists_cons_of_opens {t : Text} (h : opens t) :
    ∃ c cs, (c = '{' ∨ c = '<') ∧ t = c :: cs := by
  obtain ⟨k, _, hk⟩ := any_eq_true.1 h
  obtain ⟨rest, rfl⟩ := isPrefixOf_iff_prefix.1 hk
  cases k with
  | statement | comment | expression => exact ⟨'{', _, .inl rfl, rfl⟩
  | htmlComment => exact ⟨'<', _, .inr rfl, rfl⟩

theorem not_isContent_of_isTagOnly {l : Text} (h : isTagOnly l) : Block.isContent l = false := by
  have hopens : opens (strip l) := by
    simp only [isTagOnly, Bool.and_eq_true] at h
    exact h.1.2
  obtain ⟨c, cs, hc, hstrip⟩ := exists_cons_of_opens hopens
  obtain ⟨g, _, hg⟩ := exists_stripRight (stripLeft l)
  have hleft : stripLeft l = c :: (cs ++ g) := by
    rw [hg, ← strip, hstrip, cons_append]
  rw [Block.isContent, Block.isTableRow, Block.isListItem, hleft]
  rcases hc with rfl | rfl <;> rfl

/-- A tag line and block content, in either order. -/
def Meets (l m : Text) : Prop :=
  (isTagOnly l = true ∧ Block.isContent m = true) ∨
    (Block.isContent l = true ∧ isTagOnly m = true)

instance (l m : Text) : Decidable (Meets l m) := inferInstanceAs (Decidable (_ ∨ _))

theorem needsSpace_iff {l m : Text} : needsSpace l m ↔ Meets l m := by
  simp [needsSpace, Meets]

theorem spaced_iff {ls : List Text} : Spaced ls ↔ ls.IsChain fun l m => ¬ Meets l m := by
  have hrel : (fun l m => needsSpace l m = false) = fun l m => ¬ Meets l m := by
    funext l m
    rw [← needsSpace_iff, Bool.not_eq_true]
  rw [Spaced, hrel]

/-! ## The lines that are put in -/

theorem spaceAfter_eq_flatMap (p : Text) (ls : List Text) :
    spaceAfter p ls
      = ((p :: ls).zip ls).flatMap fun q => if Meets q.1 q.2 then [[], q.2] else [q.2] := by
  induction ls generalizing p with
  | nil => rfl
  | cons l ls ih =>
    rw [spaceAfter, zip_cons_cons, flatMap_cons, ← ih l]
    by_cases h : Meets p l
    · rw [if_pos h, if_pos (needsSpace_iff.2 h)]
      rfl
    · rw [if_neg h, if_neg fun hneeds => h (needsSpace_iff.1 hneeds)]
      rfl

theorem spaceLines_eq_flatMap (ls : List Text) :
    spaceLines ls
      = ls.take 1 ++ (ls.zip ls.tail).flatMap fun q => if Meets q.1 q.2 then [[], q.2] else [q.2] := by
  cases ls with
  | nil => rfl
  | cons l ls => rw [spaceLines, spaceAfter_eq_flatMap]; rfl

/-- **Fewest lines.** Lines that hold those of a text in order, and in which no tag is next to block
content, are at least as many as the spaced lines. -/
theorem length_spaceLines_le {ls ms : List Text} (hsub : ls.Sublist ms) (hms : Spaced ms) :
    (spaceLines ls).length ≤ ms.length := by
  -- The induction drops lines from the front of `ms`: one that is not of the text, or one that is;
  -- after a meeting the next line of `ms` is not of the text either, so two go at once.
  induction hn : ms.length using Nat.strong_induction_on generalizing ls ms with
  | _ n ih =>
    cases hsub with
    | slnil => simp [spaceLines]
    | cons m hsub =>
      have hrest := ih _ (by simp [← hn]) hsub (IsChain.tail hms) rfl
      simp only [length_cons] at hn
      omega
    | @cons_cons ls ms p hsub =>
      cases ls with
      | nil => simp [spaceLines, spaceAfter, ← hn]
      | cons l ls =>
        cases ms with
        | nil => cases hsub
        | cons m ms =>
          obtain ⟨hapart, hms⟩ := isChain_cons_cons.1 hms
          simp only [length_cons] at hn
          rw [spaceLines, spaceAfter]
          split
          · rename_i hneeds
            have hsub' : (l :: ls).Sublist ms := by
              cases hsub with
              | cons _ h => exact h
              | cons_cons _ h => exact absurd hneeds (by rw [hapart]; exact Bool.false_ne_true)
            have hrest := ih ms.length (by omega) hsub' (IsChain.tail hms) rfl
            rw [spaceLines] at hrest
            simp only [length_cons] at hrest ⊢
            omega
          · have hrest := ih (m :: ms).length (by simp only [length_cons]; omega) hsub hms rfl
            rw [spaceLines] at hrest
            simp only [length_cons] at hrest ⊢
            omega

theorem spaceBlocks_eq_self_iff (t : Text) : spaceBlocks t = t ↔ Spaced (lines t) := by
  rw [← spaceLines_eq_self_iff]
  constructor
  · intro h
    rw [← lines_spaceBlocks, h]
  · intro h
    rw [spaceBlocks, h, unlines_lines]

/-- **Empty lines exactly where they are needed.** No line is both a tag and block content. The
lines of a spaced text are those of the text, each with one empty line before it if it and the line
before it are a tag and block content. No tag line of the result is next to block content, no text
of which that is true and which has the lines of the given one in order has fewer lines, and exactly
the texts of which it is true are left alone, the result itself being one of them. -/
theorem blank_lines_where_tags_meet_blocks (t : Text) :
    (∀ l : Text, ¬ (isTagOnly l = true ∧ Block.isContent l = true)) ∧
      lines (spaceBlocks t) = (lines t).take 1 ++
        ((lines t).zip (lines t).tail).flatMap
          (fun q => if Meets q.1 q.2 then [[], q.2] else [q.2]) ∧
      (lines (spaceBlocks t)).IsChain (fun l m => ¬ Meets l m) ∧
      (∀ u : Text, (lines t).Sublist (lines u) → (lines u).IsChain (fun l m => ¬ Meets l m) →
        (lines (spaceBlocks t)).length ≤ (lines u).length) ∧
      (spaceBlocks t = t ↔ (lines t).IsChain fun l m => ¬ Meets l m) ∧
      spaceBlocks (spaceBlocks t) = spaceBlocks t := by
  have hspaced : Spaced (lines (spaceBlocks t)) := by
    rw [lines_spaceBlocks]
    exact spaced_spaceLines _
  refine ⟨?_, ?_, spaced_iff.1 hspaced, ?_, ?_, (spaceBlocks_eq_self_iff _).2 hspaced⟩
  · rintro l ⟨htag, hcontent⟩
    rw [not_isContent_of_isTagOnly htag] at hcontent
    exact Bool.false_ne_true hcontent
  · rw [lines_spaceBlocks, spaceLines_eq_flatMap]
  · intro u hsub hu
    rw [lines_spaceBlocks]
    exact length_spaceLines_le hsub (spaced_iff.2 hu)
  · rw [spaceBlocks_eq_self_iff, spaced_iff]

/-- A list between two tags gets an empty line on either side, as many as any way to set it off. -/
theorem list_between_tags_spaced :
    spaceBlocks "\x7b% a %\x7d\n- b\n\x7b% /a %\x7d".toList
        = "\x7b% a %\x7d\n\n- b\n\n\x7b% /a %\x7d".toList ∧
      (lines (spaceBlocks "\x7b% a %\x7d\n- b\n\x7b% /a %\x7d".toList)).length
        ≤ (lines "\x7b% a %\x7d\nx\n- b\ny\n\x7b% /a %\x7d".toList).length :=
  ⟨by decide +kernel,
    (blank_lines_where_tags_meet_blocks _).2.2.2.1 _ (by decide +kernel) (by decide +kernel)⟩

end Reflow.Tag
