import Reflow.Proofs.FrontMatterBlocks

/-!
Front matter, and the text that it is cut from.

A text is cut into lines at line breaks of every kind, and the lines are joined by line feeds. So
where the text has no carriage returns, the block and the content are stretches of it with a line
feed in the place of every line break (`fed`): characters are replaced in them, and just those that
end a line without being a line feed. Where there is no such character both are found in the text as
they stand.
-/

open List

namespace Reflow

namespace Text

variable {t : Text}

/-- A line feed in the place of a line break. -/
def feed (c : Char) : Char := if isLineBreak c then '\n' else c

/-- The text with a line feed in the place of every line break. -/
def fed (t : Text) : Text := t.map feed

/-- The text is one line break, or nothing. -/
def IsBreak (t : Text) : Prop := t = [] ∨ ∃ d, t = [d] ∧ isLineBreak d = true

/-- No line break but line feeds. -/
def OnlyFeeds (t : Text) : Prop := ∀ c ∈ t, isLineBreak c = true → c = '\n'

theorem fed_eq_self_iff : fed t = t ↔ OnlyFeeds t := by
  have hself : ∀ c, feed c = c ↔ (isLineBreak c → c = '\n') := by
    intro c
    by_cases hc : isLineBreak c <;> simp [feed, hc, eq_comm]
  have hid : fed t = t ↔ t.map feed = t.map id := by rw [fed, map_id]
  rw [hid, map_inj_left]
  exact forall₂_congr fun c _ => hself c

theorem onlyFeeds_of_not_isLineBreak (h : ∀ c ∈ t, isLineBreak c = false) :
    OnlyFeeds t := fun c hc hbreak => by simp [h c hc] at hbreak

/-! ## Lines and the text that they are cut from -/

theorem splitLines_eq_cons {t l : Text} {ls : List Text} (hreturn : '\r' ∉ t)
    (h : splitLines t = l :: ls) :
    (t = l ∧ ls = []) ∨ ∃ d r, t = l ++ d :: r ∧ isLineBreak d = true ∧ splitLines r = ls := by
  induction t generalizing l with
  | nil => cases h
  | cons c t ih =>
    rw [mem_cons, not_or] at hreturn
    rw [splitLines.eq_3 _ _ (fun _ hc _ => hreturn.1 hc.symm)] at h
    split at h
    · next hbreak =>
      cases h
      exact .inr ⟨c, t, rfl, hbreak, rfl⟩
    · split at h
      · next hnil =>
        cases h
        obtain rfl : t = [] := by
          by_contra hne
          exact Document.splitLines_ne_nil hne hnil
        exact .inl ⟨rfl, rfl⟩
      · next line rest hlines =>
        cases h
        rcases ih hreturn.2 hlines with ⟨rfl, rfl⟩ | ⟨d, r, rfl, hbreak, hrest⟩
        · exact .inl ⟨rfl, rfl⟩
        · exact .inr ⟨d, r, rfl, hbreak, hrest⟩

/-- Where lines are cut in two, so is the text, at a line break or at its end. -/
theorem exists_cut_of_splitLines {xs : List Text} (hxs : xs ≠ []) {ys : List Text}
    (hreturn : '\r' ∉ t) (h : splitLines t = xs ++ ys) :
    ∃ a e b, t = a ++ e ++ b ∧ fed a = unlines xs ∧ IsBreak e ∧ (e = [] → b = []) ∧
      splitLines b = ys := by
  induction xs generalizing t with
  | nil => exact absurd rfl hxs
  | cons x xs ih =>
    have hx : fed x = x := by
      refine fed_eq_self_iff.2 (onlyFeeds_of_not_isLineBreak ?_)
      exact Document.not_isLineBreak_of_mem_splitLines (t := t) (by simp [h])
    rcases splitLines_eq_cons hreturn h with ⟨rfl, hnil⟩ | ⟨d, r, rfl, hbreak, hrest⟩
    · obtain ⟨rfl, rfl⟩ := append_eq_nil_iff.1 hnil
      exact ⟨t, [], [], by simp, hx, .inl rfl, fun _ => rfl, rfl⟩
    · by_cases hmore : xs = []
      · subst hmore
        exact ⟨x, [d], r, by simp, hx, .inr ⟨d, rfl, hbreak⟩, by simp, hrest⟩
      · have hr : '\r' ∉ r := fun hr => hreturn (by simp [hr])
        obtain ⟨a, e, b, rfl, ha, he, hend, hb⟩ := ih hmore hr hrest
        refine ⟨x ++ d :: a, e, b, by simp, ?_, he, hend, hb⟩
        have hd : feed d = '\n' := if_pos hbreak
        rw [unlines_cons hmore, ← ha]
        calc fed (x ++ d :: a) = fed x ++ feed d :: fed a := map_append ..
          _ = x ++ '\n' :: fed a := by rw [hx, hd]

end Text

open Text

namespace FrontMatter

/-- A text cut into blank lines, front matter, content, and line breaks after the last two. -/
structure Cut (t lead yaml gap body tail : Text) : Prop where
  text_eq : t = lead ++ yaml ++ gap ++ body ++ tail
  blank : ∀ c ∈ lead, isBlank c = true
  gap : IsBreak gap
  tail : IsBreak tail
  block_eq : (split t).block = fed yaml ++ ['\n']
  content_eq : (split t).content = fed body

theorem isBlank_of_fed_eq_unlines {ls : List Text} (hls : ∀ l ∈ ls, isBlankText l = true) {a : Text}
    (h : fed a = unlines ls) {c : Char} (hc : c ∈ a) : isBlank c = true := by
  by_cases hbreak : isLineBreak c
  · exact isBlank_of_isLineBreak hbreak
  · have hself : feed c = c := if_neg hbreak
    have hmem : c ∈ unlines ls := by
      rw [← h, ← hself]
      exact mem_map_of_mem hc
    rcases mem_joinWith hmem with hmem | ⟨l, hl, hmem⟩
    · rw [mem_singleton.1 hmem]
      exact isBlank_newline
    · exact all_eq_true.1 (hls l hl) c hmem

theorem exists_fed_eq_unlines {t : Text} (hreturn : '\r' ∉ t) :
    ∃ a e, t = a ++ e ∧ fed a = unlines (splitLines t) ∧ IsBreak e := by
  by_cases hnil : splitLines t = []
  · obtain rfl : t = [] := by
      by_contra hne
      exact Document.splitLines_ne_nil hne hnil
    exact ⟨[], [], rfl, rfl, .inl rfl⟩
  · obtain ⟨a, e, b, hcut, ha, he, -, hb⟩ :=
      exists_cut_of_splitLines hnil hreturn (append_nil _).symm
    obtain rfl : b = [] := by
      by_contra hne
      exact Document.splitLines_ne_nil hne hb
    exact ⟨a, e, by simpa using hcut, ha, he⟩

theorem IsClosed.exists_cut {t : Text} (h : IsClosed t) (hreturn : '\r' ∉ t) :
    ∃ lead yaml gap body tail, Cut t lead yaml gap body tail := by
  obtain ⟨blanks, block, rest, hframed⟩ := h.exists_framed
  have hlines := hframed.lines_eq
  rw [append_assoc] at hlines
  obtain ⟨lead, u, hlead, hblank, hu⟩ : ∃ lead u, t = lead ++ u ∧
      (∀ c ∈ lead, isBlank c = true) ∧ splitLines u = block ++ rest := by
    by_cases hnone : blanks = []
    · exact ⟨[], t, rfl, by simp, by simpa [hnone] using hlines⟩
    · obtain ⟨a, e, b, hcut, ha, he, -, hb⟩ := exists_cut_of_splitLines hnone hreturn hlines
      refine ⟨a ++ e, b, hcut, fun c hc => ?_, hb⟩
      rcases mem_append.1 hc with hc | hc
      · exact isBlank_of_fed_eq_unlines hframed.blank ha hc
      · rcases he with rfl | ⟨d, rfl, hbreak⟩
        · cases hc
        · rw [mem_singleton.1 hc]
          exact isBlank_of_isLineBreak hbreak
  have hreturn' : '\r' ∉ u := fun hr => hreturn (by simp [hlead, hr])
  obtain ⟨yaml, gap, v, hyaml, hblock, hgap, -, hv⟩ :=
    exists_cut_of_splitLines hframed.block_ne_nil hreturn' hu
  have hreturn'' : '\r' ∉ v := fun hr => hreturn' (by simp [hyaml, hr])
  obtain ⟨body, tail, hbody, hcontent, htail⟩ := exists_fed_eq_unlines hreturn''
  refine ⟨lead, yaml, gap, body, tail, ⟨?_, hblank, hgap, htail, ?_, ?_⟩⟩
  · rw [hlead, hyaml, hbody]
    simp
  · rw [hframed.split_eq, hblock]
  · rw [hframed.split_eq, hcontent, hv]

/-- **Which characters of front matter and content are replaced.** A text without carriage returns
that has closed front matter is cut into blank lines, the front matter, and the content. The block and
the content are these two stretches of the text with a line feed in the place of every line break. So
each of them is what it was in the text if and only if it has no line break but line feeds, and is
then found in the text. -/
theorem front_matter_in_text_iff {t : Text} (h : IsClosed t) (hreturn : '\r' ∉ t) :
    ∃ lead yaml gap body tail, Cut t lead yaml gap body tail ∧
      ((split t).block = yaml ++ ['\n'] ↔ OnlyFeeds yaml) ∧
      ((split t).content = body ↔ OnlyFeeds body) ∧
      (OnlyFeeds yaml → (split t).block.dropLast <:+: t) ∧
      (OnlyFeeds body → (split t).content <:+: t) := by
  obtain ⟨lead, yaml, gap, body, tail, hcut⟩ := h.exists_cut hreturn
  refine ⟨lead, yaml, gap, body, tail, hcut, ?_, ?_, fun hyaml => ?_, fun hbody => ?_⟩
  · rw [hcut.block_eq, append_cancel_right_eq, fed_eq_self_iff]
  · rw [hcut.content_eq, fed_eq_self_iff]
  · rw [hcut.block_eq, dropLast_concat, fed_eq_self_iff.2 hyaml]
    exact ⟨lead, gap ++ body ++ tail, by rw [hcut.text_eq]; simp⟩
  · rw [hcut.content_eq, fed_eq_self_iff.2 hbody]
    exact ⟨lead ++ yaml ++ gap, tail, by rw [hcut.text_eq]⟩

/-- Blank lines before the front matter, and a form feed in the content. -/
theorem front_matter_before_form_feed :
    let t := "\n \n---\na: 1\n---\nb\x0cc\n".toList
    IsClosed t ∧ '\r' ∉ t ∧ (split t).block = "---\na: 1\n---\n".toList ∧
      (split t).content = "b\nc".toList ∧
      ∃ lead yaml gap body tail, Cut t lead yaml gap body tail ∧
        ((split t).content = body ↔ OnlyFeeds body) := by
  intro t
  have hclosed : IsClosed t :=
    ⟨["a: 1".toList, "---".toList, "b".toList, "c".toList], by decide +kernel, "---".toList,
      by decide +kernel, by decide +kernel⟩
  have hreturn : '\r' ∉ t := by decide +kernel
  obtain ⟨lead, yaml, gap, body, tail, hcut, -, hcontent, -⟩ :=
    front_matter_in_text_iff hclosed hreturn
  exact ⟨hclosed, hreturn, by decide +kernel, by decide +kernel, lead, yaml, gap, body, tail, hcut,
    hcontent⟩

/-- A line separator inside a value becomes a line feed, and the block is not in the text. -/
theorem line_separator_in_front_matter_replaced :
    let t := "---\ntitle: a\u2028b\n---\nc".toList
    IsClosed t ∧ '\r' ∉ t ∧ (split t).block = "---\ntitle: a\nb\n---\n".toList ∧
      ¬ (split t).block.dropLast <:+: t := by
  intro t
  have hclosed : IsClosed t :=
    ⟨["title: a".toList, "b".toList, "---".toList, "c".toList], by decide +kernel, "---".toList,
      by decide +kernel, by decide +kernel⟩
  exact ⟨hclosed, by decide +kernel⟩

end FrontMatter

end Reflow
