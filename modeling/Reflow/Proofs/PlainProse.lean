import Reflow.Proofs.ClosingTags
import Reflow.Proofs.TouchingTags

/-!
Plain prose.

A text that holds no delimiter of a tag, no pipe and no backslash in front of a blank is one
segment, and wrapping treats it as one paragraph (`Untagged.segments_eq`). A layout of such a text
is such a text again (`Plain.relays`), and it has no hard breaks if its lines end in visible
characters (`Plain.hardSegments_eq`). So a second pass sees it as the first did.
-/

open List hiding splitOn splitOn_ne_nil find?

namespace Reflow.Text

theorem exists_line_of_newline {a b : Text} {c : Char} (hc : c ≠ '\n') :
    ∃ l ∈ lines (a ++ c :: '\n' :: b), l.getLast? = some c := by
  have hlines : lines (a ++ c :: '\n' :: b) = lines (a ++ [c]) ++ lines b := by
    rw [lines, lines, lines, ← splitOn_append]
    simp
  obtain ⟨init, l, hl⟩ := (eq_nil_or_concat' (lines (a ++ [c]))).resolve_left
    (splitOn_ne_nil '\n' _)
  have htext : unlines (init ++ [l]) = a ++ [c] := by rw [← hl, unlines_lines]
  refine ⟨l, by simp [hlines, hl], ?_⟩
  have hlast : (unlines (init ++ [l])).getLast? = some c := by simp [htext]
  by_cases hinit : init = []
  · subst hinit
    exact hlast
  · have hjoin : unlines (init ++ [l]) = unlines init ++ ['\n'] ++ l :=
      joinWith_append hinit (by simp)
    rw [hjoin, getLast?_append, getLast?_append] at hlast
    cases hlast' : l.getLast? with
    | some d =>
      rw [hlast'] at hlast
      exact hlast
    | none =>
      rw [hlast'] at hlast
      exact absurd (Option.some.inj hlast).symm hc

theorem isInfix_unlines {ls : List Text} {l : Text} (hl : l ∈ ls) : l <:+: unlines ls := by
  obtain ⟨xs, ys, rfl⟩ := append_of_mem hl
  have hpart : l <:+: unlines (xs ++ [l] ++ ys) := joinWith_isInfix ['\n'] xs [l] ys
  simpa using hpart

theorem isInfix_of_mem_lines {t l : Text} (hl : l ∈ lines t) : l <:+: t := by
  simpa only [unlines_lines] using isInfix_unlines hl

end Reflow.Text

namespace Reflow.Wrap

open Text Tag Relaid

theorem breakClosings_eq_self {t : Text}
    (h : ∀ l ∈ lines t, ∀ before closing, cutAtClosing? l ≠ some (before, closing)) :
    breakClosings t = t := by
  have hline : ∀ l ∈ lines t, breakClosing l = [l] := by
    intro l hl
    unfold breakClosing
    split
    · rfl
    · split
      · next before closing hcut => exact absurd hcut (h l hl before closing)
      · rfl
  obtain ⟨first, rest, hlines⟩ := exists_cons_of_ne_nil (splitOn_ne_nil '\n' t)
  have hlines : lines t = first :: rest := hlines
  rw [breakClosings, hlines]
  show unlines (first :: rest.flatMap breakClosing) = t
  rw [flatMap_congr (g := fun l => [l]) fun l hl => hline l (by simp [hlines, hl])]
  simp only [flatMap_singleton']
  rw [← hlines, unlines_lines]

/-! ## Texts without tags and table rows -/

/-- There is no delimiter of a tag and no pipe in the text. -/
structure Untagged (t : Text) : Prop where
  opening : ∀ k : TagKind, ¬ k.opening <:+: t
  closing : ∀ k : TagKind, ¬ k.closing <:+: t
  pipe : '|' ∉ t

instance (t : Text) : Decidable (Untagged t) :=
  decidable_of_iff
    ((∀ k ∈ TagKind.all, ¬ TagKind.opening k <:+: t ∧ ¬ k.closing <:+: t) ∧ '|' ∉ t)
    ⟨fun h => ⟨fun k => (h.1 k (mem_all k)).1, fun k => (h.1 k (mem_all k)).2, h.2⟩,
      fun h => ⟨fun k _ => ⟨h.opening k, h.closing k⟩, h.pipe⟩⟩

theorem TagKind.isBlank_of_mem_delimiter {k : TagKind} {c : Char}
    (hc : c ∈ k.closing ∨ c ∈ k.opening) : isBlank c = false ∧ c ≠ '\\' :=
  isBlank_of_mem_seam_nil (k := k) (by simpa [seam] using hc)

namespace Untagged

variable {t : Text} (h : Untagged t)
include h

theorem of_isInfix {s : Text} (hs : s <:+: t) : Untagged s :=
  ⟨fun k hk => h.opening k (hk.trans hs), fun k hk => h.closing k (hk.trans hs),
    fun hmem => h.pipe (hs.subset hmem)⟩

theorem relays {u : Text} (hu : Relays t u) : Untagged u := by
  refine ⟨fun k hk => h.opening k (hu.isInfix ?_ hk), fun k hk => h.closing k (hu.isInfix ?_ hk),
    fun hmem => h.pipe ?_⟩
  · exact fun c hc => TagKind.isBlank_of_mem_delimiter (.inr hc)
  · exact fun c hc => TagKind.isBlank_of_mem_delimiter (.inl hc)
  · have hpart : ['|'] <:+: u := by
      obtain ⟨a, b, rfl⟩ := append_of_mem hmem
      exact ⟨a, b, by simp⟩
    have hpipe : ∀ c ∈ ['|'], isBlank c = false ∧ c ≠ '\\' := by
      intro c hc
      obtain rfl : c = '|' := by simpa using hc
      decide
    exact (hu.isInfix hpipe hpart).subset (by simp)

theorem tagsApart : TagsApart t := by
  intro k gap _ hk
  refine h.closing k (IsInfix.trans ?_ hk)
  rw [seam, append_assoc]
  exact (prefix_append _ _).isInfix

theorem startsLine_eq : startsLine t = false := by
  by_contra hstarts
  obtain ⟨k, _, hpre⟩ := any_eq_true.1 (by simpa using hstarts : startsLine t)
  rw [startsWith, isPrefixOf_iff_prefix] at hpre
  exact h.opening k (hpre.isInfix.trans (dropWhile_suffix isBlank).isInfix)

theorem endsLine_eq : endsLine t = false := by
  by_contra hends
  obtain ⟨k, _, hsuf⟩ := any_eq_true.1 (by simpa using hends : endsLine t)
  rw [endsWith, isSuffixOf_iff_suffix] at hsuf
  obtain ⟨g, _, hstrip⟩ := exists_stripRight t
  have hpart : stripRight t <+: t := ⟨g, hstrip.symm⟩
  exact h.closing k (hsuf.isInfix.trans hpart.isInfix)

theorem isTableRow_eq : Block.isTableRow t = false := by
  by_contra hrow
  have hpre : ['|'] <+: stripLeft t := by
    simpa [Block.isTableRow, startsWith] using hrow
  exact h.pipe ((dropWhile_suffix isBlank).subset (hpre.subset (by simp)))

theorem of_mem_lines {l : Text} (hl : l ∈ lines t) : Untagged l :=
  h.of_isInfix (isInfix_of_mem_lines hl)

theorem segments_eq : segments (lines t) = [lines t] := by
  have hnone : ∀ l ∈ lines t, startsLine l = false ∧ endsLine l = false ∧
      Block.isTableRow l = false := fun l hl =>
    have hl := h.of_mem_lines hl
    ⟨hl.startsLine_eq, hl.endsLine_eq, hl.isTableRow_eq⟩
  have htags : hasTags (lines t) = false := by
    rw [hasTags, any_eq_false]
    intro l hl
    simp [(hnone l hl).1, (hnone l hl).2.1]
  have hfrom : ∀ (current : List Text) (previous : Text) (ls : List Text), previous ∈ lines t →
      (∀ l ∈ ls, l ∈ lines t) → segmentsFrom false current previous ls = [current ++ ls] := by
    intro current previous ls hprevious hls
    induction ls generalizing current previous with
    | nil => simp [segmentsFrom]
    | cons l ls ih =>
      have hl : l ∈ lines t := hls l (by simp)
      have hboundary : isBoundary false previous l = false := by
        simp [isBoundary, startsUnindented, (hnone l hl).1, (hnone l hl).2.2,
          (hnone previous hprevious).2.1, (hnone previous hprevious).2.2]
      rw [segmentsFrom, hboundary, if_neg (by simp), ih _ l hl fun m hm => hls m (by simp [hm])]
      simp
  obtain ⟨first, rest, hlines⟩ := exists_cons_of_ne_nil (splitOn_ne_nil '\n' t)
  have hlines : lines t = first :: rest := hlines
  have hsegments : segments (lines t) = segmentsFrom (hasTags (lines t)) [first] first rest := by
    rw [hlines]
    rfl
  rw [hsegments, htags, hfrom [first] first rest (by simp [hlines]) (by simp +contextual [hlines]),
    hlines]
  rfl

theorem isMultilineComment_eq : isMultilineComment t = false := by
  by_contra hcomment
  unfold isMultilineComment at hcomment
  simp only [Bool.not_eq_false, Bool.and_eq_true] at hcomment
  have hpre := hcomment.1.2
  rw [startsWith, isPrefixOf_iff_prefix] at hpre
  obtain ⟨g, _, hstrip⟩ := exists_stripRight (stripLeft t)
  have hpart : strip t <+: stripLeft t := ⟨g, hstrip.symm⟩
  exact h.opening _
    (hpre.isInfix.trans (hpart.isInfix.trans (dropWhile_suffix isBlank).isInfix))

theorem breakClosings_eq : breakClosings t = t := by
  refine breakClosings_eq_self fun l hl before closing hcut => ?_
  have hl := h.of_mem_lines hl
  obtain ⟨k, front, g, u, rfl, _, _⟩ := exists_of_cutAtClosing? hcut
  rw [cutAtClosing?_eq_append hcut] at hl
  exact absurd ⟨front, g ++ closing, by simp⟩ (hl.closing k)

end Untagged

/-! ## Plain prose -/

/-- There is no tag, no table row and no hard break in the text, nor anything that could become
one when the text is laid out anew. -/
structure Plain (t : Text) : Prop extends Untagged t where
  escaping : Escaping t

instance (t : Text) : Decidable (Plain t) :=
  decidable_of_iff (Untagged t ∧ Escaping t) ⟨fun h => ⟨h.1, h.2⟩, fun h => ⟨h.1, h.2⟩⟩

theorem Plain.relays {t u : Text} (h : Plain t) (hu : Relays t u) : Plain u :=
  ⟨h.toUntagged.relays hu, h.escaping.relays hu⟩

theorem Plain.hardSegments_eq {t : Text} (h : Plain t) (hlines : ∀ l ∈ lines t, l = [] ∨ Solid l) :
    hardSegments t = [t] := by
  have hcut := hardCut_hardSegments t
  generalize hparts : hardSegments t = parts at hcut
  cases hcut with
  | last => rfl
  | @cut s sep rest parts hsep _ =>
    rcases hsep with rfl | rfl
    · exact absurd ⟨s, rest, rfl⟩ (h.escaping '\n' isBlank_newline)
    · have hspace : s ++ [' ', ' ', '\n'] ++ rest = (s ++ [' ']) ++ ' ' :: '\n' :: rest := by simp
      obtain ⟨l, hl, hlast⟩ := exists_line_of_newline (a := s ++ [' ']) (b := rest) (c := ' ')
        (by decide)
      rw [← hspace] at hl
      rcases hlines l hl with rfl | hsolid
      · simp at hlast
      · exact absurd (hsolid.isBlank_getLast ' ' hlast) (by simp)

end Reflow.Wrap
