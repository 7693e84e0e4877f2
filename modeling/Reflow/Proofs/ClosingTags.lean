import Mathlib.Data.List.Chain
import Reflow.Proofs.LineStarts

/-!
The passes over closing tags, made again.

Breaking lines at closing tags leaves none to break: of the two parts of a line the first ends
before the first closing tag, and the second starts with one (`breakClosings_breakClosings`).
Spacing them takes the indentation off every closing tag, which no later pass puts back
(`Unindented`), so spacing changes a text only where a closing tag follows block content
(`spaceClosings_eq_self`), and there it puts an empty line between (`isChain_spaceClosings`).
-/

open List hiding splitOn splitOn_ne_nil find?

namespace Reflow.Tag

open Text Recogniser

variable {t : Text} (k : TagKind)

/-! ## Lines broken at closing tags -/

/-- A seam in front of a closing tag, with the slash of the tag. -/
def wholeSeam (k : TagKind) : Recogniser :=
  sequence [exactly k.closing, many isBlank, exactly k.opening, many isBlank, exactly ['/']]

theorem isSome_closingSeam (t : Text) : (closingSeam k t).isSome = (wholeSeam k t).isSome := by
  rw [Bool.eq_iff_iff, Option.isSome_iff_exists, Option.isSome_iff_exists]
  unfold closingSeam wholeSeam
  constructor
  · rintro ⟨n, hn⟩
    simp only [Option.bind_eq_bind, Option.bind_eq_some_iff] at hn
    obtain ⟨gap, hgap, m, hm, _⟩ := hn
    obtain ⟨i, _, hi, hj, rfl⟩ := andThen_eq_some.1 hgap
    obtain ⟨j, _, hj, hnil, rfl⟩ := andThen_eq_some.1 hj
    obtain rfl : _ = 0 := (Option.some.inj hnil).symm
    rw [← drop_drop] at hm
    exact ⟨_, andThen_eq_some.2 ⟨i, _, hi, andThen_eq_some.2 ⟨j, m, hj, hm, rfl⟩, rfl⟩⟩
  · rintro ⟨n, hn⟩
    obtain ⟨i, _, hi, hj, _⟩ := andThen_eq_some.1 hn
    obtain ⟨j, m, hj, hm, _⟩ := andThen_eq_some.1 hj
    refine ⟨i + (j + 0), ?_⟩
    simp only [Option.bind_eq_bind, Option.bind_eq_some_iff]
    refine ⟨i + (j + 0), andThen_eq_some.2 ⟨i, _, hi, andThen_eq_some.2 ⟨j, 0, hj, rfl, rfl⟩, rfl⟩,
      m, ?_, rfl⟩
    rw [← drop_drop]
    exact hm

theorem persists_anyClosingSeam : Persists anyClosingSeam := by
  intro u v hu
  rw [anyClosingSeam, isSome_findSome?, any_eq_true] at hu ⊢
  obtain ⟨k, hk, hseam⟩ := hu
  have hopening : Contained (sequence [exactly k.opening, many isBlank, exactly ['/']]) :=
    .cons (steady_exactly _) (.many_cons (.singleton (contained_exactly (w := []) (by decide))) rfl)
  have hwhole : Contained (wholeSeam k) :=
    .cons (steady_exactly _) (.many_cons hopening (by cases k <;> rfl))
  refine ⟨k, hk, ?_⟩
  rw [isSome_closingSeam] at hseam ⊢
  exact hwhole.stable.persists u v hseam

/-- Before the first place at which a recogniser accepts it does not accept less text either. -/
theorem find?_append_eq_none {r : Recogniser} (hr : Persists r) {before rest part : Text}
    (h : r.find? (before ++ rest) = some (before, rest)) (hpart : part <+: rest)
    (hnone : r.find? part = none) : r.find? (before ++ part) = none := by
  induction before with
  | nil => exact hnone
  | cons c before ih =>
    rw [cons_append, find?] at h ⊢
    split at h
    · simp at h
    · next hhead =>
      have hrest : r.find? (before ++ rest) = some (before, rest) := by
        obtain ⟨⟨b, a⟩, hfind, heq⟩ := Option.map_eq_some_iff.1 h
        obtain ⟨⟨_, rfl⟩, rfl⟩ : (c = c ∧ b = before) ∧ a = rest := by simpa using heq
        exact hfind
      have hshort : r (c :: (before ++ part)) = none := by
        obtain ⟨more, rfl⟩ := hpart
        refine hr.eq_none (v := more) ?_
        simpa using hhead
      rw [hshort, ih hrest]
      rfl

theorem stripLeft_opening_append (t : Text) : stripLeft (k.opening ++ t) = k.opening ++ t := by
  cases k <;> rfl

theorem startsLine_append (t : Text) : startsLine (k.opening ++ t) := by
  rw [startsLine, stripLeft_opening_append, opens, any_eq_true]
  exact ⟨k, mem_all k, by simp [startsWith]⟩

/-- A part of a broken line is not broken again. -/
theorem breakClosing_part {line part : Text} (h : part ∈ breakClosing line) :
    breakClosing part = [part] := by
  have hnone : ∀ {l : Text}, cutAtClosing? l = none → breakClosing l = [l] := by
    intro l hl
    unfold breakClosing
    rw [hl]
    split <;> rfl
  have hstarts : ∀ {l : Text}, startsLine l → breakClosing l = [l] := by
    intro l hl
    unfold breakClosing
    rw [if_pos hl]
  unfold breakClosing at h
  split at h
  · next hline =>
    obtain rfl : part = line := by simpa using h
    exact hstarts hline
  · split at h
    · next before closing hcut =>
      simp only [cutAtClosing?, Option.bind_eq_bind, Option.bind_eq_some_iff, Option.pure_def,
        Option.some.injEq, Prod.mk.injEq] at hcut
      obtain ⟨⟨front, rest⟩, hfind, gap, hgap, rfl, rfl⟩ := hcut
      obtain ⟨k, g, u, rfl, hg, rfl⟩ := exists_of_anyClosingSeam hgap
      rw [take_left] at h
      rcases mem_cons.1 h with rfl | h
      · -- what stands before the first closing tag has none
        have hstrip : stripRight (front ++ (k.closing ++ g)) = front ++ k.closing := by
          obtain ⟨w, d, hk, hd⟩ := Construct.exists_closing_eq k
          rw [← append_assoc, stripRight, dropEndWhile_append hg, hk, ← append_assoc,
            dropEndWhile_concat hd]
        have hfind' : anyClosingSeam.find? (front ++ k.closing) = none := by
          rw [(find?_eq_some hfind).1] at hfind
          refine find?_append_eq_none persists_anyClosingSeam hfind ?_ (by cases k <;> decide)
          rw [append_assoc]
          exact prefix_append _ _
        rw [hstrip]
        exact hnone (by rw [cutAtClosing?, hfind']; rfl)
      · obtain rfl : part = stripLeft (k.opening ++ u) := by simpa using h
        rw [stripLeft_opening_append]
        exact hstarts (startsLine_append k u)
    · next hcut =>
      obtain rfl : part = line := by simpa using h
      exact hnone hcut

theorem lines_breakClosings {first : Text} {rest : List Text} (hfirst : '\n' ∉ first)
    (hrest : ∀ l ∈ rest, '\n' ∉ l) :
    lines (breakClosings (unlines (first :: rest))) = first :: rest.flatMap breakClosing := by
  have hall : ∀ l ∈ first :: rest, '\n' ∉ l := by simpa using ⟨hfirst, hrest⟩
  have hparts : ∀ l ∈ first :: rest.flatMap breakClosing, '\n' ∉ l := by
    intro l hl
    rcases mem_cons.1 hl with rfl | hl
    · exact hfirst
    · obtain ⟨m, hm, hl⟩ := mem_flatMap.1 hl
      exact Wrap.newline_not_mem_breakClosing (hrest m hm) l hl
  rw [breakClosings, lines_unlines (by simp) hall]
  exact lines_unlines (by simp) hparts

theorem exists_lines (t : Text) : ∃ first rest, t = unlines (first :: rest) ∧ '\n' ∉ first ∧
    ∀ l ∈ rest, '\n' ∉ l := by
  obtain ⟨first, rest, hlines⟩ := exists_cons_of_ne_nil (splitOn_ne_nil '\n' t)
  have hnewline : ∀ l ∈ first :: rest, '\n' ∉ l := fun l hl =>
    newline_not_mem_lines (t := t) (by rw [lines, hlines]; exact hl)
  refine ⟨first, rest, ?_, hnewline first (by simp), fun l hl => hnewline l (by simp [hl])⟩
  rw [← hlines]
  exact (unlines_lines t).symm

/-- **Breaking lines at closing tags leaves none to break.** -/
theorem breakClosings_breakClosings (t : Text) :
    breakClosings (breakClosings t) = breakClosings t := by
  obtain ⟨first, rest, rfl, hfirst, hrest⟩ := exists_lines t
  have hlines := lines_breakClosings hfirst hrest
  have hagain : (rest.flatMap breakClosing).flatMap breakClosing = rest.flatMap breakClosing := by
    rw [flatMap_assoc]
    refine flatMap_congr fun l _ => ?_
    rw [flatMap_congr (g := fun part => [part]) fun part hpart => breakClosing_part hpart]
    simp
  rw [breakClosings, hlines]
  show unlines (first :: (rest.flatMap breakClosing).flatMap breakClosing) = _
  rw [hagain, ← hlines, unlines_lines]

/-! ## Closing tags that are not indented -/

/-- No closing tag that starts a line is indented. -/
def Unindented (t : Text) : Prop := ∀ l ∈ lines t, isClosing l = true → isIndented l = false

theorem isIndented_stripLeft (t : Text) : isIndented (stripLeft t) = false := by
  induction t with
  | nil => rfl
  | cons c t ih =>
    by_cases hc : isBlank c
    · simpa [stripLeft, hc] using ih
    · simp [stripLeft, isIndented, hc]

theorem stripLeft_of_unindented (h : isIndented t = false) : stripLeft t = t := by
  cases t with
  | nil => rfl
  | cons c t =>
    have hc : isBlank c = false := h
    simp [stripLeft, hc]

theorem startsLine_of_isClosing {line : Text} (h : isClosing line) : startsLine line := by
  obtain ⟨k, hk, hpre⟩ := any_eq_true.1 h
  refine any_eq_true.2 ⟨k, hk, ?_⟩
  rw [startsWith, isPrefixOf_iff_prefix] at hpre ⊢
  exact (prefix_append _ _).trans hpre

theorem startsLine_of_isPrefix {part line : Text} (hpart : part <+: line)
    (h : startsLine part) : startsLine line := by
  obtain ⟨k, hk, hpre⟩ := any_eq_true.1 h
  refine any_eq_true.2 ⟨k, hk, ?_⟩
  rw [startsWith, isPrefixOf_iff_prefix] at hpre ⊢
  obtain ⟨rest, rfl⟩ := hpart
  have hne : stripLeft part ≠ [] := by
    intro hnil
    rw [hnil] at hpre
    cases k <;> simp [TagKind.opening] at hpre
  have hstrip : stripLeft (part ++ rest) = stripLeft part ++ rest := by
    rw [stripLeft, stripLeft, dropWhile_append, if_neg]
    simpa [stripLeft] using hne
  rw [hstrip]
  exact hpre.trans (prefix_append _ _)

theorem newline_not_mem_spaceClosingsAfter {previous : Option Text} {ls : List Text}
    (h : ∀ l ∈ ls, '\n' ∉ l) : ∀ l ∈ spaceClosingsAfter previous ls, '\n' ∉ l := by
  have hstrip : ∀ {l : Text}, '\n' ∉ l → '\n' ∉ stripLeft l := fun hl hmem =>
    hl ((dropWhile_suffix isBlank).subset hmem)
  fun_induction spaceClosingsAfter previous ls with
  | case1 => simp
  | case2 previous line rest _ closing _ ih | case3 previous line rest _ closing _ ih =>
    have hline := hstrip (h line (by simp))
    simpa [closing] using ⟨hline, ih fun l hl => h l (by simp [hl])⟩
  | case4 previous line rest _ ih =>
    simpa using ⟨h line (by simp), ih fun l hl => h l (by simp [hl])⟩

theorem lines_spaceClosings (t : Text) :
    lines (spaceClosings t) = spaceClosingsAfter none (lines t) := by
  refine lines_unlines ?_ (newline_not_mem_spaceClosingsAfter fun l => newline_not_mem_lines)
  obtain ⟨first, rest, hlines⟩ := exists_cons_of_ne_nil (splitOn_ne_nil '\n' t)
  rw [lines, hlines, spaceClosingsAfter]
  split
  · simp
  · simp

theorem unindented_spaceClosings (t : Text) : Unindented (spaceClosings t) := by
  have key : ∀ (previous : Option Text) (ls : List Text),
      ∀ l ∈ spaceClosingsAfter previous ls, isClosing l → isIndented l = false := by
    intro previous ls
    fun_induction spaceClosingsAfter previous ls with
    | case1 => simp
    | case2 previous line rest _ closing _ ih =>
      intro l hl
      rcases mem_cons.1 hl with rfl | hl
      · exact fun _ => rfl
      · rcases mem_cons.1 hl with rfl | hl
        · exact fun _ => isIndented_stripLeft line
        · exact ih l hl
    | case3 previous line rest _ closing _ ih =>
      intro l hl
      rcases mem_cons.1 hl with rfl | hl
      · exact fun _ => isIndented_stripLeft line
      · exact ih l hl
    | case4 previous line rest hline ih =>
      intro l hl
      rcases mem_cons.1 hl with rfl | hl
      · exact fun hclosing => absurd hclosing hline
      · exact ih l hl
  intro l hl
  rw [lines_spaceClosings] at hl
  exact key none (lines t) l hl

theorem Unindented.breakClosings (h : Unindented t) : Unindented (breakClosings t) := by
  obtain ⟨first, rest, rfl, hfirst, hrest⟩ := exists_lines t
  have hall : ∀ l ∈ first :: rest, '\n' ∉ l := by simpa using ⟨hfirst, hrest⟩
  rw [Unindented, lines_unlines (by simp) hall] at h
  rw [Unindented, lines_breakClosings hfirst hrest]
  intro l hl
  rcases mem_cons.1 hl with rfl | hl
  · exact h l (by simp)
  · obtain ⟨line, hline, hpart⟩ := mem_flatMap.1 hl
    unfold breakClosing at hpart
    split at hpart
    · obtain rfl : l = line := by simpa using hpart
      exact h l (by simp [hline])
    · next hstarts =>
      split at hpart
      · next before closing hcut =>
        rcases mem_cons.1 hpart with rfl | hpart
        · -- the first part starts as the line does, and so with no tag
          intro hclosing
          refine absurd (startsLine_of_isPrefix ?_ (startsLine_of_isClosing hclosing)) hstarts
          obtain ⟨g, _, hg⟩ := exists_stripRight before
          rw [cutAtClosing?_eq_append hcut, hg, append_assoc, ← hg]
          exact prefix_append _ _
        · obtain rfl : l = stripLeft closing := by simpa using hpart
          exact fun _ => isIndented_stripLeft closing
      · obtain rfl : l = line := by simpa using hpart
        exact h l (by simp [hline])

/-- **Spacing closing tags that follow no block content** changes nothing. -/
theorem spaceClosings_eq_self (h : Unindented t)
    (hnext : (lines t).IsChain fun a b => Block.isContent a → isClosing b → isIndented b) :
    spaceClosings t = t := by
  -- generalised over the line before, which the pass looks back at
  have key : ∀ (previous : Option Text) (ls : List Text),
      (∀ l ∈ ls, isClosing l → isIndented l = false) →
      (previous.toList ++ ls).IsChain (fun a b => Block.isContent a → isClosing b → isIndented b) →
        spaceClosingsAfter previous ls = ls := by
    intro previous ls hls hchain
    induction ls generalizing previous with
    | nil => rfl
    | cons line ls ih =>
      have htail : ((some line).toList ++ ls).IsChain
          (fun a b => Block.isContent a → isClosing b → isIndented b) := by
        cases previous with
        | none => exact hchain
        | some p => exact (isChain_cons_cons.1 hchain).2
      have hrest := ih (some line) (fun l hl => hls l (by simp [hl])) htail
      rw [spaceClosingsAfter]
      split
      · next hclosing =>
        have hindent := hls line (by simp) hclosing
        have hprevious : (previous.map Block.isContent).getD false = false := by
          cases previous with
          | none => rfl
          | some p =>
            by_contra hcontent
            have := (isChain_cons_cons.1 hchain).1 (by simpa using hcontent) hclosing
            simp [hindent] at this
        rw [stripLeft_of_unindented hindent, hprevious]
        exact congrArg (line :: ·) hrest
      · rw [hrest]
  rw [spaceClosings, key none (lines t) h (by simpa using hnext), unlines_lines]

theorem isChain_spaceClosings (t : Text) :
    (lines (spaceClosings t)).IsChain fun a b => isClosing b → Block.isContent a = false := by
  -- the line before is the one that was written, which an empty line may have come after
  have key : ∀ (previous : Option Text) (ls : List Text),
      (previous.toList ++ spaceClosingsAfter previous ls).IsChain
        fun a b => isClosing b → Block.isContent a = false := by
    intro previous ls
    fun_induction spaceClosingsAfter previous ls with
    | case1 previous => cases previous <;> simp
    | case2 previous line rest _ closing _ ih =>
      have hrest := IsChain.cons_cons (a := []) (fun _ => rfl) ih
      cases previous with
      | none => exact hrest
      | some p => exact .cons_cons (fun hempty => absurd hempty (by decide)) hrest
    | case3 previous line rest _ closing hcontent ih =>
      cases previous with
      | none => exact ih
      | some p => exact .cons_cons (fun _ => by simpa using hcontent) ih
    | case4 previous line rest hline ih =>
      cases previous with
      | none => exact ih
      | some p => exact .cons_cons (fun hclosing => absurd hclosing hline) ih
  rw [lines_spaceClosings]
  exact key none (lines t)

theorem spaceClosings_spaceClosings (t : Text) :
    spaceClosings (spaceClosings t) = spaceClosings t := by
  refine spaceClosings_eq_self (unindented_spaceClosings t) ?_
  refine (isChain_spaceClosings t).imp fun a b h hcontent hclosing => ?_
  simp [h hclosing] at hcontent

/-! ## Main result -/

/-- The line holds the end of a tag and, after blanks, a closing tag of the same kind. -/
def HoldsSeam (line : Text) : Prop :=
  ∃ (k : TagKind) (a g b c : Text),
    line = a ++ (k.closing ++ (g ++ (k.opening ++ (b ++ '/' :: c)))) ∧
      (∀ d ∈ g, isBlank d) ∧ ∀ d ∈ b, isBlank d

theorem isSome_exactly_andThen (w t : Text) (r : Recogniser) :
    (andThen (exactly w) r (w ++ t)).isSome = (r t).isSome := by
  have hw : exactly w (w ++ t) = some w.length := exactly_eq_some.2 ⟨t, rfl, rfl⟩
  cases h : r t <;> simp [andThen, hw, h]

theorem isSome_many_andThen {g t : Text} (hg : ∀ d ∈ g, isBlank d)
    (ht : ∀ d ∈ t.head?, isBlank d = false) (r : Recogniser) :
    (andThen (many isBlank) r (g ++ t)).isSome = (r t).isSome := by
  have hmany : many isBlank (g ++ t) = some g.length := by
    rw [many, takeWhile_append_of_pos hg]
    cases t with
    | nil => simp
    | cons d t => simp [ht d (by simp)]
  cases h : r t <;> simp [andThen, hmany, h]

theorem isSome_anyClosingSeam {g b : Text} (hg : ∀ d ∈ g, isBlank d) (hb : ∀ d ∈ b, isBlank d)
    (c : Text) : (anyClosingSeam (k.closing ++ (g ++ (k.opening ++ (b ++ '/' :: c))))).isSome := by
  have hopening : ∀ d ∈ (k.opening ++ (b ++ '/' :: c)).head?, isBlank d = false := by
    cases k <;> simp [TagKind.opening] <;> decide
  have hslash : (sequence [exactly ['/']] (['/'] ++ c)).isSome := isSome_exactly_andThen ['/'] c _
  rw [anyClosingSeam, isSome_findSome?, any_eq_true]
  refine ⟨k, mem_all k, ?_⟩
  rw [isSome_closingSeam, wholeSeam, Recogniser.sequence, isSome_exactly_andThen,
    Recogniser.sequence, isSome_many_andThen hg hopening, Recogniser.sequence,
    isSome_exactly_andThen, Recogniser.sequence, isSome_many_andThen hb (by simp; decide)]
  exact hslash

theorem isSome_find?_append {r : Recogniser} {rest : Text} (h : (r rest).isSome) (before : Text) :
    (r.find? (before ++ rest)).isSome := by
  induction before with
  | nil => cases rest <;> simp [find?, h]
  | cons c before ih =>
    rw [cons_append, find?]
    split
    · rfl
    · simpa using ih

theorem startsLine_or_of_mem_breakClosing {line part : Text} (h : part ∈ breakClosing line) :
    startsLine part ∨ ¬ HoldsSeam part := by
  by_cases hstarts : startsLine part
  · exact .inl hstarts
  · refine .inr ?_
    rintro ⟨k, a, g, b, c, rfl, hg, hb⟩
    -- the seam would be found, and the part cut in two
    have hseam := isSome_anyClosingSeam k hg hb c
    obtain ⟨⟨before, rest⟩, hfind⟩ := Option.isSome_iff_exists.1 (isSome_find?_append hseam a)
    obtain ⟨gap, hgap⟩ := Option.isSome_iff_exists.1 (find?_eq_some hfind).2
    have hpart := breakClosing_part h
    simp [breakClosing, hstarts, cutAtClosing?, hfind, hgap] at hpart

/-- **The two passes over closing tags reach their normal forms and change only blanks.** Each keeps
the visible text and changes nothing when it is made again. After the first no closing tag is
indented, and none stands right after block content. After the second no line but the first holds
the end of a tag and a closing tag of the same kind after it, unless the line starts with a tag. -/
theorem closing_tags_set_right (t : Text) :
    (visible (spaceClosings t) = visible t ∧ spaceClosings (spaceClosings t) = spaceClosings t ∧
      (∀ l ∈ lines (spaceClosings t), isClosing l → isIndented l = false) ∧
      (lines (spaceClosings t)).IsChain fun a b => isClosing b → Block.isContent a = false) ∧
    visible (breakClosings t) = visible t ∧ breakClosings (breakClosings t) = breakClosings t ∧
      ∀ l ∈ (lines (breakClosings t)).tail, startsLine l ∨ ¬ HoldsSeam l := by
  refine ⟨⟨(soft_spaceClosings t).visible_eq.symm, spaceClosings_spaceClosings t,
    unindented_spaceClosings t, isChain_spaceClosings t⟩,
    (soft_breakClosings t).visible_eq.symm, breakClosings_breakClosings t, ?_⟩
  obtain ⟨first, rest, rfl, hfirst, hrest⟩ := exists_lines t
  rw [lines_breakClosings hfirst hrest]
  intro l hl
  obtain ⟨line, _, hpart⟩ := mem_flatMap.1 hl
  exact startsLine_or_of_mem_breakClosing hpart

end Reflow.Tag
