import Mathlib.Data.List.DropRight
import Reflow.Proofs.NumberStarts

/-!
Lines behind a margin.

A `Margin` ends in a space, unless it is empty, and has no delimiter of a tag in it, so that no pass
over tags takes hold of it. The first line of a text has one margin and the others have another;
`Indents.remove` takes them off again. The empty lines that are put between segments and the closing
tags that are put on lines of their own have no margin, and keep what they have.
-/

open List

namespace Reflow.Wrap

open Text Tag

variable {i : Indents} {m : Text}

/-! ## Margins -/

/-- A margin is part of one line, ends in a space unless it is empty, and has no delimiter in it. -/
structure Margin (m : Text) : Prop where
  line : '\n' ∉ m
  ends : m = [] ∨ ∃ a, m = a ++ [' ']
  closing : ∀ k : TagKind, ¬ k.closing <:+: m
  opening : ∀ k : TagKind, ¬ k.opening <:+: m

theorem margin_nil : Margin [] where
  line := by simp
  ends := .inl rfl
  closing k := by cases k <;> simp [TagKind.closing]
  opening k := by cases k <;> simp [TagKind.opening]

theorem prefix_of_space {w a t : Text} (hw : ∀ c ∈ w, isBlank c = false)
    (h : w <+: a ++ [' '] ++ t) : w <+: a := by
  refine prefix_of_not_mem (c := ' ') (b := t) (fun hc => ?_) (by simpa using h)
  have hblank := hw ' ' hc
  simp at hblank

section Margin

variable {m : Text} (hm : Margin m)

include hm

theorem Margin.not_prefix {w n t : Text} (hw : ∀ c ∈ w, isBlank c = false) (hclear : ¬ w <:+: m)
    (hne : n ≠ []) (hn : n <:+ m) : ¬ w <+: n ++ t := by
  intro hprefix
  have hm' : m ≠ [] := by
    rintro rfl
    exact hne (suffix_nil.1 hn)
  obtain ⟨a, rfl⟩ := hm.ends.resolve_left hm'
  obtain ⟨b, rfl⟩ : ∃ b, n = b ++ [' '] := by
    obtain ⟨b, c, rfl⟩ := (eq_nil_or_concat' n).resolve_left hne
    obtain ⟨u, hu⟩ := hn
    rw [← append_assoc] at hu
    exact ⟨b, by rw [(append_inj' hu rfl).2]⟩
  refine hclear ((prefix_of_space hw hprefix).isInfix.trans ?_)
  exact (prefix_append b [' ']).isInfix.trans hn.isInfix

theorem Margin.rejoin_append (t : Text) : rejoin (m ++ t) = m ++ rejoin t := by
  have hsuffix : ∀ n, n <:+ m → rejoin (n ++ t) = n ++ rejoin t := by
    intro n
    induction n with
    | nil => exact fun _ => rfl
    | cons c n ih =>
      intro hn
      rw [cons_append, rejoin_cons, ih ((suffix_cons c n).trans hn), cons_append]
      intro k hk
      refine hm.not_prefix (fun d hd => isBlank_of_mem_closing hd) (hm.closing k)
        (cons_ne_nil c n) hn (t := t) (IsPrefix.trans ?_ hk)
      rw [seam, append_assoc]
      exact prefix_append _ _
  exact hsuffix m (suffix_refl m)

theorem Margin.prefix_of_prefix {w a t : Text} (hw : ∀ c ∈ w, isBlank c = false)
    (hclear : ¬ w <:+: m) (h : m <+: a ++ (w ++ t)) : m <+: a := by
  rcases prefix_or_prefix_of_prefix h (prefix_append a (w ++ t)) with hma | ham
  · exact hma
  · obtain ⟨x, rfl⟩ := ham
    by_cases hx : x = []
    · simp [hx]
    · -- the rest of the margin ends in a space, and so goes beyond the delimiter
      exfalso
      have hprefix : x <+: w ++ t := (prefix_append_right_inj a).1 h
      rcases prefix_or_prefix_of_prefix hprefix (prefix_append w t) with hxw | hwx
      · obtain ⟨b, hb⟩ := hm.ends.resolve_left (by simp [hx])
        obtain ⟨y, c, rfl⟩ := (eq_nil_or_concat' x).resolve_left hx
        rw [← append_assoc] at hb
        obtain rfl : c = ' ' := by simpa using (append_inj' hb rfl).2
        have hblank := hw ' ' (hxw.subset (by simp))
        simp at hblank
      · exact hclear (hwx.isInfix.trans (suffix_append a x).isInfix)

end Margin

theorem Margin.append {m n : Text} (hm : Margin m) (hn : Margin n) : Margin (m ++ n) := by
  -- a delimiter starts in the one or in the other
  have hclear : ∀ w : Text, (∀ c ∈ w, isBlank c = false) → w ≠ [] → ¬ w <:+: m → ¬ w <:+: n →
      ¬ w <:+: m ++ n := by
    rintro w hw hne hwm hwn ⟨a, b, hab⟩
    rw [append_assoc] at hab
    rcases append_eq_append_iff.1 hab with ⟨x, rfl, hx⟩ | ⟨x, rfl, hx⟩
    · by_cases hnil : x = []
      · exact hwn ⟨[], b, by simpa [hnil] using hx⟩
      · exact hm.not_prefix hw hwm hnil (suffix_append a x) ⟨b, hx⟩
    · exact hwn ⟨x, b, by simpa using hx.symm⟩
  refine ⟨by simp [hm.line, hn.line], ?_, fun k => ?_, fun k => ?_⟩
  · rcases hn.ends with rfl | ⟨a, rfl⟩
    · simpa using hm.ends
    · exact .inr ⟨m ++ a, by simp⟩
  · exact hclear _ (fun c => isBlank_of_mem_closing) (by cases k <;> simp [TagKind.closing])
      (hm.closing k) (hn.closing k)
  · exact hclear _ (fun c => isBlank_of_mem_opening) (by cases k <;> simp [TagKind.opening])
      (hm.opening k) (hn.opening k)

/-! ## Taking margins off -/

/-- The line without its margin, if it has one. -/
def unindent (m l : Text) : Text := if m.isPrefixOf l then l.drop m.length else l

theorem unindent_append (m l : Text) : unindent m (m ++ l) = l := by
  rw [unindent, if_pos (List.isPrefixOf_iff_prefix.2 (prefix_append m l)), drop_left]

theorem unindent_of_not {m l : Text} (h : ¬ m <+: l) : unindent m l = l := by
  rw [unindent, if_neg (by rwa [List.isPrefixOf_iff_prefix])]

theorem unindent_nil (m : Text) : unindent m [] = [] := by
  rw [unindent, drop_nil, ite_self]

/-- The lines of a text without their margins. -/
def Indents.remove (i : Indents) : List Text → List Text
  | [] => []
  | l :: ls => unindent i.first l :: ls.map (unindent i.later)

theorem Indents.remove_apply (i : Indents) (ls : List Text) : i.remove (i.apply ls) = ls := by
  cases ls with
  | nil => rfl
  | cons l ls => simp [Indents.apply, Indents.remove, unindent_append, Function.comp_def]

/-- For each point of a text behind its margins, whether digits, and nothing but digits, stand before
it on its line. -/
def pointFlags (i : Indents) (t : Text) : List Bool := (i.remove (lines t)).flatMap numberPoints

/-- The margin of the later lines, for all lines. -/
def Indents.below (i : Indents) : Indents := ⟨i.later, i.later⟩

theorem Indents.remove_append (i : Indents) {ls : List Text} (hne : ls ≠ []) (ms : List Text) :
    i.remove (ls ++ ms) = i.remove ls ++ i.below.remove ms := by
  obtain ⟨l, ls, rfl⟩ := exists_cons_of_ne_nil hne
  cases ms with
  | nil => simp [Indents.remove]
  | cons m ms => simp [Indents.remove, Indents.below]

theorem pointFlags_append_newline (i : Indents) (a b : Text) :
    pointFlags i (a ++ '\n' :: b) = pointFlags i a ++ pointFlags i.below b := by
  have hne : lines a ≠ [] := splitOn_ne_nil '\n' a
  rw [pointFlags, lines_append_newline, i.remove_append hne, flatMap_append]
  rfl

theorem pointFlags_unlines (i : Indents) (t : Text) (ts : List Text) :
    pointFlags i (unlines (t :: ts)) = pointFlags i t ++ ts.flatMap (pointFlags i.below) := by
  induction ts generalizing t i with
  | nil => simp [unlines, joinWith]
  | cons u ts ih =>
    rw [unlines_cons (by simp), pointFlags_append_newline, ih]
    rfl

theorem pointFlags_nil (i : Indents) : pointFlags i [] = [] := by
  have hlines : lines [] = [[]] := rfl
  simp [pointFlags, hlines, Indents.remove, unindent_nil, numberPoints]

/-- The first line of the text, behind its margin, starts with a number and a point. -/
def firstNumbered (m t : Text) : Bool := (lines t).head?.any fun l => startsNumbered (unindent m l)

theorem firstNumbered_append_newline (m a b : Text) :
    firstNumbered m (a ++ '\n' :: b) = firstNumbered m a := by
  have hne : lines a ≠ [] := splitOn_ne_nil '\n' a
  rw [firstNumbered, lines_append_newline, head?_append_of_ne_nil _ hne, firstNumbered]

theorem firstNumbered_unlines (m t : Text) (ts : List Text) :
    firstNumbered m (unlines (t :: ts)) = firstNumbered m t := by
  by_cases hts : ts = []
  · subst hts
    rfl
  · rw [unlines_cons hts, firstNumbered_append_newline]

theorem Margin.unindent_backslash (hm : Margin m) (l : Text) :
    unindent m (l ++ ['\\']) = unindent m l ++ ['\\'] := by
  by_cases hprefix : m <+: l
  · obtain ⟨body, rfl⟩ := hprefix
    rw [append_assoc, unindent_append, unindent_append]
  · -- the backslash does not complete the margin, which ends in a space
    rw [unindent_of_not hprefix, unindent_of_not fun h => hprefix ?_]
    rcases hm.ends with rfl | ⟨a, rfl⟩
    · exact nil_prefix
    · rcases prefix_concat_iff.1 h with heq | h
      · have hlast := (append_inj' heq rfl).2
        simp at hlast
      · exact h

theorem startsNumbered_backslash (l : Text) : startsNumbered (l ++ ['\\']) = startsNumbered l :=
  startsNumbered_append (by simp [InNumber, isAsciiDigit]) l

theorem pointFlags_backslash (hfirst : Margin i.first) (hlater : Margin i.later) (t : Text) :
    pointFlags i (t ++ ['\\']) = pointFlags i t ∧
      firstNumbered i.first (t ++ ['\\']) = firstNumbered i.first t := by
  obtain ⟨l, ls, rfl, hl, hls⟩ := exists_lines t
  induction ls generalizing i l with
  | nil =>
    have hline : '\n' ∉ l ++ ['\\'] := by simpa using hl
    have htext : unlines [l] = l := rfl
    rw [htext, pointFlags, pointFlags, firstNumbered, firstNumbered, lines_of_no_newline hl,
      lines_of_no_newline hline]
    simp only [Indents.remove, map_nil, flatMap_cons, flatMap_nil, append_nil,
      head?_cons, Option.any_some, hfirst.unindent_backslash, startsNumbered_backslash, and_true]
    exact numberPoints_congr (by rw [points_append]; rfl) (startsNumbered_backslash _)
  | cons m ls ih =>
    have hrest := (ih (i := i.below) hlater hlater m (hls m (by simp)) fun u hu =>
      hls u (by simp [hu])).1
    rw [unlines_cons (by simp), append_assoc, cons_append, pointFlags_append_newline,
      pointFlags_append_newline, firstNumbered_append_newline, firstNumbered_append_newline, hrest]
    exact ⟨rfl, rfl⟩

theorem pointFlags_hardBreak (hfirst : Margin i.first) (hlater : Margin i.later) (a b : Text) :
    pointFlags i (a ++ ['\\', '\n'] ++ b) = pointFlags i a ++ pointFlags i.below b ∧
      firstNumbered i.first (a ++ ['\\', '\n'] ++ b) = firstNumbered i.first a := by
  have heq : a ++ ['\\', '\n'] ++ b = (a ++ ['\\']) ++ '\n' :: b := by simp
  rw [heq, pointFlags_append_newline, firstNumbered_append_newline,
    (pointFlags_backslash hfirst hlater a).1, (pointFlags_backslash hfirst hlater a).2]
  exact ⟨rfl, rfl⟩

/-! ## Passes over closing tags -/

/-- A line that is broken at closing tags has the numbered points that it had. -/
theorem flatMap_breakClosing (hm : Margin m) (l : Text) :
    (breakClosing l).flatMap (fun part => numberPoints (unindent m part))
      = numberPoints (unindent m l) := by
  rcases breakClosing_cases l with heq | ⟨k, front, g, u, rfl, hg, heq⟩
  · simp [heq]
  · have hclosing : ∀ c ∈ k.closing, isBlank c = false := fun c => isBlank_of_mem_closing
    have hopening : ∀ c ∈ k.opening, isBlank c = false := fun c => isBlank_of_mem_opening
    -- the closing tag has no margin
    have hsecond : unindent m (k.opening ++ u) = k.opening ++ u := by
      by_cases hprefix : m <+: k.opening ++ u
      · obtain rfl : m = [] :=
          prefix_nil.1 (hm.prefix_of_prefix (a := []) hopening (hm.opening k) hprefix)
        exact unindent_append [] _
      · exact unindent_of_not hprefix
    have hcut : ∀ f : Text, numberPoints (f ++ k.closing ++ g ++ (k.opening ++ u))
        = numberPoints (f ++ k.closing) ++ numberPoints (k.opening ++ u) := by
      intro f
      have hgap : numberPoints (f ++ k.closing ++ g) = numberPoints (f ++ k.closing) := by
        refine numberPoints_congr (by rw [points_append, points_of_blank hg, Nat.add_zero]) ?_
        exact startsNumbered_append
          (fun c hc => not_inNumber_of_blank (hg c (mem_of_head? hc))) _
      rw [numberPoints_append (startsNumbered_append (not_inNumber_opening k u) _)
        (startsNumbered_of_head (not_inNumber_opening k u)), hgap]
    rw [heq, flatMap_cons, flatMap_singleton, hsecond]
    by_cases hprefix : m <+: front
    · obtain ⟨f, rfl⟩ := hprefix
      have happend : m ++ f ++ k.closing ++ g ++ (k.opening ++ u)
          = m ++ (f ++ k.closing ++ g ++ (k.opening ++ u)) := by simp
      rw [happend, unindent_append, hcut, append_assoc m f, unindent_append]
    · have hnot : ∀ t : Text, ¬ m <+: front ++ (k.closing ++ t) := fun t h =>
        hprefix (hm.prefix_of_prefix hclosing (hm.closing k) h)
      rw [unindent_of_not (by simpa using hnot []), unindent_of_not ?_, hcut]
      simpa using hnot (g ++ (k.opening ++ u))

theorem pointFlags_breakClosings (hlater : Margin i.later) (t : Text) :
    pointFlags i (breakClosings t) = pointFlags i t ∧
      firstNumbered i.first (breakClosings t) = firstNumbered i.first t := by
  obtain ⟨l, ls, rfl, hl, hls⟩ := exists_lines t
  have hlines : lines (unlines (l :: ls)) = l :: ls :=
    lines_unlines (by simp) (by simpa using ⟨hl, hls⟩)
  rw [pointFlags, pointFlags, firstNumbered, firstNumbered, lines_breakClosings hl hls, hlines]
  refine ⟨?_, rfl⟩
  rw [Indents.remove, Indents.remove, flatMap_cons, flatMap_cons, flatMap_map,
    flatMap_map, flatMap_assoc, flatMap_congr fun l _ => flatMap_breakClosing hlater l]

theorem numberPoints_of_isClosing {l : Text} (h : isClosing l) (hm : Margin m) :
    points (unindent m l) = points l ∧ startsNumbered (unindent m l) = false := by
  obtain ⟨k, _, hk⟩ := any_eq_true.1 h
  obtain ⟨u, hu⟩ : k.opening ++ [' ', '/'] <+: stripLeft l := isPrefixOf_iff_prefix.1 hk
  obtain ⟨g, hg, hl⟩ := exists_stripLeft l
  rw [← hu, append_assoc] at hl
  have hopening : ∀ c ∈ k.opening, isBlank c = false := fun c => isBlank_of_mem_opening
  have hstarts : ∀ f : Text, (∀ c ∈ f, isBlank c) →
      startsNumbered (f ++ (k.opening ++ ([' ', '/'] ++ u))) = false := by
    intro f hf
    rw [startsNumbered_append (not_inNumber_opening k _)]
    exact startsNumbered_of_head fun c hc => not_inNumber_of_blank (hf c (mem_of_head? hc))
  by_cases hprefix : m <+: l
  · rw [hl] at hprefix
    -- the margin is part of the blanks in front of the tag
    obtain ⟨f, rfl⟩ := hm.prefix_of_prefix hopening (hm.opening k) hprefix
    have hf : ∀ c ∈ f, isBlank c := fun c hc => hg c (by simp [hc])
    have hblank : points m = 0 := points_of_blank fun c hc => hg c (by simp [hc])
    rw [append_assoc] at hl
    rw [hl, unindent_append]
    exact ⟨by rw [points_append m, hblank, Nat.zero_add], hstarts f hf⟩
  · rw [unindent_of_not hprefix]
    exact ⟨rfl, by rw [hl]; exact hstarts g hg⟩

theorem isClosing_stripLeft (l : Text) : isClosing (stripLeft l) = isClosing l := by
  have hstrip : stripLeft (stripLeft l) = stripLeft l := dropWhile_idempotent isBlank l
  rw [isClosing, isClosing, hstrip]

theorem remove_of_spacesClosing (hfirst : Margin i.first) (hlater : Margin i.later) {l : Text}
    {b : List Text} (h : Tag.SpacesClosing l b) :
    (i.remove b).flatMap numberPoints = numberPoints (unindent i.first l) ∧
      ((i.remove b).head?.any startsNumbered → startsNumbered (unindent i.first l)) := by
  rcases h with rfl | ⟨hclosing, hb⟩
  · simp [Indents.remove]
  · have hstrip := (isClosing_stripLeft l).trans hclosing
    have hsame : ∀ {m : Text}, Margin m →
        numberPoints (unindent m (stripLeft l)) = numberPoints (unindent i.first l) := by
      intro m hm
      obtain ⟨hpoints, hstarts⟩ := numberPoints_of_isClosing hclosing hfirst
      obtain ⟨hpoints', hstarts'⟩ := numberPoints_of_isClosing hstrip hm
      refine numberPoints_congr ?_ (hstarts'.trans hstarts.symm)
      rw [hpoints', hpoints, points_congr (visible_stripLeft l)]
    rcases hb with rfl | rfl
    · have hstarts := (numberPoints_of_isClosing hstrip hfirst).2
      simp [Indents.remove, hsame hfirst, hstarts]
    · have hempty : numberPoints [] = [] := rfl
      have hstarts : startsNumbered [] = false := rfl
      simp [Indents.remove, unindent_nil, hempty, hstarts, hsame hlater]

theorem pointFlags_spaceClosings (hfirst : Margin i.first) (hlater : Margin i.later) (t : Text) :
    pointFlags i (spaceClosings t) = pointFlags i t ∧
      (firstNumbered i.first (spaceClosings t) → firstNumbered i.first t) := by
  -- below the first line all lines have the later margin, so the indents change on the way
  have hblocks : ∀ {ls : List Text} {blocks : List (List Text)} {j : Indents}, Margin j.first →
      Margin j.later → Forall₂ Tag.SpacesClosing ls blocks →
      (j.remove blocks.flatten).flatMap numberPoints = (j.remove ls).flatMap numberPoints := by
    intro ls blocks j hf hl h
    induction h generalizing j with
    | nil => rfl
    | @cons l b ls blocks hb _ ih =>
      have hne : b ≠ [] := by rcases hb with rfl | ⟨_, rfl | rfl⟩ <;> simp
      have hrest := ih (j := j.below) hl hl
      rw [flatten_cons, j.remove_append hne, flatMap_append, hrest,
        (remove_of_spacesClosing hf hl hb).1, ← singleton_append (l := ls),
        j.remove_append (by simp), flatMap_append]
      simp [Indents.remove]
  obtain ⟨blocks, h, heq⟩ := exists_spaceClosingsAfter none (lines t)
  rw [pointFlags, lines_spaceClosings, heq]
  refine ⟨hblocks hfirst hlater h, ?_⟩
  rw [firstNumbered, firstNumbered, lines_spaceClosings, heq]
  generalize lines t = ls at h
  cases h with
  | nil => simp
  | @cons l b ls blocks hb _ =>
    have hhead := (remove_of_spacesClosing hfirst hlater hb).2
    obtain ⟨c, b, rfl⟩ : ∃ c cs, b = c :: cs := by
      rcases hb with rfl | ⟨_, rfl | rfl⟩ <;> exact ⟨_, _, rfl⟩
    simpa [Indents.remove] using hhead

end Reflow.Wrap
