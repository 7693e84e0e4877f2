import Reflow.Proofs.Filling

/-!
First words.

Whether a line of Markdown is read as a list item, a quote or a heading is decided by its first
word. The passes over tags may lengthen or shorten a first word, but only at a delimiter, and no
word with a delimiter in it has to be escaped. `Alike s t` is what such a pass leaves: the same
first word, or two first words with a delimiter in each.
-/

open List

namespace Reflow.Text

variable {c : Char} {w : Text}

/-! ## The first word -/

/-- The visible characters that the text begins with. -/
def lead (t : Text) : Text := t.takeWhile fun c => !isBlank c

/-- The visible characters after the blanks that the text begins with. -/
def firstWord (t : Text) : Text := lead (stripLeft t)

theorem lead_cons_of_blank (h : isBlank c) (t : Text) : lead (c :: t) = [] := by
  simp [lead, h]

theorem lead_cons_of_visible (h : isBlank c = false) (t : Text) : lead (c :: t) = c :: lead t := by
  simp [lead, h]

theorem firstWord_cons_of_blank (h : isBlank c) (t : Text) : firstWord (c :: t) = firstWord t := by
  simp [firstWord, stripLeft, h]

theorem firstWord_cons_of_visible (h : isBlank c = false) (t : Text) :
    firstWord (c :: t) = c :: lead t := by
  rw [← lead_cons_of_visible h]
  simp [firstWord, stripLeft, h]

theorem isBlank_of_mem_firstWord {t : Text} (h : c ∈ firstWord t) : isBlank c = false := by
  simpa using mem_takeWhile_imp h

theorem lead_of_visible (hw : ∀ c ∈ w, isBlank c = false) (t : Text) :
    lead (w ++ t) = w ++ lead t := by
  induction w with
  | nil => rfl
  | cons c w ih =>
    rw [cons_append, lead_cons_of_visible (hw c (by simp)),
      ih fun d hd => hw d (by simp [hd]), cons_append]

theorem firstWord_of_visible (hw : ∀ c ∈ w, isBlank c = false) (hne : w ≠ []) (t : Text) :
    firstWord (w ++ t) = w ++ lead t := by
  obtain ⟨c, w, rfl⟩ := exists_cons_of_ne_nil hne
  rw [cons_append, firstWord_cons_of_visible (hw c (by simp)),
    lead_of_visible fun d hd => hw d (by simp [hd]), cons_append]

theorem firstWord_eq_self (hw : ∀ c ∈ w, isBlank c = false) (hne : w ≠ []) : firstWord w = w := by
  simpa [lead] using firstWord_of_visible hw hne []

theorem firstWord_blank_append {g : Text} (hg : ∀ c ∈ g, isBlank c) (t : Text) :
    firstWord (g ++ t) = firstWord t := by
  induction g with
  | nil => rfl
  | cons c g ih =>
    rw [cons_append, firstWord_cons_of_blank (hg c (by simp)),
      ih fun d hd => hg d (by simp [hd])]

theorem visible_or_eq_lead_append (w : Text) :
    (∀ c ∈ w, isBlank c = false) ∨ ∃ c v, w = lead w ++ c :: v ∧ isBlank c := by
  induction w with
  | nil => exact .inl (by simp)
  | cons d w ih =>
    rcases Bool.eq_false_or_eq_true (isBlank d) with hd | hd
    · exact .inr ⟨d, w, by rw [lead_cons_of_blank hd]; rfl, hd⟩
    · rw [lead_cons_of_visible hd]
      rcases ih with hw | ⟨c, v, hw, hc⟩
      · exact .inl (by simpa [hd] using hw)
      · exact .inr ⟨c, v, by rw [cons_append, ← hw], hc⟩

theorem firstWord_append {w t : Text} (hw : Solid w) (ht : ∀ c ∈ t.head?, isBlank c) :
    firstWord (w ++ t) = firstWord w := by
  have hlead : ∀ u : Text, lead (u ++ t) = lead u := by
    intro u
    induction u with
    | nil =>
      cases t with
      | nil => rfl
      | cons c t =>
        rw [nil_append, lead_cons_of_blank (ht c (by simp))]
        rfl
    | cons c u ih =>
      rcases Bool.eq_false_or_eq_true (isBlank c) with hc | hc
      · rw [cons_append, lead_cons_of_blank hc, lead_cons_of_blank hc]
      · rw [cons_append, lead_cons_of_visible hc, lead_cons_of_visible hc, ih]
  obtain ⟨c, u, rfl, hc⟩ := hw.first
  rw [cons_append, firstWord_cons_of_visible hc, firstWord_cons_of_visible hc, hlead]

theorem head?_words (t : Text) :
    (words t).head? = if firstWord t = [] then none else some (firstWord t) := by
  fun_induction words t with
  | case1 => rfl
  | case2 c cs hc ih => rw [ih, firstWord_cons_of_blank hc]
  | case3 c hc =>
    have hc : isBlank c = false := by simpa using hc
    simp [firstWord_cons_of_visible hc, lead]
  | case4 c hc d ds hd ih =>
    have hc : isBlank c = false := by simpa using hc
    simp [firstWord_cons_of_visible hc, lead_cons_of_blank hd]
  | case5 c hc d ds hd hnil ih =>
    have hd : isBlank d = false := by simpa using hd
    rw [hnil, firstWord_cons_of_visible hd] at ih
    simp at ih
  | case6 c hc d ds hd w ws hwords ih =>
    have hc : isBlank c = false := by simpa using hc
    have hd : isBlank d = false := by simpa using hd
    rw [hwords, firstWord_cons_of_visible hd] at ih
    obtain rfl : w = d :: lead ds := by simpa using ih
    simp [firstWord_cons_of_visible hc, lead_cons_of_visible hd, hwords]

theorem firstWord_collapse (t : Text) :
    firstWord (collapse t) = firstWord t ∧ lead (collapse t) = lead t := by
  fun_induction collapse t with
  | case1 => exact ⟨rfl, rfl⟩
  | case2 c hc =>
    rw [firstWord_cons_of_blank isBlank_space, firstWord_cons_of_blank hc,
      lead_cons_of_blank isBlank_space, lead_cons_of_blank hc]
    exact ⟨rfl, rfl⟩
  | case3 c hc d ds hd ih =>
    rw [firstWord_cons_of_blank hc, ih.1, ih.2, lead_cons_of_blank hc, lead_cons_of_blank hd]
    exact ⟨rfl, rfl⟩
  | case4 c hc d ds hd ih =>
    rw [firstWord_cons_of_blank isBlank_space, ih.1, firstWord_cons_of_blank hc,
      lead_cons_of_blank isBlank_space, lead_cons_of_blank hc]
    exact ⟨rfl, rfl⟩
  | case5 c cs hc ih =>
    have hc : isBlank c = false := by simpa using hc
    rw [firstWord_cons_of_visible hc, firstWord_cons_of_visible hc, lead_cons_of_visible hc,
      lead_cons_of_visible hc, ih.2]
    exact ⟨rfl, rfl⟩

end Reflow.Text

namespace Reflow.Wrap

open Text Tag

variable {w t : Text}

/-! ## Words that need no escape -/

/-- A marker is a single character of four, or consists of digits, points, parentheses and hash
signs. -/
theorem chars_of_escapeWord_ne (hw : Solid w) (h : escapeWord w ≠ w) :
    (∃ c ∈ ['-', '*', '+', '>'], w = [c]) ∨ ∀ c ∈ w, isAsciiDigit c ∨ c ∈ ['.', ')', '#'] := by
  unfold escapeWord at h
  rw [dropFinalNewline_of_solid hw] at h
  by_cases hnumber : isNumberMarker w
  · obtain ⟨ds, e, rfl, _, hds, he⟩ := exists_of_isNumberMarker hnumber
    refine .inr fun c hc => ?_
    rcases mem_append.1 hc with hc | hc
    · exact .inl (hds c hc)
    · obtain rfl : c = e := by simpa using hc
      rcases he with rfl | rfl <;> simp
  · by_cases hbare : isBareMarker w
    · rcases exists_of_isBareMarker hbare with hone | ⟨_, hall⟩
      · exact .inl hone
      · exact .inr fun c hc => .inr (by simp [hall c hc])
    · simp [hnumber, hbare] at h

theorem escapeWord_eq_self_of_mem (hw : Solid w) {d : Char} (hd : d ∈ w)
    (hchar : d ∈ ['`', '[', '{', '}', '<', '\\']) : escapeWord w = w := by
  by_contra h
  have hall : (['`', '[', '{', '}', '<', '\\'].all fun c => !isAsciiDigit c
      && decide (c ∉ ['.', ')', '#']) && decide (c ∉ ['-', '*', '+', '>'])) := by decide
  have hd' := all_eq_true.1 hall d hchar
  simp only [Bool.and_eq_true, Bool.not_eq_true', decide_eq_true_eq] at hd'
  obtain ⟨⟨h₁, h₂⟩, h₃⟩ := hd'
  rcases chars_of_escapeWord_ne hw h with ⟨c, hc, rfl⟩ | hall
  · obtain rfl : d = c := by simpa using hd
    exact h₃ hc
  · rcases hall d hd with h | h
    · rw [h₁] at h
      simp at h
    · exact h₂ h

/-- The word has a delimiter of a tag in it. -/
def HasDelimiter (w : Text) : Prop := ∃ k : TagKind, k.closing <:+: w ∨ k.opening <:+: w

theorem HasDelimiter.escapeWord_eq_self (h : HasDelimiter w) (hw : Solid w) : escapeWord w = w := by
  have hbrace : ∀ {d : Char}, d ∈ ['`', '[', '{', '}', '<', '\\'] → ∀ {u : Text}, d ∈ u →
      u <:+: w → escapeWord w = w :=
    fun hd _ hu hpart => escapeWord_eq_self_of_mem hw (hpart.subset hu) hd
  obtain ⟨k, hclosing | hopening⟩ := h
  · cases k with
    | statement | comment | expression =>
      exact hbrace (d := '}') (by simp) (by simp [TagKind.closing]) hclosing
    | htmlComment =>
      -- a dash and an angle bracket are not in one marker
      by_contra h
      have hdash : '-' ∈ w := hclosing.subset (by simp [TagKind.closing])
      have hangle : '>' ∈ w := hclosing.subset (by simp [TagKind.closing])
      rcases chars_of_escapeWord_ne hw h with ⟨c, _, rfl⟩ | hall
      · rw [mem_singleton] at hdash hangle
        rw [← hdash] at hangle
        exact absurd hangle (by decide)
      · exact absurd (hall '-' hdash) (by decide)
  · obtain ⟨c, u, hc, hmem⟩ := Construct.exists_opening_eq k
    refine hbrace (d := c) ?_ (by rw [hc]; simp) hopening
    rcases (by simpa using hmem : c = '{' ∨ c = '<') with rfl | rfl <;> simp

/-! ## Safe starts -/

/-- The first word of the line needs no escape. -/
def SafeStart (line : Text) : Prop := ∀ w ∈ (words line).head?, escapeWord w = w

theorem solid_firstWord (h : firstWord t ≠ []) : Solid (firstWord t) := by
  constructor
  · obtain ⟨c, w, hw⟩ := exists_cons_of_ne_nil h
    exact ⟨c, w, hw, isBlank_of_mem_firstWord (by rw [hw]; simp)⟩
  · rcases eq_nil_or_concat' (firstWord t) with hnil | ⟨w, d, hw⟩
    · exact absurd hnil h
    · exact ⟨w, d, hw, isBlank_of_mem_firstWord (by rw [hw]; simp)⟩

theorem escapeWord_nil : escapeWord [] = [] := rfl

theorem safeStart_iff : SafeStart t ↔ escapeWord (firstWord t) = firstWord t := by
  unfold SafeStart
  rw [head?_words]
  split
  · next hnil =>
    rw [hnil, escapeWord_nil]
    simp
  · simp

theorem safeStart_of_hasDelimiter (h : HasDelimiter (firstWord t)) : SafeStart t := by
  rw [safeStart_iff]
  by_cases hnil : firstWord t = []
  · rw [hnil, escapeWord_nil]
  · exact h.escapeWord_eq_self (solid_firstWord hnil)

theorem HasDelimiter.cons (h : HasDelimiter w) (c : Char) : HasDelimiter (c :: w) := by
  obtain ⟨k, hk⟩ := h
  exact ⟨k, hk.imp (fun h => h.trans (suffix_cons c w).isInfix)
    fun h => h.trans (suffix_cons c w).isInfix⟩

/-- The two texts begin with the same word, or each with a word that has a delimiter in it. The
same holds of the visible characters in front. -/
structure Alike (s t : Text) : Prop where
  first : firstWord s = firstWord t ∨ HasDelimiter (firstWord s) ∧ HasDelimiter (firstWord t)
  lead : lead s = lead t ∨ HasDelimiter (lead s) ∧ HasDelimiter (lead t)

namespace Alike

variable {s t : Text}

theorem safeStart_iff (h : Alike s t) : SafeStart s ↔ SafeStart t := by
  rcases h.first with h | ⟨hs, ht⟩
  · rw [Wrap.safeStart_iff, Wrap.safeStart_iff, h]
  · exact iff_of_true (safeStart_of_hasDelimiter hs) (safeStart_of_hasDelimiter ht)

theorem cons (h : Alike s t) (c : Char) : Alike (c :: s) (c :: t) := by
  rcases Bool.eq_false_or_eq_true (isBlank c) with hc | hc
  · refine ⟨?_, .inl ?_⟩
    · rw [firstWord_cons_of_blank hc, firstWord_cons_of_blank hc]
      exact h.first
    · rw [lead_cons_of_blank hc, lead_cons_of_blank hc]
  · have hlead : c :: Text.lead s = c :: Text.lead t ∨
        HasDelimiter (c :: Text.lead s) ∧ HasDelimiter (c :: Text.lead t) :=
      h.lead.imp (congrArg (c :: ·)) fun h => ⟨h.1.cons c, h.2.cons c⟩
    constructor
    · rwa [firstWord_cons_of_visible hc, firstWord_cons_of_visible hc]
    · rwa [lead_cons_of_visible hc, lead_cons_of_visible hc]

theorem append_left (h : Alike s t) (a : Text) : Alike (a ++ s) (a ++ t) := by
  induction a with
  | nil => exact h
  | cons c a ih => exact ih.cons c

theorem of_closing (k : TagKind) (s t : Text) : Alike (k.closing ++ s) (k.closing ++ t) := by
  have hvisible : ∀ c ∈ k.closing, isBlank c = false := fun _ => isBlank_of_mem_closing
  have hne : k.closing ≠ [] := by cases k <;> simp [TagKind.closing]
  have hdelimiter : ∀ u : Text, HasDelimiter (k.closing ++ Text.lead u) :=
    fun u => ⟨k, .inl (prefix_append _ _).isInfix⟩
  constructor
  · rw [firstWord_of_visible hvisible hne, firstWord_of_visible hvisible hne]
    exact .inr ⟨hdelimiter s, hdelimiter t⟩
  · rw [lead_of_visible hvisible, lead_of_visible hvisible]
    exact .inr ⟨hdelimiter s, hdelimiter t⟩

/-- **Seams.** Putting other blanks into the seams of a text leaves its start alike. -/
theorem of_reseamed {old new : Text} (h : Tag.Reseamed old new s t) : Alike s t := by
  induction h with
  | nil => exact ⟨.inl rfl, .inl rfl⟩
  | @seam k s t _ _ =>
    rw [seam, seam, append_assoc, append_assoc, append_assoc,
      append_assoc]
    exact of_closing k _ _
  | char _ _ ih => exact ih.cons _

end Alike

theorem alike_rejoin (t : Text) : Alike t (rejoin t) :=
  .of_reseamed (reseamed_apply [' '] [] t)

theorem alike_separate (t : Text) : Alike t (separate t) :=
  .of_reseamed (reseamed_apply [] [' '] t)

end Reflow.Wrap
