import Reflow.Proofs.Escapes

/-!
Wrapping keeps the visible text.

Every pass of wrapping is one of three kinds. Filling lays words out and may put a backslash into
the first word of a line (`marked_paragraphLines`, `marked_lines`). The passes over tags change
blanks only, and softly (`Tag.soft_rejoin`, `Tag.soft_spaceClosings`, `Tag.soft_breakClosings`).
Cutting at hard breaks, at tag lines and at table rows cuts the text into parts that are laid out
one by one and put together again by line feeds (`marked_keepTagLines`, `marked_keepHardBreaks`).
-/

open List

namespace Reflow.Tag

open Text Wrap

/-! ## Passes over tags -/

theorem soft_rejoin (t : Text) : Respaced Soft t (rejoin t) := by
  refine ⟨(visible_rejoin t).symm, fun i _ _ => ?_⟩
  rcases gapAt_rejoin t i with h | ⟨h, h'⟩
  · rw [h]
    exact Soft.refl _
  · rw [h]
    exact ⟨by simp, by simp⟩

/-- Lines of which each has become a block of one or more lines may be joined block by block. -/
theorem unlines_blocks {P : Text → Text → Prop} {ls : List Text} {blocks : List (List Text)}
    (h : Forall₂ (fun l b => b ≠ [] ∧ P l (unlines b)) ls blocks) :
    unlines blocks.flatten = unlines (blocks.map unlines) ∧
      Forall₂ P ls (blocks.map unlines) := by
  have hne : ∀ b ∈ blocks, b ≠ [] := by
    induction h with
    | nil => simp
    | cons hb _ ih => simpa using ⟨hb.1, ih⟩
  refine ⟨joinWith_flatten hne, ?_⟩
  rw [forall₂_map_right_iff]
  exact h.imp fun _ _ hb => hb.2

theorem soft_blocks {ls : List Text} {blocks : List (List Text)}
    (h : Forall₂ (fun l b => b ≠ [] ∧ Respaced Soft l (unlines b)) ls blocks) :
    Respaced Soft (unlines ls) (unlines blocks.flatten) := by
  obtain ⟨heq, hblocks⟩ := unlines_blocks h
  rw [heq]
  exact Respaced.joinWith hblocks (by simp) (by simp) fun x y x' y' => .of_mem (by simp) _

/-- The lines `b` are what becomes of the line `l` when closing tags are spaced: a closing tag is
unindented, with or without an empty line before it. -/
def SpacesClosing (l : Text) (b : List Text) : Prop :=
  b = [l] ∨ isClosing l = true ∧ (b = [stripLeft l] ∨ b = [[], stripLeft l])

theorem exists_spaceClosingsAfter (previous : Option Text) (ls : List Text) :
    ∃ blocks, Forall₂ SpacesClosing ls blocks ∧
      spaceClosingsAfter previous ls = blocks.flatten := by
  fun_induction spaceClosingsAfter previous ls with
  | case1 => exact ⟨[], .nil, rfl⟩
  | case2 previous line rest hclosing closing hcontent ih =>
    obtain ⟨blocks, hblocks, heq⟩ := ih
    exact ⟨[[], closing] :: blocks, .cons (.inr ⟨hclosing, .inr rfl⟩) hblocks, by simp [heq]⟩
  | case3 previous line rest hclosing closing hcontent ih =>
    obtain ⟨blocks, hblocks, heq⟩ := ih
    exact ⟨[closing] :: blocks, .cons (.inr ⟨hclosing, .inl rfl⟩) hblocks, by simp [heq]⟩
  | case4 previous line rest hclosing ih =>
    obtain ⟨blocks, hblocks, heq⟩ := ih
    exact ⟨[line] :: blocks, .cons (.inl rfl) hblocks, by simp [heq]⟩

theorem SpacesClosing.soft {l : Text} {b : List Text} (h : SpacesClosing l b) :
    b ≠ [] ∧ Respaced Soft l (unlines b) := by
  have hstrip : Respaced Soft l (stripLeft l) := .to_stripLeft Soft.refl l
  rcases h with rfl | ⟨_, rfl | rfl⟩
  · exact ⟨by simp, .refl Soft.refl l⟩
  · exact ⟨by simp, hstrip⟩
  · exact ⟨by simp, hstrip.to_blank_append (g := ['\n']) (by simp)⟩

theorem soft_spaceClosings (t : Text) : Respaced Soft t (spaceClosings t) := by
  obtain ⟨blocks, hblocks, heq⟩ := exists_spaceClosingsAfter none (lines t)
  have h := soft_blocks (hblocks.imp fun _ _ => SpacesClosing.soft)
  rwa [unlines_lines, ← heq] at h

theorem cutAtClosing?_eq_append {line before closing : Text}
    (h : cutAtClosing? line = some (before, closing)) : line = before ++ closing := by
  simp only [cutAtClosing?, Option.bind_eq_bind, Option.bind_eq_some_iff, Option.pure_def,
    Option.some.injEq, Prod.mk.injEq] at h
  obtain ⟨⟨front, rest⟩, hfind, gap, _, rfl, rfl⟩ := h
  rw [(Recogniser.find?_eq_some hfind).1, append_assoc, take_append_drop]

theorem soft_breakClosing (line : Text) :
    breakClosing line ≠ [] ∧ Respaced Soft line (unlines (breakClosing line)) := by
  unfold breakClosing
  split
  · exact ⟨by simp, .refl Soft.refl line⟩
  · split
    · next before closing hcut =>
      refine ⟨by simp, ?_⟩
      have hjoin : Respaced Soft (before ++ [] ++ closing)
          (stripRight before ++ ['\n'] ++ stripLeft closing) :=
        (Respaced.to_stripRight Soft.refl before).join (.to_stripLeft Soft.refl closing) (by simp)
          (by simp) fun x y x' y' => .of_mem (by simp) _
      rw [append_nil, ← cutAtClosing?_eq_append hcut] at hjoin
      exact hjoin
    · exact ⟨by simp, .refl Soft.refl line⟩

theorem soft_breakClosings (t : Text) : Respaced Soft t (breakClosings t) := by
  unfold breakClosings
  split
  · next hnil => exact absurd hnil (splitOn_ne_nil _ t)
  · next first rest hcons =>
    have hblocks : Forall₂ (fun l b => b ≠ [] ∧ Respaced Soft l (unlines b)) (first :: rest)
        ([first] :: rest.map breakClosing) := by
      refine .cons ⟨by simp, .refl Soft.refl first⟩ ?_
      rw [forall₂_map_right_iff]
      exact forall₂_same.2 fun l _ => soft_breakClosing l
    have h := soft_blocks hblocks
    rw [← hcons, unlines_lines] at h
    exact h

end Reflow.Tag

namespace Reflow.Wrap

open Text Tag

variable {wrap : LineWrapper} {t : Text}

/-! ## Filling -/

theorem marked_rows {s : Settings} {rows : List Row}
    (hsolid : ∀ w ∈ rows.flatMap Row.words, Solid w) (hne : ∀ r ∈ rows, r.words ≠ []) :
    Marked FirstWord (unlines (rows.map (Row.text s.escape)))
      (unwords (rows.flatMap Row.words)) := by
  have hrows : Forall₂ (Marked FirstWord) (rows.map (Row.text s.escape))
      (rows.map fun r => unwords r.words) := by
    rw [forall₂_map_left_iff, forall₂_map_right_iff]
    exact forall₂_same.2 fun r hr =>
      Row.marked fun w hw => hsolid w (mem_flatMap.2 ⟨r, hr, hw⟩)
  exact (Marked.unlines hrows).source (keeps_rows hne).visible_eq.symm

/-- **A filled paragraph.** It has the visible text of its source and backslashes in first words. -/
theorem marked_paragraphLines (s : Settings) (cols : Columns) (t : Text) :
    Marked FirstWord (unlines (paragraphLines s cols t)) t := by
  rcases Int.lt_or_le 0 cols.width with hwidth | hwidth
  · obtain ⟨rows, hfilled, heq⟩ := paragraphLines_eq s hwidth t
    rw [heq]
    have hmarked := marked_rows (s := s) (hfilled.words_eq ▸ s.solid_words t) hfilled.ne_nil
    rw [hfilled.words_eq] at hmarked
    exact hmarked.source (s.keeps_words t).visible_eq.symm
  · rw [unlines_paragraphLines_of_nonpos s hwidth]
    refine .of_visible_eq ?_
    unfold Settings.trim
    split
    · rw [visible_strip, (s.keeps_prepare t).visible_eq]
    · rw [(s.keeps_prepare t).visible_eq]

/-- **Sentences on lines.** They have the visible text of the source and backslashes in first
words. -/
theorem marked_lines (s : SentenceSettings) (hwidth : 0 < s.width) (first later : Int) (t : Text) :
    Marked FirstWord (unlines (s.lines first later t)) t := by
  obtain ⟨rows, hlaid, heq⟩ := s.lines_eq hwidth first later t
  have hsolid : ∀ w ∈ (s.splitter.split t).flatMap s.filling.words, Solid w := by
    intro w hw
    obtain ⟨u, _, hw⟩ := mem_flatMap.1 hw
    exact s.filling.solid_words u w hw
  rw [heq]
  have hmarked := marked_rows (s := s.filling) (hlaid.words_eq ▸ hsolid) hlaid.ne_nil
  rw [hlaid.words_eq] at hmarked
  exact hmarked.source (s.keeps_words t).visible_eq.symm

theorem marked_fillToWidth (measure : Measure) (markdown : Bool) (width : Int) (t : Text) :
    Marked FirstWord (fillToWidth measure markdown width t {}) t := by
  unfold fillToWidth paragraph
  rw [paragraphAt_eq]
  exact (marked_paragraphLines _ _ t).respaced (soft_rejoin _)

theorem marked_fillBySentence (s : SentenceSettings) (t : Text) :
    Marked FirstWord (fillBySentence s t {}) t := by
  rw [fillBySentence_eq]
  split
  · exact .of_visible_eq
      ((keeps_flat t).visible_eq.trans (Atomic.keeps_words (flat t)).visible_eq).symm
  · have hlines := (marked_lines s (by omega) 0 0 (flat t)).respaced (soft_rejoin _)
    exact hlines.source (keeps_flat t).visible_eq.symm

/-! ## Tag lines and table rows -/

theorem tableRows_empty (ls : List Text) : tableRows {} ls = ls.map (indentRow []) := by
  cases ls <;> rfl

theorem tableRows_eq {ls : List Text} (h : ∀ l ∈ ls, Block.normaliseSeparator l = l) :
    tableRows {} ls = ls := by
  have hrow : ∀ l ∈ ls, indentRow [] l = l := by
    intro l hl
    unfold indentRow
    split
    · rfl
    · exact h l hl
  rw [tableRows_empty]
  exact (map_congr_left hrow).trans (map_id ls)

theorem flatten_segmentsFrom (tags : Bool) (current : List Text) (previous : Text)
    (ls : List Text) : (segmentsFrom tags current previous ls).flatten = current ++ ls := by
  fun_induction segmentsFrom tags current previous ls with
  | case1 => simp
  | case2 current previous line rest _ ih => simp [ih]
  | case3 current previous line rest _ ih => simp [ih]

theorem ne_nil_of_mem_segmentsFrom {tags : Bool} {current : List Text} {previous : Text}
    {ls segment : List Text} (hne : current ≠ [])
    (h : segment ∈ segmentsFrom tags current previous ls) : segment ≠ [] := by
  fun_induction segmentsFrom tags current previous ls with
  | case1 current =>
    obtain rfl : segment = current := by simpa using h
    exact hne
  | case2 current previous line rest _ ih =>
    rcases mem_cons.1 h with rfl | h
    · exact hne
    · exact ih (by simp) h
  | case3 current previous line rest _ ih => exact ih (by simp) h

theorem flatten_segments (ls : List Text) :
    (segments ls).flatten = ls ∧ ∀ segment ∈ segments ls, segment ≠ [] := by
  cases ls with
  | nil => exact ⟨rfl, by simp [segments]⟩
  | cons l ls =>
    exact ⟨flatten_segmentsFrom _ _ _ _, fun _ => ne_nil_of_mem_segmentsFrom (by simp)⟩

theorem unlines_segments (t : Text) : unlines ((segments (lines t)).map unlines) = t := by
  obtain ⟨hflat, hne⟩ := flatten_segments (lines t)
  have hjoin : unlines (segments (lines t)).flatten
      = unlines ((segments (lines t)).map unlines) := joinWith_flatten hne
  rw [← hjoin, hflat, unlines_lines]

theorem contains_newline_of_isMultilineComment (h : isMultilineComment t) :
    t.contains '\n' := by
  have hinner : '\n' ∈ strip t := by
    unfold isMultilineComment at h
    simp only [Bool.and_eq_true] at h
    simpa using h.1.1
  obtain ⟨g, _, hleft⟩ := exists_stripLeft t
  obtain ⟨g', _, hright⟩ := exists_stripRight (stripLeft t)
  have hmem : '\n' ∈ stripLeft t := by
    rw [hright]
    exact mem_append_left _ hinner
  rw [contains_iff_mem, hleft]
  exact mem_append_right _ hmem

/-- **What is done around tags and tables.** A many-line comment is kept. A text of one segment is
wrapped whole, and its lines are broken at closing tags. The segments of any other text are wrapped
one by one, and their closing tags are spaced as well. -/
theorem keepTagLines_cases (wrap : LineWrapper) (t : Text) (i : Indents) :
    (isMultilineComment t ∧ keepTagLines wrap t i = verbatim i (lines t)) ∨
      (isMultilineComment t = false ∧ (∃ segment, segments (lines t) = [segment]) ∧
        keepTagLines wrap t i = breakClosings (wrap t i)) ∨
      isMultilineComment t = false ∧ ∃ first second rest,
        segments (lines t) = first :: second :: rest ∧
          keepTagLines wrap t i = breakClosings (spaceClosings (unlines
            (wrapSegment wrap i first
              :: wrapSegmentsAfter wrap i.later first (second :: rest)))) := by
  unfold keepTagLines
  by_cases hcomment : isMultilineComment t
  · rw [hcomment, contains_newline_of_isMultilineComment hcomment]
    exact .inl ⟨rfl, rfl⟩
  · have hcomment : isMultilineComment t = false := by simpa using hcomment
    right
    rw [hcomment, Bool.and_false]
    rcases hsegments : segments (lines t) with _ | ⟨first, _ | ⟨second, rest⟩⟩
    · -- every text has a line, and so a segment
      have hflat := (flatten_segments (lines t)).1
      rw [hsegments] at hflat
      exact absurd hflat.symm (splitOn_ne_nil '\n' t)
    · exact .inl ⟨rfl, ⟨first, rfl⟩, rfl⟩
    · exact .inr ⟨rfl, first, second, rest, rfl, rfl⟩

theorem verbatim_empty (t : Text) : verbatim {} (lines t) = t := by
  rw [verbatim, Indents.apply_empty, unlines_lines]

theorem keepTagLines_of_comment (wrap : LineWrapper) (h : isMultilineComment t) :
    keepTagLines wrap t {} = t := by
  rcases keepTagLines_cases wrap t {} with ⟨_, heq⟩ | ⟨hnot, _⟩ | ⟨hnot, _⟩
  · rw [heq, verbatim_empty]
  · rw [h] at hnot
    exact absurd hnot (by simp)
  · rw [h] at hnot
    exact absurd hnot (by simp)

/-- The segments after another one are wrapped one by one, each with or without an empty line before
it. Whatever relates every wrapped segment to the segment, and does so with a line feed in front,
relates the parts of the result to the segments. -/
theorem exists_wrapSegmentsAfter {R : Text → Text → Prop} (hempty : ∀ u t, R u t → R ('\n' :: u) t)
    (previous : List Text) {segments : List (List Text)}
    (h : ∀ segment ∈ segments, R (wrapSegment wrap {} segment) (unlines segment)) :
    ∃ blocks, Forall₂ (fun t b => b ≠ [] ∧ R (unlines b) t) (segments.map unlines) blocks ∧
      wrapSegmentsAfter wrap [] previous segments = blocks.flatten := by
  induction segments generalizing previous with
  | nil => exact ⟨[], .nil, rfl⟩
  | cons segment rest ih =>
    obtain ⟨blocks, hblocks, heq⟩ := ih segment fun s hs => h s (by simp [hs])
    have hsegment := h segment (by simp)
    rw [wrapSegmentsAfter]
    split
    · exact ⟨[[], wrapSegment wrap {} segment] :: blocks,
        .cons ⟨by simp, hempty _ _ hsegment⟩ hblocks, by simp [heq]⟩
    · exact ⟨[wrapSegment wrap {} segment] :: blocks, .cons ⟨by simp, hsegment⟩ hblocks,
        by simp [heq]⟩

theorem exists_wrapSegments {R : Text → Text → Prop} (hempty : ∀ u t, R u t → R ('\n' :: u) t)
    {first : List Text} {rest : List (List Text)}
    (h : ∀ segment ∈ first :: rest, R (wrapSegment wrap {} segment) (unlines segment)) :
    ∃ us, Forall₂ R us ((first :: rest).map unlines) ∧
      unlines (wrapSegment wrap {} first :: wrapSegmentsAfter wrap [] first rest) = unlines us := by
  obtain ⟨blocks, hblocks, heq⟩ :=
    exists_wrapSegmentsAfter hempty first fun s hs => h s (mem_cons_of_mem _ hs)
  -- the first segment is a block like the others
  have hall : Forall₂ (fun t b => b ≠ [] ∧ R (unlines b) t) ((first :: rest).map unlines)
      ([wrapSegment wrap {} first] :: blocks) := .cons ⟨by simp, h first (by simp)⟩ hblocks
  obtain ⟨hjoin, hparts⟩ := unlines_blocks (P := fun t u => R u t) hall
  refine ⟨_, hparts.flip, ?_⟩
  rw [heq, ← hjoin]
  rfl

theorem wrapSegment_eq_or (wrap : LineWrapper) {segment : List Text}
    (h : ∀ l ∈ segment, Block.isSeparator l = false) :
    wrapSegment wrap {} segment = unlines segment ∨
      wrapSegment wrap {} segment = wrap (unlines segment) {} := by
  unfold wrapSegment
  split
  · rw [verbatim, Indents.apply_empty]
    exact .inl rfl
  · split
    · rw [tableRows_eq fun l hl => Block.normaliseSeparator_of_not (h l hl)]
      exact .inl rfl
    · exact .inr rfl

section Segments

variable {wrap : LineWrapper} (hwrap : ∀ t, Marked FirstWord (wrap t {}) t)

include hwrap

theorem marked_wrapSegment {segment : List Text} (h : ∀ l ∈ segment, Block.isSeparator l = false) :
    Marked FirstWord (wrapSegment wrap {} segment) (unlines segment) := by
  rcases wrapSegment_eq_or wrap h with heq | heq
  · rw [heq]
    exact .of_visible_eq rfl
  · rw [heq]
    exact hwrap _

/-- **Around tags and tables.** A wrapper that keeps the visible text still does so when the line
feeds next to tags and table rows are kept. -/
theorem marked_keepTagLines {t : Text} (h : ∀ l ∈ lines t, Block.isSeparator l = false) :
    Marked FirstWord (keepTagLines wrap t {}) t := by
  rcases keepTagLines_cases wrap t {} with ⟨_, heq⟩ | ⟨_, _, heq⟩ |
    ⟨_, first, second, rest, hsegments, heq⟩
  · rw [heq, verbatim_empty]
    exact .of_visible_eq rfl
  · rw [heq]
    exact (hwrap t).respaced (soft_breakClosings _)
  · have hflat := (flatten_segments (lines t)).1
    have hsource := unlines_segments t
    rw [hsegments] at hflat hsource
    have hsep : ∀ segment ∈ first :: second :: rest, ∀ l ∈ segment,
        Block.isSeparator l = false := fun segment hsegment l hl =>
      h l (hflat ▸ mem_flatten.2 ⟨segment, hsegment, hl⟩)
    obtain ⟨us, hparts, hjoin⟩ := exists_wrapSegments (R := Marked FirstWord)
      (fun u t hu => ((Marked.of_visible_eq rfl : Marked FirstWord [] []).join hu).source
        (visible_cons_of_blank isBlank_newline _))
      fun segment hsegment => marked_wrapSegment hwrap (hsep segment hsegment)
    have hmarked := Marked.unlines hparts
    rw [hsource, ← hjoin] at hmarked
    rw [heq]
    exact (hmarked.respaced (soft_spaceClosings _)).respaced (soft_breakClosings _)

end Segments

/-! ## Hard breaks -/

/-- A backslash or two spaces before a line feed. -/
def IsHardBreak (sep : Text) : Prop := sep = ['\\', '\n'] ∨ sep = [' ', ' ', '\n']

/-- The parts of a text between hard breaks. -/
inductive HardCut : Text → List Text → Prop
  | last (t : Text) : HardCut t [t]
  | cut (s : Text) {sep t : Text} {ts : List Text} : IsHardBreak sep → HardCut t ts →
      HardCut (s ++ sep ++ t) (s :: ts)

theorem HardCut.exists_cons {ts : List Text} (h : HardCut t ts) : ∃ s rest, ts = s :: rest := by
  cases h with
  | last | cut => exact ⟨_, _, rfl⟩

theorem HardCut.cons {t s : Text} {ts : List Text} (h : HardCut t (s :: ts)) (c : Char) :
    HardCut (c :: t) ((c :: s) :: ts) := by
  cases h with
  | last => exact .last (c :: t)
  | cut _ hsep h => exact .cut (c :: s) hsep h

theorem hardCut_hardSegments (t : Text) : HardCut t (hardSegments t) := by
  fun_induction hardSegments t with
  | case1 => exact .last []
  | case2 rest ih => exact .cut [] (.inl rfl) ih
  | case3 rest ih => exact .cut [] (.inr rfl) ih
  | case4 c cs _ _ hnil ih =>
    rw [hnil] at ih
    cases ih
  | case5 c cs _ _ segment rest hcons ih =>
    rw [hcons] at ih
    exact ih.cons c

theorem Marked.append_hardBreak {out src sep : Text} (h : Marked EscapePlace out src)
    (hsep : IsHardBreak sep) : Marked EscapePlace (out ++ ['\\', '\n']) (src ++ sep) := by
  rcases hsep with rfl | rfl
  · have hbreak : Marked (fun _ _ => False) ['\\', '\n'] ['\\', '\n'] := .of_visible_eq rfl
    exact h.append hbreak (fun i _ hp => hp.append_right _) fun i hp => hp.elim
  · refine h.hardBreak.source ?_
    rw [visible_append, visible_eq_nil (by simp : ∀ c ∈ [' ', ' ', '\n'], isBlank c = true),
      append_nil]

/-- **Hard breaks.** Parts that are wrapped one by one and joined by hard breaks have the visible
text of the source, and backslashes besides. -/
theorem marked_keepHardBreaks (h : ∀ s ∈ hardSegments t, Marked EscapePlace (wrap s {}) s) :
    Marked EscapePlace (keepHardBreaks wrap t {}) t := by
  have key : ∀ {t : Text} {ts : List Text}, HardCut t ts →
      (∀ s ∈ ts, Marked EscapePlace (wrap s {}) s) → ∀ s rest, ts = s :: rest →
        Marked EscapePlace (wrap s {} ++ wrapLaterSegments wrap [] rest) t := by
    intro t ts hcut
    induction hcut with
    | last t =>
      intro hmarked s rest hts
      obtain ⟨rfl, rfl⟩ := cons.inj hts
      simpa [wrapLaterSegments] using hmarked t (by simp)
    | @cut s sep t ts hsep hcut ih =>
      intro hmarked s' rest hts
      obtain ⟨rfl, rfl⟩ := cons.inj hts
      obtain ⟨u, us, rfl⟩ := hcut.exists_cons
      have hfront := (hmarked s (by simp)).append_hardBreak hsep
      have hrest := ih (fun v hv => hmarked v (by simp [hv])) u us rfl
      have hjoin := hfront.append hrest (fun i _ hp => hp.append_right _)
        fun i hp => hp.after_line (by simp)
      simpa [wrapLaterSegments] using hjoin
  obtain ⟨s, rest, hcons⟩ := (hardCut_hardSegments t).exists_cons
  have hmarked := key (hardCut_hardSegments t) h s rest hcons
  unfold keepHardBreaks
  rw [hcons]
  exact hmarked

theorem marked_forMarkdown (hwrap : ∀ t, Marked FirstWord (wrap t {}) t)
    (h : ∀ segment ∈ hardSegments t, ∀ line ∈ lines segment, Block.isSeparator line = false) :
    Marked EscapePlace (forMarkdown wrap t {}) t :=
  marked_keepHardBreaks fun segment hsegment =>
    (marked_keepTagLines hwrap (h segment hsegment)).escapePlace

/-! ## Main result -/

/-- **Wrapping never loses, adds or reorders visible text.** Where nothing is escaped, a wrapped
paragraph and a text wrapped by sentence have the visible text of their source, whatever the width,
the columns and the settings. The Markdown wrappers add backslashes and nothing else: the visible
text of the source is left when the marked ones are deleted, and each of these stands at the end of
a line or in the first word of a line. Separator rows of tables are rewritten, so none may occur. -/
theorem visible_text_of_wrapping :
    (∀ (s : Settings) (width column : Int) (t : Text),
        visible (paragraphAt { s with markdown := false } width column {} t) = visible t) ∧
      (∀ (s : SentenceSettings) (t : Text),
        visible (bySentence { s with markdown := false } t {}) = visible t) ∧
      ∀ t : Text, (∀ segment ∈ hardSegments t, ∀ line ∈ lines segment,
          Block.isSeparator line = false) →
        (∀ (measure : Measure) (width : Int),
          Marked EscapePlace (toWidth measure true width t {}) t) ∧
        ∀ s : SentenceSettings,
          Marked EscapePlace (bySentence { s with markdown := true } t {}) t := by
  refine ⟨fun s width column t => ?_, fun s t => ?_,
    fun t h => ⟨fun measure width => ?_, fun s => ?_⟩⟩
  · rw [paragraphAt_eq, visible_rejoin]
    exact (keeps_paragraphLines rfl _ t).visible_eq.symm
  · have hfill : bySentence { s with markdown := false } t {}
        = fillBySentence { s with markdown := false } t {} := rfl
    rw [hfill, fillBySentence_eq]
    split
    · rw [← (Atomic.keeps_words (flat t)).visible_eq, ← (keeps_flat t).visible_eq]
    · next hwidth =>
      rw [visible_rejoin, ← (SentenceSettings.keeps_lines rfl (by simpa using hwidth) 0 0
        (flat t)).visible_eq, ← (keeps_flat t).visible_eq]
  · exact marked_forMarkdown (marked_fillToWidth measure true width) h
  · exact marked_forMarkdown (marked_fillBySentence { s with markdown := true }) h

/-- A bullet that comes to start a line, and a hard break of two spaces. -/
theorem visible_text_of_bullet_and_break :
    (∀ segment ∈ hardSegments ['a', ' ', '-', ' ', 'b', ' ', ' ', '\n', 'c'],
        ∀ line ∈ lines segment, Block.isSeparator line = false) ∧
      Marked EscapePlace
        (toWidth .codePoints true 1 ['a', ' ', '-', ' ', 'b', ' ', ' ', '\n', 'c'] {})
        ['a', ' ', '-', ' ', 'b', ' ', ' ', '\n', 'c'] :=
  ⟨by decide, (visible_text_of_wrapping.2.2 _ (by decide)).1 .codePoints 1⟩

end Reflow.Wrap
