import Reflow.Proofs.PlainParagraphs
import Reflow.Proofs.SentenceGroups
import Reflow.Proofs.SentenceRuns

/-!
How wide sentences on indented lines get.

The lines of one sentence are filled with the indent counted (`fits_of_mem_sentenceLines`). Whether
the next sentence goes on in the line of the one before it is decided by the lengths without the
indent, so a line that took up a sentence may reach beyond the width by as much as the indent is
long (`Within`). A sentence that another one follows has three visible characters at least
(`Ended`).
-/

namespace Reflow.Wrap

open Text Tag Sentence Relaid Atomic

variable {t : Text} {c : Char}

/-! ## Indents -/

/-- Both indents are `n` characters of one line. -/
structure Indents.OfLength (i : Indents) (n : Nat) : Prop where
  first : i.first.length = n ∧ '\n' ∉ i.first
  later : i.later.length = n ∧ '\n' ∉ i.later

/-- What stands in front of line `j`. -/
def Indents.ofLine (i : Indents) (j : Nat) : Text := if j = 0 then i.first else i.later

theorem Indents.getElem?_apply (i : Indents) (ls : List Text) (j : Nat) :
    (i.apply ls)[j]? = ls[j]?.map (i.ofLine j ++ ·) := by
  cases ls with
  | nil => rfl
  | cons l ls => cases j <;> simp [Indents.apply, Indents.ofLine]

theorem Indents.OfLength.ofLine {i : Indents} {n : Nat} (h : i.OfLength n) (j : Nat) :
    (i.ofLine j).length = n ∧ '\n' ∉ i.ofLine j := by
  unfold Indents.ofLine
  split
  · exact h.first
  · exact h.later

/-- Of five characters one at most is lost, the space of a seam. -/
theorem length_rejoin (t : Text) :
    (rejoin t).length ≤ t.length ∧ 4 * t.length ≤ 5 * (rejoin t).length := by
  have hlength : ∀ {s u : Text}, Reseamed [' '] [] s u →
      u.length ≤ s.length ∧ 4 * s.length ≤ 5 * u.length := by
    intro s u h
    induction h with
    | nil => exact ⟨Nat.le_refl _, Nat.le_refl _⟩
    | seam k _ ih =>
      cases k <;>
        simp only [seam, TagKind.closing, TagKind.opening, List.length_append, List.length_cons,
          List.length_nil] <;> omega
    | char _ _ ih =>
      simp only [List.length_cons]
      omega
  exact hlength (reseamed_apply [' '] [] t)

/-! ## The lines of one sentence -/

namespace SentenceSettings

variable {s : SentenceSettings}

theorem sentenceLines_eq_breakWords (hs : s.markdown = false) (hwidth : 0 < s.width)
    (column later : Int) (u : Text) :
    s.sentenceLines column later u
      = (breakWords Measure.codePoints.of id ⟨s.width, column, later⟩ [] column (lineWords u)).map
          unwords := by
  have hcols : 0 < (⟨s.width, column, later⟩ : Columns).width := hwidth
  have hlines := paragraphLines_eq_breakWords s.filling hcols u
  rw [s.filling.escape_of_plain hs] at hlines
  exact hlines

/-- **A line of one sentence fits**, or is a single word. -/
theorem fits_of_mem_sentenceLines (hs : s.markdown = false) (hwidth : 0 < s.width)
    {column later : Int} (hcolumn : later ≤ column) {u l : Text}
    (hl : l ∈ s.sentenceLines column later u) : later + l.length ≤ s.width ∨ l ∈ lineWords u := by
  rw [sentenceLines_eq_breakWords hs hwidth] at hl
  obtain ⟨r, hr, rfl⟩ := List.mem_map.1 hl
  obtain ⟨hflatten, hne⟩ :=
    flatten_breakWords .codePoints ⟨s.width, column, later⟩ column (lineWords u)
  rcases fits_of_mem_breakWords (by simpa [unwords, joinWith] using hcolumn) (.inr (by simp)) hr
    with hsingle | hfits
  · right
    have hpos := List.length_pos_iff.2 (hne r hr)
    obtain ⟨w, rfl⟩ := List.length_eq_one_iff.1 (Nat.le_antisymm hsingle hpos)
    rw [← hflatten]
    exact List.mem_flatten.2 ⟨[w], hr, List.mem_singleton_self w⟩
  · rw [Measure.of_codePoints] at hfits
    exact .inl hfits

theorem unwords_sentenceLines (hs : s.markdown = false) (hwidth : 0 < s.width)
    (column later : Int) (u : Text) : unwords (s.sentenceLines column later u) = oneLine u := by
  obtain ⟨hflatten, hne⟩ :=
    flatten_breakWords .codePoints ⟨s.width, column, later⟩ column (lineWords u)
  rw [sentenceLines_eq_breakWords hs hwidth]
  exact (joinWith_flatten hne).symm.trans (congrArg _ hflatten)

end SentenceSettings

/-! ## How sentences end -/

/-- The text ends in three visible characters, the first of them none of a delimiter. -/
def Ended (u : Text) : Prop :=
  ∃ a x y z, u = a ++ [x, y, z] ∧ (∀ k, x ∉ seam [] k) ∧ ∀ c ∈ [x, y, z], isBlank c = false

theorem Ended.append {u : Text} (h : Ended u) (b : Text) : Ended (b ++ u) := by
  obtain ⟨a, x, y, z, rfl, hx, hvisible⟩ := h
  exact ⟨b ++ a, x, y, z, by simp, hx, hvisible⟩

theorem letter_of_mem_seam {k : TagKind} (h : c ∈ seam [] k) :
    isLowercase c = false ∧ isSentenceLetter c = false := by
  have hall : ((seam [] k).all fun d => !isLowercase d && !isSentenceLetter d) := by
    cases k <;> decide +kernel
  simpa using List.all_eq_true.1 hall c h

theorem exists_of_endsInLetters {b : Text} (h : endsInLetters b) :
    ∃ last before rest, b = last :: before :: rest ∧ isLowercase last ∧
      isSentenceLetter before := by
  rcases b with _ | ⟨last, _ | ⟨before, rest⟩⟩
  · simp [endsInLetters] at h
  · simp [endsInLetters] at h
  · simp only [endsInLetters, Bool.and_eq_true] at h
    exact ⟨last, before, rest, rfl, h.1.1, h.1.2⟩

/-- Read backwards, what ends a sentence is two characters that may end one and then a letter. -/
theorem exists_of_endsBackwards {b : Text} (h : endsBackwards b) :
    ∃ z y x rest, b = z :: y :: x :: rest ∧ isDull z = false ∧ isDull y = false ∧
      (isLowercase x ∨ isSentenceLetter x) := by
  have hdull : ∀ {c : Char}, isLowercase c ∨ isCloser c ∨ isEndMark c →
      isDull c = false := by
    intro c hc
    rcases hc with hc | hc | hc
    all_goals simp [isDull, hc]
  rcases b with _ | ⟨z, b⟩
  · simp [endsBackwards] at h
  · rw [endsBackwards.eq_def] at h
    simp only at h
    -- the end mark may stand last, with or without a closer before it, or stand before a closer
    by_cases hz : isEndMark z
    · rw [if_pos hz, Bool.or_eq_true] at h
      rcases h with h | h
      · obtain ⟨y, x, rest, rfl, hy, hx⟩ := exists_of_endsInLetters h
        exact ⟨z, y, x, rest, rfl, hdull (.inr (.inr hz)), hdull (.inl hy), .inr hx⟩
      · rcases b with _ | ⟨y, b⟩
        · simp at h
        · simp only [Bool.and_eq_true] at h
          obtain ⟨x, _, rest, rfl, hx, _⟩ := exists_of_endsInLetters h.2
          exact ⟨z, y, x, _, rfl, hdull (.inr (.inr hz)), hdull (.inr (.inl h.1)), .inl hx⟩
    · rw [if_neg hz] at h
      rcases b with _ | ⟨y, b⟩
      · simp at h
      · simp only [Bool.and_eq_true] at h
        obtain ⟨x, _, rest, rfl, hx, _⟩ := exists_of_endsInLetters h.2.2
        exact ⟨z, y, x, _, rfl, hdull (.inr (.inl h.1)), hdull (.inr (.inr h.2.1)), .inl hx⟩

theorem isBlank_of_not_dull (h : isDull c = false) : isBlank c = false := by
  by_contra hblank
  rw [isDull_of_isBlank (by simpa using hblank)] at h
  simp at h

theorem isBlank_of_letter (h : isLowercase c ∨ isSentenceLetter c) : isBlank c = false := by
  rcases h with h | h
  · exact isBlank_of_not_dull (by simp [isDull, h])
  · by_contra hblank
    rw [isSentenceLetter_of_isBlank (by simpa using hblank)] at h
    simp at h

/-- **What ends a sentence** is three characters at least. -/
theorem ended_of_isEnd {w : Text} (hw : Solid w) (h : isEnd w) : Ended w := by
  rw [isEnd_of_solid hw] at h
  obtain ⟨z, y, x, rest, hreverse, hz, hy, hx⟩ := exists_of_endsBackwards h
  refine ⟨rest.reverse, x, y, z, ?_, ?_, ?_⟩
  · rw [← List.reverse_reverse w, hreverse]
    simp
  · intro k hk
    simp [letter_of_mem_seam hk] at hx
  · simp [isBlank_of_letter hx, isBlank_of_not_dull hy, isBlank_of_not_dull hz]

theorem isSuffix_of_cut {constructs : List Construct} {ws : List Text} (h : Cut constructs t ws) :
    ∀ w ∈ ws.getLast?, w <:+ t := by
  induction h with
  | last _ _ =>
    simp_all
  | @cons v g t ws _ _ _ hcut ih =>
    intro w hw
    rw [List.getLast?_cons_of_ne_nil hcut.ne_nil] at hw
    exact (ih w hw).trans (List.suffix_append _ _)

theorem ended_of_sentenceCut {ss : List Text} (h : SentenceCut t ss) :
    ∀ u ∈ ss.dropLast, Ended u := by
  induction h with
  | last _ _ => simp
  | @cons u g t ws ss hcut _ hend _ hss ih =>
    intro v hv
    rw [List.dropLast_cons_of_ne_nil hss.ne_nil] at hv
    rcases List.mem_cons.1 hv with rfl | hv
    · obtain ⟨w, hw, hend⟩ := hend
      obtain ⟨a, rfl⟩ := isSuffix_of_cut hcut w hw
      exact (ended_of_isEnd (hcut.solid_words w (List.mem_of_mem_getLast? hw)) hend).append a
    · exact ih v hv

theorem ended_of_mem_splitProse (t : Text) : ∀ u ∈ (splitProse t 0 isEnd).dropLast, Ended u := by
  rcases splitProse_cases t with ⟨hnil, _⟩ | ⟨core, hcut, _⟩
  · simp [hnil]
  · exact ended_of_sentenceCut hcut

theorem collapse_suffix_cons (c : Char) (t : Text) : collapse t <:+ collapse (c :: t) := by
  rw [collapse.eq_def (c :: t)]
  by_cases hc : isBlank c
  · cases t with
    | nil => simp [collapse]
    | cons d t =>
      simp only [hc, if_true]
      split
      · exact List.suffix_refl _
      · exact List.suffix_cons _ _
  · simp only [hc]
    exact List.suffix_cons _ _

theorem collapse_suffix_append (a t : Text) : collapse t <:+ collapse (a ++ t) := by
  induction a with
  | nil => exact List.suffix_refl _
  | cons c a ih => exact ih.trans (collapse_suffix_cons c (a ++ t))

theorem Ended.oneLine {u : Text} (hu : Solid u) (h : Ended u) :
    ∃ a e, oneLine u = a ++ e ∧ e.length = 3 ∧ ∀ c ∈ e, isBlank c = false := by
  obtain ⟨a, x, y, z, rfl, hx, hvisible⟩ := h
  obtain ⟨b, hb⟩ := collapse_suffix_append a [x, y, z]
  rw [collapse_of_visible hvisible] at hb
  -- two characters are too few for a seam
  have hshort : separate [y, z] = [y, z] := by
    apply reseam_eq_self
    intro k hk
    have hlen := hk.length_le
    cases k <;> simp [seam, TagKind.closing, TagKind.opening] at hlen
  refine ⟨separate b, [x, y, z], ?_, rfl, hvisible⟩
  rw [oneLine_eq hu, separated, ← hb]
  exact (reseam_append_cons hx b [y, z]).trans (congrArg (fun e => separate b ++ x :: e) hshort)

theorem three_le_length_of_unwords {ls : List Text} {a e : Text} (h : unwords ls = a ++ e)
    (hlen : e.length = 3) (hvisible : ∀ c ∈ e, isBlank c = false) :
    ∀ l ∈ ls.getLast?, 3 ≤ l.length := by
  intro l hl
  obtain ⟨init, rfl⟩ := List.getLast?_eq_some_iff.1 hl
  by_cases hinit : init = []
  · subst hinit
    have hlength := congrArg List.length h
    simp only [List.nil_append, unwords, joinWith, List.length_append] at hlength
    omega
  · rw [unwords_append hinit (by simp)] at h
    -- a shorter line would have the space before it among the last three
    by_contra hlt
    have hspace : ' ' :: l <:+ unwords init ++ [' '] ++ unwords [l] :=
      ⟨unwords init, by simp [unwords, joinWith]⟩
    have hsuffix : ' ' :: l <:+ e :=
      List.suffix_of_suffix_length_le hspace (h ▸ List.suffix_append a e)
        (by simp only [List.length_cons]; omega)
    have hblank := hvisible ' ' (hsuffix.subset (by simp))
    simp at hblank

/-! ## Adding sentences -/

namespace SentenceSettings

variable {s : SentenceSettings}

theorem three_le_length_sentenceLines (hs : s.markdown = false) (hwidth : 0 < s.width)
    (column later : Int) {u : Text} (hu : Solid u) (hended : Ended u) :
    ∀ l ∈ (s.sentenceLines column later u).getLast?, 3 ≤ l.length := by
  obtain ⟨a, e, hline, hlen, hvisible⟩ := hended.oneLine hu
  exact three_le_length_of_unwords ((unwords_sentenceLines hs hwidth column later u).trans hline)
    hlen hvisible

theorem exists_addLines (n : Nat) (ls : List Text) (u : Text) :
    ∃ column : Int, n ≤ column ∧
      s.addSentence n n ls u = s.addLines ls (s.sentenceLines column n u) := by
  unfold addSentence addLines
  cases ls.getLast? with
  | none => exact ⟨n, Int.le_refl _, rfl⟩
  | some last =>
    refine ⟨_, ?_, rfl⟩
    all_goals omega

/-- The line, at column `k`, keeps the width, or it is a single word of one of the sentences. -/
def Within (s : SentenceSettings) (k : Int) (ss : List Text) (l : Text) : Prop :=
  k + l.length ≤ s.width ∨ ∃ u ∈ ss, l ∈ lineWords u

/-- A line takes up a sentence only if there is room for it without an indent. So the lines keep the
width at the margin, and at column `k` if no line takes up anything. -/
theorem within_addLines (hmeasure : s.measure = .codePoints) {k : Int} {ss ls rows : List Text}
    (hls : ∀ l ∈ ls, s.Within k ss l) (hrows : ∀ l ∈ rows, s.Within k ss l ∧ l ≠ [])
    (hroom : k ≤ 0 ∨ ∀ last ∈ ls.getLast?, s.isShort last → s.width < last.length + 2) :
    ∀ l ∈ s.addLines ls rows, s.Within k ss l := by
  rcases List.eq_nil_or_concat' ls with rfl | ⟨init, last, rfl⟩
  · exact fun l hl => (hrows l hl).1
  · rw [addLines_concat]
    have hinit : ∀ l ∈ init ++ rows, s.Within k ss l := by
      intro l hl
      rcases List.mem_append.1 hl with hl | hl
      · exact hls l (by simp [hl])
      · exact (hrows l hl).1
    have hlast := hls last (by simp)
    rcases rows with _ | ⟨row, rows⟩
    · exact hls
    · rw [joinLines, hmeasure]
      split
      · next htakes =>
        simp only [Measure.of_codePoints, Bool.and_eq_true, decide_eq_true_eq] at htakes
        intro l hl
        rcases List.mem_append.1 hl with hl | hl
        · exact hinit l (by simp [hl])
        · rcases List.mem_cons.1 hl with rfl | hl
          · -- the line that takes up the sentence
            have hpos := List.length_pos_iff.2 (hrows row (by simp)).2
            left
            simp only [List.length_append, List.length_singleton]
            rcases hroom with hk | hroom
            · omega
            · have hnone := hroom last (by simp) htakes.1
              omega
          · exact hinit l (by simp [hl])
      · intro l hl
        have hmem : l ∈ init ++ row :: rows ∨ l = last := by
          simp only [List.mem_append, List.mem_cons] at hl ⊢
          tauto
        rcases hmem with hmem | rfl
        · exact hinit l hmem
        · exact hlast

theorem three_le_length_addLines {ls rows : List Text} (hne : rows ≠ [])
    (hrows : ∀ l ∈ rows.getLast?, 3 ≤ l.length) :
    ∀ l ∈ (s.addLines ls rows).getLast?, 3 ≤ l.length := by
  rcases List.eq_nil_or_concat' ls with rfl | ⟨init, last, rfl⟩
  · exact hrows
  · obtain ⟨row, rows, rfl⟩ := List.exists_cons_of_ne_nil hne
    rw [addLines_concat, List.getLast?_append_of_ne_nil _ (joinLines_ne_nil _ _), joinLines]
    split
    · by_cases hnil : rows = []
      · subst hnil
        have hrow := hrows row rfl
        intro l hl
        obtain rfl : last ++ [' '] ++ row = l := by simpa using hl
        simp only [List.length_append]
        omega
      · rw [List.getLast?_cons_of_ne_nil hnil] at hrows ⊢
        exact hrows
    · exact hrows

/-- **All sentences.** At column `k` the lines keep the width if `k` is the margin, or if no line of
three characters takes up a sentence. -/
theorem within_foldl (hs : s.markdown = false) (hmeasure : s.measure = .codePoints)
    (hwidth : 0 < s.width) {n : Nat} {k : Int} (hk : k ≤ n) {ss todo ls : List Text}
    (htodo : ∀ u ∈ todo, u ∈ ss ∧ Solid u) (hls : ∀ l ∈ ls, s.Within k ss l)
    (hroom : k ≤ 0 ∨ (s.minLineLength ≤ 3 ∨ s.width ≤ 4) ∧ (∀ u ∈ todo.dropLast, Ended u) ∧
      (todo ≠ [] → ∀ l ∈ ls.getLast?, 3 ≤ l.length)) :
    ∀ l ∈ todo.foldl (s.addSentence n n) ls, s.Within k ss l := by
  induction todo generalizing ls with
  | nil => exact hls
  | cons u todo ih =>
    obtain ⟨hu, hsolid⟩ := htodo u (by simp)
    obtain ⟨column, hcolumn, heq⟩ := exists_addLines (s := s) n ls u
    have hne := sentenceLines_ne_nil hwidth column n hsolid
    rw [List.foldl_cons, heq]
    apply ih (fun v hv => htodo v (by simp [hv]))
    · apply within_addLines hmeasure hls
      · intro l hl
        refine ⟨?_, (solid_of_mem_sentenceLines hwidth hl).ne_nil⟩
        rcases fits_of_mem_sentenceLines hs hwidth hcolumn hl with hfits | hword
        · left
          omega
        · exact .inr ⟨u, hu, hword⟩
      · rcases hroom with hmargin | ⟨hnarrow, _, hlong⟩
        · exact .inl hmargin
        · right
          intro last hlast hshort
          have hlen := hlong (by simp) last hlast
          rw [isShort, hmeasure, Measure.of_codePoints, decide_eq_true_eq] at hshort
          omega
    · rcases hroom with hmargin | ⟨hnarrow, hended, _⟩
      · exact .inl hmargin
      · refine .inr ⟨hnarrow, fun v hv => hended v ?_, fun hnil => ?_⟩
        · by_cases hnil : todo = []
          · subst hnil
            simp at hv
          · rw [List.dropLast_cons_of_ne_nil hnil]
            exact List.mem_cons_of_mem _ hv
        · -- another sentence follows, so this one is ended
          have hmem : u ∈ (u :: todo).dropLast := by
            rw [List.dropLast_cons_of_ne_nil hnil]
            simp
          exact three_le_length_addLines hne
            (three_le_length_sentenceLines hs hwidth column n hsolid (hended u hmem))

end SentenceSettings

/-! ## Lines of the output -/

/-- **Every line**, its indent included, reaches `bound` at most, or it is its indent and a single
word of one of the sentences, tags rejoined. -/
def LinesWithin (s : SentenceSettings) (bound : Int) (t : Text) (i : Indents) : Prop :=
  ∀ j l, (lines (bySentence s t i))[j]? = some l →
    (l.length : Int) ≤ bound ∨
      ∃ u ∈ s.splitter.split (flat t), ∃ w ∈ lineWords u, l = rejoin (i.ofLine j ++ w)

section Output

variable {s : SentenceSettings} {i : Indents} {n : Nat}

theorem newline_not_mem_lines_of_plain (hs : s.markdown = false) (hwidth : 0 < s.width)
    (first later : Int) (t : Text) : ∀ l ∈ s.lines first later t, '\n' ∉ l := by
  obtain ⟨rows, hlaid, heq⟩ := s.lines_eq hwidth first later t
  rw [heq]
  intro l hl
  obtain ⟨r, hr, rfl⟩ := List.mem_map.1 hl
  have hplain : s.filling.markdown = false := hs
  rw [Row.text_of_plain hplain]
  intro hmem
  rcases mem_joinWith hmem with hmem | ⟨w, hw, hmem⟩
  · simp at hmem
  · obtain ⟨u, hu⟩ := hlaid.exists_lineWords hr w hw
    exact newline_not_mem_lineWords hu hmem

theorem bySentence_eq (hs : s.markdown = false) (hmeasure : s.measure = .codePoints)
    (hwidth : 0 < s.width) (hi : i.OfLength n) (t : Text) :
    bySentence s t i = unlines ((i.apply (s.lines n n (flat t))).map rejoin) := by
  have hfill : bySentence s = fillBySentence s := by
    rw [bySentence, hs]
    rfl
  rw [hfill, fillBySentence]
  rw [if_neg (by omega), hmeasure, Measure.of_codePoints, Measure.of_codePoints, hi.first.1,
    hi.later.1, rejoin_unlines]
  rfl

/-- Behind its indent, a line of the output is one of the lines that were laid. -/
theorem exists_line_of_output (hs : s.markdown = false) (hmeasure : s.measure = .codePoints)
    (hwidth : 0 < s.width) (hi : i.OfLength n) {t : Text} {j : Nat} {l : Text}
    (hl : (lines (bySentence s t i))[j]? = some l) :
    l = [] ∨ ∃ c ∈ s.lines n n (flat t), l = rejoin (i.ofLine j ++ c) := by
  have hget : ∀ k, ((i.apply (s.lines n n (flat t))).map rejoin)[k]?
      = (s.lines n n (flat t))[k]?.map fun c => rejoin (i.ofLine k ++ c) := by
    intro k
    rw [List.getElem?_map, Indents.getElem?_apply, Option.map_map]
    rfl
  rw [bySentence_eq hs hmeasure hwidth hi] at hl
  by_cases hnil : s.lines n n (flat t) = []
  · rw [hnil] at hl
    have hmem : l ∈ lines (unlines ((i.apply []).map rejoin)) := List.mem_of_getElem? hl
    left
    simpa [Indents.apply, unlines, joinWith, lines, splitOn] using hmem
  · right
    have hsingle : ∀ l ∈ (i.apply (s.lines n n (flat t))).map rejoin, '\n' ∉ l := by
      intro l hl
      obtain ⟨k, hk⟩ := List.getElem?_of_mem hl
      rw [hget] at hk
      obtain ⟨c, hc, rfl⟩ := Option.map_eq_some_iff.1 hk
      apply newline_not_mem_rejoin
      rw [List.mem_append, not_or]
      exact ⟨(hi.ofLine k).2,
        newline_not_mem_lines_of_plain hs hwidth n n (flat t) c (List.mem_of_getElem? hc)⟩
    have hne : (i.apply (s.lines n n (flat t))).map rejoin ≠ [] := by
      obtain ⟨c, cs, hcs⟩ := List.exists_cons_of_ne_nil hnil
      simp [hcs, Indents.apply]
    rw [lines_unlines hne hsingle, hget] at hl
    obtain ⟨c, hc, rfl⟩ := Option.map_eq_some_iff.1 hl
    exact ⟨c, List.mem_of_getElem? hc, rfl⟩

/-- Lines that keep the width at column `k` reach beyond it by what the indent is longer than
`k`. -/
theorem linesWithin (hs : s.markdown = false) (hmeasure : s.measure = .codePoints)
    (hsplit : s.splitter = .prose) (hwidth : 0 < s.width) (hi : i.OfLength n) {k : Nat} (hk : k ≤ n)
    (hroom : k = 0 ∨ s.minLineLength ≤ 3 ∨ s.width ≤ 4) (t : Text) :
    LinesWithin s (s.width + (n - k)) t i := by
  intro j l hl
  rcases exists_line_of_output hs hmeasure hwidth hi hl with rfl | ⟨c, hc, rfl⟩
  · simp only [List.length_nil]
    omega
  · rw [SentenceSettings.lines_eq_foldl hsplit] at hc
    have hsolid := (strewn_splitProse (flat t) 0 isEnd).2
    have hwithin := SentenceSettings.within_foldl hs hmeasure hwidth (k := k) (by omega)
      (fun u hu => ⟨hu, hsolid u hu⟩) (by simp)
      (hroom.imp (by omega) fun hnarrow =>
        ⟨hnarrow, ended_of_mem_splitProse (flat t), by simp⟩) c hc
    rcases hwithin with hfits | ⟨u, hu, hword⟩
    · have hlength := (length_rejoin (i.ofLine j ++ c)).1
      rw [List.length_append, (hi.ofLine j).1] at hlength
      omega
    · refine .inr ⟨u, ?_, c, hword, rfl⟩
      rw [hsplit]
      exact hu

end Output

/-! ## Two plain words -/

/-- The characters that some construct may begin with. -/
def starters : List Char := ['`', '[', '<', 'h', 'w', '{']

/-- A word that nothing is recognised in. -/
structure PlainWord (w : Text) : Prop where
  ne_nil : w ≠ []
  visible : ∀ c ∈ w, isBlank c = false
  unstarted : ∀ c ∈ w, ∀ k : Construct, c ∉ k.firstChars

theorem marks_of_unstarted {constructs : List Construct}
    (h : ∀ c ∈ t, ∀ k : Construct, c ∉ k.firstChars) :
    marks constructs t = t.map fun c => (c, false) := by
  induction t with
  | nil => simp [marks, Atomic.pieces]
  | cons c t ih =>
    have hnone : recognise? constructs (c :: t) = none := by
      cases hrec : recognise? constructs (c :: t) with
      | none => rfl
      | some p =>
        obtain ⟨d, u, hd, hfirst⟩ :=
          p.1.startsIn_recogniser _ _ (recognise?_eq_some hrec).2
        obtain ⟨rfl, _⟩ := List.cons.inj hd
        exact absurd hfirst (h c (by simp) p.1)
    rw [marks_of_none hnone, ih fun d hd => h d (by simp [hd]), List.map_cons]

namespace PlainWord

variable {w : Text}

theorem uncut (h : PlainWord w) (constructs : List Construct) : Uncut constructs w := by
  intro m hm
  rw [marks_of_unstarted h.unstarted] at hm
  obtain ⟨c, hc, rfl⟩ := List.mem_map.1 hm
  simp [isGap, h.visible c hc]

theorem unopened (h : PlainWord w) : Unopened w :=
  ⟨fun hc => h.unstarted _ hc (.tag .statement) (by simp [Construct.firstChars]),
    fun hc => h.unstarted _ hc .htmlOpen (by simp [Construct.firstChars])⟩

theorem newline_not_mem (h : PlainWord w) : '\n' ∉ w := by
  intro hmem
  have hblank := h.visible _ hmem
  simp at hblank

theorem of_all (hne : w ≠ [])
    (h : (w.all fun c => !isBlank c && !starters.contains c)) : PlainWord w := by
  have hall : ∀ c ∈ w, isBlank c = false ∧ c ∉ starters := by
    intro c hc
    simpa using List.all_eq_true.1 h c hc
  refine ⟨hne, fun c hc => (hall c hc).1, fun c hc k hk => (hall c hc).2 ?_⟩
  cases k <;> simp_all [Construct.firstChars, starters]

theorem lineWords_eq (h : PlainWord w) : lineWords w = [w] := by
  have hseparated : separated w = w := by
    rw [separated, collapse_of_visible h.visible]
    apply reseam_eq_self
    intro k hk
    exact h.unopened.not_isInfix k ((List.suffix_append _ _).isInfix.trans hk)
  rw [lineWords, hseparated, words_of_uncut (h.uncut _) h.ne_nil]
  rfl

theorem sentenceLines_eq (h : PlainWord w) {s : SentenceSettings} (hs : s.markdown = false)
    (hwidth : 0 < s.width) (column later : Int) : s.sentenceLines column later w = [w] := by
  rw [SentenceSettings.sentenceLines_eq_breakWords hs hwidth, h.lineWords_eq]
  simp [breakWords, unwords, joinWith]

end PlainWord

theorem splitProse_of_two_words {v w : Text} (hv : PlainWord v) (hw : PlainWord w)
    (hend : isEnd v) : splitProse (v ++ ' ' :: w) 0 isEnd = [v, w] := by
  have hcut : ∀ {x : Text}, PlainWord x → Cut Construct.prose x [x] := fun hx =>
    .last (solid_of_visible hx.ne_nil hx.visible) (hx.uncut _)
  have hspace : ∀ k : Construct, ' ' ∉ k.firstChars := by
    intro k
    cases k <;> simp [Construct.firstChars]
  have hmarks : ∀ c ∈ v ++ [' '] ++ w, ∀ k : Construct, c ∉ k.firstChars := by
    intro c hc
    rcases List.mem_append.1 hc with hc | hc
    · rcases List.mem_append.1 hc with hc | hc
      · exact hv.unstarted c hc
      · obtain rfl : c = ' ' := by simpa using hc
        exact hspace
    · exact hw.unstarted c hc
  have hapart : Apart Construct.prose v [' '] w := by
    refine ⟨⟨by simp, by simp⟩, ?_⟩
    rw [marks_of_unstarted hmarks, marks_of_unstarted hv.unstarted, marks_of_unstarted hw.unstarted,
      List.map_append, List.map_append]
  have hsentences : SentenceCut (v ++ [' '] ++ w) [v, w] :=
    .cons (hcut hv) (by simp [Unended]) ⟨v, by simp, hend⟩ hapart
      (.last (hcut hw) (by simp [Unended]))
  have hsplit := hsentences.splitProse_eq (g := []) (by simp)
  simpa using hsplit

section TwoWords

variable {s : SentenceSettings} {v w : Text}

/-- A short sentence takes up the next one if there is room without an indent. -/
theorem lines_of_two_words (hs : s.markdown = false) (hmeasure : s.measure = .codePoints)
    (hsplit : s.splitter = .prose) (hv : PlainWord v) (hw : PlainWord w) (hend : isEnd v)
    (hshort : v.length < s.minLineLength) (hroom : v.length + 1 + w.length ≤ s.width) (n : Nat) :
    s.lines n n (v ++ ' ' :: w) = [v ++ ' ' :: w] := by
  have hwidth : 0 < s.width := by omega
  have htakes : (s.isShort v
      && decide ((s.measure.of v : Int) + 1 + s.measure.of w ≤ s.width)) := by
    rw [SentenceSettings.isShort, hmeasure]
    simp only [Measure.of_codePoints, Bool.and_eq_true, decide_eq_true_eq]
    exact ⟨hshort, hroom⟩
  have hfirst : s.addSentence n n [] v = [v] := hv.sentenceLines_eq hs hwidth n n
  have hsecond : s.addSentence n n [v] w = [v ++ ' ' :: w] := by
    rw [SentenceSettings.addSentence, List.getLast?_singleton]
    simp only
    rw [hw.sentenceLines_eq hs hwidth, SentenceSettings.joinLines, if_pos htakes]
    simp
  rw [SentenceSettings.lines_eq_foldl hsplit, splitProse_of_two_words hv hw hend, List.foldl_cons,
    hfirst, List.foldl_cons, hsecond, List.foldl_nil]

/-- **A line that is too wide.** Behind an indent the line that took up the second sentence reaches
beyond the width. -/
theorem not_linesWithin_of_two_words (hs : s.markdown = false) (hmeasure : s.measure = .codePoints)
    (hsplit : s.splitter = .prose) (hv : PlainWord v) (hw : PlainWord w) (hend : isEnd v)
    (hshort : v.length < s.minLineLength) (hroom : v.length + 1 + w.length ≤ s.width) {i : Indents}
    {n : Nat} (hi : i.OfLength n) (hopen : Unopened i.first)
    (hwide : s.width < n + v.length + 1 + w.length) :
    ¬ LinesWithin s s.width (v ++ ' ' :: w) i := by
  have hwidth : 0 < s.width := by omega
  have hnewline : '\n' ∉ v ++ ' ' :: w := by
    simp [hv.newline_not_mem, hw.newline_not_mem]
  have hline : Unopened (i.first ++ (v ++ ' ' :: w)) := by
    have hspace : Unopened [' '] := by decide
    exact hopen.append (hv.unopened.append (hspace.append hw.unopened))
  have hout : bySentence s (v ++ ' ' :: w) i = unlines [i.first ++ (v ++ ' ' :: w)] := by
    rw [bySentence_eq hs hmeasure hwidth hi, flat_of_no_newline hnewline,
      lines_of_two_words hs hmeasure hsplit hv hw hend hshort hroom]
    simp only [Indents.apply, List.map_cons, List.map_nil, hline.rejoin_eq]
  have hget : (lines (bySentence s (v ++ ' ' :: w) i))[0]?
      = some (i.first ++ (v ++ ' ' :: w)) := by
    rw [hout, lines_unlines (by simp) (by simpa [hi.first.2] using hnewline)]
    rfl
  intro hwithin
  rcases hwithin 0 _ hget with hfits | ⟨u, hu, c, hc, hsingle⟩
  · simp only [List.length_append, List.length_cons, hi.first.1] at hfits
    omega
  · -- the line is longer than the indent and either of its words
    rw [hsplit, flat_of_no_newline hnewline] at hu
    have hu : u ∈ [v, w] := by
      rwa [← splitProse_of_two_words hv hw hend]
    have hlength := (length_rejoin (i.ofLine 0 ++ c)).1
    rw [← hsingle, List.length_append, List.length_append, List.length_append, List.length_cons,
      hi.first.1, (hi.ofLine 0).1] at hlength
    simp only [List.mem_cons, List.not_mem_nil, or_false] at hu
    rcases hu with rfl | rfl
    · rw [hv.lineWords_eq] at hc
      obtain rfl : c = u := by simpa using hc
      omega
    · rw [hw.lineWords_eq] at hc
      obtain rfl : c = u := by simpa using hc
      omega

end TwoWords

/-! ## Main result -/

/-- **Sentences on indented lines.** Behind indents of `n` characters every line is `width + n` long
at most, or it is its indent and a single word. All lines of all texts keep the width itself if and
only if there is no indent, or a line of three characters is not short, or it leaves no room for a
space and one more character. -/
theorem indented_sentences_within_iff (width minLineLength : Int) (hwidth : 0 < width) (n : Nat) :
    (∀ t i, i.OfLength n → LinesWithin { width, minLineLength } (width + n) t i) ∧
      ((∀ t i, i.OfLength n → LinesWithin { width, minLineLength } width t i) ↔
        n = 0 ∨ minLineLength ≤ 3 ∨ width ≤ 4) := by
  refine ⟨fun t i hi => ?_, fun h => ?_, fun h t i hi => ?_⟩
  · have hlines := linesWithin (s := { width, minLineLength }) rfl rfl rfl hwidth hi (Nat.zero_le n)
      (.inl rfl) t
    simpa using hlines
  · -- otherwise a word of three characters takes up one that fills the width
    by_contra hnot
    simp only [not_or, Int.not_le] at hnot
    obtain ⟨hn, hmin, hroom⟩ := hnot
    have hspaces : Unopened (List.replicate n ' ') := by
      simp [Unopened]
    have hi : Indents.OfLength ⟨List.replicate n ' ', List.replicate n ' '⟩ n := by
      constructor <;> simp
    have hv : PlainWord ['A', 'b', '.'] := .of_all (by simp) (by decide +kernel)
    have hw : PlainWord (List.replicate (width - 4).toNat 'x') := by
      have hx : (!isBlank 'x' && !starters.contains 'x') = true := by decide +kernel
      refine .of_all (by simp; omega) ?_
      rw [List.all_replicate, hx, ite_self]
    refine not_linesWithin_of_two_words rfl rfl rfl hv hw (by decide +kernel) ?_ ?_ hi hspaces ?_
      (h _ _ hi)
    all_goals
      simp only [List.length_cons, List.length_nil, List.length_replicate]
      omega
  · have hlines := linesWithin (s := { width, minLineLength }) rfl rfl rfl hwidth hi (Nat.le_refl n)
      h t
    simpa using hlines

/-- Behind an indent of one character, two sentences of which none is short have lines of their own. -/
theorem indented_sentences_within :
    (0 : Int) < 6 ∧
      bySentence { width := 6, minLineLength := 3 } ['A', 'b', '.', ' ', 'C', 'd'] ⟨[' '], [' ']⟩
        = [' ', 'A', 'b', '.', '\n', ' ', 'C', 'd'] ∧
      LinesWithin { width := 6, minLineLength := 3 } 6 ['A', 'b', '.', ' ', 'C', 'd'] ⟨[' '], [' ']⟩ :=
  ⟨by decide, by decide +kernel,
    (indented_sentences_within_iff 6 3 (by decide) 1).2.2 (.inr (.inl (by decide))) _ _
      ⟨⟨rfl, by simp⟩, ⟨rfl, by simp⟩⟩⟩

/-- Where the first of them is short they stay on one line, which is too wide. -/
theorem indented_sentences_too_wide :
    bySentence { width := 6, minLineLength := 20 } ['A', 'b', '.', ' ', 'C', 'd'] ⟨[' '], [' ']⟩
        = [' ', 'A', 'b', '.', ' ', 'C', 'd'] ∧
      ¬ LinesWithin { width := 6, minLineLength := 20 } 6 ['A', 'b', '.', ' ', 'C', 'd']
          ⟨[' '], [' ']⟩ := by
  refine ⟨by decide +kernel, ?_⟩
  have hv : PlainWord ['A', 'b', '.'] := .of_all (by simp) (by decide +kernel)
  have hw : PlainWord ['C', 'd'] := .of_all (by simp) (by decide +kernel)
  have hi : Indents.OfLength ⟨[' '], [' ']⟩ 1 := by constructor <;> simp
  exact not_linesWithin_of_two_words rfl rfl rfl hv hw (by decide +kernel) (by decide) (by decide) hi
    (by decide) (by decide)

end Reflow.Wrap
