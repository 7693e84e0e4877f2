import Reflow.Fill.Text
import Reflow.Proofs.GreedyLines
import Reflow.Proofs.SentenceWidths

/-!
Plain text filled to a width.

A paragraph is filled greedily (`Greedy`) to the width less the later indent, and the indents are
counted in the lines as well. So the later indent is counted twice: the lines stop short of the
width by as much, and a paragraph whose later indent is as long as the width is not wrapped at all
(`wrapParagraph_eq`, `wrapParagraph_eq_of_narrow`).
-/

open List hiding splitOn splitOn_ne_nil find?

namespace Reflow.Fill

open Text Tag Wrap Relaid

variable {t : Text}

/-! ## Paragraphs and their indents -/

namespace Settings

variable (s : Settings)

/-- What the first line of a text starts with. -/
def firstIndent : Text := s.extraIndent ++ s.style.firstIndent

def laterIndent : Text := s.extraIndent ++ s.style.laterIndent

/-- The paragraphs of a text with their indents. -/
def placed (t : Text) : List (Wrap.Indents × Text) :=
  match paragraphs t with
  | [] => []
  | p :: ps =>
    (⟨s.firstIndent, s.laterIndent⟩, p) :: ps.map fun q => (⟨s.laterIndent, s.laterIndent⟩, q)

/-- Words between blanks are filled from the margin, and characters are counted. -/
structure Plain : Prop where
  wraps : s.style.wraps = true
  column : s.column = 0
  measure : s.measure = .codePoints
  splitter : s.splitter = .plain

variable {s}

theorem firstIndent_eq (h : s.style.hangsFirstParagraphOnly = false) :
    s.firstIndent = s.laterIndent := by
  unfold firstIndent laterIndent
  cases hstyle : s.style <;> simp_all [Style.hangsFirstParagraphOnly, Style.firstIndent, Style.laterIndent]

theorem length_firstIndent_of_hangs (h : s.style.hangsFirstParagraphOnly) :
    s.firstIndent.length + 2 ≤ s.laterIndent.length := by
  unfold firstIndent laterIndent
  cases hstyle : s.style <;> simp_all [Style.hangsFirstParagraphOnly, Style.firstIndent,
    Style.laterIndent, Style.defaultIndent, repeated]

variable (s) in
theorem length_firstIndent_le : s.firstIndent.length ≤ s.laterIndent.length := by
  cases h : s.style.hangsFirstParagraphOnly with
  | false => rw [firstIndent_eq h]
  | true => exact Nat.le_trans (by omega) (length_firstIndent_of_hangs h)

/-- Only the first line of the first paragraph may start further to the left. -/
theorem of_mem_placed {t : Text} {q : Wrap.Indents × Text} (hq : q ∈ s.placed t) :
    q.1.later = s.laterIndent ∧ (q.1.first = s.firstIndent ∨ q.1.first = s.laterIndent) ∧
      q.2 ∈ paragraphs t := by
  unfold placed at hq
  split at hq
  · simp at hq
  · rename_i p ps hps
    rcases mem_cons.1 hq with rfl | hq
    · exact ⟨rfl, .inl rfl, by simp [hps]⟩
    · obtain ⟨r, hr, rfl⟩ := mem_map.1 hq
      exact ⟨rfl, .inr rfl, by simp [hps, hr]⟩

theorem Plain.fill_eq (hs : s.Plain) (t : Text) :
    s.fill t = joinWith (['\n'] ++ strip s.emptyIndent ++ ['\n'])
      ((s.placed t).map fun q => s.wrapParagraph q.1 q.2) := by
  have hinner : (if s.style.hangsFirstParagraphOnly then s.laterIndent else s.firstIndent)
      = s.laterIndent := by
    split
    · rfl
    · rename_i h
      exact firstIndent_eq (by simpa using h)
  have hwrapped : s.wrapParagraphs t = joinWith (['\n'] ++ strip s.emptyIndent ++ ['\n'])
      ((s.placed t).map fun q => s.wrapParagraph q.1 q.2) := by
    unfold wrapParagraphs placed
    dsimp only
    rw [← firstIndent, ← laterIndent, hinner]
    cases paragraphs t with
    | nil => rfl
    | cons p ps => simp [Function.comp_def]
  rw [fill, if_pos hs.wraps, hwrapped]

/-- **A paragraph that is wrapped.** Its words are put greedily on lines that end short of the width
by the length of the later indent, indents being counted; tags are rejoined then. -/
theorem Plain.wrapParagraph_eq (hs : s.Plain) {i : Wrap.Indents}
    (hle : i.first.length ≤ i.later.length) (hroom : i.later.length < s.width) (p : Text) :
    ∃ rows, rows.flatten = words p ∧ (∀ r ∈ rows, r ≠ []) ∧
      Greedy .codePoints (s.width - i.later.length) i.later.length i.first.length rows ∧
      s.wrapParagraph i p = unlines ((i.apply (rows.map unwords)).map rejoin) := by
  let ws : Wrap.Settings :=
    { collapseBlanks := s.style.collapsesBlanks, splitter := .plain, measure := .codePoints }
  let cols : Columns :=
    { width := s.width - i.later.length, first := i.first.length, later := i.later.length }
  have hcols : 0 < cols.width := by
    simp only [cols]
    omega
  have hlines := paragraphLines_eq_breakWords ws hcols p
  rw [ws.words_of_plain rfl, ws.escape_of_plain rfl] at hlines
  obtain ⟨hflatten, hne⟩ := flatten_breakWords .codePoints cols cols.first (words p)
  refine ⟨_, hflatten, hne, ?_, ?_⟩
  · show Greedy .codePoints cols.width cols.later cols.first _
    refine greedy_breakWords ?_ (.inl ⟨?_, .inl (by simp)⟩)
    · simp only [cols]
      omega
    · simp [cols, unwords, joinWith]
  · rw [wrapParagraph, paragraphAt, hs.column, hs.measure, hs.splitter, if_pos rfl, rejoin_unlines]
    simp only [Measure.of_codePoints, Int.zero_add]
    rw [hlines]

/-- **A paragraph that is not wrapped**, since the later indent is as long as the width. -/
theorem Plain.wrapParagraph_eq_of_narrow (hs : s.Plain) {i : Wrap.Indents}
    (hnarrow : s.width ≤ i.later.length) {p : Text}
    (hp : strip (if s.style.collapsesBlanks then collapse p else p) ≠ []) :
    s.wrapParagraph i p
      = rejoin (i.first ++ strip (if s.style.collapsesBlanks then collapse p else p)) := by
  have hwidth : s.width - (i.later.length : Int) ≤ 0 := by omega
  rw [wrapParagraph, paragraphAt, hs.column, hs.measure]
  simp only [Measure.of_codePoints, Int.zero_add]
  unfold paragraphLines
  simp only [hwidth, if_true, Wrap.Settings.trim, Wrap.Settings.prepare]
  rw [if_neg (by simpa using hp)]
  rfl

end Settings

/-! ## Indents and seams -/

/-- Tags are rejoined behind the indent as they are without it. -/
def Inert (indent : Text) : Prop := ∀ t, rejoin (indent ++ t) = indent ++ rejoin t

theorem inert_nil : Inert [] := fun _ => rfl

theorem inert_of_not_mem_closing {indent : Text}
    (h : ∀ c ∈ indent, ∀ k : TagKind, k.closing.head? ≠ some c) : Inert indent := by
  induction indent with
  | nil => exact inert_nil
  | cons c indent ih =>
    intro t
    rw [cons_append, rejoin_cons, ih (fun d hd => h d (by simp [hd])) t, cons_append]
    rintro k ⟨u, hu⟩
    have hc := h c (by simp) k
    cases k <;> simp_all [seam, TagKind.closing]

theorem Inert.append_spaces {indent : Text} (h : Inert indent) (n : Nat) :
    Inert (indent ++ repeated n ' ') := by
  have hspaces : Inert (repeated n ' ') := by
    refine inert_of_not_mem_closing fun c hc k => ?_
    rw [eq_of_mem_replicate hc]
    cases k <;> decide
  intro t
  rw [append_assoc, h, hspaces t, append_assoc]

theorem Style.exists_spaces (style : Style) :
    (∃ n, style.firstIndent = repeated n ' ') ∧ ∃ n, style.laterIndent = repeated n ' ' := by
  cases style with
  | none | wrap | wrapFull => exact ⟨⟨0, rfl⟩, ⟨0, rfl⟩⟩
  | wrapIndent | indentOnly => exact ⟨⟨4, rfl⟩, ⟨4, rfl⟩⟩
  | hangingIndent => exact ⟨⟨0, rfl⟩, ⟨4, rfl⟩⟩
  | markdownItem => exact ⟨⟨0, rfl⟩, ⟨2, rfl⟩⟩

/-- The indents are on one line and leave tags alone. -/
structure Clear (i : Wrap.Indents) : Prop where
  line : ∀ j, '\n' ∉ i.ofLine j
  inert : ∀ j, Inert (i.ofLine j)

theorem Settings.clear_of_mem_placed {s : Settings} (hline : '\n' ∉ s.extraIndent)
    (hinert : Inert s.extraIndent) {q : Wrap.Indents × Text} (hq : q ∈ s.placed t) : Clear q.1 := by
  obtain ⟨⟨n, hn⟩, ⟨m, hm⟩⟩ := s.style.exists_spaces
  have hfirst : '\n' ∉ s.firstIndent ∧ Inert s.firstIndent := by
    rw [firstIndent, hn]
    exact ⟨by simp [hline, repeated], hinert.append_spaces n⟩
  have hlater : '\n' ∉ s.laterIndent ∧ Inert s.laterIndent := by
    rw [laterIndent, hm]
    exact ⟨by simp [hline, repeated], hinert.append_spaces m⟩
  obtain ⟨hl, hf, _⟩ := of_mem_placed hq
  have hofLine : ∀ j, q.1.ofLine j = s.firstIndent ∨ q.1.ofLine j = s.laterIndent := by
    intro j
    unfold Wrap.Indents.ofLine
    split
    · exact hf
    · exact .inr hl
  constructor
  · intro j
    rcases hofLine j with h | h
    · rw [h]; exact hfirst.1
    · rw [h]; exact hlater.1
  · intro j
    rcases hofLine j with h | h
    · rw [h]; exact hfirst.2
    · rw [h]; exact hlater.2

/-! ## The lines of a filled paragraph -/

/-- Every line that is not blank, its indent included, is `width` long at most, or it is its indent
and a single word. -/
def KeepsWidth (width : Int) (i : Wrap.Indents) (block : Text) : Prop :=
  ∀ j l, (lines block)[j]? = some l → isBlankText l = false →
    (l.length : Int) ≤ width ∨ ∃ w, words w = [w] ∧ l = i.ofLine j ++ w

/-- The first word of each next line would not have fitted, after a space, on the line before it. -/
def UsesWidth (width : Int) (i : Wrap.Indents) (block : Text) : Prop :=
  ∀ j l m, (lines block)[j]? = some l → (lines block)[j + 1]? = some m →
    ∀ w ∈ (words (m.drop i.later.length)).head?, width < l.length + 1 + w.length

/-- Every paragraph of the filled text keeps the width. -/
def Settings.KeepsTo (s : Settings) (width : Int) (t : Text) : Prop :=
  ∀ q ∈ s.placed t, KeepsWidth width q.1 (s.wrapParagraph q.1 q.2)

/-- Every paragraph of the filled text is filled to the width. -/
def Settings.FillsTo (s : Settings) (width : Int) (t : Text) : Prop :=
  ∀ q ∈ s.placed t, KeepsWidth width q.1 (s.wrapParagraph q.1 q.2) ∧
    UsesWidth width q.1 (s.wrapParagraph q.1 q.2)

/-- Rows of words, laid out behind their indents with tags rejoined. -/
def rowsText (i : Wrap.Indents) (rows : List (List Text)) : Text :=
  unlines ((i.apply (rows.map unwords)).map rejoin)

/-- The rows are words between blanks, none of them empty. -/
def Worded (rows : List (List Text)) : Prop := ∀ r ∈ rows, r ≠ [] ∧ ∀ w ∈ r, words w = [w]

section Layout

variable {i : Wrap.Indents} {rows : List (List Text)} {w : Text}

theorem worded_of_flatten {p : Text} (hflatten : rows.flatten = words p)
    (hne : ∀ r ∈ rows, r ≠ []) : Worded rows := by
  intro r hr
  refine ⟨hne r hr, fun w hw => ?_⟩
  have hmem : w ∈ words p := hflatten ▸ mem_flatten.2 ⟨r, hr, hw⟩
  obtain ⟨hword, hvisible⟩ := Atomic.visible_of_mem_words hmem
  exact words_of_visible hword hvisible

theorem isBlank_of_words_eq (h : words w = [w]) : ∀ c ∈ w, isBlank c = false :=
  (Atomic.visible_of_mem_words (h ▸ mem_singleton_self w)).2

theorem ne_nil_of_words_eq (h : words w = [w]) : w ≠ [] :=
  (Atomic.visible_of_mem_words (h ▸ mem_singleton_self w)).1

theorem Worded.length_pos (h : Worded rows) {r : List Text} (hr : r ∈ rows) (hw : w ∈ r) :
    0 < w.length :=
  length_pos_iff.2 (ne_nil_of_words_eq ((h r hr).2 w hw))

theorem newline_not_mem_unwords (h : Worded rows) {r : List Text} (hr : r ∈ rows) :
    '\n' ∉ unwords r := by
  intro hmem
  rcases mem_joinWith hmem with hmem | ⟨w, hw, hmem⟩
  · simp at hmem
  · have hblank := isBlank_of_words_eq ((h r hr).2 w hw) _ hmem
    simp at hblank

theorem rejoin_of_words_eq (h : words w = [w]) : rejoin w = w := by
  refine reseam_eq_self fun k hk => ?_
  have hblank := isBlank_of_words_eq h ' ' (hk.subset (by simp [seam]))
  simp at hblank

theorem getElem?_lines_rowsText (hi : Clear i) (h : Worded rows) (hne : rows ≠ []) (j : Nat) :
    (lines (rowsText i rows))[j]? = rows[j]?.map fun r => i.ofLine j ++ rejoin (unwords r) := by
  have hget : ∀ j, ((i.apply (rows.map unwords)).map rejoin)[j]?
      = rows[j]?.map fun r => i.ofLine j ++ rejoin (unwords r) := by
    intro j
    rw [getElem?_map, Wrap.Indents.getElem?_apply, getElem?_map, Option.map_map,
      Option.map_map]
    exact congrArg (Option.map · _) (funext fun r => hi.inert j _)
  have hlines : lines (rowsText i rows) = (i.apply (rows.map unwords)).map rejoin := by
    refine lines_unlines ?_ ?_
    · obtain ⟨r, rest, rfl⟩ := exists_cons_of_ne_nil hne
      simp [Wrap.Indents.apply]
    · intro l hl
      obtain ⟨k, hk⟩ := getElem?_of_mem hl
      rw [hget] at hk
      obtain ⟨r, hr, rfl⟩ := Option.map_eq_some_iff.1 hk
      rw [mem_append, not_or]
      exact ⟨hi.line k,
        newline_not_mem_rejoin (newline_not_mem_unwords h (mem_of_getElem? hr))⟩
  rw [hlines, hget]

theorem getElem?_lines_rowsText_nil {j : Nat} {l : Text}
    (hl : (lines (rowsText i []))[j]? = some l) : j = 0 ∧ l = [] := by
  cases j with
  | zero => exact ⟨rfl, by simpa [rowsText, Wrap.Indents.apply, unlines, joinWith, lines, splitOn]
      using hl.symm⟩
  | succ j => simp [rowsText, Wrap.Indents.apply, unlines, joinWith, lines, splitOn] at hl

theorem keepsWidth_rowsText (hi : Clear i) (h : Worded rows) {width : Int}
    (hrows : ∀ j r, rows[j]? = some r →
      ((i.ofLine j).length : Int) + (rejoin (unwords r)).length ≤ width ∨ r.length ≤ 1) :
    KeepsWidth width i (rowsText i rows) := by
  intro j l hl hblank
  by_cases hne : rows = []
  · subst hne
    obtain ⟨_, rfl⟩ := getElem?_lines_rowsText_nil hl
    simp [isBlankText] at hblank
  · rw [getElem?_lines_rowsText hi h hne] at hl
    obtain ⟨r, hr, rfl⟩ := Option.map_eq_some_iff.1 hl
    obtain ⟨hrne, hwords⟩ := h r (mem_of_getElem? hr)
    rcases hrows j r hr with hfits | hsingle
    · rw [length_append]
      omega
    · right
      have hpos := length_pos_iff.2 hrne
      obtain ⟨w, rfl⟩ := length_eq_one_iff.1 (Nat.le_antisymm hsingle hpos)
      have hw := hwords w (by simp)
      refine ⟨w, hw, ?_⟩
      exact congrArg (i.ofLine j ++ ·) (rejoin_of_words_eq hw)

theorem prefix_rejoin {w t : Text} (hw : ∀ c ∈ w, isBlank c = false) (h : w <+: t) :
    w <+: rejoin t := by
  have key : ∀ {s u : Text}, Reseamed [' '] [] s u → ∀ w : Text, (∀ c ∈ w, isBlank c = false) →
      w <+: s → w <+: u := by
    intro s u hsu
    induction hsu with
    | nil => exact fun w _ h => h
    | @seam k s u _ ih =>
      -- the space of the seam ends the visible start
      intro w hw h
      have hclosing : w <+: k.closing := by
        refine prefix_of_not_mem (c := ' ') (b := k.opening ++ s) ?_ ?_
        · intro hmem
          have hblank := hw _ hmem
          simp at hblank
        · simpa [seam] using h
      refine hclosing.trans ?_
      rw [seam, append_nil, append_assoc]
      exact prefix_append _ _
    | @char c s u _ _ ih =>
      intro w hw h
      cases w with
      | nil => exact nil_prefix
      | cons d w =>
        obtain ⟨rfl, hrest⟩ := cons_prefix_cons.1 h
        exact cons_prefix_cons.2 ⟨rfl, ih w (fun e he => hw e (by simp [he])) hrest⟩
  exact key (reseamed_apply [' '] [] t) w hw h

theorem length_le_firstWord {w t : Text} (hne : w ≠ []) (hw : ∀ c ∈ w, isBlank c = false)
    (h : w <+: t) {v : Text} (hv : v ∈ (words t).head?) : w.length ≤ v.length := by
  obtain ⟨u, rfl⟩ := h
  rw [head?_words, firstWord_of_visible hw hne] at hv
  split at hv
  · simp at hv
  · obtain rfl : w ++ lead u = v := by simpa using hv
    simp

theorem usesWidth_rowsText (hi : Clear i) (h : Worded rows) {width : Int}
    (hrows : ∀ j r q w, rows[j]? = some r → rows[j + 1]? = some q → w ∈ q.head? →
      width < (i.ofLine j).length + (rejoin (unwords r)).length + 1 + w.length) :
    UsesWidth width i (rowsText i rows) := by
  intro j l m hl hm v hv
  by_cases hne : rows = []
  · subst hne
    obtain ⟨hj, _⟩ := getElem?_lines_rowsText_nil hm
    simp at hj
  · rw [getElem?_lines_rowsText hi h hne] at hl hm
    obtain ⟨r, hr, rfl⟩ := Option.map_eq_some_iff.1 hl
    obtain ⟨q, hq, rfl⟩ := Option.map_eq_some_iff.1 hm
    have hlater : i.ofLine (j + 1) = i.later := if_neg (by omega)
    rw [hlater, drop_left] at hv
    obtain ⟨hqne, hwords⟩ := h q (mem_of_getElem? hq)
    obtain ⟨w, ws, rfl⟩ := exists_cons_of_ne_nil hqne
    have hw := hwords w (by simp)
    have hprefix : w <+: unwords (w :: ws) := by
      by_cases hws : ws = []
      · subst hws
        exact prefix_refl w
      · rw [unwords_cons hws]
        exact prefix_append _ _
    -- closing a seam can only make the first word of the next line longer
    have hlength := length_le_firstWord (ne_nil_of_words_eq hw) (isBlank_of_words_eq hw)
      (prefix_rejoin (isBlank_of_words_eq hw) hprefix) hv
    have hfull := hrows j r (w :: ws) w hr hq rfl
    rw [length_append]
    omega

end Layout

/-! ## When the width is used -/

/-- No paragraph, its words joined by single spaces, has a closing delimiter, a space and an opening
delimiter of the same kind. -/
def Seamless (t : Text) : Prop := ∀ p ∈ paragraphs t, ∀ k, ¬ seam [' '] k <:+: unwords (words p)

namespace Settings

variable {s : Settings}

theorem length_ofLine (i : Wrap.Indents) (j : Nat) :
    ((i.ofLine j).length : Int) = if j = 0 then (i.first.length : Int) else i.later.length := by
  unfold Wrap.Indents.ofLine
  split <;> rfl

theorem Plain.exists_rows (hs : s.Plain) (hroom : s.laterIndent.length < s.width) {t : Text}
    {q : Wrap.Indents × Text} (hq : q ∈ s.placed t) :
    ∃ rows, rows.flatten = words q.2 ∧ Worded rows ∧
      s.wrapParagraph q.1 q.2 = rowsText q.1 rows ∧
      (∀ j r, rows[j]? = some r →
        r.length ≤ 1 ∨ ((q.1.ofLine j).length : Int) + (unwords r).length
          ≤ s.width - s.laterIndent.length) ∧
      ∀ j r p w, rows[j]? = some r → rows[j + 1]? = some p → w ∈ p.head? →
        s.width - s.laterIndent.length < (q.1.ofLine j).length + (unwords r).length + 1 + w.length := by
  obtain ⟨hl, hf, _⟩ := of_mem_placed hq
  have hle : q.1.first.length ≤ q.1.later.length := by
    rw [hl]
    rcases hf with hf | hf
    · rw [hf]
      exact s.length_firstIndent_le
    · rw [hf]
  obtain ⟨rows, hflatten, hne, hgreedy, hblock⟩ :=
    hs.wrapParagraph_eq hle (by rw [hl]; exact hroom) q.2
  refine ⟨rows, hflatten, worded_of_flatten hflatten hne, hblock, ?_, ?_⟩
  · intro j r hr
    have hfits := (hgreedy.getElem hr).1
    rw [← length_ofLine, Measure.of_codePoints, hl] at hfits
    exact hfits
  · intro j r p w hr hp hw
    have hfull := (hgreedy.getElem hr).2 p hp w hw
    rw [← length_ofLine, Measure.of_codePoints, Measure.of_codePoints, hl] at hfull
    exact hfull

section Clear

variable (hs : s.Plain) (hline : '\n' ∉ s.extraIndent) (hinert : Inert s.extraIndent)

include hs hline hinert

/-- **The width is kept** where the later indent is shorter than it. -/
theorem keepsTo_of_room (hroom : s.laterIndent.length < s.width) (t : Text) :
    s.KeepsTo s.width t := by
  intro q hq
  obtain ⟨rows, _, hworded, hblock, hfits, _⟩ := hs.exists_rows hroom hq
  rw [hblock]
  refine keepsWidth_rowsText (clear_of_mem_placed hline hinert hq) hworded fun j r hr => ?_
  rcases hfits j r hr with hsingle | hwide
  · exact .inr hsingle
  · have hlength := (length_rejoin (unwords r)).1
    omega

/-- **The width less the later indent is used** by a text without seams. -/
theorem fillsTo_of_seamless (hroom : s.laterIndent.length < s.width) {t : Text}
    (ht : Seamless t) : s.FillsTo (s.width - s.laterIndent.length) t := by
  intro q hq
  obtain ⟨rows, hflatten, hworded, hblock, hfits, hfull⟩ := hs.exists_rows hroom hq
  have hclear := clear_of_mem_placed hline hinert hq
  have hrejoin : ∀ {j : Nat} {r : List Text}, rows[j]? = some r →
      rejoin (unwords r) = unwords r := by
    intro j r hr
    obtain ⟨before, after, heq⟩ := append_of_mem (mem_of_getElem? hr)
    have hinfix : unwords r <:+: unwords (words q.2) := by
      rw [← hflatten, heq]
      have h := joinWith_isInfix [' '] before.flatten r after.flatten
      simpa [unwords] using h
    exact reseam_eq_self fun k hk => ht q.2 (of_mem_placed hq).2.2 k (hk.trans hinfix)
  rw [hblock]
  constructor
  · refine keepsWidth_rowsText hclear hworded fun j r hr => ?_
    rw [hrejoin hr]
    exact (hfits j r hr).symm
  · refine usesWidth_rowsText hclear hworded fun j r p w hr hp hw => ?_
    rw [hrejoin hr]
    exact hfull j r p w hr hp hw

/-- Behind an indent that leaves room for two characters at most no two words fit on a line. -/
theorem fillsTo_of_tight (hhangs : s.style.hangsFirstParagraphOnly = false)
    (hroom : s.laterIndent.length < s.width) (htight : s.width ≤ s.laterIndent.length + 2)
    (t : Text) : s.FillsTo s.width t := by
  intro q hq
  obtain ⟨hl, hf, _⟩ := of_mem_placed hq
  refine ⟨keepsTo_of_room hs hline hinert hroom t q hq, ?_⟩
  obtain ⟨rows, _, hworded, hblock, _, _⟩ := hs.exists_rows hroom hq
  rw [hblock]
  refine usesWidth_rowsText (clear_of_mem_placed hline hinert hq) hworded fun j r p w hr hp hw => ?_
  have hindent : (q.1.ofLine j).length = s.laterIndent.length := by
    unfold Wrap.Indents.ofLine
    split
    · rcases hf with hf | hf
      · rw [hf, firstIndent_eq hhangs]
      · rw [hf]
    · rw [hl]
  -- a row has a character, and so has the word after it
  have hrow : 0 < (rejoin (unwords r)).length := by
    obtain ⟨v, vs, rfl⟩ := exists_cons_of_ne_nil (hworded r (mem_of_getElem? hr)).1
    have hlength := (length_rejoin (unwords (v :: vs))).2
    have hv := hworded.length_pos (mem_of_getElem? hr) (mem_cons_self (a := v))
    have hpart := Measure.codePoints.of_unwords_le [] [v] vs
    simp only [Measure.of_codePoints, nil_append, singleton_append] at hpart
    have hsingle : unwords [v] = v := rfl
    rw [hsingle] at hpart
    omega
  have hword := hworded.length_pos (mem_of_getElem? hp) (mem_of_head? hw)
  omega

/-- Without an indent, a line of five characters that loses one has no room for another word. -/
theorem fillsTo_of_short (hnil : s.laterIndent = []) (hwidth : 0 < s.width) (hshort : s.width ≤ 5)
    (t : Text) : s.FillsTo s.width t := by
  intro q hq
  have hroom : s.laterIndent.length < s.width := by simpa [hnil] using hwidth
  refine ⟨keepsTo_of_room hs hline hinert hroom t q hq, ?_⟩
  obtain ⟨rows, _, hworded, hblock, _, hfull⟩ := hs.exists_rows hroom hq
  rw [hblock]
  refine usesWidth_rowsText (clear_of_mem_placed hline hinert hq) hworded fun j r p w hr hp hw => ?_
  have hbefore := hfull j r p w hr hp hw
  have hlength := (length_rejoin (unwords r)).2
  have hword := hworded.length_pos (mem_of_getElem? hp) (mem_of_head? hw)
  rw [hnil] at hbefore
  simp only [length_nil] at hbefore
  omega

end Clear

end Settings

/-! ## Two words -/

theorem gather_of_no_newline (h : '\n' ∉ t) : paragraphs.gather t = [t] := by
  induction t with
  | nil => rfl
  | cons c t ih =>
    have hc : c ≠ '\n' := by
      rintro rfl
      simp at h
    rw [paragraphs.gather, ih fun hmem => h (by simp [hmem])]
    rintro rest rfl
    exact absurd rfl hc

theorem paragraphs_of_line (h : '\n' ∉ t) (ht : Solid t) : paragraphs t = [t] := by
  rw [paragraphs, gather_of_no_newline h, map_singleton, strip_of_solid ht]

theorem Settings.placed_of_line (s : Settings) (h : '\n' ∉ t) (ht : Solid t) :
    s.placed t = [(⟨s.firstIndent, s.laterIndent⟩, t)] := by
  rw [placed, paragraphs_of_line h ht]
  rfl

/-- Two words of `a` and `b` letters. -/
def twoWords (a b : Nat) : Text := unwords [repeated a 'x', repeated b 'x']

section TwoWords

variable {a b : Nat}

theorem words_letters (ha : 0 < a) : words (repeated a 'x') = [repeated a 'x'] := by
  refine words_of_visible ?_ ?_
  · simp only [repeated, ne_eq, replicate_eq_nil_iff]
    omega
  · intro c hc
    rw [eq_of_mem_replicate hc]
    decide

theorem twoWords_eq (a b : Nat) : twoWords a b = repeated a 'x' ++ ' ' :: repeated b 'x' := by
  simp [twoWords, unwords, joinWith]

theorem words_twoWords (ha : 0 < a) (hb : 0 < b) :
    words (twoWords a b) = [repeated a 'x', repeated b 'x'] := by
  have hx := words_letters ha
  rw [twoWords_eq, words_append_of_visible (ne_nil_of_words_eq hx) (isBlank_of_words_eq hx) (by simp),
    words_cons_of_blank isBlank_space, words_letters hb]

theorem solid_twoWords (ha : 0 < a) (hb : 0 < b) : Solid (twoWords a b) := by
  refine solid_unwords (by simp) fun w hw => ?_
  rw [← words_twoWords ha hb] at hw
  exact Atomic.solid_of_mem_plain_words hw

theorem newline_not_mem_twoWords (a b : Nat) : '\n' ∉ twoWords a b := by
  simp [twoWords_eq, repeated]

theorem unopened_twoWords (a b : Nat) : Unopened (twoWords a b) := by
  simp [twoWords_eq, Unopened, repeated]

theorem not_seam_twoWords (a b : Nat) (k : TagKind) : ¬ seam [' '] k <:+: twoWords a b := fun hk =>
  (unopened_twoWords a b).not_isInfix k ((suffix_append _ _).isInfix.trans hk)

theorem seamless_twoWords (ha : 0 < a) (hb : 0 < b) : Seamless (twoWords a b) := by
  intro p hp k
  rw [paragraphs_of_line (newline_not_mem_twoWords a b) (solid_twoWords ha hb)] at hp
  obtain rfl : p = twoWords a b := by simpa using hp
  rw [words_twoWords ha hb]
  exact not_seam_twoWords a b k

theorem collapse_twoWords (ha : 0 < a) (hb : 0 < b) : collapse (twoWords a b) = twoWords a b := by
  have hblank : ∀ {n : Nat}, 0 < n → ∀ c ∈ repeated n 'x', isBlank c = false := fun hn =>
    isBlank_of_words_eq (words_letters hn)
  have h := collapse_append_blanks (a := repeated a 'x') (g := [' ']) (b := repeated b 'x')
    (fun c hc => hblank ha c (mem_of_mem_getLast? hc)) (by simp) (by simp)
    fun c hc => hblank hb c (mem_of_head? hc)
  rw [collapse_of_visible (hblank ha), collapse_of_visible (hblank hb)] at h
  simpa [twoWords_eq] using h

end TwoWords

namespace Settings

variable {s : Settings} (hs : s.Plain) (hline : '\n' ∉ s.extraIndent) (hinert : Inert s.extraIndent)

include hs hline hinert

/-- **A line that is too wide.** If the later indent is as long as the width, two words stay on one
line. -/
theorem not_keepsTo_of_narrow (hwidth : 0 < s.width) (hnarrow : s.width ≤ s.laterIndent.length) :
    ¬ s.KeepsTo s.width (twoWords s.width.toNat 1) := by
  have ha : 0 < s.width.toNat := by omega
  have hsolid := solid_twoWords ha Nat.one_pos
  have hplaced := s.placed_of_line (newline_not_mem_twoWords s.width.toNat 1) hsolid
  have hmem : ((⟨s.firstIndent, s.laterIndent⟩ : Wrap.Indents), twoWords s.width.toNat 1)
      ∈ s.placed (twoWords s.width.toNat 1) := by simp [hplaced]
  have hclear := clear_of_mem_placed hline hinert hmem
  have hprepared : strip (if s.style.collapsesBlanks then collapse (twoWords s.width.toNat 1)
      else twoWords s.width.toNat 1) = twoWords s.width.toNat 1 := by
    rw [collapse_twoWords ha Nat.one_pos, ite_self, strip_of_solid hsolid]
  have hblock : s.wrapParagraph ⟨s.firstIndent, s.laterIndent⟩ (twoWords s.width.toNat 1)
      = s.firstIndent ++ twoWords s.width.toNat 1 := by
    have hnarrow' : s.width ≤ (⟨s.firstIndent, s.laterIndent⟩ : Wrap.Indents).later.length := hnarrow
    rw [hs.wrapParagraph_eq_of_narrow hnarrow' (by rw [hprepared]; exact hsolid.ne_nil), hprepared]
    exact (hclear.inert 0 _).trans
      (congrArg (s.firstIndent ++ ·) (reseam_eq_self (not_seam_twoWords _ _)))
  intro hkeeps
  have hletter : isBlank 'x' = false := by decide
  have hlines : lines (s.firstIndent ++ twoWords s.width.toNat 1)
      = [s.firstIndent ++ twoWords s.width.toNat 1] := by
    have hfirst : '\n' ∉ s.firstIndent := hclear.line 0
    exact lines_of_no_newline (by simp [newline_not_mem_twoWords, hfirst])
  have hkeep := hkeeps _ hmem 0 (s.firstIndent ++ twoWords s.width.toNat 1)
    (by rw [hblock, hlines]; rfl) (by simp [isBlankText, twoWords_eq, repeated, hletter])
  rcases hkeep with hshort | ⟨w, hw, heq⟩
  · simp only [twoWords_eq, length_append, length_cons, repeated,
      length_replicate] at hshort
    omega
  · -- what stands behind the indent is two words
    obtain rfl : twoWords s.width.toNat 1 = w := append_cancel_left heq
    rw [words_twoWords ha Nat.one_pos] at hw
    simp at hw

/-- **A line that stops short.** The last word of a line of text is put on a line of its own, though it
would have fitted. -/
theorem not_fillsTo_of_pair (hroom : s.laterIndent.length < s.width) {t : Text} (hn : '\n' ∉ t)
    (ht : Solid t) (us : List Text) {w : Text} (hus : us ≠ []) (hwords : words t = us ++ [w])
    (hfits : us.length ≤ 1 ∨
      (s.firstIndent.length : Int) + (unwords us).length ≤ s.width - s.laterIndent.length)
    (hover : s.width - s.laterIndent.length
      < (s.firstIndent.length : Int) + (unwords us).length + 1 + w.length)
    (hspace : (s.firstIndent.length : Int) + (rejoin (unwords us)).length + 1 + w.length ≤ s.width) :
    ¬ s.FillsTo s.width t := by
  intro hfills
  have hmem : ((⟨s.firstIndent, s.laterIndent⟩ : Wrap.Indents), t) ∈ s.placed t := by
    simp [s.placed_of_line hn ht]
  obtain ⟨rows, hflatten, hne, hgreedy, hblock⟩ :=
    hs.wrapParagraph_eq (i := ⟨s.firstIndent, s.laterIndent⟩) s.length_firstIndent_le hroom t
  rw [hwords] at hflatten
  have hworded := worded_of_flatten (hflatten.trans hwords.symm) hne
  obtain rfl := hgreedy.eq_pair hne hus hflatten (by simpa using hfits) (by simpa using hover)
  have hclear := clear_of_mem_placed hline hinert hmem
  have hget := getElem?_lines_rowsText hclear hworded (by simp)
  have hw : words w = [w] := (hworded [w] (by simp)).2 w (by simp)
  have huses : UsesWidth s.width ⟨s.firstIndent, s.laterIndent⟩ (rowsText _ [us, [w]]) :=
    hblock ▸ (hfills _ hmem).2
  have hlast := huses 0 (s.firstIndent ++ rejoin (unwords us)) (s.laterIndent ++ w) (hget 0)
    ((hget 1).trans (congrArg (fun u => some (s.laterIndent ++ u)) (rejoin_of_words_eq hw)))
    w (by simp [hw])
  rw [length_append] at hlast
  omega

/-- Behind a later indent the second of two words goes below. -/
theorem not_fillsTo_of_indent (hroom : s.laterIndent.length < s.width)
    (hpos : 0 < s.laterIndent.length) {b : Nat} (hbpos : 0 < b)
    (hb : s.firstIndent.length + 2 + b = s.width) : ¬ s.FillsTo s.width (twoWords 1 b) := by
  have hx := words_letters Nat.one_pos
  have hsingle : unwords [repeated 1 'x'] = repeated 1 'x' := rfl
  refine not_fillsTo_of_pair hs hline hinert hroom (newline_not_mem_twoWords 1 b)
    (solid_twoWords Nat.one_pos hbpos) [repeated 1 'x'] (by simp)
    (words_twoWords Nat.one_pos hbpos) (.inl (by simp)) ?_ ?_
  · rw [hsingle]
    simp [repeated]
    omega
  · rw [hsingle, rejoin_of_words_eq hx]
    simp [repeated]
    omega

end Settings

/-- Paragraphs indented by four spaces behind a quote mark. -/
def Settings.quotedIndent (width : Int) : Settings :=
  { style := .wrapIndent, width, extraIndent := "> ".toList, splitter := .plain }

/-- A closing delimiter, an opening one and a word of `b` letters. -/
def seamThenWord (b : Nat) : Text :=
  unwords [TagKind.statement.closing, TagKind.statement.opening, repeated b 'x']

theorem seamThenWord_eq (b : Nat) :
    seamThenWord b
      = TagKind.statement.closing ++ ' ' :: (TagKind.statement.opening ++ ' ' :: repeated b 'x') := by
  simp [seamThenWord, unwords, joinWith]

theorem words_seamThenWord {b : Nat} (hb : 0 < b) : words (seamThenWord b)
    = [TagKind.statement.closing, TagKind.statement.opening, repeated b 'x'] := by
  have hclosing : words TagKind.statement.closing = [TagKind.statement.closing] := by decide
  have hopening : words TagKind.statement.opening = [TagKind.statement.opening] := by decide
  rw [seamThenWord_eq,
    words_append_of_visible (by simp [TagKind.closing]) (isBlank_of_words_eq hclosing) (by simp),
    words_cons_of_blank isBlank_space,
    words_append_of_visible (by simp [TagKind.opening]) (isBlank_of_words_eq hopening) (by simp),
    words_cons_of_blank isBlank_space, words_letters hb]

namespace Settings

variable {s : Settings} (hs : s.Plain) (hline : '\n' ∉ s.extraIndent) (hinert : Inert s.extraIndent)

include hs hline hinert

theorem not_fillsTo_of_seam (hnil : s.laterIndent = []) {b : Nat} (hbpos : 0 < b)
    (hb : b + 5 = s.width) : ¬ s.FillsTo s.width (seamThenWord b) := by
  have hfirst : s.firstIndent.length = 0 := by
    have h := s.length_firstIndent_le
    rw [hnil] at h
    simpa using h
  have hsolid : Solid (seamThenWord b) := by
    refine solid_unwords (by simp) fun w hw => ?_
    rw [← words_seamThenWord hbpos] at hw
    exact Atomic.solid_of_mem_plain_words hw
  have hrejoin : rejoin (unwords [TagKind.statement.closing, TagKind.statement.opening])
      = seam [] .statement :=
    (reseamed_apply [' '] [] _).unique (.seam .statement .nil)
  refine not_fillsTo_of_pair hs hline hinert (by rw [hnil]; simp; omega)
    (by simp [seamThenWord_eq, repeated, TagKind.closing, TagKind.opening]) hsolid
    [TagKind.statement.closing, TagKind.statement.opening] (by simp)
    (words_seamThenWord hbpos) (.inr ?_) ?_ ?_
  · simp [hnil, hfirst, unwords, joinWith, TagKind.closing, TagKind.opening]
    omega
  · simp [hnil, hfirst, unwords, joinWith, TagKind.closing, TagKind.opening, repeated]
    omega
  · rw [hrejoin]
    simp [hfirst, seam, TagKind.closing, TagKind.opening, repeated]
    omega

theorem room_of_fillsTo (hwidth : 0 < s.width) (h : ∀ t, Seamless t → s.FillsTo s.width t) :
    s.laterIndent = [] ∨ s.style.hangsFirstParagraphOnly = false ∧
      s.laterIndent.length < s.width ∧ s.width ≤ s.laterIndent.length + 2 := by
  by_cases hnil : s.laterIndent = []
  · exact .inl hnil
  · right
    have hpos := length_pos_iff.2 hnil
    have hroom : s.laterIndent.length < s.width := by
      by_contra hnarrow
      refine not_keepsTo_of_narrow hs hline hinert hwidth (by omega) fun q hq => ?_
      exact (h _ (seamless_twoWords (by omega) Nat.one_pos) q hq).1
    have htight : ¬ s.firstIndent.length + 3 ≤ s.width := by
      intro hwide
      obtain ⟨b, hb⟩ : ∃ b : Nat, s.firstIndent.length + 2 + b = s.width :=
        ⟨(s.width - s.firstIndent.length - 2).toNat, by omega⟩
      have hbpos : 0 < b := by omega
      exact not_fillsTo_of_indent hs hline hinert hroom hpos hbpos hb
        (h _ (seamless_twoWords Nat.one_pos hbpos))
    cases hhangs : s.style.hangsFirstParagraphOnly with
    | false =>
      rw [firstIndent_eq hhangs] at htight
      exact ⟨rfl, hroom, by omega⟩
    | true =>
      have hshort := length_firstIndent_of_hangs hhangs
      omega

/-- **What a text is filled to.** The paragraphs are filled one by one. Every line keeps the width
exactly if the later indent is shorter than it. Then texts without seams are filled to the width less
that indent. They are filled to the width itself exactly if there is no later indent, or if no two
words fit behind it; and so are all texts only if the width is five at most in the first of these
cases, since a seam that is closed gives a character back. -/
theorem filled_to_width_iff (hwidth : 0 < s.width) :
    (∀ t, s.fill t = joinWith (['\n'] ++ strip s.emptyIndent ++ ['\n'])
      ((s.placed t).map fun q => s.wrapParagraph q.1 q.2)) ∧
    ((∀ t, s.KeepsTo s.width t) ↔ s.laterIndent.length < s.width) ∧
    (s.laterIndent.length < s.width →
      ∀ t, Seamless t → s.FillsTo (s.width - s.laterIndent.length) t) ∧
    ((∀ t, Seamless t → s.FillsTo s.width t) ↔
      s.laterIndent = [] ∨ s.style.hangsFirstParagraphOnly = false ∧
        s.laterIndent.length < s.width ∧ s.width ≤ s.laterIndent.length + 2) ∧
    ((∀ t, s.FillsTo s.width t) ↔
      s.laterIndent = [] ∧ s.width ≤ 5 ∨ s.style.hangsFirstParagraphOnly = false ∧
        s.laterIndent.length < s.width ∧ s.width ≤ s.laterIndent.length + 2) := by
  refine ⟨hs.fill_eq, ⟨fun h => ?_, keepsTo_of_room hs hline hinert⟩,
    fun hroom t => fillsTo_of_seamless hs hline hinert hroom, ⟨?_, ?_⟩, ⟨?_, ?_⟩⟩
  · by_contra hnarrow
    exact not_keepsTo_of_narrow hs hline hinert hwidth (by omega) (h _)
  · exact room_of_fillsTo hs hline hinert hwidth
  · rintro (hnil | ⟨hhangs, hroom, htight⟩) t ht
    · have hfills := fillsTo_of_seamless hs hline hinert (by simpa [hnil] using hwidth) ht
      simpa [hnil] using hfills
    · exact fillsTo_of_tight hs hline hinert hhangs hroom htight t
  · intro h
    refine (room_of_fillsTo hs hline hinert hwidth fun t _ => h t).imp_left fun hnil => ⟨hnil, ?_⟩
    by_contra hlong
    obtain ⟨b, hb⟩ : ∃ b : Nat, (b : Int) + 5 = s.width := ⟨(s.width - 5).toNat, by omega⟩
    exact not_fillsTo_of_seam hs hline hinert hnil (by omega) hb (h _)
  · rintro (⟨hnil, hshort⟩ | ⟨hhangs, hroom, htight⟩)
    · exact fillsTo_of_short hs hline hinert hnil hwidth hshort
    · exact fillsTo_of_tight hs hline hinert hhangs hroom htight

omit hs hline hinert in
/-- Behind a quote mark and four spaces, nine columns are kept but not used. -/
theorem quoted_indent_kept_not_filled :
    (∀ t, (quotedIndent 9).KeepsTo 9 t) ∧
      ¬ ∀ t, Seamless t → (quotedIndent 9).FillsTo 9 t := by
  have hinert : Inert "> ".toList := by
    refine inert_of_not_mem_closing fun c hc k => ?_
    obtain rfl | rfl : c = '>' ∨ c = ' ' := by simpa using hc
    · cases k <;> decide
    · cases k <;> decide
  have h := filled_to_width_iff (s := quotedIndent 9) ⟨rfl, rfl, rfl, rfl⟩ (by decide) hinert
    (by decide)
  refine ⟨h.2.1.2 (by decide), fun hfills => ?_⟩
  have hroom := h.2.2.2.1.1 hfills
  revert hroom
  decide

omit hs hline hinert in
/-- Four spaces are counted twice: two letters that fit in seven columns behind them are put on two
lines. -/
theorem indent_counted_twice :
    Settings.fill { style := .wrapIndent, width := 7, splitter := .plain } "x x".toList
      = "    x\n    x".toList ∧
    ¬ Settings.FillsTo { style := .wrapIndent, width := 7, splitter := .plain } 7 "x x".toList := by
  constructor
  · decide +kernel
  · exact not_fillsTo_of_indent (s := { style := .wrapIndent, width := 7, splitter := .plain })
      (b := 1) ⟨rfl, rfl, rfl, rfl⟩ (by decide) inert_nil (by decide) (by decide) (by decide)
      (by decide)

end Settings

end Reflow.Fill
