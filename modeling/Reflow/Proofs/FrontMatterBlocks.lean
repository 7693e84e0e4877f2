import Reflow.Proofs.Formatting
import Reflow.Proofs.WriterReuse

/-!
Front matter, and what formatting does to it.

The lines of a document with closed front matter are blank lines, the block with its two fences, and
the rest (`Framed`). The block is written with line feeds, so it is cut into the same lines again
whatever follows it (`splitLines_unlines_append`). Front matter that is never closed is the whole
document; what is written for the line feed at the end of every source comes on top of it.
-/

open List

namespace Reflow

open Text

namespace Text

/-! ## Cutting joined lines -/

theorem splitLines_line_append {l : Text} (hl : ∀ c ∈ l, isLineBreak c = false) {d : Char}
    (hbreak : isLineBreak d) (hreturn : d ≠ '\r') (r : Text) :
    splitLines (l ++ d :: r) = l :: splitLines r := by
  induction l with
  | nil => rw [nil_append, splitLines.eq_3 _ _ (fun _ h _ => hreturn h), if_pos hbreak]
  | cons c l ih =>
    rw [forall_mem_cons] at hl
    have hreturn : c ≠ '\r' := by
      rintro rfl
      exact absurd hl.1 (by decide)
    rw [cons_append, splitLines.eq_3 _ _ (fun _ h _ => hreturn h), if_neg (by simp [hl.1]),
      ih hl.2]

theorem splitLines_unlines_append {ls : List Text} (hne : ls ≠ [])
    (hls : ∀ l ∈ ls, ∀ c ∈ l, isLineBreak c = false) (r : Text) :
    splitLines (unlines ls ++ '\n' :: r) = ls ++ splitLines r := by
  induction ls with
  | nil => exact absurd rfl hne
  | cons l ls ih =>
    rw [forall_mem_cons] at hls
    by_cases hrest : ls = []
    · subst hrest
      exact splitLines_line_append hls.1 (by decide) (by decide) r
    · rw [unlines_cons hrest, append_assoc, cons_append,
        splitLines_line_append hls.1 (by decide) (by decide), ih hrest hls.2, cons_append]

theorem splitLines_append_newline (t : Text) :
    splitLines (t ++ ['\n']) = splitLines t ∨ splitLines (t ++ ['\n']) = splitLines t ++ [[]] := by
  fun_induction splitLines t with
  | case1 => exact .inr rfl
  | case2 cs ih => simpa [splitLines] using ih
  | case3 c cs hpair hc ih =>
    by_cases hreturn : c = '\r' ∧ cs = []
    · -- the line feed becomes part of the break
      obtain ⟨rfl, rfl⟩ := hreturn
      exact .inl rfl
    · have hpair' : ∀ ds, c = '\r' → cs ++ ['\n'] = '\n' :: ds → False := by
        intro ds hcr hds
        cases cs with
        | nil => exact hreturn ⟨hcr, rfl⟩
        | cons d cs =>
          rw [cons_append, cons.injEq] at hds
          exact hpair cs hcr (by rw [hds.1])
      rw [cons_append, splitLines.eq_3 _ _ hpair', if_pos hc]
      simpa using ih
  | case4 c cs hpair hc hnil ih =>
    obtain rfl : cs = [] := by
      by_contra hne
      exact Document.splitLines_ne_nil hne hnil
    exact .inl (splitLines_line_append (by simpa using hc) (by decide) (by decide) [])
  | case5 c cs hpair hc line rest hcons ih =>
    have hreturn : c ≠ '\r' := by
      rintro rfl
      exact hc (by decide)
    rw [cons_append, splitLines.eq_3 _ _ (fun _ h _ => hreturn h), if_neg hc]
    obtain ih | ih := ih
    · rw [ih, hcons]
      exact .inl rfl
    · rw [ih, hcons]
      exact .inr rfl

end Text

namespace FrontMatter

variable {t : Text}

/-! ## Finding the block -/

theorem isBlankText_of_isFence {l : Text} (h : isFence l) : isBlankText l = false := by
  cases hblank : isBlankText l with
  | false => rfl
  | true =>
    have hempty : stripLeft l = [] := dropWhile_eq_nil_iff.2 (all_eq_true.1 hblank)
    rw [isFence, strip, hempty] at h
    exact absurd h (by decide)

theorem closeAt?_append {body : List Text} (hbody : ∀ l ∈ body, isFence l = false) {last : Text}
    (hlast : isFence last) (rest : List Text) :
    closeAt? (body ++ last :: rest) = some (body ++ [last], rest) := by
  induction body with
  | nil => simp [closeAt?, hlast]
  | cons l body ih =>
    rw [forall_mem_cons] at hbody
    simp [closeAt?, hbody.1, ih hbody.2]

theorem closeAt?_eq_none {ls : List Text} (h : ∀ l ∈ ls, isFence l = false) :
    closeAt? ls = none := by
  induction ls with
  | nil => rfl
  | cons l ls ih =>
    rw [forall_mem_cons] at h
    simp [closeAt?, h.1, ih h.2]

/-- The lines after the opening fence, if a text opens with one. -/
def afterOpening? (t : Text) : Option (List Text) :=
  match (splitLines t).dropWhile isBlankText with
  | [] => none
  | first :: rest => if isFence first then some rest else none

/-- The text opens with a fence, and there is another one further down. -/
def IsClosed (t : Text) : Prop := ∃ ls, afterOpening? t = some ls ∧ ∃ l ∈ ls, isFence l = true

/-- The text opens with a fence, and there is no other. -/
def IsUnclosed (t : Text) : Prop := ∃ ls, afterOpening? t = some ls ∧ ∀ l ∈ ls, isFence l = false

theorem exists_of_afterOpening? {ls : List Text} (h : afterOpening? t = some ls) :
    ∃ first, (splitLines t).dropWhile isBlankText = first :: ls ∧ isFence first := by
  unfold afterOpening? at h
  split at h
  · cases h
  · next first rest hdrop =>
    split at h
    · next hfirst =>
      cases h
      exact ⟨first, hdrop, hfirst⟩
    · cases h

theorem split_of_isUnclosed (h : IsUnclosed t) : split t = ⟨t, []⟩ := by
  obtain ⟨ls, hls, hnone⟩ := h
  obtain ⟨first, hdrop, hfirst⟩ := exists_of_afterOpening? hls
  simp [split, hdrop, hfirst, closeAt?_eq_none hnone]

/-- Lines that are blank lines, a block between two fences with none in it, and the rest. -/
structure Framed (ls blanks block rest : List Text) : Prop where
  lines_eq : ls = blanks ++ block ++ rest
  blank : ∀ l ∈ blanks, isBlankText l = true
  fences : ∃ first body last, block = first :: (body ++ [last]) ∧ isFence first = true ∧
    isFence last = true ∧ ∀ l ∈ body, isFence l = false

namespace Framed

variable {ls blanks block rest : List Text}

theorem block_ne_nil (h : Framed ls blanks block rest) : block ≠ [] := by
  obtain ⟨first, body, last, rfl, -⟩ := h.fences
  exact cons_ne_nil _ _

theorem split_eq {t : Text} (h : Framed (splitLines t) blanks block rest) :
    split t = ⟨unlines block ++ ['\n'], unlines rest⟩ := by
  obtain ⟨first, body, last, rfl, hfirst, hlast, hbody⟩ := h.fences
  have hdrop : (splitLines t).dropWhile isBlankText = first :: (body ++ last :: rest) := by
    rw [h.lines_eq, append_assoc, dropWhile_append_of_pos h.blank]
    simp [isBlankText_of_isFence hfirst]
  simp [split, hdrop, hfirst, closeAt?_append hbody hlast]

theorem again {t : Text} (h : Framed (splitLines t) blanks block rest) (r : Text) :
    Framed (splitLines (unlines block ++ '\n' :: r)) [] block (splitLines r) := by
  refine ⟨?_, by simp, h.fences⟩
  refine splitLines_unlines_append h.block_ne_nil (fun l hl => ?_) r
  exact Document.not_isLineBreak_of_mem_splitLines (t := t) (by rw [h.lines_eq]; simp [hl])

end Framed

theorem IsClosed.exists_framed (h : IsClosed t) :
    ∃ blanks block rest, Framed (splitLines t) blanks block rest := by
  obtain ⟨ls, hls, hsome⟩ := h
  obtain ⟨first, hdrop, hfirst⟩ := exists_of_afterOpening? hls
  -- the block ends at the first of the fences further down
  obtain ⟨last, hfind⟩ := Option.isSome_iff_exists.1 (find?_isSome.2 hsome)
  obtain ⟨hlast, body, rest, rfl, hbody⟩ := find?_eq_some_iff_append.1 hfind
  refine ⟨(splitLines t).takeWhile isBlankText, first :: (body ++ [last]), rest, ?_, ?_, ?_⟩
  · conv_lhs => rw [← takeWhile_append_dropWhile (p := isBlankText) (l := splitLines t), hdrop]
    simp
  · exact fun l hl => mem_takeWhile_imp hl
  · exact ⟨first, body, last, rfl, hfirst, hlast, by simpa using hbody⟩

theorem IsUnclosed.append_newline (h : IsUnclosed t) : IsUnclosed (t ++ ['\n']) := by
  obtain ⟨ls, hls, hnone⟩ := h
  obtain ⟨first, hdrop, hfirst⟩ := exists_of_afterOpening? hls
  obtain hsame | hmore := splitLines_append_newline t
  · exact ⟨ls, by rw [afterOpening?, hsame, ← afterOpening?, hls], hnone⟩
  · refine ⟨ls ++ [[]], ?_, ?_⟩
    · have hdrop' : (splitLines t ++ [[]]).dropWhile isBlankText = first :: (ls ++ [[]]) := by
        rw [dropWhile_append, hdrop]
        rfl
      simp [afterOpening?, hmore, hdrop', hfirst]
    · simpa [or_imp, forall_and] using ⟨hnone, by decide⟩

end FrontMatter

namespace Document

open FrontMatter

variable {t : Text}

/-! ## Passes of formatting -/

/-- One pass of formatting: a style, a line wrapper, and how Markdown is read. -/
structure Pass where
  style : Style
  wrap : Wrap.LineWrapper
  read : Text → Node

namespace Pass

def run (p : Pass) (t : Text) : Except LengthChanged Text := p.style.formatWith p.wrap p.read t

/-- Format a text in several passes, one after the other. -/
def runAll (ps : List Pass) (t : Text) : Except LengthChanged Text :=
  ps.foldlM (fun t p => p.run t) t

theorem runAll_cons {p : Pass} {t u : Text} (h : p.run t = .ok u) (ps : List Pass) :
    runAll (p :: ps) t = runAll ps u := by
  rw [runAll, foldlM_cons, h]
  rfl

end Pass

/-- **Front matter is stable.** The lines of a text with closed front matter are blank lines, the
lines of the block, and the lines that are joined to its content. The block is found again in front
of every text. So a pass of formatting gives the block with something behind it, and after any
number of passes, each with a style, a wrapper and a reader of its own, the front matter is still
the block. -/
theorem front_matter_stable {t : Text} (h : IsClosed t) :
    (∃ blanks rest, (∀ l ∈ blanks, isBlankText l = true) ∧
      splitLines t = blanks ++ splitLines (split t).block ++ rest ∧
      (split t).content = unlines rest) ∧
    (∀ r, (split ((split t).block ++ r)).block = (split t).block) ∧
    (∀ p : Pass, ∃ written, p.run t = .ok ((split t).block ++ written)) ∧
    ∀ ps : List Pass, ∃ out, Pass.runAll ps t = .ok out ∧ (split out).block = (split t).block := by
  obtain ⟨blanks, block, rest, hframed⟩ := h.exists_framed
  have hblock : (split t).block = unlines block ++ ['\n'] := by rw [hframed.split_eq]
  have hfound : ∀ r, (split ((split t).block ++ r)).block = (split t).block := by
    intro r
    rw [hblock, append_assoc]
    exact congrArg FrontMatter.block (hframed.again r).split_eq
  have hpass : ∀ (p : Pass) (u : Text), (split u).block = (split t).block →
      ∃ written, p.run u = .ok ((split t).block ++ written) := by
    intro p u hu
    obtain ⟨written, -, hrun⟩ := p.style.exists_formatWith p.wrap p.read u
    exact ⟨written, by rw [Pass.run, hrun, hu]⟩
  refine ⟨⟨blanks, rest, hframed.blank, ?_, by rw [hframed.split_eq]⟩, hfound,
    fun p => hpass p t rfl, fun ps => ?_⟩
  · have hlines := (hframed.again []).lines_eq
    rw [hblock, hlines, hframed.lines_eq]
    simp [splitLines]
  · -- what carries over from pass to pass is the block alone
    suffices ∀ u, (split u).block = (split t).block →
        ∃ out, Pass.runAll ps u = .ok out ∧ (split out).block = (split t).block from this t rfl
    induction ps with
    | nil => exact fun u hu => ⟨u, rfl, hu⟩
    | cons p ps ih =>
      intro u hu
      obtain ⟨written, hrun⟩ := hpass p u hu
      rw [Pass.runAll_cons hrun]
      exact ih _ (hfound written)

/-- Between padded fences, after a blank line, with another fence further down. -/
theorem block_of_padded_fences_stable :
    let t := "\n --- \ra: 1\x0c---\t\nb\n---\n".toList
    IsClosed t ∧ (split t).block = " --- \na: 1\n---\t\n".toList ∧
      ∀ r, (split ((split t).block ++ r)).block = (split t).block := by
  intro t
  have hclosed : IsClosed t :=
    ⟨["a: 1".toList, "---\t".toList, "b".toList, "---".toList], by decide +kernel, "---".toList,
      by decide +kernel, by decide +kernel⟩
  exact ⟨hclosed, by decide +kernel, (front_matter_stable hclosed).2.1⟩

/-! ## Front matter that is never closed -/

/-- A document of one blank line. -/
def IsBlankPage (n : Node) : Prop :=
  ∃ references span span', n = .branch ⟨.document references, span⟩ [.leaf ⟨.blankLine, span'⟩]

theorem IsBlankPage.apply_eq {n : Node} (h : IsBlankPage n) {s : Style} {t : Transform}
    (ht : t ∈ s.transforms) : t.apply n = .ok n := by
  obtain ⟨references, span, span', rfl⟩ := h
  cases t with
  | quotes =>
    have hwalk : mapScopesAll Typography.curlQuotes [.leaf ⟨.blankLine, span'⟩]
        = .ok [.leaf ⟨.blankLine, span'⟩] :=
      mapScopesAll_cons (by rw [mapScopes]) (by rw [mapScopesAll])
    refine (mapScopes_of_container rfl rfl).trans ?_
    exact congrArg (Except.map (Node.branch ⟨.document references, span⟩)) hwalk
  | ellipsesAcross => simp [Style.transforms] at ht
  | _ => rfl

theorem IsBlankPage.writeWith_eq {n : Node} (h : IsBlankPage n) (s : Style)
    (wrap : Wrap.LineWrapper) : s.writeWith wrap n = .ok ['\n'] := by
  have hall : ∀ ts : List Transform, (∀ t ∈ ts, t ∈ s.transforms) → applyAll ts n = .ok n := by
    intro ts hts
    induction ts with
    | nil => rfl
    | cons t ts ih =>
      rw [applyAll, foldlM_cons, h.apply_eq (hts t (by simp))]
      exact ih fun u hu => hts u (by simp [hu])
  rw [Style.writeWith, hall _ fun _ ht => ht]
  obtain ⟨references, span, span', rfl⟩ := h
  rfl

theorem source_eq_newline (hne : t ≠ []) (hsplit : split t = ⟨t, []⟩) (s : Style) :
    s.source t = ['\n'] := by
  have hbody : Style.body t = [] := by simp [Style.body, hsplit, hne]
  rw [Style.source, hbody]
  cases s.dedent <;> rfl

/-- **A pass over front matter alone**, whatever the reader: the text comes first, and what a line feed
is written as comes after it. -/
theorem Pass.exists_run (p : Pass) (hne : t ≠ []) (hsplit : split t = ⟨t, []⟩) :
    ∃ written, p.style.writeWith p.wrap (p.read ['\n']) = .ok written ∧
      p.run t = .ok (t ++ written) := by
  obtain ⟨written, hwritten⟩ := p.style.exists_writeWith p.wrap (p.read ['\n'])
  refine ⟨written, hwritten, ?_⟩
  rw [Pass.run, Style.formatWith, source_eq_newline hne hsplit, hwritten, hsplit]
  rfl

theorem Pass.run_of_blank {p : Pass} (hp : IsBlankPage (p.read ['\n'])) (hne : t ≠ [])
    (hsplit : split t = ⟨t, []⟩) : p.run t = .ok (t ++ ['\n']) := by
  obtain ⟨written, hwritten, hrun⟩ := p.exists_run hne hsplit
  rw [hp.writeWith_eq] at hwritten
  cases hwritten
  exact hrun

/-- **Unclosed front matter grows.** Of a text that is front matter as a whole, a pass of formatting
makes the text followed by what the document that is read from a line feed is written as. It leaves the
text as it is if and only if that is nothing. A reader that sees a blank line there makes every pass add
a line feed; and as front matter stays unclosed, so many passes add so many line feeds. -/
theorem unclosed_text_grows {t : Text} (hne : t ≠ []) (hsplit : split t = ⟨t, []⟩) :
    (∀ p : Pass, ∃ written, p.style.writeWith p.wrap (p.read ['\n']) = .ok written ∧
      p.run t = .ok (t ++ written)) ∧
    (∀ p : Pass, p.run t = .ok t ↔ p.style.writeWith p.wrap (p.read ['\n']) = .ok []) ∧
    (∀ p : Pass, IsBlankPage (p.read ['\n']) → p.run t = .ok (t ++ ['\n'])) ∧
    (IsUnclosed t → ∀ ps : List Pass, (∀ p ∈ ps, IsBlankPage (p.read ['\n'])) →
      Pass.runAll ps t = .ok (t ++ List.replicate ps.length '\n')) := by
  refine ⟨fun p => p.exists_run hne hsplit, fun p => ?_, fun p hp => Pass.run_of_blank hp hne hsplit,
    fun hopen ps => ?_⟩
  · obtain ⟨written, hwritten, hrun⟩ := p.exists_run hne hsplit
    rw [hrun, hwritten]
    simp
  · clear hsplit
    induction ps generalizing t with
    | nil => simp [Pass.runAll, pure, Except.pure]
    | cons p ps ih =>
      intro hall
      rw [List.forall_mem_cons] at hall
      rw [Pass.runAll_cons (Pass.run_of_blank hall.1 hne (split_of_isUnclosed hopen)),
        ih (by simp) hopen.append_newline hall.2]
      simp [List.replicate_succ]

/-- Two passes over a text of one fence. -/
theorem lone_fence_grows :
    let t := "---".toList
    let p : Pass := ⟨{}, Style.wrapper {}, fun _ => blankDocument []⟩
    t ≠ [] ∧ split t = ⟨t, []⟩ ∧ IsUnclosed t ∧ Pass.runAll [p, p] t = .ok "---\n\n".toList := by
  intro t p
  have hsplit : split t = ⟨t, []⟩ := by decide +kernel
  have hopen : IsUnclosed t := ⟨[], by decide +kernel, by simp⟩
  have hblank : ∀ q ∈ [p, p], IsBlankPage (q.read ['\n']) := by
    simpa [p] using ⟨[], none, none, rfl⟩
  exact ⟨by decide, hsplit, hopen, (unclosed_text_grows (by decide) hsplit).2.2.2 hopen [p, p] hblank⟩

/-- Front matter that is never closed, with a line feed at its end, gets another one. -/
theorem unclosed_text_not_left_alone :
    let t := "---\ntitle: Test\n".toList
    let p : Pass := ⟨{}, Style.wrapper {}, fun _ => blankDocument []⟩
    split t = ⟨t, []⟩ ∧ t ≠ [] ∧ p.read ['\n'] = blankDocument [] ∧
      p.run t = .ok "---\ntitle: Test\n\n".toList ∧ p.run t ≠ .ok t := by
  intro t p
  have hrun : p.run t = .ok "---\ntitle: Test\n\n".toList := by rfl
  refine ⟨by decide +kernel, by decide, rfl, hrun, ?_⟩
  rw [hrun]
  decide

end Document

end Reflow
