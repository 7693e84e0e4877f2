import Mathlib.Logic.Function.Iterate
import Reflow.Proofs.Formatting
import Reflow.Proofs.Spans

/-!
Curling the quotes of a text, once and again.

Quotes are changed in place, outside tags only. A second pass may still curl quotes: of two quoted
stretches with one space between them, or one inside the other, the first pass sees one only. It
reads the same pieces and the same words (`pieces_curlQuotes`, `curlSegment_curlSegment_iff`), and
every stretch it takes stood in the text before, with both its quotes left as they were
(`exists_stands_before`). Each pass that changes something leaves fewer straight quotes.
-/

open List

namespace Reflow.Typography

open Text Atomic
open Sentence (slice slice_append)

/-! ## Once -/

variable {t a pre post u : Text} {c : Char} {q : Quoted}

theorem slice_curlQuotes_of_tag {s : Atomic.Span} (hs : s ∈ spans Construct.tags t)
    (htag : s.construct.isSome) : slice (curlQuotes t) s.start s.stop = s.text := by
  obtain ⟨ps, qs, hpieces, hstart⟩ := mem_locate_iff.1 hs
  have hlength : ((ps.map curlPiece).flatMap Piece.text).length = s.start := by
    rw [← (requoted_flatMap_curlPiece ps).length_eq]
    simpa using hstart.symm
  have hself : curlPiece s.toPiece = s.toPiece := by rw [curlPiece, if_pos htag]
  rw [curlQuotes_eq_flatMap, hpieces, map_append, map_cons, flatMap_append,
    flatMap_cons, hself, ← append_assoc, Atomic.Span.stop, ← hlength]
  exact slice_append _ _ _

theorem Requote.cases_straight {d : Char} (h : Requote c d) :
    d = c ∨ c = '"' ∧ (d = '“' ∨ d = '”') ∨ c = '\'' ∧ (d = '‘' ∨ d = '’') := by
  rcases h with h | ⟨k, hc, hd⟩
  · exact .inl h
  · cases k with
    | double => exact .inr (.inl ⟨hc, hd⟩)
    | single => exact .inr (.inr ⟨hc, hd⟩)

/-! ### A phrase in quotes -/

theorem recognise?_tags_eq_none (hc : c ≠ '{' ∧ c ≠ '<') (t : Text) :
    Atomic.recognise? Construct.tags (c :: t) = none := by
  refine List.findSome?_eq_none_iff.2 fun k hk => ?_
  obtain ⟨j, -, rfl⟩ := mem_map.1 hk
  rw [Option.map_eq_none_iff, Option.eq_none_iff_forall_ne_some]
  intro n hn
  obtain ⟨d, u, heq, hd⟩ := (Construct.tag j).startsIn_recogniser _ n hn
  obtain ⟨rfl, -⟩ := List.cons.inj heq
  simp [Construct.firstChars, hc] at hd

theorem curlQuotes_of_tagless (h : ∀ c ∈ t, c ≠ '{' ∧ c ≠ '<') : curlQuotes t = curlSegment t := by
  have hpieces : t ≠ [] → pieces Construct.tags t = [⟨t, none⟩] := by
    intro hne
    induction t with
    | nil => exact absurd rfl hne
    | cons c t ih =>
      rw [pieces, recognise?_tags_eq_none (h c (by simp))]
      cases t with
      | nil => simp [pieces, Atomic.consPlain]
      | cons d t => rw [ih (fun x hx => h x (by simp [hx])) (by simp), Atomic.consPlain]
  cases t with
  | nil => simp [curlQuotes, pieces, curlSegment, Rule.apply, runs]
  | cons c t => simp [curlQuotes, hpieces]

theorem flatMap_runs_of_not_mem (h : '\'' ∉ t) : (runs t).flatMap fixApostrophe = t := by
  have hword : ∀ w ∈ runs t, fixApostrophe w = w := by
    intro w hw
    have hcount : w.count '\'' = 0 := by
      rw [count_eq_zero]
      intro hmem
      refine h ?_
      rw [← flatten_runs t]
      exact mem_flatten_of_mem hw hmem
    rw [fixApostrophe, hcount]
    rfl
  rw [flatMap_congr hword, flatMap_id', flatten_runs]

theorem hasParagraphBreak_of_not_mem (h : '\n' ∉ t) : hasParagraphBreak t = false := by
  induction t with
  | nil => rfl
  | cons c t ih =>
    rw [mem_cons, not_or] at h
    have hc : (c == '\n') = false := beq_eq_false_iff_ne.2 fun hc => h.1 hc.symm
    rw [hasParagraphBreak, hc, ih h.2]
    rfl

theorem curlRule_apply_plain (h : ∀ c ∈ q.inner, q.kind.admits c = true) :
    curlRule.apply q.plain = q.curl := by
  have htake : curlRule none (q.plain ++ []) = some (q.plain.length, q.curl) :=
    curlRule_eq_some_iff.2 ⟨⟨[], q, []⟩, [], by simp [Taking.text],
      ⟨.inl ⟨rfl, rfl⟩, h, .inl ⟨rfl, rfl⟩⟩, by simp [Taking.text], by simp [Taking.curl]⟩
  have happly := Rule.applyAfter_append (by simp [Quoted.plain]) htake
  rwa [append_nil, Rule.applyAfter_nil, append_nil] at happly

theorem curlQuotes_phrase (k : QuoteKind) {inner : Text}
    (h : ∀ c ∈ inner, isQuote c = false ∧ c ≠ '{' ∧ c ≠ '<' ∧ c ≠ '\n') :
    curlQuotes (k.straight :: (inner ++ [k.straight])) = k.opening :: (inner ++ [k.closing]) := by
  obtain ⟨hstraight, hopening, hclosing⟩ := k.isQuote_forms
  have hadmits : ∀ c ∈ inner, k.admits c = true := by
    intro c hc
    have hne : ∀ {d}, isQuote d = true → c ≠ d := ne_of_isQuote (h c hc).1
    simp [QuoteKind.admits, hne hstraight, hne hopening, hne hclosing]
  have hbreak : hasParagraphBreak inner = false :=
    hasParagraphBreak_of_not_mem fun hc => (h _ hc).2.2.2 rfl
  have hcurl : Quoted.curl ⟨k, inner⟩ = k.opening :: (inner ++ [k.closing]) :=
    if_neg (by simp [hbreak])
  have htagless : ∀ c ∈ k.straight :: (inner ++ [k.straight]), c ≠ '{' ∧ c ≠ '<' := by
    have hquote : k.straight ≠ '{' ∧ k.straight ≠ '<' := by cases k <;> decide
    simp only [mem_cons, mem_append, not_mem_nil, or_false]
    rintro c (rfl | hc | rfl)
    · exact hquote
    · exact ⟨(h c hc).2.1, (h c hc).2.2.1⟩
    · exact hquote
  -- after the stretch is curled no apostrophe is left for the second step
  have hsingle : '\'' ∉ k.opening :: (inner ++ [k.closing]) := by
    have hcurly : k.opening ≠ '\'' ∧ k.closing ≠ '\'' := by cases k <;> decide
    simp only [mem_cons, mem_append, not_mem_nil, or_false]
    rintro (hc | hc | hc)
    · exact hcurly.1 hc.symm
    · exact ne_of_isQuote (h _ hc).1 (by decide) rfl
    · exact hcurly.2 hc.symm
  rw [curlQuotes_of_tagless htagless, curlSegment]
  have hrule := curlRule_apply_plain (q := ⟨k, inner⟩) hadmits
  rw [Quoted.plain, hcurl] at hrule
  rw [hrule, flatMap_runs_of_not_mem hsingle]

/-- **Quotes are curled in place.** The result has the length of the text, and at each place the
character of the text, except that a straight quote may have become a curly one of its kind; around
a phrase both of them do. In the tags that are found from left to right nothing is changed. So the
quotes of every document can be curled across inline markup. -/
theorem quotes_curled_in_place (t : Text) :
    (curlQuotes t).length = t.length ∧
      (∀ (i : Nat) (c d : Char), t[i]? = some c → (curlQuotes t)[i]? = some d →
        d = c ∨ c = '"' ∧ (d = '“' ∨ d = '”') ∨ c = '\'' ∧ (d = '‘' ∨ d = '’')) ∧
      (∀ (k : QuoteKind) (inner : Text), t = k.straight :: (inner ++ [k.straight]) →
        (∀ c ∈ inner, isQuote c = false ∧ c ≠ '{' ∧ c ≠ '<' ∧ c ≠ '\n') →
        curlQuotes t = k.opening :: (inner ++ [k.closing])) ∧
      (∀ s ∈ spans Construct.tags t, s.construct.isSome = true →
        slice (curlQuotes t) s.start s.stop = slice t s.start s.stop) ∧
      ∀ doc : Document.Node, ∃ new, Document.mapAcross curlQuotes doc = .ok new := by
  refine ⟨length_curlQuotes t, fun i c d hc hd => ?_, fun k inner ht hinner => ?_,
    fun s hs htag => ?_, fun doc => ?_⟩
  · obtain ⟨hi, rfl⟩ := List.getElem?_eq_some_iff.1 hc
    obtain ⟨hi', rfl⟩ := List.getElem?_eq_some_iff.1 hd
    exact ((requoted_curlQuotes t).get hi hi').cases_straight
  · rw [ht, curlQuotes_phrase k hinner]
  · rw [slice_curlQuotes_of_tag hs htag]
    exact (spanTiling_spans Construct.tags t).text_eq s hs
  · exact Document.exists_mapScopes length_curlQuotes (Document.coalesce doc)

example : curlQuotes "\"it's\" \x7b% \"b\" %\x7d 'c'".toList
    = "“it’s” \x7b% \"b\" %\x7d ‘c’".toList := by
  decide +kernel

/-! ## Again: the same pieces and the same words

The second pass sees texts of the same lengths in the same order, so whether it changes anything can
be asked of each piece, and within a piece of each word. Apostrophes are never left over: the first
pass has put in all of them, and a word that it left alone is left alone again.
-/

theorem eq_of_flatMap_text {ps qs : List Piece}
    (h : Forall₂ (fun p q => q.construct = p.construct ∧ q.text.length = p.text.length) ps qs)
    (htext : qs.flatMap Piece.text = ps.flatMap Piece.text) : qs = ps := by
  induction h with
  | nil => rfl
  | @cons p q ps qs hpq _ ih =>
    obtain ⟨hfirst, hrest⟩ := append_inj htext hpq.2
    obtain ⟨pt, pc⟩ := p
    obtain ⟨qt, qc⟩ := q
    obtain rfl : qc = pc := hpq.1
    obtain rfl : qt = pt := hfirst
    rw [ih hrest]

theorem pieces_curlQuotes (t : Text) :
    pieces Construct.tags (curlQuotes t) = (pieces Construct.tags t).map curlPiece := by
  refine eq_of_flatMap_text (forall₂_map_left_iff.2 ?_) ?_
  · refine (requoted_curlQuotes t).pieces.imp fun p q hpq => ?_
    have hcurled := pieceRequoted_curlPiece p
    exact ⟨hpq.construct.trans hcurled.construct.symm,
      hpq.text.length_eq.symm.trans hcurled.text.length_eq⟩
  · rw [flatMap_pieces, curlQuotes_eq_flatMap]

/-- The texts between the tags. -/
def plainTexts (t : Text) : List Text :=
  ((pieces Construct.tags t).filter (·.construct.isNone)).map Piece.text

theorem curlQuotes_curlQuotes_iff (t : Text) :
    curlQuotes (curlQuotes t) = curlQuotes t ↔
      ∀ s ∈ plainTexts t, curlSegment (curlSegment s) = curlSegment s := by
  have hlengths : ∀ p : Piece, (curlPiece (curlPiece p)).text.length = (curlPiece p).text.length :=
    fun p => (pieceRequoted_curlPiece (curlPiece p)).text.length_eq.symm
  have hpiece : ∀ p : Piece, (curlPiece (curlPiece p)).text = (curlPiece p).text ↔
      (p.construct = none → curlSegment (curlSegment p.text) = curlSegment p.text) := by
    rintro ⟨s, _ | k⟩ <;> simp [curlPiece]
  rw [curlQuotes_eq_flatMap, pieces_curlQuotes, curlQuotes_eq_flatMap t, flatMap_def,
    flatMap_def]
  simp only [map_map, Function.comp_def]
  -- lists of texts with the same lengths are equal if they concatenate to the same text
  have hcut : ∀ ps : List Piece,
      (ps.map fun p => (curlPiece (curlPiece p)).text).flatten
        = (ps.map fun p => (curlPiece p).text).flatten ↔
      ∀ p ∈ ps, (curlPiece (curlPiece p)).text = (curlPiece p).text := by
    intro ps
    rw [← map_inj_left, eq_iff_flatten_eq]
    simp [hlengths, Function.comp_def]
  rw [hcut]
  simp only [hpiece, plainTexts, mem_map, mem_filter, Option.isNone_iff_eq_none,
    forall_exists_index, and_imp]
  exact ⟨fun h s p hp hnone hs => hs ▸ h p hp hnone, fun h p hp hnone => h _ p hp hnone rfl⟩

theorem fixApostrophe_fixApostrophe (word : Text) :
    fixApostrophe (fixApostrophe word) = fixApostrophe word := by
  by_cases h : (word.count '\'' = 1 && (hasInnerApostrophe word || isPossessive word))
  · -- the straight quote is gone
    have hfix : fixApostrophe word = word.map curlApostrophe := if_pos h
    have hcount : (word.map curlApostrophe).count '\'' = 0 := by
      rw [count_eq_zero, mem_map]
      rintro ⟨c, -, hc⟩
      unfold curlApostrophe at hc
      split at hc
      · exact absurd hc (by decide)
      · next hne => exact hne hc
    rw [hfix, fixApostrophe, hcount]
    rfl
  · simp only [fixApostrophe, if_neg h]

theorem runs_flatMap_fixApostrophe (t : Text) :
    runs ((runs t).flatMap fixApostrophe) = (runs t).map fixApostrophe := by
  rw [eq_iff_flatten_eq, flatten_runs]
  refine ⟨rfl, ?_⟩
  have hlength : (fun w => (fixApostrophe w).length) = length := by
    funext w
    exact (requoted_fixApostrophe w).length_eq.symm
  rw [map_map, Function.comp_def, hlength]
  have hruns := (requoted_flatMap_runs t).runs
  generalize runs t = rs, runs ((runs t).flatMap fixApostrophe) = rs' at hruns
  induction hruns with
  | nil => rfl
  | cons hrun _ ih => rw [map_cons, map_cons, ih, hrun.length_eq]

/-- A second pass changes nothing exactly if the rule for quoted stretches does not: there are no
apostrophes left to be made. -/
theorem curlSegment_curlSegment_iff (t : Text) :
    curlSegment (curlSegment t) = curlSegment t ↔
      curlRule.apply (curlSegment t) = curlSegment t := by
  have hfixed : (runs (curlSegment t)).flatMap fixApostrophe = curlSegment t := by
    rw [curlSegment, runs_flatMap_fixApostrophe, flatMap_map]
    simp only [fixApostrophe_fixApostrophe]
  constructor
  · intro h
    -- the rule changes quotes one way, and apostrophes do not change them back
    have hback := requoted_flatMap_runs (curlRule.apply (curlSegment t))
    rw [← curlSegment, h] at hback
    exact hback.antisymm (requoted_curlRule _)
  · intro h
    rw [curlSegment, h, hfixed]

/-! ## Paragraph breaks -/

theorem ne_newline_of_visible (hc : isBlank c = false) : c ≠ '\n' := by
  rintro rfl
  simp at hc

theorem blanksToNewline_append_visible (hc : isBlank c = false) (a b : Text) :
    blanksToNewline (a ++ c :: b) = blanksToNewline a := by
  induction a with
  | nil => simp [blanksToNewline, hc, ne_newline_of_visible hc]
  | cons d a ih => rw [cons_append, blanksToNewline, blanksToNewline, ih]

theorem hasParagraphBreak_append_visible (hc : isBlank c = false) (a b : Text) :
    hasParagraphBreak (a ++ c :: b) = (hasParagraphBreak a || hasParagraphBreak b) := by
  induction a with
  | nil => simp [hasParagraphBreak, ne_newline_of_visible hc]
  | cons d a ih =>
    rw [cons_append, hasParagraphBreak, hasParagraphBreak, ih,
      blanksToNewline_append_visible hc, Bool.or_assoc]

theorem blanksToNewline_append (h : blanksToNewline a) (b : Text) : blanksToNewline (a ++ b) := by
  induction a with
  | nil => cases h
  | cons c a ih =>
    simp only [cons_append, blanksToNewline, Bool.or_eq_true, Bool.and_eq_true] at h ⊢
    exact h.imp_right fun h => ⟨h.1, ih h.2⟩

theorem hasParagraphBreak_of_isInfix (h : a <:+: t) (ha : hasParagraphBreak a) :
    hasParagraphBreak t := by
  obtain ⟨x, y, rfl⟩ := h
  have hright : hasParagraphBreak (a ++ y) := by
    induction a with
    | nil => cases ha
    | cons c a ih =>
      simp only [cons_append, hasParagraphBreak, Bool.or_eq_true, Bool.and_eq_true] at ha ⊢
      exact ha.imp (fun h => ⟨h.1, blanksToNewline_append h.2 y⟩) ih
  rw [append_assoc]
  induction x with
  | nil => exact hright
  | cons c x ih => simp [hasParagraphBreak, ih]

theorem isBlank_straight (k : QuoteKind) : isBlank k.straight = false := by
  cases k <;> decide

/-! ## Again: what the rule takes -/

namespace Taking

variable {k : Taking} {before : Option Char} {rest : Text} (h : k.Fits before rest)
include h

theorem hasParagraphBreak_text : hasParagraphBreak k.text = hasParagraphBreak k.quoted.inner := by
  have hsingle : ∀ c : Char, hasParagraphBreak [c] = false := by
    simp [hasParagraphBreak, blanksToNewline]
  have hlead : hasParagraphBreak k.lead = false := by
    rcases h.lead with ⟨hlead, -⟩ | ⟨c, hlead, -⟩
    · rw [hlead, hasParagraphBreak]
    · rw [hlead, hsingle]
  have hfollow : hasParagraphBreak k.follow = false := by
    rcases h.follow with ⟨hfollow, -⟩ | ⟨d, hfollow, -⟩
    · rw [hfollow, hasParagraphBreak]
    · rw [hfollow, hsingle]
  have hquote := isBlank_straight k.quoted.kind
  have htext : k.text = k.lead ++ k.quoted.kind.straight ::
      (k.quoted.inner ++ k.quoted.kind.straight :: k.follow) := by
    simp [text, Quoted.plain]
  rw [htext, hasParagraphBreak_append_visible hquote, hasParagraphBreak_append_visible hquote,
    hlead, hfollow, Bool.false_or, Bool.or_false]

theorem curl_eq_text_iff : k.curl = k.text ↔ hasParagraphBreak k.text := by
  have hquoted : k.curl = k.text ↔ k.quoted.curl = k.quoted.plain := by
    rw [curl, text, append_left_inj, append_right_inj]
  rw [hquoted, hasParagraphBreak_text h, Quoted.curl, Quoted.plain]
  split
  · next hbreak => simp [hbreak]
  · next hbreak =>
    have hne := (k.quoted.kind.straight_ne k.quoted.kind).1
    simp [hbreak, hne.symm]

end Taking

theorem curlRule_apply_eq_self_iff (t : Text) :
    curlRule.apply t = t ↔ ∀ a ∈ curlRule.taken none t, hasParagraphBreak a := by
  refine lawful_curlRule.applyAfter_eq_self_iff (fun h => ?_) (fun h => ?_) none t
  · obtain ⟨k, rfl, rfl, -⟩ := exists_taking h
    exact k.requoted_curl.length_eq.symm
  · obtain ⟨k, rfl, rfl, hfits⟩ := exists_taking h
    exact Taking.curl_eq_text_iff hfits

/-- The stretch stands between `pre` and `post` as one that may be curled: at the start of the text
or after a blank or em dash, without a quote of its kind inside, and before a character that may
follow or at the end of the text. -/
structure Quoted.Stands (q : Quoted) (pre post : Text) : Prop where
  lead : pre.getLast?.all isQuoteLead = true
  inner : q.inner.all q.kind.admits = true
  follow : post.head?.all isQuoteFollower = true

theorem exists_stands_of_mem_taken (h : a ∈ curlRule.taken none t) :
    ∃ pre q post, t = pre ++ Quoted.plain q ++ post ∧ q.Stands pre post ∧
      hasParagraphBreak q.inner = hasParagraphBreak a := by
  suffices ∀ before t (past : Text), past.getLast? = before → a ∈ curlRule.taken before t →
      ∃ pre q post, past ++ t = pre ++ Quoted.plain q ++ post ∧ q.Stands pre post ∧
        hasParagraphBreak q.inner = hasParagraphBreak a from this none t [] rfl h
  -- `past` is the text that was read before the place where the rule is asked
  intro before t
  induction before, t using lawful_curlRule.induction with
  | nil before => simp
  | keep before c t hno ih =>
    intro past _ ha
    rw [Rule.taken_cons hno] at ha
    simpa using ih (past ++ [c]) (by simp) ha
  | take before b t new hb hrule ih =>
    intro past hpast ha
    rw [Rule.taken_append hb hrule, mem_cons] at ha
    rcases ha with rfl | ha
    · obtain ⟨k, rfl, -, hfits⟩ := exists_taking hrule
      refine ⟨past ++ k.lead, k.quoted, k.follow ++ t, by simp [Taking.text], ⟨?_, ?_, ?_⟩,
        (Taking.hasParagraphBreak_text hfits).symm⟩
      · rcases hfits.lead with ⟨hlead, hstart⟩ | ⟨c, hlead, hc⟩
        · -- the stretch begins the line, so a line feed stands before it or nothing does
          rw [hlead, append_nil, hpast]
          cases before with
          | none => rfl
          | some c =>
            obtain rfl : c = '\n' := by simpa [atLineStart] using hstart
            rfl
        · simp [hlead, hc]
      · simpa [all_eq_true] using hfits.inner
      · rcases hfits.follow with ⟨hfollow, rfl⟩ | ⟨d, hfollow, hd⟩
        · simp [hfollow]
        · simp [hfollow, hd]
    · have hlast : (past ++ b).getLast? = b.getLast? := by
        rw [getLast?_append_of_ne_nil _ hb]
      simpa using ih (past ++ b) hlast ha

theorem taken_ne_nil_of_stands (h : q.Stands pre post) :
    curlRule.taken none (pre ++ q.plain ++ post) ≠ [] := by
  intro hnone
  have hinner : ∀ c ∈ q.inner, q.kind.admits c := by
    simpa [all_eq_true] using h.inner
  obtain ⟨follow, rest, rfl, hfollow⟩ : ∃ follow rest, post = follow ++ rest ∧
      (follow = [] ∧ rest = [] ∨ ∃ d, follow = [d] ∧ isQuoteFollower d) := by
    cases post with
    | nil => exact ⟨[], [], rfl, .inl ⟨rfl, rfl⟩⟩
    | cons d rest => exact ⟨[d], rest, rfl, .inr ⟨d, rfl, by simpa using h.follow⟩⟩
  -- the place at which the rule is asked: before the character that leads the stretch
  obtain ⟨a, lead, rfl, hlead⟩ : ∃ a lead, pre = a ++ lead ∧
      (lead = [] ∧ atLineStart a.getLast? ∨ ∃ c, lead = [c] ∧ isQuoteLead c) := by
    rcases eq_nil_or_concat' pre with rfl | ⟨a, c, rfl⟩
    · exact ⟨[], [], rfl, .inl ⟨rfl, rfl⟩⟩
    · exact ⟨a, [c], rfl, .inr ⟨c, rfl, by simpa using h.lead⟩⟩
  have hfits : (Taking.mk lead q follow).Fits a.getLast? rest := ⟨hlead, hinner, hfollow⟩
  have hfound := curlRule_eq_some_iff.2 ⟨⟨lead, q, follow⟩, rest, rfl, hfits, rfl, rfl⟩
  have hasked : a ++ lead ++ q.plain ++ (follow ++ rest)
      = a ++ ((Taking.mk lead q follow).text ++ rest) := by
    simp [Taking.text]
  rw [hasked] at hnone
  have hno := lawful_curlRule.eq_none_of_taken_append hnone (by simp [Taking.text, Quoted.plain])
  rw [Option.or_none, hfound] at hno
  cases hno

/-! ## Again: what the first pass has left

A straight quote of the curled text was straight before, so the stretches of the curled text are the
stretches of the text whose two quotes have both been left. This goes both ways, except that the
rule need not take a stretch that stands in the text: it may have taken another one that overlaps
it. It takes something, though (`taken_ne_nil_of_stands`), and in a text of one paragraph that is
enough for a change.
-/

namespace Quoted.Stands

/-- Where a stretch stands does not depend on quotes of the other kind, nor on those outside. -/
theorem requoted_iff {k : QuoteKind} {pre pre' inner inner' post post' : Text}
    (hpre : Requoted pre pre') (hinner : Requoted inner inner') (hpost : Requoted post post') :
    Quoted.Stands ⟨k, inner'⟩ pre' post' ↔ Quoted.Stands ⟨k, inner⟩ pre post := by
  have hlead := Requoted.all_getLast?_eq Requote.isQuoteLead_eq hpre
  have hall := Requoted.all_eq (fun h => Requote.admits_eq h k) hinner
  have hfollow := Requoted.all_head?_eq Requote.isQuoteFollower_eq hpost
  constructor
  · rintro ⟨h₁, h₂, h₃⟩
    exact ⟨hlead ▸ h₁, hall ▸ h₂, hfollow ▸ h₃⟩
  · rintro ⟨h₁, h₂, h₃⟩
    exact ⟨hlead.symm ▸ h₁, hall.symm ▸ h₂, hfollow.symm ▸ h₃⟩

end Quoted.Stands

/-- Of every stretch of the text that stands within a paragraph, one pass has curled a quote. -/
def FullyCurled (t : Text) : Prop :=
  ∀ pre q post, t = pre ++ Quoted.plain q ++ post → q.Stands pre post →
    hasParagraphBreak q.inner = false →
    (curlSegment t)[pre.length]? ≠ some q.kind.straight ∨
      (curlSegment t)[pre.length + q.inner.length + 1]? ≠ some q.kind.straight

theorem getElem?_opening (pre : Text) (q : Quoted) (post : Text) :
    (pre ++ q.plain ++ post)[pre.length]? = some q.kind.straight := by
  simp [Quoted.plain]

theorem getElem?_after_inner (pre inner post : Text) (c d : Char) :
    (pre ++ c :: (inner ++ d :: post))[pre.length + inner.length + 1]? = some d := by
  have hlength : pre.length + inner.length + 1 = (pre ++ c :: inner).length := by
    simp only [length_append, length_cons]
    omega
  rw [hlength]
  simp

theorem getElem?_closing (pre : Text) (q : Quoted) (post : Text) :
    (pre ++ q.plain ++ post)[pre.length + q.inner.length + 1]? = some q.kind.straight := by
  simpa [Quoted.plain] using
    getElem?_after_inner pre q.inner post q.kind.straight q.kind.straight

/-- A stretch that stands in the curled text stood in the text, with the same quotes. -/
theorem exists_stands_before (h : Requoted t u) (hu : u = pre ++ q.plain ++ post)
    (hq : q.Stands pre post) :
    ∃ pre' inner' post', t = pre' ++ Quoted.plain ⟨q.kind, inner'⟩ ++ post' ∧
      Quoted.Stands ⟨q.kind, inner'⟩ pre' post' ∧
      pre'.length = pre.length ∧ Requoted inner' q.inner := by
  have hsplit : u = pre ++ ([q.kind.straight] ++ (q.inner ++ ([q.kind.straight] ++ post))) := by
    simp [hu, Quoted.plain]
  rw [hsplit] at h
  obtain ⟨pre', t₁, rfl, hpre, h⟩ := h.exists_append_before
  obtain ⟨o, t₂, rfl, ho, h⟩ := h.exists_append_before
  obtain ⟨inner', t₃, rfl, hinner, h⟩ := h.exists_append_before
  obtain ⟨c, post', rfl, hc, hpost⟩ := h.exists_append_before
  have hstraight : ∀ {x : Text}, Requoted x [q.kind.straight] → x = [q.kind.straight] := by
    rintro x (_ | ⟨hx, _ | _⟩)
    rw [hx.eq_of_straight]
  obtain rfl := hstraight ho
  obtain rfl := hstraight hc
  exact ⟨pre', inner', post', by simp [Quoted.plain],
    (Quoted.Stands.requoted_iff hpre hinner hpost).1 hq, hpre.length_eq, hinner⟩

/-- A stretch with both its quotes left straight stands in the curled text too. -/
theorem exists_stands_after (h : Requoted t u) (ht : t = pre ++ q.plain ++ post)
    (hq : q.Stands pre post) (hopening : u[pre.length]? = some q.kind.straight)
    (hclosing : u[pre.length + q.inner.length + 1]? = some q.kind.straight) :
    ∃ pre' q' post', u = pre' ++ Quoted.plain q' ++ post' ∧ q'.Stands pre' post' := by
  have hsplit : t = pre ++ ([q.kind.straight] ++ (q.inner ++ ([q.kind.straight] ++ post))) := by
    simp [ht, Quoted.plain]
  rw [hsplit] at h
  obtain ⟨pre', u₁, rfl, hpre, h⟩ := h.exists_append_after
  obtain ⟨o, u₂, rfl, ho, h⟩ := h.exists_append_after
  obtain ⟨inner', u₃, rfl, hinner, h⟩ := h.exists_append_after
  obtain ⟨c, post', rfl, hc, hpost⟩ := h.exists_append_after
  obtain ⟨x, rfl⟩ := length_eq_one_iff.1 ho.length_eq.symm
  obtain ⟨y, rfl⟩ := length_eq_one_iff.1 hc.length_eq.symm
  obtain rfl : x = q.kind.straight := by
    rw [hpre.length_eq] at hopening
    simpa using hopening
  obtain rfl : y = q.kind.straight := by
    have hplace := getElem?_after_inner pre' inner' post' q.kind.straight y
    rw [← hpre.length_eq, ← hinner.length_eq] at hplace
    exact Option.some.inj (hplace.symm.trans hclosing)
  exact ⟨pre', ⟨q.kind, inner'⟩, post', by simp [Quoted.plain],
    (Quoted.Stands.requoted_iff hpre hinner hpost).2 hq⟩

theorem FullyCurled.settled (h : FullyCurled t) :
    ∀ a ∈ curlRule.taken none (curlSegment t), hasParagraphBreak a := by
  intro a ha
  rw [← Bool.not_eq_false]
  intro hbreak
  obtain ⟨pre, q, post, hu, hq, hspan⟩ := exists_stands_of_mem_taken ha
  obtain ⟨pre', inner', post', ht, hq', hpre, hinner⟩ :=
    exists_stands_before (requoted_curlSegment t) hu hq
  have hwithin : hasParagraphBreak inner' = false := by
    rw [← hinner.hasParagraphBreak_eq, hspan, hbreak]
  -- the quotes of the stretch are straight in the curled text
  rcases h pre' ⟨q.kind, inner'⟩ post' ht hq' hwithin with hcurled | hcurled
  · rw [hpre, hu] at hcurled
    exact hcurled (getElem?_opening pre q post)
  · rw [hpre, hinner.length_eq, hu] at hcurled
    exact hcurled (getElem?_closing pre q post)

theorem fullyCurled_of_settled (ht : hasParagraphBreak t = false)
    (h : ∀ a ∈ curlRule.taken none (curlSegment t), hasParagraphBreak a) : FullyCurled t := by
  have hcurled := requoted_curlSegment t
  -- what is taken is part of one paragraph, so it would have been changed
  have hnone : curlRule.taken none (curlSegment t) = [] := by
    rw [eq_nil_iff_forall_not_mem]
    intro a ha
    have hbreak := hasParagraphBreak_of_isInfix (lawful_curlRule.isInfix_of_mem_taken ha) (h a ha)
    rw [hcurled.hasParagraphBreak_eq, ht] at hbreak
    cases hbreak
  intro pre q post heq hq _
  by_contra hstraight
  rw [not_or, not_not, not_not] at hstraight
  obtain ⟨pre', q', post', hu, hq'⟩ := exists_stands_after hcurled heq hq hstraight.1 hstraight.2
  rw [hu] at hnone
  exact taken_ne_nil_of_stands hq' hnone

/-! ## Pass after pass -/

/-- How many straight quotes there are in the text. -/
def straightQuotes (t : Text) : Nat := t.countP fun c => c == '"' || c == '\''

/-- A change in place leaves fewer straight quotes, unless it leaves the text as it is. -/
theorem Requoted.straightQuotes_lt (h : Requoted t u) :
    u = t ∨ straightQuotes u < straightQuotes t := by
  induction h with
  | nil => exact .inl rfl
  | @cons c d t u hcd _ ih =>
    have hchar : d = c ∨ (d == '"' || d == '\'') = false ∧ (c == '"' || c == '\'') = true := by
      rcases hcd with hd | ⟨k, rfl, rfl | rfl⟩
      · exact .inl hd
      · exact .inr (by cases k <;> decide)
      · exact .inr (by cases k <;> decide)
    simp only [straightQuotes, countP_cons] at ih ⊢
    rcases hchar with rfl | ⟨hd, hc⟩
    · rcases ih with rfl | ih
      · exact .inl rfl
      · exact .inr (by omega)
    · simp only [hd, hc, if_true, Bool.false_eq_true, if_false]
      rcases ih with rfl | ih
      · omega
      · omega

theorem iterate_curlQuotes {n : Nat} (h : straightQuotes t ≤ n) :
    curlQuotes^[n + 1] t = curlQuotes^[n] t := by
  induction n generalizing t with
  | zero =>
    rcases (requoted_curlQuotes t).straightQuotes_lt with hsame | hless
    · exact hsame
    · omega
  | succ n ih =>
    -- either the text is settled, or one pass uses up a straight quote
    rcases (requoted_curlQuotes t).straightQuotes_lt with hsame | hless
    · rw [Function.iterate_fixed hsame, Function.iterate_fixed hsame]
    · exact ih (by omega)

/-- **When quoting twice is quoting once.** A second pass changes nothing exactly if every stretch
that it takes, between the tags of the text curled once, spans paragraphs. That is so if the first
pass has curled a quote of every stretch that stands within a paragraph, and in a text of one
paragraph only then. As many passes as there are straight quotes are always enough. -/
theorem curling_again_iff (t : Text) :
    (curlQuotes (curlQuotes t) = curlQuotes t ↔ ∀ s ∈ plainTexts t,
      ∀ a ∈ curlRule.taken none (curlSegment s), hasParagraphBreak a = true) ∧
    ((∀ s ∈ plainTexts t, FullyCurled s) → curlQuotes (curlQuotes t) = curlQuotes t) ∧
    (hasParagraphBreak t = false → curlQuotes (curlQuotes t) = curlQuotes t →
      ∀ s ∈ plainTexts t, FullyCurled s) ∧
    ∀ n, straightQuotes t ≤ n → curlQuotes^[n + 1] t = curlQuotes^[n] t := by
  have hagain : curlQuotes (curlQuotes t) = curlQuotes t ↔ ∀ s ∈ plainTexts t,
      ∀ a ∈ curlRule.taken none (curlSegment s), hasParagraphBreak a = true := by
    simp only [curlQuotes_curlQuotes_iff, curlSegment_curlSegment_iff, curlRule_apply_eq_self_iff]
  refine ⟨hagain, fun h => hagain.2 fun s hs => (h s hs).settled, fun ht h s hs => ?_,
    fun n => iterate_curlQuotes⟩
  -- a text between tags is part of the text, so it has no paragraph break either
  refine fullyCurled_of_settled ?_ (hagain.1 h s hs)
  rw [← Bool.not_eq_true]
  intro hbreak
  obtain ⟨p, hp, rfl⟩ := List.mem_map.1 hs
  have hpart : p.text <:+: t := by
    rw [← Atomic.flatMap_pieces Construct.tags t]
    exact List.infix_of_mem_flatten (List.mem_map_of_mem (List.mem_of_mem_filter hp))
  rw [hasParagraphBreak_of_isInfix hpart hbreak] at ht
  cases ht

/-- Stretches on lines of their own, an apostrophe and a tag: one pass is enough. -/
theorem quotes_on_lines_settled :
    let t := "\"a\"\n'b' it's \x7b% \"c\" %\x7d".toList
    hasParagraphBreak t = false ∧ curlQuotes (curlQuotes t) = curlQuotes t ∧
      ∀ s ∈ plainTexts t, FullyCurled s := by
  intro t
  have hbreak : hasParagraphBreak t = false := by decide +kernel
  have hagain : curlQuotes (curlQuotes t) = curlQuotes t :=
    (curling_again_iff t).1.2 (by decide +kernel)
  exact ⟨hbreak, hagain, (curling_again_iff t).2.2.1 hbreak hagain⟩

/-- Of two stretches with one space between them the second is curled by the second pass only. -/
theorem second_stretch_curled_later :
    let t := "\"a\" \"b\"".toList
    curlQuotes t = "“a” \"b\"".toList ∧ curlQuotes (curlQuotes t) = "“a” “b”".toList ∧
      curlQuotes (curlQuotes t) ≠ curlQuotes t := by
  decide +kernel

end Reflow.Typography
