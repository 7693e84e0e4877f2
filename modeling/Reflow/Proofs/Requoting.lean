import Mathlib.Data.List.TakeWhile
import Reflow.Proofs.Rules
import Reflow.Typography.Quotes

/-!
Quotes change in place.

`Requoted t u` says that `u` has the characters of `t`, one for one, except that a straight quote
may have become a curly one of its kind. Curling quotes is such a change (`requoted_curlQuotes`).
Blanks, line feeds, paragraph breaks, words and tags are the same in both texts, so a second pass
works on the same pieces as the first.
-/

open List

namespace Reflow

theorem Text.flatten_runs (t : Text) : (runs t).flatten = t := by
  induction t with
  | nil => rfl
  | cons c cs ih =>
    unfold runs
    split
    · next d _ run rest hruns =>
      rw [hruns] at ih
      split <;> simpa using ih
    · simpa using ih

theorem Text.runs_cons_cons (c : Char) {d : Char} {t run : Text} {rest : List Text}
    (h : runs (d :: t) = run :: rest) :
    runs (c :: d :: t)
      = if isBlank c == isBlank d then (c :: run) :: rest else [c] :: run :: rest := by
  rw [runs.eq_def]
  simp only [h]

namespace Typography

open Text
open Atomic (Piece pieces consPlain recognise?)

/-! ## One character -/

/-- `d` is the character `c`, or a curly quote where `c` is the straight one of its kind. -/
def Requote (c d : Char) : Prop :=
  d = c ∨ ∃ k : QuoteKind, c = k.straight ∧ (d = k.opening ∨ d = k.closing)

/-- The character is a quote, straight or curly. -/
def isQuote (c : Char) : Bool := ['"', '\'', '“', '”', '‘', '’'].contains c

/-- The characters that a quoted stretch may follow: blanks and the em dash. -/
def isQuoteLead (c : Char) : Bool := isBlank c || c == '—'

theorem QuoteKind.straight_ne (j k : QuoteKind) :
    j.straight ≠ k.opening ∧ j.straight ≠ k.closing := by
  cases j <;> cases k <;> decide

theorem QuoteKind.isQuote_forms (k : QuoteKind) :
    isQuote k.straight ∧ isQuote k.opening ∧ isQuote k.closing := by
  cases k <;> decide

theorem ne_of_isQuote {c d : Char} (hc : isQuote c = false) (hd : isQuote d) : c ≠ d := by
  rintro rfl
  rw [hc] at hd
  cases hd

namespace Requote

variable {c d e : Char}

theorem refl (c : Char) : Requote c c := .inl rfl

theorem opening (k : QuoteKind) : Requote k.straight k.opening := .inr ⟨k, rfl, .inl rfl⟩

theorem closing (k : QuoteKind) : Requote k.straight k.closing := .inr ⟨k, rfl, .inr rfl⟩

theorem eq_of_straight {k : QuoteKind} (h : Requote c k.straight) : c = k.straight := by
  rcases h with h | ⟨j, -, h | h⟩
  · exact h.symm
  · exact absurd h (k.straight_ne j).1
  · exact absurd h (k.straight_ne j).2

theorem eq_of_curly {k : QuoteKind} (hc : c = k.opening ∨ c = k.closing) (h : Requote c d) :
    d = c := by
  rcases h with h | ⟨j, rfl, -⟩
  · exact h
  · rcases hc with hc | hc
    · exact absurd hc (j.straight_ne k).1
    · exact absurd hc (j.straight_ne k).2

theorem trans (h : Requote c d) (h' : Requote d e) : Requote c e := by
  rcases h with rfl | ⟨k, hc, hd⟩
  · exact h'
  · rw [eq_of_curly hd h']
    exact .inr ⟨k, hc, hd⟩

theorem antisymm (h : Requote c d) (h' : Requote d c) : c = d := by
  rcases h with rfl | ⟨k, hc, hd⟩
  · rfl
  · exact eq_of_curly hd h'

/-- What holds of a curly quote exactly if it holds of the straight one is not changed. -/
theorem congr {p : Char → Bool}
    (hp : ∀ k : QuoteKind, p k.opening = p k.straight ∧ p k.closing = p k.straight)
    (h : Requote c d) : p d = p c := by
  rcases h with rfl | ⟨k, rfl, rfl | rfl⟩
  · rfl
  · exact (hp k).1
  · exact (hp k).2

theorem isBlank_eq (h : Requote c d) : isBlank d = isBlank c :=
  h.congr fun k => by cases k <;> decide

theorem isQuoteLead_eq (h : Requote c d) : isQuoteLead d = isQuoteLead c :=
  h.congr fun k => by cases k <;> decide

theorem isQuoteFollower_eq (h : Requote c d) : isQuoteFollower d = isQuoteFollower c :=
  h.congr fun k => by cases k <;> decide

theorem admits_eq (h : Requote c d) (j : QuoteKind) : j.admits d = j.admits c :=
  h.congr fun k => by cases j <;> cases k <;> decide

theorem beq_eq (h : Requote c d) (he : isQuote e = false) : (e == d) = (e == c) := by
  refine h.congr fun k => ?_
  have hne : ∀ x : Char, isQuote x → (e == x) = false :=
    fun x hx => beq_eq_false_iff_ne.2 (ne_of_isQuote he hx)
  obtain ⟨hstraight, hopening, hclosing⟩ := k.isQuote_forms
  rw [hne _ hstraight, hne _ hopening, hne _ hclosing]
  exact ⟨rfl, rfl⟩

end Requote

/-! ## Texts -/

/-- The texts are the same but for straight quotes that have become curly. -/
abbrev Requoted : Text → Text → Prop := Forall₂ Requote

namespace Requoted

variable {t u v : Text}

theorem refl (t : Text) : Requoted t t := forall₂_same.2 fun c _ => .refl c

theorem trans (h : Requoted t u) (h' : Requoted u v) : Requoted t v := by
  induction h generalizing v with
  | nil => exact h'
  | cons hcd _ ih =>
    cases h' with
    | cons hde h' => exact .cons (hcd.trans hde) (ih h')

theorem antisymm (h : Requoted t u) (h' : Requoted u t) : t = u := by
  induction h with
  | nil => rfl
  | cons hcd _ ih =>
    cases h' with
    | cons hdc h' => rw [hcd.antisymm hdc, ih h']

theorem flatMap {α : Type} {f g : α → Text} (h : ∀ x, Requoted (f x) (g x)) (l : List α) :
    Requoted (l.flatMap f) (l.flatMap g) := by
  induction l with
  | nil => exact .nil
  | cons x l ih => exact rel_append (h x) ih

theorem exists_append_before {a b : Text} (h : Requoted t (a ++ b)) :
    ∃ a' b', t = a' ++ b' ∧ Requoted a' a ∧ Requoted b' b := by
  refine ⟨_, _, (take_append_drop a.length t).symm, ?_, ?_⟩
  · simpa using forall₂_take a.length h
  · simpa using forall₂_drop a.length h

theorem exists_append_after {a b : Text} (h : Requoted (a ++ b) u) :
    ∃ a' b', u = a' ++ b' ∧ Requoted a a' ∧ Requoted b b' := by
  refine ⟨_, _, (take_append_drop a.length u).symm, ?_, ?_⟩
  · simpa using forall₂_take a.length h
  · simpa using forall₂_drop a.length h

/-! ### Classes of characters -/

section Classes

variable {p : Char → Bool} (hp : ∀ {c d}, Requote c d → p d = p c) (h : Requoted t u)
include hp h

theorem map_eq : u.map p = t.map p := by
  induction h with
  | nil => rfl
  | cons hcd _ ih => rw [map_cons, map_cons, hp hcd, ih]

theorem all_eq : u.all p = t.all p := by
  simpa [all_map] using congrArg (all · id) (map_eq hp h)

theorem all_head?_eq : u.head?.all p = t.head?.all p := by
  simpa [head?_map, Option.all_map] using congrArg (·.head?.all id) (map_eq hp h)

theorem all_getLast?_eq : u.getLast?.all p = t.getLast?.all p := by
  simpa [getLast?_map, Option.all_map] using congrArg (·.getLast?.all id) (map_eq hp h)

end Classes

/-! ### Paragraph breaks and runs -/

theorem blanksToNewline_eq (h : Requoted t u) : blanksToNewline u = blanksToNewline t := by
  induction h with
  | nil => rfl
  | cons hcd _ ih =>
    rw [blanksToNewline, blanksToNewline, ih, hcd.isBlank_eq, BEq.comm, hcd.beq_eq (by decide),
      BEq.comm]

theorem hasParagraphBreak_eq (h : Requoted t u) : hasParagraphBreak u = hasParagraphBreak t := by
  induction h with
  | nil => rfl
  | cons hcd h ih =>
    rw [hasParagraphBreak, hasParagraphBreak, ih, blanksToNewline_eq h, BEq.comm,
      hcd.beq_eq (by decide), BEq.comm]

theorem runs (h : Requoted t u) : Forall₂ Requoted (runs t) (runs u) := by
  induction h with
  | nil => exact .nil
  | @cons c c' t u hc h ih =>
    cases h with
    | nil => exact .cons (.cons hc .nil) .nil
    | @cons d d' t u hd h =>
      generalize hrs : Text.runs (d :: t) = rs, hrs' : Text.runs (d' :: u) = rs' at ih
      cases ih with
      | nil =>
        have := flatten_runs (d :: t)
        simp [hrs] at this
      | cons hrun hrest =>
        rw [runs_cons_cons c hrs, runs_cons_cons c' hrs', hc.isBlank_eq, hd.isBlank_eq]
        split
        · exact .cons (.cons hc hrun) hrest
        · exact .cons (.cons hc .nil) (.cons hrun hrest)

end Requoted

/-! ## Tags -/

/-- The recogniser does not tell quotes of one kind apart. -/
def QuoteBlind (r : Recogniser) : Prop := ∀ t u, Requoted t u → r u = r t

namespace QuoteBlind

variable {r s : Recogniser} {w : Text}

theorem isPrefixOf_eq (hw : ∀ c ∈ w, isQuote c = false) {t u : Text} (h : Requoted t u) :
    w.isPrefixOf u = w.isPrefixOf t := by
  induction w generalizing t u with
  | nil => simp
  | cons c w ih =>
    cases h with
    | nil => rfl
    | cons hde h =>
      rw [isPrefixOf, isPrefixOf, hde.beq_eq (hw c (by simp)),
        ih (fun x hx => hw x (by simp [hx])) h]

theorem exactly (hw : ∀ c ∈ w, isQuote c = false) : QuoteBlind (Recogniser.exactly w) := by
  intro t u h
  rw [Recogniser.exactly, Recogniser.exactly, isPrefixOf_eq hw h]

theorem length_cut? (hw : ∀ c ∈ w, isQuote c = false) {t u : Text} (h : Requoted t u) :
    (cut? w u).map (fun p => p.1.length) = (cut? w t).map fun p => p.1.length := by
  induction h with
  | nil => rfl
  | @cons c d t u hcd h ih =>
    have hpre := isPrefixOf_eq hw (.cons hcd h)
    rw [cut?, cut?, hpre]
    split
    · rfl
    · have hnext := congrArg (Option.map Nat.succ) ih
      simpa [Function.comp_def] using hnext

theorem through (hw : ∀ c ∈ w, isQuote c = false) : QuoteBlind (Recogniser.through w) := by
  intro t u h
  have hcut := congrArg (Option.map (· + w.length)) (length_cut? hw h)
  simpa [Recogniser.through, Function.comp_def] using hcut

theorem andThen (hr : QuoteBlind r) (hs : QuoteBlind s) : QuoteBlind (Recogniser.andThen r s) := by
  intro t u h
  have hnext : ∀ n, s (u.drop n) = s (t.drop n) := fun n => hs _ _ (forall₂_drop n h)
  simp only [Recogniser.andThen, hr t u h, hnext]

end QuoteBlind

theorem isQuote_of_all {w : Text} (hw : (w.all fun c => !isQuote c)) :
    ∀ c ∈ w, isQuote c = false := by
  simpa [all_eq_true] using hw

theorem quoteBlind_tagLength (k : TagKind) : QuoteBlind (Construct.tagLength k) := by
  refine .andThen (.exactly (isQuote_of_all ?_)) (.andThen (.through (isQuote_of_all ?_)) ?_)
  · cases k <;> decide
  · cases k <;> decide
  · exact fun _ _ _ => rfl

theorem Requoted.recognise?_eq {t u : Text} (h : Requoted t u) :
    recognise? Construct.tags u = recognise? Construct.tags t := by
  simp only [recognise?, Construct.tags, findSome?_map, Function.comp_def,
    Construct.recogniser, quoteBlind_tagLength _ t u h]

/-- The same construct, and a text changed in place. -/
structure PieceRequoted (p q : Piece) : Prop where
  construct : q.construct = p.construct
  text : Requoted p.text q.text

theorem forall₂_consPlain {c d : Char} (hcd : Requote c d) {ps qs : List Piece}
    (h : Forall₂ PieceRequoted ps qs) :
    Forall₂ PieceRequoted (consPlain c ps) (consPlain d qs) := by
  have halone : PieceRequoted ⟨[c], none⟩ ⟨[d], none⟩ := ⟨rfl, .cons hcd .nil⟩
  cases h with
  | nil => exact .cons halone .nil
  | @cons p q ps qs hpq h =>
    obtain ⟨pt, pc⟩ := p
    obtain ⟨qt, qc⟩ := q
    obtain ⟨hconstruct, htext⟩ := hpq
    subst hconstruct
    cases qc with
    | none => exact .cons ⟨rfl, .cons hcd htext⟩ h
    | some k => exact .cons halone (.cons ⟨rfl, htext⟩ h)

/-- **The tags of a text stay where they are**, and the text between them is changed in place. -/
theorem Requoted.pieces {t u : Text} (h : Requoted t u) :
    Forall₂ PieceRequoted (pieces Construct.tags t) (pieces Construct.tags u) := by
  fun_induction Atomic.pieces Construct.tags t generalizing u with
  | case1 =>
    cases h
    rw [Atomic.pieces]
    exact .nil
  | case2 c cs k n hfound ih =>
    have hsame := h.recognise?_eq
    rw [hfound] at hsame
    cases h with
    | cons hcd h =>
      rw [Atomic.pieces, hsame]
      exact .cons ⟨rfl, .cons hcd (forall₂_take n h)⟩ (ih (forall₂_drop n h))
  | case3 c cs hnone ih =>
    have hsame := h.recognise?_eq
    cases h with
    | cons hcd h =>
      rw [Atomic.pieces, hsame]
      split
      · next hfound => exact absurd hfound (hnone _ _)
      · exact forall₂_consPlain hcd (ih h)

/-! ## What is taken for a quoted stretch -/

/-- The stretch with its straight quotes. -/
def Quoted.plain (q : Quoted) : Text := q.kind.straight :: (q.inner ++ [q.kind.straight])

theorem ofChar?_eq_some_iff {c : Char} {k : QuoteKind} :
    QuoteKind.ofChar? c = some k ↔ c = k.straight := by
  unfold QuoteKind.ofChar?
  cases k <;> simp only [QuoteKind.straight] <;> grind

/-- A quoted stretch begins a text if a straight quote does, the next quote of its kind being
straight too. -/
theorem quoted?_eq_some_iff {t rest : Text} {q : Quoted} :
    quoted? t = some (q, rest) ↔ t = q.plain ++ rest ∧ ∀ c ∈ q.inner, q.kind.admits c := by
  constructor
  · intro h
    cases t with
    | nil => simp [quoted?] at h
    | cons c cs =>
      simp only [quoted?, Option.bind_eq_bind, Option.bind_eq_some_iff, ofChar?_eq_some_iff] at h
      obtain ⟨k, rfl, h⟩ := h
      split at h
      · next d ds hdrop =>
        split at h
        · next hd =>
          obtain ⟨rfl, rfl⟩ : ⟨k, cs.takeWhile k.admits⟩ = q ∧ ds = rest := by simpa using h
          refine ⟨?_, fun c hc => mem_takeWhile_imp hc⟩
          rw [Quoted.plain, cons_append, append_assoc, singleton_append, ← hd,
            ← hdrop, takeWhile_append_dropWhile]
        · cases h
      · cases h
  · rintro ⟨rfl, hinner⟩
    have hclosing : q.kind.admits q.kind.straight = false := by simp [QuoteKind.admits]
    simp only [Quoted.plain, cons_append, append_assoc, quoted?,
      ofChar?_eq_some_iff.2 rfl, Option.bind_eq_bind, Option.bind_some, nil_append]
    rw [dropWhile_append_of_pos hinner, takeWhile_append_of_pos hinner,
      dropWhile_cons_of_neg (by simp [hclosing]),
      takeWhile_cons_of_neg (by simp [hclosing])]
    simp

/-- A quoted stretch as the rule takes it: with the character before it, unless the stretch begins
the line, and the character after it, unless it ends the text. -/
structure Taking where
  lead : Text
  quoted : Quoted
  follow : Text

namespace Taking

/-- What is taken. -/
def text (k : Taking) : Text := k.lead ++ k.quoted.plain ++ k.follow

/-- What is put in its place. -/
def curl (k : Taking) : Text := k.lead ++ k.quoted.curl ++ k.follow

/-- The rule takes this after the character `before` and in front of `rest`. -/
structure Fits (k : Taking) (before : Option Char) (rest : Text) : Prop where
  lead : k.lead = [] ∧ atLineStart before = true ∨
    ∃ c, k.lead = [c] ∧ isQuoteLead c = true
  inner : ∀ c ∈ k.quoted.inner, k.quoted.kind.admits c = true
  follow : k.follow = [] ∧ rest = [] ∨ ∃ d, k.follow = [d] ∧ isQuoteFollower d = true

end Taking

theorem curlQuoted_eq_some_iff {t new : Text} {n : Nat} :
    curlQuoted t = some (n, new) ↔ ∃ q follow rest, t = Quoted.plain q ++ follow ++ rest ∧
      (∀ c ∈ q.inner, q.kind.admits c) ∧
      (follow = [] ∧ rest = [] ∨ ∃ d, follow = [d] ∧ isQuoteFollower d) ∧
      n = (q.plain ++ follow).length ∧ new = q.curl ++ follow := by
  simp only [curlQuoted, Option.bind_eq_bind, Option.bind_eq_some_iff, Prod.exists,
    quoted?_eq_some_iff]
  constructor
  · rintro ⟨q, rest, ⟨rfl, hinner⟩, h⟩
    cases rest with
    | nil =>
      obtain ⟨rfl, rfl⟩ : q.inner.length + 2 = n ∧ q.curl = new := by simpa using h
      exact ⟨q, [], [], by simp, hinner, .inl ⟨rfl, rfl⟩, by simp [Quoted.plain], by simp⟩
    | cons d rest =>
      obtain ⟨hd, rfl, rfl⟩ :
          isQuoteFollower d ∧ q.inner.length + 3 = n ∧ q.curl ++ [d] = new := by
        simpa using h
      exact ⟨q, [d], rest, by simp, hinner, .inr ⟨d, rfl, hd⟩, by simp [Quoted.plain], rfl⟩
  · rintro ⟨q, follow, rest, rfl, hinner, hfollow, rfl, rfl⟩
    refine ⟨q, follow ++ rest, ⟨by simp, hinner⟩, ?_⟩
    rcases hfollow with ⟨rfl, rfl⟩ | ⟨d, rfl, hd⟩
    · simp [Quoted.plain]
    · simp [Quoted.plain, hd]

theorem curlQuoted_cons_eq_none {c : Char} (hc : isQuoteLead c) (t : Text) :
    curlQuoted (c :: t) = none := by
  have hk : QuoteKind.ofChar? c = none := by
    rw [Option.eq_none_iff_forall_ne_some]
    intro k hk
    obtain rfl := ofChar?_eq_some_iff.1 hk
    revert hc
    cases k <;> decide
  simp [curlQuoted, quoted?, hk]

/-- **What the rule takes, and what it puts there.** -/
theorem curlRule_eq_some_iff {before : Option Char} {t new : Text} {n : Nat} :
    curlRule before t = some (n, new) ↔ ∃ (k : Taking) (rest : Text), t = k.text ++ rest ∧
      k.Fits before rest ∧ n = k.text.length ∧ new = k.curl := by
  simp only [curlRule, Option.or_eq_some_iff]
  constructor
  · rintro (hhere | ⟨-, hafter⟩)
    · obtain ⟨hstart, hhere⟩ : atLineStart before ∧ curlQuoted t = some (n, new) := by
        simpa using hhere
      obtain ⟨q, follow, rest, rfl, hinner, hfollow, rfl, rfl⟩ := curlQuoted_eq_some_iff.1 hhere
      exact ⟨⟨[], q, follow⟩, rest, rfl, ⟨.inl ⟨rfl, hstart⟩, hinner, hfollow⟩, rfl, rfl⟩
    · cases t with
      | nil => cases hafter
      | cons c t =>
        simp only [Option.ite_none_right_eq_some, Option.map_eq_some_iff, Prod.exists,
          Prod.mk.injEq] at hafter
        obtain ⟨hc, m, inner, hm, rfl, rfl⟩ := hafter
        obtain ⟨q, follow, rest, rfl, hinner, hfollow, rfl, rfl⟩ := curlQuoted_eq_some_iff.1 hm
        exact ⟨⟨[c], q, follow⟩, rest, rfl, ⟨.inr ⟨c, rfl, hc⟩, hinner, hfollow⟩,
          by simp [Taking.text], by simp [Taking.curl]⟩
  · rintro ⟨⟨lead, q, follow⟩, rest, rfl, ⟨hlead, hinner, hfollow⟩, rfl, rfl⟩
    have hquoted : curlQuoted (q.plain ++ follow ++ rest)
        = some ((q.plain ++ follow).length, q.curl ++ follow) :=
      curlQuoted_eq_some_iff.2 ⟨q, follow, rest, rfl, hinner, hfollow, rfl, rfl⟩
    rcases hlead with ⟨rfl, hstart⟩ | ⟨c, rfl, hc⟩
    · exact .inl (by simpa [Taking.text, Taking.curl, hstart] using hquoted)
    · refine .inr ⟨?_, ?_⟩
      · simp [Taking.text, curlQuoted_cons_eq_none hc]
      · rw [append_assoc] at hquoted
        have hc' : (isBlank c || c == '—') := hc
        simp [Taking.text, Taking.curl, hc', hquoted]

/-! ## Curling -/

theorem Taking.length_text_pos (k : Taking) : 0 < k.text.length := by
  simp only [text, Quoted.plain, length_append, length_cons]
  omega

theorem lawful_curlRule : curlRule.Lawful := by
  intro before t n new h
  obtain ⟨k, rest, rfl, -, rfl, -⟩ := curlRule_eq_some_iff.1 h
  exact ⟨k.length_text_pos, by simp⟩

theorem Quoted.requoted_curl (q : Quoted) : Requoted q.plain q.curl := by
  unfold Quoted.plain Quoted.curl
  split
  · exact Requoted.refl _
  · have hclosing : Requoted [q.kind.straight] [q.kind.closing] := .cons (.closing q.kind) .nil
    exact .cons (.opening q.kind) (rel_append (Requoted.refl q.inner) hclosing)

theorem Taking.requoted_curl (k : Taking) : Requoted k.text k.curl :=
  rel_append (rel_append (Requoted.refl k.lead) k.quoted.requoted_curl)
    (Requoted.refl k.follow)

theorem exists_taking {before : Option Char} {a t new : Text}
    (h : curlRule before (a ++ t) = some (a.length, new)) :
    ∃ k : Taking, a = k.text ∧ new = k.curl ∧ k.Fits before t := by
  obtain ⟨k, rest, heq, hfits, hlength, rfl⟩ := curlRule_eq_some_iff.1 h
  obtain ⟨rfl, rfl⟩ := append_inj heq hlength
  exact ⟨k, rfl, rfl, hfits⟩

theorem requoted_curlRule (t : Text) : Requoted t (curlRule.apply t) := by
  refine lawful_curlRule.forall₂_applyAfter Requote.refl (fun h => ?_) none t
  obtain ⟨k, rfl, rfl, -⟩ := exists_taking h
  exact k.requoted_curl

theorem requoted_fixApostrophe (word : Text) : Requoted word (fixApostrophe word) := by
  unfold fixApostrophe
  split
  · refine forall₂_map_right_iff.2 (forall₂_same.2 fun c _ => ?_)
    unfold curlApostrophe
    split
    · next hc => exact hc ▸ Requote.closing .single
    · exact .refl c
  · exact .refl word

theorem requoted_flatMap_runs (t : Text) : Requoted t ((runs t).flatMap fixApostrophe) := by
  have h := Requoted.flatMap requoted_fixApostrophe (runs t)
  rwa [flatMap_id', flatten_runs] at h

theorem requoted_curlSegment (t : Text) : Requoted t (curlSegment t) :=
  (requoted_curlRule t).trans (requoted_flatMap_runs _)

/-- A piece with its quotes curled; a tag is left as it is. -/
def curlPiece (p : Piece) : Piece :=
  if p.construct.isSome then p else { p with text := curlSegment p.text }

theorem pieceRequoted_curlPiece (p : Piece) : PieceRequoted p (curlPiece p) := by
  unfold curlPiece
  split
  · exact ⟨rfl, .refl p.text⟩
  · exact ⟨rfl, requoted_curlSegment p.text⟩

theorem curlQuotes_eq_flatMap (t : Text) :
    curlQuotes t = ((pieces Construct.tags t).map curlPiece).flatMap Piece.text := by
  rw [curlQuotes, flatMap_map]
  congr 1
  funext p
  unfold curlPiece
  split <;> rfl

theorem requoted_flatMap_curlPiece (ps : List Piece) :
    Requoted (ps.flatMap Piece.text) ((ps.map curlPiece).flatMap Piece.text) := by
  rw [flatMap_map]
  exact Requoted.flatMap (fun p => (pieceRequoted_curlPiece p).text) ps

/-- **Curling quotes changes straight quotes in place, and nothing else.** -/
theorem requoted_curlQuotes (t : Text) : Requoted t (curlQuotes t) := by
  have h := requoted_flatMap_curlPiece (pieces Construct.tags t)
  rwa [Atomic.flatMap_pieces, ← curlQuotes_eq_flatMap] at h

theorem length_curlQuotes (t : Text) : (curlQuotes t).length = t.length :=
  (requoted_curlQuotes t).length_eq.symm

end Typography

end Reflow
