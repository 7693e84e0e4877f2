import Reflow.Proofs.Gaps
import Reflow.Proofs.Rules
import Reflow.Typography.Ellipsis

/-!
Writing ellipses is local and stable.

Local: three points become one character and a space may be put in directly next to it; all else
stays (`Ellipsised`). Stable: where the first pass found nothing, the result has no points that were
not there before (`pointed_of_pointed_applyAfter`); where it declined to write an ellipsis, what
comes next is still no word character (`head_applyAfter`); and what was written has no points at any
of its places (`Quiet`).
-/

open List

namespace Reflow

/-! ## Classes of characters -/

theorem Ranges.exists_of_contains {rs : Ranges} {n : Nat} (h : rs.contains n) :
    ∃ r ∈ rs, r.1 ≤ n ∧ n < r.1 + r.2 := by
  induction rs with
  | nil => cases h
  | cons r rs ih =>
    obtain ⟨lo, count⟩ := r
    simp only [Ranges.contains] at h
    split at h
    · cases h
    · split at h
      · exact ⟨(lo, count), by simp, by omega, by omega⟩
      · obtain ⟨s, hs, hle⟩ := ih h
        exact ⟨s, by simp [hs], hle⟩

theorem Ranges.contains_eq_false {rs ss : Ranges} {n : Nat}
    (hapart : (rs.all fun r => ss.all fun s => r.1 + r.2 ≤ s.1 || s.1 + s.2 ≤ r.1))
    (h : rs.contains n) : ss.contains n = false := by
  rw [← Bool.not_eq_true]
  intro h'
  obtain ⟨r, hr, hrn⟩ := exists_of_contains h
  obtain ⟨s, hs, hsn⟩ := exists_of_contains h'
  have hrs := all_eq_true.1 (all_eq_true.1 hapart r hr) s hs
  simp only [Bool.or_eq_true, decide_eq_true_eq] at hrs
  omega

theorem isBlank_of_isWordChar {c : Char} (h : isWordChar c) : isBlank c = false := by
  simp only [isWordChar, isNumeral, Bool.or_eq_true, beq_iff_eq] at h
  rcases h with (h | (h | h) | h) | rfl
  iterate 4 exact Ranges.contains_eq_false (by decide +kernel) h
  decide

namespace Typography

open Text

variable {c : Char} {g t u : Text} {p : Points} {before : Option Char}

theorem ne_of_isWordChar {d : Char} (h : isWordChar c) (hd : isWordChar d = false) : c ≠ d := by
  rintro rfl
  rw [h] at hd
  cases hd

theorem visible_of_isEllipsisLead (h : isEllipsisLead c) : isBlank c = false ∧ c ≠ '.' := by
  simp only [isEllipsisLead, Bool.or_eq_true, beq_iff_eq] at h
  rcases h with (((h | rfl) | rfl) | rfl) | rfl
  · exact ⟨isBlank_of_isWordChar h, ne_of_isWordChar h (by decide +kernel)⟩
  all_goals decide

theorem isBlank_of_isEllipsisFollower (h : isEllipsisFollower c) : isBlank c = false :=
  isBlank_of_all (by decide) c (contains_iff_mem.1 h)

theorem isWordChar_of_isEllipsisFollower (h : isEllipsisFollower c) : isWordChar c = false := by
  have hall : (['.', ',', ':', ';', '?', '!', ')', '-', '—', '"', '\'', '”', '’'].all
      fun c => !isWordChar c) = true := by decide +kernel
  simpa using all_eq_true.1 hall c (contains_iff_mem.1 h)

/-! ## Points in a text -/

/-- Three points begin the text, blanks before them allowed. -/
def Pointed (t : Text) : Prop := ['.', '.', '.'] <+: t.dropWhile isBlank

theorem pointed_cons_of_blank (hc : isBlank c = true) (t : Text) :
    Pointed (c :: t) ↔ Pointed t := by
  rw [Pointed, Pointed, dropWhile_cons_of_pos hc]

theorem pointed_cons_of_visible (hc : isBlank c = false) (t : Text) :
    Pointed (c :: t) ↔ ['.', '.', '.'] <+: c :: t := by
  rw [Pointed, dropWhile_cons_of_neg (by simp [hc])]

theorem not_pointed_nil : ¬ Pointed [] := by simp [Pointed]

theorem not_pointed_cons (hc : isBlank c = false) (hdot : c ≠ '.') (t : Text) :
    ¬ Pointed (c :: t) := by
  rw [pointed_cons_of_visible hc, cons_prefix_cons]
  exact fun h => hdot h.1.symm

theorem pointed_append_of_blank (hg : g.all isBlank = true) (t : Text) :
    Pointed (g ++ t) ↔ Pointed t := by
  induction g with
  | nil => rfl
  | cons c g ih =>
    rw [all_cons, Bool.and_eq_true] at hg
    rw [cons_append, pointed_cons_of_blank hg.1, ih hg.2]

theorem points?_eq_none_iff : points? t = none ↔ ¬ Pointed t := by
  unfold points? Pointed
  split
  · next rest hrest => simp [hrest]
  · next hno =>
    simp only [true_iff]
    rintro ⟨rest, hrest⟩
    exact hno rest hrest.symm

namespace Points

/-- The parts stand as they do in a text: blanks, a mark if there is one, all the blanks after it,
and what comes next. -/
structure Fits (p : Points) : Prop where
  before : p.before.all isBlank = true
  mark : p.mark = [] ∧ (p.after ++ p.next).head?.all (fun c => !isEllipsisFollower c) = true ∨
    ∃ c, p.mark = [c] ∧ isEllipsisFollower c = true
  after : p.after.all isBlank = true
  next : p.next.head?.all (fun c => !isBlank c) = true

theorem length_eq (p : Points) : p.length = p.plain.length := by
  simp only [length, plain, length_append, length_cons, length_nil]

theorem plain_append (p : Points) (t : Text) :
    p.plain ++ t = p.before ++ ('.' :: '.' :: '.' :: (p.mark ++ (p.after ++ t))) := by
  simp [plain]

theorem write_of_convertible {p : Points} (h : p.isConvertible = true) (lead : Option Char) :
    p.write lead = p.gapBefore lead ++ '…' :: (p.mark ++ p.gapAfter) := by
  simp [write, h]

theorem write_of_not_convertible {p : Points} (h : p.isConvertible = false) (lead : Option Char) :
    p.write lead = p.plain := by
  simp [write, h]

end Points

theorem takeWhile_blanks (hg : g.all isBlank = true)
    (ht : t.head?.all (fun c => !isBlank c) = true) :
    (g ++ t).takeWhile isBlank = g ∧ (g ++ t).dropWhile isBlank = t := by
  have hg' : ∀ c ∈ g, isBlank c = true := all_eq_true.1 hg
  rw [takeWhile_append_of_pos hg', dropWhile_append_of_pos hg']
  cases t with
  | nil => simp
  | cons c t =>
    have hc : ¬ isBlank c = true := by simpa using ht
    rw [takeWhile_cons_of_neg hc, dropWhile_cons_of_neg hc, append_nil]
    exact ⟨rfl, rfl⟩

theorem all_head?_dropWhile (t : Text) :
    (t.dropWhile isBlank).head?.all (fun c => !isBlank c) = true := by
  induction t with
  | nil => rfl
  | cons c t ih =>
    by_cases hc : isBlank c = true
    · rwa [dropWhile_cons_of_pos hc]
    · rw [dropWhile_cons_of_neg hc]
      simpa using hc

theorem points?_append (h : p.Fits) : points? (p.plain ++ p.next) = some p := by
  obtain ⟨before, mark, after, next⟩ := p
  obtain ⟨hbefore, hmark, hafter, hnext⟩ := h
  dsimp only at hbefore hmark hafter hnext
  obtain ⟨htake, hdrop⟩ := takeWhile_blanks (t := '.' :: '.' :: '.' :: (mark ++ (after ++ next)))
    hbefore rfl
  obtain ⟨htake', hdrop'⟩ := takeWhile_blanks hafter hnext
  rw [Points.plain_append, points?, hdrop, htake]
  rcases hmark with ⟨rfl, hhead⟩ | ⟨c, rfl, hc⟩
  · -- no mark follows the points directly
    generalize after ++ next = tail at hhead htake' hdrop' ⊢
    cases tail with
    | nil => simp [← htake', ← hdrop']
    | cons c tail =>
      have hc : isEllipsisFollower c = false := by simpa using hhead
      simp [hc, htake', hdrop']
  · simp [hc, htake', hdrop']

/-- **Which points are read**: those that are written and fit what follows. -/
theorem points?_eq_some_iff : points? t = some p ↔ t = p.plain ++ p.next ∧ p.Fits := by
  constructor
  · intro h
    have hpointed : Pointed t := by
      by_contra hno
      rw [points?_eq_none_iff.2 hno] at h
      cases h
    obtain ⟨rest, hrest⟩ := hpointed
    have hblank : ∀ tail : Text, (tail.takeWhile isBlank).all isBlank = true :=
      fun tail => all_eq_true.2 fun c hc => mem_takeWhile_imp hc
    have htext : ∀ mark tail : Text, rest = mark ++ tail →
        t = Points.plain ⟨t.takeWhile isBlank, mark, tail.takeWhile isBlank, tail.dropWhile isBlank⟩
          ++ tail.dropWhile isBlank := by
      rintro mark tail rfl
      rw [Points.plain_append, takeWhile_append_dropWhile]
      exact (takeWhile_append_dropWhile.symm.trans (congrArg _ hrest.symm))
    -- these parts make up the text, so they are what was found
    obtain ⟨q, hq, hfits⟩ : ∃ q : Points, t = q.plain ++ q.next ∧ q.Fits := by
      by_cases hmark : rest.head?.all (fun c => !isEllipsisFollower c) = true
      · refine ⟨_, htext [] rest rfl, hblank t, .inl ⟨rfl, ?_⟩, hblank rest,
          all_head?_dropWhile rest⟩
        rwa [takeWhile_append_dropWhile]
      · obtain ⟨c, tail, rfl⟩ : ∃ c tail, rest = c :: tail := by
          cases rest with
          | nil => simp at hmark
          | cons c tail => exact ⟨c, tail, rfl⟩
        exact ⟨_, htext [c] tail rfl, hblank t, .inr ⟨c, rfl, by simpa using hmark⟩, hblank tail,
          all_head?_dropWhile tail⟩
    rw [hq, points?_append hfits] at h
    cases h
    exact ⟨hq, hfits⟩
  · rintro ⟨rfl, hfits⟩
    exact points?_append hfits

/-! ## What the rule does -/

/-- The rule may look at points here: they begin the line, or come after the character `lead`. -/
def Leads (before lead : Option Char) : Prop :=
  lead = none ∧ atLineStart before = true ∨ ∃ c, lead = some c ∧ isEllipsisLead c = true

/-- **What the rule takes, and what it puts there.** -/
theorem ellipsisRule_eq_some_iff {new : Text} {n : Nat} :
    ellipsisRule before t = some (n, new) ↔ ∃ (lead : Option Char) (p : Points),
      t = lead.toList ++ p.plain ++ p.next ∧ p.Fits ∧ Leads before lead ∧
        n = (lead.toList ++ p.plain).length ∧ new = lead.toList ++ p.write lead := by
  constructor
  · intro h
    simp only [ellipsisRule] at h
    split at h
    · next p hp =>
      obtain ⟨hstart, hp⟩ : atLineStart before = true ∧ points? t = some p := by simpa using hp
      obtain ⟨rfl, hfits⟩ := points?_eq_some_iff.1 hp
      obtain ⟨rfl, rfl⟩ : p.length = n ∧ p.write none = new := by simpa using h
      exact ⟨none, p, rfl, hfits, .inl ⟨rfl, hstart⟩, p.length_eq, rfl⟩
    · cases t with
      | nil => cases h
      | cons c t =>
        simp only [Option.ite_none_right_eq_some, Option.map_eq_some_iff, Prod.mk.injEq] at h
        obtain ⟨hc, p, hp, rfl, rfl⟩ := h
        obtain ⟨rfl, hfits⟩ := points?_eq_some_iff.1 hp
        exact ⟨some c, p, rfl, hfits, .inr ⟨c, rfl, hc⟩, by simp [p.length_eq], rfl⟩
  · rintro ⟨lead, p, rfl, hfits, ⟨rfl, hstart⟩ | ⟨c, rfl, hc⟩, rfl, rfl⟩
    · simp [ellipsisRule, hstart, points?_append hfits, p.length_eq]
    · -- a character that may lead is no part of the blanks before points
      obtain ⟨hblank, hdot⟩ := visible_of_isEllipsisLead hc
      have hnone := points?_eq_none_iff.2 (not_pointed_cons hblank hdot (p.plain ++ p.next))
      simp [ellipsisRule, hnone, hc, points?_append hfits, p.length_eq]

theorem ellipsisRule_cons_eq_none_iff :
    ellipsisRule before (c :: t) = none ↔
      (atLineStart before = true → ¬ Pointed (c :: t)) ∧
        (isEllipsisLead c = true → ¬ Pointed t) := by
  simp only [← points?_eq_none_iff, ellipsisRule]
  cases atLineStart before <;> cases isEllipsisLead c <;> cases points? (c :: t) <;> simp

theorem exists_points {a new : Text} (h : ellipsisRule before (a ++ t) = some (a.length, new)) :
    ∃ (lead : Option Char) (p : Points), a = lead.toList ++ p.plain ∧ t = p.next ∧ p.Fits ∧
      Leads before lead ∧ new = lead.toList ++ p.write lead := by
  obtain ⟨lead, p, heq, hfits, hlead, hlength, rfl⟩ := ellipsisRule_eq_some_iff.1 h
  obtain ⟨rfl, rfl⟩ := append_inj heq hlength
  exact ⟨lead, p, rfl, rfl, hfits, hlead, rfl⟩

theorem lawful_ellipsisRule : ellipsisRule.Lawful := by
  intro before t n new h
  obtain ⟨lead, p, rfl, -, -, rfl, -⟩ := ellipsisRule_eq_some_iff.1 h
  simp only [Points.plain, length_append, length_cons]
  omega

/-! ## What the result shows of the text

A second reading looks at the result from the places that the first one has passed, so it has to be
known what the result shows there: which visible character comes next, and whether points do.
-/

theorem eq_nil_of_visible (hg : g.all isBlank = true) (hc : isBlank c = false)
    (h : c :: t = g ++ u) : g = [] := by
  cases g with
  | nil => rfl
  | cons b g =>
    obtain ⟨rfl, -⟩ := List.cons.inj h
    rw [all_cons, hc] at hg
    cases hg

theorem Points.exists_write_none (p : Points) :
    ∃ d u, p.write none = p.before ++ d :: u ∧ (d = '.' ∨ d = '…') := by
  unfold write
  split
  · exact ⟨'…', p.mark ++ p.gapAfter, by simp [gapBefore], .inr rfl⟩
  · exact ⟨'.', ['.', '.'] ++ p.mark ++ p.after, by simp [plain], .inl rfl⟩

theorem head_applyAfter (before : Option Char) (hc : isBlank c = false) (t : Text) :
    ∃ d u, ellipsisRule.applyAfter before (c :: t) = d :: u ∧ (d = c ∨ c = '.' ∧ d = '…') := by
  generalize hct : c :: t = ct
  induction before, ct using lawful_ellipsisRule.induction with
  | nil before => cases hct
  | keep before d t hno ih =>
    obtain ⟨rfl, rfl⟩ := List.cons.inj hct
    exact ⟨c, _, Rule.applyAfter_cons hno, .inl rfl⟩
  | take before a t new ha h ih =>
    rw [Rule.applyAfter_append ha h]
    obtain ⟨lead, p, rfl, rfl, hfits, ⟨rfl, -⟩ | ⟨d, rfl, hd⟩, rfl⟩ := exists_points h
    · rw [Option.toList_none, nil_append, Points.plain_append] at hct
      have hbefore := eq_nil_of_visible hfits.before hc hct
      rw [hbefore] at hct
      obtain ⟨rfl, -⟩ := List.cons.inj hct
      obtain ⟨d, u, hwrite, hd⟩ := p.exists_write_none
      rw [hbefore] at hwrite
      exact ⟨d, _, by rw [hwrite]; rfl, hd.imp_right fun h => ⟨rfl, h⟩⟩
    · obtain ⟨rfl, -⟩ := List.cons.inj hct
      exact ⟨c, _, rfl, .inl rfl⟩

/-- Points at the start of the result were there in the text. The rule looks at three of them and no
more. -/
theorem dots_of_dots_applyAfter {n : Nat} (hn : n ≤ 3)
    (h : List.replicate n '.' <+: ellipsisRule.applyAfter before t) :
    List.replicate n '.' <+: t := by
  induction before, t using lawful_ellipsisRule.induction generalizing n with
  | nil before => simpa using h
  | keep before c t hno ih =>
    rw [Rule.applyAfter_cons hno] at h
    cases n with
    | zero => simp
    | succ n =>
      rw [replicate_succ, cons_prefix_cons] at h ⊢
      exact ⟨h.1, ih (by omega) h.2⟩
  | take before a t new ha hrule ih =>
    cases n with
    | zero => simp
    | succ n =>
      rw [Rule.applyAfter_append ha hrule] at h
      obtain ⟨rest, hrest⟩ := h
      obtain ⟨lead, p, rfl, rfl, hfits, ⟨rfl, -⟩ | ⟨d, rfl, hd⟩, rfl⟩ := exists_points hrule
      · -- three points stand at the start of the text, since no blanks do
        obtain ⟨d, u, hwrite, -⟩ := p.exists_write_none
        have hbefore : p.before = [] := by
          refine eq_nil_of_visible (c := '.') (t := List.replicate n '.' ++ rest)
            (u := d :: u ++ ellipsisRule.applyAfter p.plain.getLast? p.next) hfits.before
            (by decide) ?_
          simpa [replicate_succ, hwrite] using hrest
        have hdots : List.replicate (n + 1) '.' <+: List.replicate 3 '.' := by
          refine ⟨List.replicate (3 - (n + 1)) '.', ?_⟩
          rw [replicate_append_replicate, Nat.add_sub_cancel' hn]
        exact hdots.trans ⟨p.mark ++ p.after ++ p.next, by simp [Points.plain, hbefore]⟩
      · exact absurd (List.cons.inj hrest).1.symm (visible_of_isEllipsisLead hd).2

/-- **Points that begin the result begin the text.** -/
theorem pointed_of_pointed_applyAfter (h : Pointed (ellipsisRule.applyAfter before t)) :
    Pointed t := by
  induction before, t using lawful_ellipsisRule.induction with
  | nil before => simpa using h
  | keep before c t hno ih =>
    by_cases hc : isBlank c = true
    · rw [Rule.applyAfter_cons hno, pointed_cons_of_blank hc] at h
      exact (pointed_cons_of_blank hc t).2 (ih h)
    · rw [Bool.not_eq_true] at hc
      have hdots : List.replicate 3 '.' <+: ellipsisRule.applyAfter before (c :: t) := by
        rw [Rule.applyAfter_cons hno] at h ⊢
        exact (pointed_cons_of_visible hc _).1 h
      exact (pointed_cons_of_visible hc t).2 (dots_of_dots_applyAfter (Nat.le_refl 3) hdots)
  | take before a t new ha hrule ih =>
    rw [Rule.applyAfter_append ha hrule] at h
    obtain ⟨lead, p, rfl, rfl, hfits, ⟨rfl, -⟩ | ⟨d, rfl, hd⟩, rfl⟩ := exists_points hrule
    · rw [Option.toList_none, nil_append, Points.plain_append,
        pointed_append_of_blank hfits.before, pointed_cons_of_visible (by decide)]
      exact ⟨_, rfl⟩
    · obtain ⟨hblank, hdot⟩ := visible_of_isEllipsisLead hd
      exact absurd h (not_pointed_cons hblank hdot _)

/-! ## Stable -/

/-- No points begin at any place of `new`, where `u` follows it. -/
def Quiet (new u : Text) : Prop := ∀ s, s <:+ new → ¬ Pointed (s ++ u)

namespace Quiet

variable {new u : Text}

theorem nil (hu : ¬ Pointed u) : Quiet [] u := by
  intro s hs
  rwa [suffix_nil.1 hs]

theorem cons {c : Char} (hc : ¬ Pointed (c :: (new ++ u))) (h : Quiet new u) :
    Quiet (c :: new) u := by
  intro s hs
  rcases suffix_cons_iff.1 hs with rfl | hs
  · exact hc
  · exact h s hs

theorem append_blank {g : Text} (hg : g.all isBlank = true) (h : Quiet new u) :
    Quiet (g ++ new) u := by
  induction g with
  | nil => exact h
  | cons c g ih =>
    rw [all_cons, Bool.and_eq_true] at hg
    have hrest := ih hg.2
    refine .cons ?_ hrest
    rw [pointed_cons_of_blank hg.1]
    exact hrest _ suffix_rfl

theorem applyAfter_append (h : Quiet new u) (hne : new ≠ []) (before : Option Char) :
    ellipsisRule.applyAfter before (new ++ u) = new ++ ellipsisRule.applyAfter new.getLast? u := by
  induction new generalizing before with
  | nil => exact absurd rfl hne
  | cons c new ih =>
    have hrest : Quiet new u := fun s hs => h s (hs.trans (suffix_cons c new))
    have hno : ellipsisRule before (c :: (new ++ u)) = none :=
      ellipsisRule_cons_eq_none_iff.2
        ⟨fun _ => h (c :: new) suffix_rfl, fun _ => hrest new suffix_rfl⟩
    rw [cons_append, Rule.applyAfter_cons hno]
    cases new with
    | nil => rfl
    | cons d new =>
      rw [ih hrest (by simp)]
      simp [List.getLast?_cons_cons]

end Quiet

theorem applyAfter_congr (ht : ¬ Pointed t) (before before' : Option Char) :
    ellipsisRule.applyAfter before t = ellipsisRule.applyAfter before' t := by
  cases t with
  | nil => simp
  | cons c t =>
    have hrule : ellipsisRule before (c :: t) = ellipsisRule before' (c :: t) := by
      simp [ellipsisRule, points?_eq_none_iff.2 ht]
    rw [Rule.applyAfter, Rule.applyAfter, hrule]

/-- What comes after a written ellipsis: nothing, or a word character. -/
def WordNext (u : Text) : Prop := ∀ c t, u = c :: t → isWordChar c = true

theorem WordNext.not_pointed (h : WordNext u) : ¬ Pointed u := by
  cases u with
  | nil => exact not_pointed_nil
  | cons c u =>
    have hc := h c u rfl
    exact not_pointed_cons (isBlank_of_isWordChar hc) (ne_of_isWordChar hc (by decide +kernel)) u

theorem WordNext.applyAfter (h : WordNext u) (before : Option Char) :
    WordNext (ellipsisRule.applyAfter before u) := by
  cases u with
  | nil => simpa using h
  | cons c u =>
    have hc := h c u rfl
    obtain ⟨d, v, hresult, rfl | ⟨rfl, -⟩⟩ := head_applyAfter before (isBlank_of_isWordChar hc) u
    · rw [hresult]
      rintro d' v' heq
      rw [← (List.cons.inj heq).1]
      exact hc
    · exact absurd hc (by decide +kernel)

namespace Points

variable {p : Points}

theorem wordNext (h : p.isConvertible = true) : WordNext p.next := by
  rintro c t hnext
  simpa [isConvertible, hnext] using h

theorem all_gapBefore (hp : p.Fits) (lead : Option Char) :
    (p.gapBefore lead).all isBlank = true := by
  unfold gapBefore
  split
  · rfl
  · exact hp.before

theorem all_gapAfter (hp : p.Fits) : p.gapAfter.all isBlank = true := by
  unfold gapAfter
  split
  · rfl
  · exact hp.after

theorem not_dots_prefix {g u : Text} (hg : g.all isBlank = true) (hu : WordNext u) :
    ¬ ['.', '.'] <+: g ++ u := by
  rintro ⟨rest, hrest⟩
  obtain rfl := eq_nil_of_visible (c := '.') hg (by decide) hrest
  exact absurd (hu '.' _ hrest.symm) (by decide +kernel)

theorem quiet_write (hp : p.Fits) (hconv : p.isConvertible = true) {u : Text} (hu : WordNext u)
    {before lead : Option Char} (hlead : Leads before lead) :
    Quiet (lead.toList ++ p.write lead) u := by
  have hafter : Quiet (p.gapAfter) u := by
    simpa using (Quiet.nil hu.not_pointed).append_blank (all_gapAfter hp)
  have hmark : Quiet (p.mark ++ p.gapAfter) u := by
    rcases hp.mark with ⟨hmark, -⟩ | ⟨c, hmark, hc⟩
    · simpa [hmark] using hafter
    · rw [hmark]
      refine hafter.cons ?_
      rw [pointed_cons_of_visible (isBlank_of_isEllipsisFollower hc), cons_prefix_cons]
      exact fun h => not_dots_prefix (all_gapAfter hp) hu h.2
  have hellipsis : Quiet (p.gapBefore lead ++ '…' :: (p.mark ++ p.gapAfter)) u :=
    (hmark.cons (not_pointed_cons (by decide) (by decide) _)).append_blank (all_gapBefore hp lead)
  rw [write_of_convertible hconv]
  rcases hlead with ⟨rfl, -⟩ | ⟨c, rfl, hc⟩
  · exact hellipsis
  · obtain ⟨hblank, hdot⟩ := visible_of_isEllipsisLead hc
    exact hellipsis.cons (not_pointed_cons hblank hdot _)

end Points

/-- What was not written as an ellipsis is not written so again: points are found with the same
surroundings, and still no word character comes next. -/
theorem Points.declined_again (hp : p.Fits) (hno : p.isConvertible = false)
    (before lead : Option Char) :
    let q : Points := { p with next := ellipsisRule.applyAfter before p.next }
    q.Fits ∧ q.write lead = p.plain := by
  intro q
  -- what comes next is a character that is neither blank nor part of a word, and it is shown still
  obtain ⟨c, t, hnext, hword⟩ : ∃ c t, p.next = c :: t ∧ isWordChar c = false := by
    cases hnext : p.next with
    | nil => simp [isConvertible, hnext] at hno
    | cons c t => exact ⟨c, t, rfl, by simpa [isConvertible, hnext] using hno⟩
  have hblank : isBlank c = false := by simpa [hnext] using hp.next
  obtain ⟨d, u, hresult, hd⟩ := head_applyAfter before hblank t
  have hq : q.next = d :: u := by rw [← hresult, ← hnext]
  have hchar : isBlank d = false ∧ isWordChar d = false ∧
      (isEllipsisFollower c = false → isEllipsisFollower d = false) := by
    rcases hd with rfl | ⟨-, rfl⟩
    · exact ⟨hblank, hword, id⟩
    · exact ⟨by decide, by decide +kernel, fun _ => by decide⟩
  refine ⟨⟨hp.before, ?_, hp.after, by simp [hq, hchar.1]⟩, ?_⟩
  · rcases hp.mark with ⟨hmark, hhead⟩ | hmark
    · refine .inl ⟨hmark, ?_⟩
      change (p.after ++ q.next).head?.all _ = true
      rw [hnext] at hhead
      rw [hq]
      cases hafter : p.after with
      | nil => simpa using hchar.2.2 (by simpa [hafter] using hhead)
      | cons g after => simpa [hafter] using hhead
    · exact .inr hmark
  · exact write_of_not_convertible (by simp [isConvertible, hq, hchar.2.1]) lead

/-- An ellipsis that was put in is left alone, and makes no other one. -/
theorem applyAfter_applyAfter (before : Option Char) (t : Text) :
    ellipsisRule.applyAfter before (ellipsisRule.applyAfter before t)
      = ellipsisRule.applyAfter before t := by
  induction before, t using lawful_ellipsisRule.induction with
  | nil before => simp
  | keep before c t hno ih =>
    obtain ⟨hstart, hlead⟩ := ellipsisRule_cons_eq_none_iff.1 hno
    have hagain : ellipsisRule before (c :: ellipsisRule.applyAfter (some c) t) = none := by
      refine ellipsisRule_cons_eq_none_iff.2 ⟨fun hb h => hstart hb ?_, fun hc h => hlead hc ?_⟩
      · rw [← Rule.applyAfter_cons hno] at h
        exact pointed_of_pointed_applyAfter h
      · exact pointed_of_pointed_applyAfter h
    rw [Rule.applyAfter_cons hno, Rule.applyAfter_cons hagain, ih]
  | take before a t new ha hrule ih =>
    rw [Rule.applyAfter_append ha hrule]
    obtain ⟨lead, p, rfl, rfl, hfits, hlead, rfl⟩ := exists_points hrule
    cases hconv : p.isConvertible with
    | true =>
      -- nothing is found in what was written, and after it the reading is where it was
      have hnext := (Points.wordNext hconv).applyAfter (lead.toList ++ p.plain).getLast?
      have hquiet := Points.quiet_write hfits hconv hnext hlead
      have hne : lead.toList ++ p.write lead ≠ [] := by simp [Points.write_of_convertible hconv]
      rw [hquiet.applyAfter_append hne, applyAfter_congr hnext.not_pointed _
        (lead.toList ++ p.plain).getLast?, ih]
    | false =>
      -- the same points are found again, with what comes next read once
      obtain ⟨hfits', hwrite'⟩ :=
        Points.declined_again hfits hconv (lead.toList ++ p.plain).getLast? lead
      have hagain := ellipsisRule_eq_some_iff.2 ⟨lead, _, rfl, hfits', hlead, rfl, rfl⟩
      rw [hwrite'] at hagain
      rw [Points.write_of_not_convertible hconv, Rule.applyAfter_append ha hagain, ih]

/-! ## Local -/

/-- A space, or none. -/
def space (given : Bool) : Text := if given then [' '] else []

/-- The second text is the first one with some runs of three points written as an ellipsis, and
single spaces put in directly next to these. -/
inductive Ellipsised : Text → Text → Prop
  | nil : Ellipsised [] []
  | char (c : Char) {t u : Text} : Ellipsised t u → Ellipsised (c :: t) (c :: u)
  | points (left right : Bool) {t u : Text} : Ellipsised t u →
      Ellipsised ('.' :: '.' :: '.' :: t) (space left ++ '…' :: (space right ++ u))

/-- The visible part of a text, with ellipses spelled as three points. -/
def spelled (t : Text) : Text :=
  (visible t).flatMap fun c => if c = '…' then ['.', '.', '.'] else [c]

namespace Ellipsised

variable {t u : Text}

theorem append_left (a : Text) (h : Ellipsised t u) : Ellipsised (a ++ t) (a ++ u) := by
  induction a with
  | nil => exact h
  | cons c a ih => exact .char c ih

theorem spelled_eq (h : Ellipsised t u) : spelled u = spelled t := by
  have hspace : ∀ given, visible (space given) = [] := by
    rintro (_ | _) <;> rfl
  induction h with
  | nil => rfl
  | char c _ ih =>
    simp only [spelled] at ih ⊢
    by_cases hc : isBlank c = true
    · rw [visible_cons_of_blank hc, visible_cons_of_blank hc, ih]
    · rw [Bool.not_eq_true] at hc
      rw [visible_cons_of_visible hc, visible_cons_of_visible hc, flatMap_cons,
        flatMap_cons, ih]
  | points left right _ ih =>
    simp only [spelled] at ih ⊢
    rw [visible_append, hspace, nil_append, visible_cons_of_visible (by decide),
      visible_append, hspace, nil_append, flatMap_cons, ih]
    simp [visible_cons_of_visible (show isBlank '.' = false by decide)]

end Ellipsised

theorem Points.ellipsised_write (p : Points) (lead : Option Char) (h : Ellipsised t u) :
    Ellipsised (p.plain ++ t) (p.write lead ++ u) := by
  have hleft : ∃ left, p.gapBefore lead = p.before ++ space left := by
    unfold gapBefore
    split
    · next hgap => exact ⟨true, by simp_all [space]⟩
    · exact ⟨false, by simp [space]⟩
  have hright : ∃ right, p.mark ++ p.gapAfter = space right ++ (p.mark ++ p.after) := by
    unfold gapAfter
    split
    · next hgap => exact ⟨true, by simp_all [space]⟩
    · exact ⟨false, by simp [space]⟩
  obtain ⟨left, hleft⟩ := hleft
  obtain ⟨right, hright⟩ := hright
  cases hconv : p.isConvertible with
  | true =>
    have hwrite : p.write lead ++ u
        = p.before ++ (space left ++ '…' :: (space right ++ (p.mark ++ (p.after ++ u)))) := by
      rw [write_of_convertible hconv, hleft, hright]
      simp
    rw [plain_append, hwrite]
    exact (((h.append_left _).append_left _).points left right).append_left _
  | false =>
    rw [write_of_not_convertible hconv]
    exact h.append_left _

theorem ellipsised_applyAfter (before : Option Char) (t : Text) :
    Ellipsised t (ellipsisRule.applyAfter before t) := by
  induction before, t using lawful_ellipsisRule.induction with
  | nil before => simpa using Ellipsised.nil
  | keep before c t hno ih =>
    rw [Rule.applyAfter_cons hno]
    exact .char c ih
  | take before a t new ha hrule ih =>
    rw [Rule.applyAfter_append ha hrule]
    obtain ⟨lead, p, rfl, rfl, -, -, rfl⟩ := exists_points hrule
    rw [append_assoc, append_assoc]
    exact (p.ellipsised_write lead ih).append_left _

theorem writeEllipses_between_words {w v : Char} (hw : isWordChar w = true)
    (hv : isWordChar v = true) (t : Text) :
    writeEllipses (w :: '.' :: '.' :: '.' :: v :: t)
      = w :: ' ' :: '…' :: ' ' :: writeEllipses (v :: t) := by
  have hblank := isBlank_of_isWordChar hv
  have hmark : isEllipsisFollower v = false := by
    rw [← Bool.not_eq_true]
    intro hv'
    rw [isWordChar_of_isEllipsisFollower hv'] at hv
    cases hv
  have hfits : Points.Fits ⟨[], [], [], v :: t⟩ :=
    ⟨rfl, .inl ⟨rfl, by simp [hmark]⟩, rfl, by simp [hblank]⟩
  have hlead : Leads none (some w) := .inr ⟨w, rfl, by simp [isEllipsisLead, hw]⟩
  have happly := Rule.applyAfter_append (by simp)
    (ellipsisRule_eq_some_iff.2 ⟨some w, _, rfl, hfits, hlead, rfl, rfl⟩)
  have hnext : ¬ Pointed (v :: t) :=
    not_pointed_cons hblank (ne_of_isWordChar hv (by decide +kernel)) t
  rw [applyAfter_congr hnext _ none] at happly
  simpa [writeEllipses, Rule.apply, Points.plain, Points.write, Points.isConvertible,
    Points.gapBefore, Points.gapAfter, hw, hv] using happly

/-- **Writing ellipses is stable and local.** Writing them twice is writing them once. The result is
the text with some runs of three points written as an ellipsis, single spaces being put in directly
next to these; so it has the visible text, with ellipses spelled as three points. Points between two
words are among the runs that are written so. -/
theorem ellipses_stable_and_local (t : Text) :
    writeEllipses (writeEllipses t) = writeEllipses t ∧
      spelled (writeEllipses t) = spelled t ∧ Ellipsised t (writeEllipses t) ∧
      ∀ w v rest, t = w :: '.' :: '.' :: '.' :: v :: rest →
        isWordChar w = true → isWordChar v = true →
        writeEllipses t = w :: ' ' :: '…' :: ' ' :: writeEllipses (v :: rest) := by
  have hlocal := ellipsised_applyAfter none t
  refine ⟨applyAfter_applyAfter none t, hlocal.spelled_eq, hlocal, ?_⟩
  rintro w v rest rfl hw hv
  exact writeEllipses_between_words hw hv rest

example : writeEllipses "Well...yes... (no)\n...and....".toList
    = "Well … yes... (no)\n… and ….".toList := by
  decide +kernel

end Typography

end Reflow
