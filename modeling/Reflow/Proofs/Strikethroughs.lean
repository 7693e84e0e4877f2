import Mathlib.Data.List.Pairwise
import Reflow.Document.Strikethrough
import Reflow.Proofs.CodeSpans

/-!
Strikethroughs that are found, and those that are overlooked.

Candidates are taken from left to right, and those that are not flanked as they must be are left out
afterwards. Two candidates that overlap share a run of tildes, the last of the one and the first of
the other (`IsCandidate.shares_run`). A candidate that is taken and left out has used up its last
run all the same.
-/

open List

namespace Reflow.Document

open Text

/-! ## What the pattern takes -/

namespace Struck

variable {s : Struck}

def written (s : Struck) : Text := repeated s.tildes '~' ++ s.inner ++ repeated s.tildes '~'

/-- One or two tildes, and between them a text without tildes that neither starts nor ends with a
blank. -/
structure Sound (s : Struck) : Prop where
  tildes : s.tildes = 1 ∨ s.tildes = 2
  inner : '~' ∉ s.inner
  first : s.inner.head?.any (!isBlank ·) = true
  last : s.inner.getLast?.any (!isBlank ·) = true

theorem length_written (s : Struck) : s.written.length = s.length := by
  simp [written, length, repeated, Nat.add_assoc]

theorem Sound.tildes_pos (h : s.Sound) : 0 < s.tildes := by
  rcases h.tildes with h | h <;> omega

theorem Sound.inner_ne_nil (h : s.Sound) : s.inner ≠ [] := by
  intro hnil
  simpa [hnil] using h.first

theorem Sound.head?_inner_append (h : s.Sound) (r : Text) : (s.inner ++ r).head? ≠ some '~' := by
  obtain ⟨c, cs, hinner⟩ := exists_cons_of_ne_nil h.inner_ne_nil
  have hc := h.inner
  rw [hinner] at hc ⊢
  rintro ⟨⟩
  simp at hc

theorem Sound.getLast?_append_written (h : s.Sound) (a : Text) :
    (a ++ s.written).getLast? = some '~' := by
  have hne : s.tildes ≠ 0 := Nat.pos_iff_ne_zero.1 h.tildes_pos
  have hrun : repeated s.tildes '~' ≠ [] := by simpa [repeated] using hne
  rw [written, ← append_assoc, getLast?_append_of_ne_nil _ hrun]
  simp [repeated, getLast?_replicate, hne]

end Struck

theorem takeWhile_ne_append {a r : Text} (ha : '~' ∉ a) {n : Nat} (hn : 0 < n) :
    (a ++ (repeated n '~' ++ r)).takeWhile (· != '~') = a := by
  obtain ⟨m, rfl⟩ := Nat.exists_eq_succ_of_ne_zero (Nat.pos_iff_ne_zero.1 hn)
  have hall : ∀ c ∈ a, (c != '~') = true := by
    intro c hc
    rw [bne_iff_ne]
    rintro rfl
    exact ha hc
  rw [takeWhile_append_of_pos hall, repeated, replicate_succ]
  simp

/-- **What the pattern takes**: all that is written, between characters that are no tildes. -/
theorem struck?_eq_some_iff {before : Option Char} {t rest : Text} {s : Struck} :
    struck? before t = some (s, rest) ↔
      before ≠ some '~' ∧ s.Sound ∧ t = s.written ++ rest ∧ rest.head? ≠ some '~' := by
  have hdrop : ∀ n r, (repeated n '~' ++ r).drop n = r := fun n r => drop_left' (by simp [repeated])
  unfold struck?
  dsimp only
  constructor
  · intro h
    obtain ⟨r, ht, -⟩ := exists_eq_repeated_append '~' t
    generalize (t.takeWhile (· == '~')).length = n at h ht
    subst ht
    rw [hdrop] at h
    have hr := prefix_iff_eq_append.1 (List.takeWhile_prefix (· != '~') (l := r))
    have hinner : '~' ∉ r.takeWhile (· != '~') := fun hmem => by
      simpa using all_eq_true.1 all_takeWhile _ hmem
    generalize r.takeWhile (· != '~') = inner at h hr hinner
    generalize r.drop inner.length = after at h hr
    subst hr
    obtain ⟨r, hafter, hrest⟩ := exists_eq_repeated_append '~' after
    generalize (after.takeWhile (· == '~')).length = closing at h hafter
    subst hafter
    rw [hdrop] at h
    split at h
    · cases h
    · next hbefore =>
      split at h
      · next hsound =>
        simp only [Bool.and_eq_true, Bool.or_eq_true, beq_iff_eq] at hsound
        obtain ⟨⟨⟨htildes, rfl⟩, hfirst⟩, hlast⟩ := hsound
        cases h
        exact ⟨by simpa using hbefore, ⟨htildes, hinner, hfirst, hlast⟩, by simp [Struck.written], hrest⟩
      · cases h
  · rintro ⟨hbefore, hs, rfl, hrest⟩
    have hopen : ((s.written ++ rest).takeWhile (· == '~')).length = s.tildes := by
      rw [Struck.written, append_assoc, append_assoc,
        takeWhile_repeated_append _ (hs.head?_inner_append _)]
      simp [repeated]
    have hclose : ((repeated s.tildes '~' ++ rest).takeWhile (· == '~')).length = s.tildes := by
      rw [takeWhile_repeated_append s.tildes hrest]
      simp [repeated]
    have hinner : (s.written ++ rest).drop s.tildes = s.inner ++ (repeated s.tildes '~' ++ rest) := by
      rw [Struck.written, append_assoc, append_assoc, hdrop]
    rw [if_neg (by simpa using hbefore), hopen, hinner, takeWhile_ne_append hs.inner hs.tildes_pos,
      drop_left, hclose, hdrop, if_pos]
    simpa [hs.first, hs.last] using hs.tildes

/-! ## Candidates in a text -/

namespace StruckSpan

/-- Where the struck text ends: the offset after its last tilde. -/
def stop (x : StruckSpan) : Nat := x.start + x.length

/-- The two share a character. -/
def Overlaps (x y : StruckSpan) : Prop := x.start < y.stop ∧ y.start < x.stop

end StruckSpan

/-- The pattern takes just this part of the text: no tilde stands before or after it. -/
structure IsCandidate (t : Text) (x : StruckSpan) : Prop where
  sound : x.Sound
  stands : ∃ a b, t = a ++ x.written ++ b ∧ a.length = x.start ∧ a.getLast? ≠ some '~' ∧
    b.head? ≠ some '~'

/-- Both runs of tildes are flanked as they must be. -/
def isFlanked (t : Text) (x : StruckSpan) : Bool :=
  Struck.isFlanking x.inner.head? (t.take x.start).getLast? &&
    Struck.isFlanking x.inner.getLast? (t.drop x.stop).head?

theorem isFlanked_append (a : Text) (s : Struck) (rest : Text) :
    isFlanked (a ++ (s.written ++ rest)) ⟨s, a.length⟩ =
      (Struck.isFlanking s.inner.head? a.getLast? &&
        Struck.isFlanking s.inner.getLast? rest.head?) := by
  have hstop : StruckSpan.stop ⟨s, a.length⟩ = (a ++ s.written).length := by
    rw [length_append, s.length_written, StruckSpan.stop]
  rw [isFlanked, hstop]
  simp

/-- A strikethrough: a candidate that is flanked as it must be. -/
def IsStrikethrough (t : Text) (x : StruckSpan) : Prop := IsCandidate t x ∧ isFlanked t x = true

namespace IsCandidate

variable {t : Text} {x y : StruckSpan}

theorem start_add_lt_stop (h : IsCandidate t x) : x.start + x.tildes + x.tildes < x.stop := by
  have hinner := length_pos_of_ne_nil h.sound.inner_ne_nil
  rw [StruckSpan.stop, Struck.length]
  omega

/-- **Where the tildes of a candidate are**: in its two runs, and not right after it. -/
theorem tilde_iff (h : IsCandidate t x) {i : Nat} (hstart : x.start ≤ i) (hstop : i ≤ x.stop) :
    t[i]? = some '~' ↔ i < x.start + x.tildes ∨ x.stop ≤ i + x.tildes ∧ i < x.stop := by
  obtain ⟨a, b, rfl, hlength, -, hb⟩ := h.stands
  have hsize : x.start + x.tildes + x.inner.length + x.tildes = x.stop := by
    rw [StruckSpan.stop, Struck.length]
    omega
  obtain ⟨k, rfl⟩ := Nat.exists_eq_add_of_le hstart
  have hget : (a ++ x.written ++ b)[x.start + k]?
      = (repeated x.tildes '~' ++ (x.inner ++ (repeated x.tildes '~' ++ b)))[k]? := by
    rw [append_assoc, getElem?_append_right (by omega), hlength, Nat.add_sub_cancel_left,
      Struck.written]
    simp
  rw [hget]
  -- the place is in the first run, in the text between, in the last run, or right after it
  rcases Nat.lt_or_ge k x.tildes with hk | hk
  · rw [getElem?_append_left (by simpa [repeated] using hk)]
    simp [repeated, hk]
  · rw [getElem?_append_right (by simpa [repeated] using hk), repeated, length_replicate]
    rcases Nat.lt_or_ge (k - x.tildes) x.inner.length with hk' | hk'
    · rw [getElem?_append_left hk']
      refine iff_of_false (fun hget => h.sound.inner (mem_of_getElem? hget)) (by omega)
    · rw [getElem?_append_right hk']
      rcases Nat.lt_or_ge (k - x.tildes - x.inner.length) x.tildes with hk'' | hk''
      · rw [getElem?_append_left (by simpa using hk'')]
        simpa [hk''] using by omega
      · have hend : k - x.tildes - x.inner.length - x.tildes = 0 := by omega
        rw [getElem?_append_right (by simpa using hk''), length_replicate, hend,
          ← head?_eq_getElem?]
        exact iff_of_false hb (by omega)

theorem not_tilde_before (h : IsCandidate t x) {i : Nat} (hi : i + 1 = x.start) :
    t[i]? ≠ some '~' := by
  obtain ⟨a, b, rfl, hlength, ha, -⟩ := h.stands
  rw [append_assoc, getElem?_append_left (by omega)]
  rwa [getLast?_eq_getElem?, hlength, ← hi, Nat.add_sub_cancel] at ha

/-- **Candidates share whole runs.** One that starts inside another starts with the last run of
it. -/
theorem shares_run (hx : IsCandidate t x) (hy : IsCandidate t y) (hstart : y.start < x.start)
    (hstop : x.start < y.stop) : x.tildes = y.tildes ∧ y.stop = x.start + x.tildes := by
  have hxlt := hx.start_add_lt_stop
  have hpos := hx.sound.tildes_pos
  obtain ⟨i, hi⟩ : ∃ i, i + 1 = x.start := ⟨x.start - 1, by omega⟩
  have hfirst := (hx.tilde_iff (Nat.le_refl _) (by omega)).2 (by omega)
  rw [hy.tilde_iff (by omega) (by omega)] at hfirst
  have hbefore := hx.not_tilde_before hi
  rw [Ne, hy.tilde_iff (by omega) (by omega)] at hbefore
  have hrun : y.stop = x.start + y.tildes := by omega
  -- no longer than the run that ends `y`, and no shorter
  have hafter : ¬ t[y.stop]? = some '~' := by
    rw [hy.tilde_iff (by omega) (Nat.le_refl _)]
    omega
  have hlonger : x.tildes ≤ y.tildes := by
    by_contra hlt
    exact hafter ((hx.tilde_iff (by omega) (by omega)).2 (by omega))
  have hshorter : y.tildes ≤ x.tildes := by
    by_contra hlt
    have htilde := (hy.tilde_iff (i := x.start + x.tildes) (by omega) (by omega)).2 (by omega)
    rw [hx.tilde_iff (by omega) (by omega)] at htilde
    omega
  exact ⟨by omega, by omega⟩

theorem struck?_iff {a u : Text} {s : Struck} {start : Nat} (ha : a.length = start) :
    IsCandidate (a ++ u) ⟨s, start⟩ ↔
      ∃ rest, struck? a.getLast? u = some (s, rest) ∧ rest = u.drop s.length := by
  simp only [struck?_eq_some_iff]
  constructor
  · rintro ⟨hs, a', b, heq, hlength, hbefore, hafter⟩
    rw [append_assoc] at heq
    obtain ⟨rfl, rfl⟩ := append_inj heq (ha.trans hlength.symm)
    exact ⟨b, ⟨hbefore, hs, rfl, hafter⟩, (drop_left' s.length_written).symm⟩
  · rintro ⟨rest, ⟨hbefore, hs, rfl, hafter⟩, -⟩
    exact ⟨hs, a, rest, by rw [append_assoc], ha, hbefore, hafter⟩

theorem start_lt_length (h : IsCandidate t x) : x.start < t.length := by
  obtain ⟨a, b, rfl, hlength, -⟩ := h.stands
  have hlt := h.start_add_lt_stop
  have hwritten := x.length_written
  rw [StruckSpan.stop] at hlt
  simp only [length_append]
  omega

theorem eq_of_start_eq (hx : IsCandidate t x) (hy : IsCandidate t y) (h : x.start = y.start) :
    x = y := by
  obtain ⟨s, start⟩ := x
  obtain ⟨s', start'⟩ := y
  obtain rfl : start = start' := h
  have ha : (t.take start).length = start :=
    length_take_of_le (Nat.le_of_lt hx.start_lt_length)
  rw [← take_append_drop start t, struck?_iff ha] at hx hy
  obtain ⟨rest, hrest, -⟩ := hx
  obtain ⟨rest', hrest', -⟩ := hy
  cases hrest.symm.trans hrest'
  rfl

end IsCandidate

/-! ## Candidates that are taken -/

/-- The candidates of a text at offset `start` after `before`, taken from left to right. -/
def takenFrom (start : Nat) (before : Option Char) : Text → List StruckSpan
  | [] => []
  | c :: cs =>
    match struck? before (c :: cs) with
    | some (s, _) =>
      ⟨s, start⟩ :: takenFrom (start + s.length) (some '~') (cs.drop (s.length - 1))
    | none => takenFrom (start + 1) (some c) cs
termination_by t => t.length
decreasing_by all_goals (simp; try omega)

def taken (t : Text) : List StruckSpan := takenFrom 0 none t

/-- A choice of candidates from an offset on: none starts inside another, and every candidate starts
inside one of them. -/
structure Covers (t : Text) (start : Nat) (xs : List StruckSpan) : Prop where
  sound : ∀ x ∈ xs, IsCandidate t x ∧ start ≤ x.start
  apart : xs.Pairwise fun x y => x.stop ≤ y.start
  covered : ∀ x, IsCandidate t x → start ≤ x.start → ∃ y ∈ xs, y.start ≤ x.start ∧ x.start < y.stop

namespace Covers

variable {t : Text} {start : Nat} {xs : List StruckSpan}

theorem nil : Covers t t.length [] where
  sound := by simp
  apart := .nil
  covered x hx hstart := absurd hx.start_lt_length (by omega)

theorem skip (h : Covers t (start + 1) xs) (hnone : ∀ s, ¬ IsCandidate t ⟨s, start⟩) :
    Covers t start xs where
  sound x hx := ⟨(h.sound x hx).1, Nat.le_of_succ_le (h.sound x hx).2⟩
  apart := h.apart
  covered x hx hstart := by
    rcases Nat.eq_or_lt_of_le hstart with rfl | hlt
    · exact absurd hx (hnone x.toStruck)
    · exact h.covered x hx hlt

theorem take {x : StruckSpan} (hx : IsCandidate t x) (h : Covers t x.stop xs) :
    Covers t x.start (x :: xs) where
  sound := by
    rintro y (_ | ⟨_, hy⟩)
    · exact ⟨hx, Nat.le_refl _⟩
    · have hlt := hx.start_add_lt_stop
      exact ⟨(h.sound y hy).1, by have := (h.sound y hy).2; omega⟩
  apart := .cons (fun y hy => (h.sound y hy).2) h.apart
  covered y hy hstart := by
    rcases Nat.lt_or_ge y.start x.stop with hlt | hge
    · exact ⟨x, by simp, hstart, hlt⟩
    · obtain ⟨z, hz, hcovers⟩ := h.covered y hy hge
      exact ⟨z, by simp [hz], hcovers⟩

theorem eq_of_overlaps (h : Covers t start xs) {x y : StruckSpan} (hx : x ∈ xs) (hy : y ∈ xs)
    (hoverlaps : x.Overlaps y) : x = y := by
  have hsymm : Std.Symm fun x y : StruckSpan => x.Overlaps y → x = y :=
    ⟨fun a b hab hba => (hab hba.symm).symm⟩
  have hall : xs.Pairwise fun x y => x.Overlaps y → x = y :=
    h.apart.imp fun hle hab => absurd hab.2 (by omega)
  exact hall.forall_of_forall (fun _ _ _ => rfl) hx hy hoverlaps

end Covers

/-- **One pass over the text.** The candidates that are taken cover the text, and those that are
flanked as they must be are the ones that are found. -/
theorem covers_takenFrom {t a u : Text} (ht : t = a ++ u) :
    Covers t a.length (takenFrom a.length a.getLast? u) ∧
      struckFrom a.length a.getLast? u = (takenFrom a.length a.getLast? u).filter (isFlanked t) := by
  -- `a` is what the pass has behind it, so that both steps, over one character and over a candidate,
  -- move a part of the text from `u` to `a`
  induction hn : u.length using Nat.strongRecOn generalizing a u with
  | ind n ih =>
    subst hn
    cases u with
    | nil =>
      rw [append_nil] at ht
      subst ht
      rw [takenFrom, struckFrom]
      exact ⟨.nil, rfl⟩
    | cons c cs =>
      rw [takenFrom, struckFrom]
      cases hstruck : struck? a.getLast? (c :: cs) with
      | none =>
        obtain ⟨hcovers, hfound⟩ := ih cs.length (by simp) (a := a ++ [c]) (by simp [ht]) rfl
        rw [length_append, getLast?_concat] at hcovers hfound
        refine ⟨hcovers.skip fun s hs => ?_, hfound⟩
        rw [ht, IsCandidate.struck?_iff rfl, hstruck] at hs
        simp at hs
      | some found =>
        obtain ⟨s, rest⟩ := found
        obtain ⟨-, hs, heq, -⟩ := struck?_eq_some_iff.1 hstruck
        have hdrop : (c :: cs).drop s.length = rest := by rw [heq, drop_left' s.length_written]
        have hcandidate : IsCandidate t ⟨s, a.length⟩ := by
          rw [ht, IsCandidate.struck?_iff rfl]
          exact ⟨rest, hstruck, hdrop.symm⟩
        have hrest : cs.drop (s.length - 1) = rest := by
          have hpos : s.length = s.length - 1 + 1 := by
            have := hcandidate.start_add_lt_stop
            rw [StruckSpan.stop] at this
            dsimp only at this
            omega
          rw [← hdrop, hpos, drop_succ_cons]
          rfl
        obtain ⟨hcovers, hfound⟩ := ih rest.length (by rw [← hrest, length_drop, length_cons]; omega)
          (a := a ++ s.written) (by rw [ht, heq, append_assoc]) rfl
        rw [length_append, s.length_written, hs.getLast?_append_written] at hcovers hfound
        dsimp only
        rw [hrest]
        refine ⟨.take hcandidate hcovers, ?_⟩
        have hflanked := isFlanked_append a s rest
        rw [← heq, ← ht] at hflanked
        rw [filter_cons, hflanked, hfound]

theorem covers_taken (t : Text) : Covers t 0 (taken t) :=
  (covers_takenFrom (a := []) rfl).1

theorem strikethroughs_eq_filter (t : Text) : strikethroughs t = (taken t).filter (isFlanked t) :=
  (covers_takenFrom (a := []) rfl).2

/-! ## What is found -/

/-- **Which strikethroughs are found.** What is found are strikethroughs, and no two overlap. Candidates
overlap only by a run of tildes, the last of the one and the first of the other. Every strikethrough
overlaps one that is found if and only if the following is true of each that starts with the last run of
a candidate which was taken and is not flanked as it must be: one that is found starts with its own last
run. -/
theorem strikethroughs_maximal_iff (t : Text) :
    (∀ x ∈ strikethroughs t, IsStrikethrough t x) ∧
    ((strikethroughs t).Pairwise fun x y => x.stop ≤ y.start) ∧
    (∀ x y, IsCandidate t x → IsCandidate t y → y.start < x.start → x.start < y.stop →
      x.tildes = y.tildes ∧ y.stop = x.start + x.tildes) ∧
    ((∀ x, IsStrikethrough t x → ∃ y ∈ strikethroughs t, x.Overlaps y) ↔
      ∀ x, IsStrikethrough t x → ∀ y ∈ taken t, isFlanked t y = false →
        y.stop = x.start + x.tildes → ∃ z ∈ strikethroughs t, x.stop = z.start + z.tildes) := by
  have hcovers := covers_taken t
  have hfound : ∀ {x}, x ∈ strikethroughs t ↔ x ∈ taken t ∧ isFlanked t x = true := by
    intro x
    rw [strikethroughs_eq_filter, mem_filter]
  refine ⟨fun x hx => ?_, ?_, fun x y => IsCandidate.shares_run,
    fun hmax x hx y hy hflanked hshared => ?_, fun hhidden x hx => ?_⟩
  · exact ⟨(hcovers.sound x (hfound.1 hx).1).1, (hfound.1 hx).2⟩
  · rw [strikethroughs_eq_filter]
    exact hcovers.apart.filter _
  · obtain ⟨z, hz, hxz, hzx⟩ := hmax x hx
    have hz' := (hcovers.sound z (hfound.1 hz).1).1
    have hy' := (hcovers.sound y hy).1
    have hxlt := hx.1.start_add_lt_stop
    have hylt := hy'.start_add_lt_stop
    refine ⟨z, hz, ?_⟩
    -- otherwise `z` takes the run that `y` has taken
    rcases Nat.lt_or_ge x.start z.start with hlt | hge
    · exact (hz'.shares_run hx.1 hlt hzx).2
    · have hoverlaps : z.Overlaps y := by
        have hzlt := hz'.start_add_lt_stop
        rcases Nat.eq_or_lt_of_le hge with heq | hlt
        · obtain rfl := hz'.eq_of_start_eq hx.1 heq
          exact ⟨by have := hx.1.sound.tildes_pos; omega, by omega⟩
        · have hstop := (hx.1.shares_run hz' hlt hxz).2
          exact ⟨by omega, by omega⟩
      rw [← hcovers.eq_of_overlaps (hfound.1 hz).1 hy hoverlaps, (hfound.1 hz).2] at hflanked
      cases hflanked
  · have hxlt := hx.1.start_add_lt_stop
    obtain ⟨y, hy, hle, hlt⟩ := hcovers.covered x hx.1 (Nat.zero_le _)
    by_cases hflanked : isFlanked t y = true
    · exact ⟨y, hfound.2 ⟨hy, hflanked⟩, hlt, by omega⟩
    · have hy' := (hcovers.sound y hy).1
      rcases Nat.eq_or_lt_of_le hle with heq | hstart
      · exact absurd ((hy'.eq_of_start_eq hx.1 heq) ▸ hx.2) hflanked
      · obtain ⟨z, hz, hshared⟩ := hhidden x hx y hy (by simpa using hflanked)
          (hx.1.shares_run hy' hstart hlt).2
        have hzlt := ((hcovers.sound z (hfound.1 hz).1).1).start_add_lt_stop
        have hzpos := ((hcovers.sound z (hfound.1 hz).1).1).sound.tildes_pos
        exact ⟨z, hz, by omega, by omega⟩

/-- In `a~(b~c~` the first two tildes make a candidate that is left out, and nothing is found; `~c~`
is a strikethrough. -/
theorem strikethrough_after_rejected_overlooked :
    strikethroughs "a~(b~c~".toList = [] ∧ IsStrikethrough "a~(b~c~".toList ⟨⟨1, ['c']⟩, 4⟩ := by
  refine ⟨by decide +kernel, ⟨⟨.inl rfl, by decide, by decide, by decide⟩, ?_⟩, by decide +kernel⟩
  exact ⟨"a~(b".toList, [], by decide, by decide, by decide, by decide⟩

end Reflow.Document
