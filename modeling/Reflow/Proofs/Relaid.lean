import Reflow.Proofs.Filling
import Reflow.Proofs.Glue

/-!
A text and its new layout, side by side.

Laying a text out again turns runs of blanks into other runs of blanks and gives some words a
backslash. A list of cells records a text (`src`) together with such a layout of it (`out`), and
`Fit` says where a backslash may stand. A recogniser that `Respects` this reads both texts in
lockstep. All constructs do, so the same cells are glued in a text and in its layout
(`exists_flags`).
-/

open List

namespace Reflow.Relaid

open Text Recogniser

variable {free : Bool}

/-! ## Cells -/

/-- A place of a text and of its new layout. -/
inductive Cell where
  /-- A visible character of both. -/
  | char (c : Char)
  /-- A run of blanks, as it was and as it is. -/
  | gap (g h : Text)
  /-- A backslash that only the layout has. -/
  | mark
deriving DecidableEq

namespace Cell

def src : Cell → Text
  | char c => [c]
  | gap g _ => g
  | mark => []

def out : Cell → Text
  | char c => [c]
  | gap _ h => h
  | mark => ['\\']

def isGap : Cell → Bool
  | gap _ _ => true
  | _ => false

end Cell

def src (zs : List Cell) : Text := zs.flatMap Cell.src

def out (zs : List Cell) : Text := zs.flatMap Cell.out

@[simp] theorem src_nil : src [] = [] := rfl

@[simp] theorem out_nil : out [] = [] := rfl

@[simp] theorem src_append (xs ys : List Cell) : src (xs ++ ys) = src xs ++ src ys := by simp [src]

@[simp] theorem out_append (xs ys : List Cell) : out (xs ++ ys) = out xs ++ out ys := by simp [out]

@[simp] theorem src_char (c : Char) (zs : List Cell) : src (.char c :: zs) = c :: src zs := rfl

@[simp] theorem out_char (c : Char) (zs : List Cell) : out (.char c :: zs) = c :: out zs := rfl

@[simp] theorem src_gap (g h : Text) (zs : List Cell) : src (.gap g h :: zs) = g ++ src zs := rfl

@[simp] theorem out_gap (g h : Text) (zs : List Cell) : out (.gap g h :: zs) = h ++ out zs := rfl

@[simp] theorem src_mark (zs : List Cell) : src (.mark :: zs) = src zs := rfl

@[simp] theorem out_mark (zs : List Cell) : out (.mark :: zs) = '\\' :: out zs := rfl

@[simp] theorem src_map_char (s : Text) : src (s.map Cell.char) = s := by
  induction s with
  | nil => rfl
  | cons c s ih => rw [map_cons, src_char, ih]

@[simp] theorem out_map_char (s : Text) : out (s.map Cell.char) = s := by
  induction s with
  | nil => rfl
  | cons c s ih => rw [map_cons, out_char, ih]

def BlankRun (g : Text) : Prop := g ≠ [] ∧ ∀ c ∈ g, isBlank c = true

theorem BlankRun.exists_cons {g : Text} (hg : BlankRun g) : ∃ c t, g = c :: t ∧ isBlank c := by
  obtain ⟨c, t, rfl⟩ := exists_cons_of_ne_nil hg.1
  exact ⟨c, t, rfl, hg.2 c (by simp)⟩

/-- The characters in front of which a backslash is put. -/
def markable : List Char := ['-', '*', '+', '>', '#', '.', ')']

/-- The cells fit together. A backslash may come first only if `free`. -/
def Fit : Bool → List Cell → Prop
  | _, [] => True
  | free, .char c :: zs => isBlank c = false ∧ Fit (free && isAsciiDigit c) zs
  | _, .gap g h :: zs =>
    BlankRun g ∧ BlankRun h ∧ (∀ z ∈ zs.head?, z.isGap = false) ∧ Fit true zs
  | free, .mark :: zs =>
    free = true ∧ (∃ c rest, zs = .char c :: rest ∧ c ∈ markable) ∧ Fit false zs

namespace Fit

variable {free : Bool} {zs xs ys : List Cell}

theorem of_false (h : Fit false zs) : Fit free zs := by
  induction zs generalizing free with
  | nil => trivial
  | cons z zs ih =>
    cases z with
    | char c => exact ⟨h.1, ih h.2⟩
    | gap g g' => exact h
    | mark => exact absurd h.1 Bool.false_ne_true

theorem to_true (h : Fit free zs) : Fit true zs := by
  cases free with
  | false => exact of_false h
  | true => exact h

theorem right (h : Fit free (xs ++ ys)) : Fit true ys := by
  induction xs generalizing free with
  | nil => exact h.to_true
  | cons x xs ih =>
    cases x with
    | char c => exact ih h.2
    | gap g g' => exact ih h.2.2.2
    | mark => exact ih h.2.2

theorem left {g g' : Text} (h : Fit free (xs ++ .gap g g' :: ys)) : Fit free xs := by
  induction xs generalizing free with
  | nil => trivial
  | cons x xs ih =>
    cases x with
    | char c => exact ⟨h.1, ih h.2⟩
    | gap g g' =>
      refine ⟨h.1, h.2.1, ?_, ih h.2.2.2⟩
      intro z hz
      cases xs with
      | nil => simp at hz
      | cons y xs => exact h.2.2.1 z hz
    | mark =>
      obtain ⟨hfree, ⟨c, rest, hc, hmem⟩, hrest⟩ := h
      refine ⟨hfree, ?_, ih hrest⟩
      cases xs with
      | nil => simp at hc
      | cons y xs => exact ⟨c, xs, by rw [(cons.inj hc).1], hmem⟩

theorem isBlank_head (h : Fit free zs) (hz : ∀ z ∈ zs.head?, z.isGap = false) :
    (∀ c ∈ (src zs).head?, isBlank c = false) ∧ ∀ c ∈ (out zs).head?, isBlank c = false := by
  cases zs with
  | nil => simp
  | cons z zs =>
    cases z with
    | char c => simpa using h.1
    | gap g g' => exact absurd (hz _ rfl) (by simp [Cell.isGap])
    | mark =>
      obtain ⟨c, rest, rfl, _⟩ := h.2.1
      exact ⟨by simpa using h.2.2.1, by simp [isBlank_backslash]⟩

end Fit

/-! ## Reading in lockstep -/

/-- The recogniser fails on a text and on its layout, or accepts the same cells of both. What is left
to read fits with `free`. -/
def Lockstep (r : Recogniser) (free : Bool) (zs : List Cell) : Prop :=
  r (src zs) = none ∧ r (out zs) = none ∨
    ∃ xs ys, zs = xs ++ ys ∧ Fit free ys ∧
      r (src zs) = some (src xs).length ∧ r (out zs) = some (out xs).length

/-- Cells that fit with `free` are read in lockstep, and what is left to read fits with `free'`. -/
def Respects (free : Bool) (r : Recogniser) (free' : Bool) : Prop :=
  ∀ zs, Fit free zs → Lockstep r free' zs

namespace Respects

variable {free free' free'' : Bool} {r s : Recogniser}

theorem of_true (h : Respects true r free') : Respects free r free' :=
  fun zs hzs => h zs hzs.to_true

theorem to_true (h : Respects free r free') : Respects free r true := by
  intro zs hzs
  rcases h zs hzs with hnone | ⟨xs, ys, hsplit, hys, hsrc, hout⟩
  · exact .inl hnone
  · exact .inr ⟨xs, ys, hsplit, hys.to_true, hsrc, hout⟩

theorem andThen (hr : Respects free r free') (hs : Respects free' s free'') :
    Respects free (andThen r s) free'' := by
  intro zs hzs
  rcases hr zs hzs with ⟨hsrc, hout⟩ | ⟨xs, ys, rfl, hys, hsrc, hout⟩
  · exact .inl ⟨by simp [Recogniser.andThen, hsrc], by simp [Recogniser.andThen, hout]⟩
  · have hdrop : (src (xs ++ ys)).drop (src xs).length = src ys := by simp
    have hdrop' : (out (xs ++ ys)).drop (out xs).length = out ys := by simp
    rcases hs ys hys with ⟨hsrc', hout'⟩ | ⟨xs', ys', rfl, hys', hsrc', hout'⟩
    · refine .inl ⟨?_, ?_⟩
      · rw [Recogniser.andThen, hsrc]
        simp [hsrc']
      · rw [Recogniser.andThen, hout]
        simp [hout']
    · refine .inr ⟨xs ++ xs', ys', by simp, hys', ?_, ?_⟩
      · refine andThen_eq_some.2 ⟨_, (src xs').length, hsrc, ?_, by simp⟩
        rw [hdrop]
        exact hsrc'
      · refine andThen_eq_some.2 ⟨_, (out xs').length, hout, ?_, by simp⟩
        rw [hdrop']
        exact hout'

theorem sequence_nil : Respects free (sequence []) free := fun zs hzs =>
  .inr ⟨[], zs, rfl, hzs, rfl, rfl⟩

theorem sequence_cons {rs : List Recogniser} (hr : Respects free r free')
    (hrs : Respects free' (sequence rs) free'') : Respects free (sequence (r :: rs)) free'' :=
  hr.andThen hrs

theorem orElse (hr : Respects free r free') (hs : Respects free s free') :
    Respects free (orElse r s) free' := by
  intro zs hzs
  rcases hr zs hzs with ⟨hsrc, hout⟩ | ⟨xs, ys, hsplit, hys, hsrc, hout⟩
  · simp only [Lockstep, Recogniser.orElse, hsrc, hout, Option.none_or]
    exact hs zs hzs
  · refine .inr ⟨xs, ys, hsplit, hys, ?_, ?_⟩
    · simp [Recogniser.orElse, hsrc]
    · simp [Recogniser.orElse, hout]

theorem optional (hr : Respects true r free') : Respects free (optional r) true := by
  intro zs hzs
  rcases hr zs hzs.to_true with ⟨hsrc, hout⟩ | ⟨xs, ys, hsplit, hys, hsrc, hout⟩
  · exact .inr ⟨[], zs, rfl, hzs.to_true, by simp [Recogniser.optional, hsrc],
      by simp [Recogniser.optional, hout]⟩
  · exact .inr ⟨xs, ys, hsplit, hys.to_true, by simp [Recogniser.optional, hsrc],
      by simp [Recogniser.optional, hout]⟩

theorem absent (hr : Respects free r free') : Respects free (absent r) free := by
  intro zs hzs
  rcases hr zs hzs with ⟨hsrc, hout⟩ | ⟨xs, ys, _, _, hsrc, hout⟩
  · exact .inr ⟨[], zs, rfl, hzs, by simp [Recogniser.absent, hsrc],
      by simp [Recogniser.absent, hout]⟩
  · exact .inl ⟨by simp [Recogniser.absent, hsrc], by simp [Recogniser.absent, hout]⟩

end Respects

/-! ## Fixed texts -/

variable {s : Text} {zs : List Cell} {c : Char} {p : Char → Bool}

/-- Where no backslash may come first, a text without blanks that starts the one starts the
other. -/
theorem Fit.exists_of_isPrefix (h : Fit false zs) (hs : ∀ c ∈ s, isBlank c = false)
    (hpre : s <+: src zs ∨ s <+: out zs) : ∃ ys, zs = s.map Cell.char ++ ys ∧ Fit false ys := by
  induction s generalizing zs with
  | nil => exact ⟨zs, rfl, h⟩
  | cons c s ih =>
    have hc : isBlank c = false := hs c (by simp)
    cases zs with
    | nil => simp at hpre
    | cons z zs =>
      cases z with
      | char d =>
        simp only [src_char, out_char, cons_prefix_cons] at hpre
        obtain rfl : c = d := hpre.elim And.left And.left
        obtain ⟨ys, rfl, hys⟩ := ih h.2 (fun e he => hs e (by simp [he]))
          (hpre.imp And.right And.right)
        exact ⟨ys, rfl, hys⟩
      | gap g g' =>
        -- a gap starts with a blank, and the text does not
        obtain ⟨d, g, rfl, hd⟩ := h.1.exists_cons
        obtain ⟨d', g', rfl, hd'⟩ := h.2.1.exists_cons
        simp only [src_gap, out_gap, cons_append, cons_prefix_cons] at hpre
        rcases hpre with ⟨rfl, _⟩ | ⟨rfl, _⟩
        · simp [hd] at hc
        · simp [hd'] at hc
      | mark => exact absurd h.1 Bool.false_ne_true

theorem respects_exactly_of_visible (hs : ∀ c ∈ s, isBlank c = false) :
    Respects false (exactly s) false := by
  intro zs hzs
  by_cases hpre : s <+: src zs ∨ s <+: out zs
  · obtain ⟨ys, rfl, hys⟩ := hzs.exists_of_isPrefix hs hpre
    refine .inr ⟨s.map Cell.char, ys, rfl, hys, ?_, ?_⟩
    · exact exactly_eq_some.2 ⟨src ys, by simp, by simp⟩
    · exact exactly_eq_some.2 ⟨out ys, by simp, by simp⟩
  · rw [not_or] at hpre
    refine .inl ⟨?_, ?_⟩
    · rw [exactly, if_neg (by simpa [List.isPrefixOf_iff_prefix] using hpre.1)]
    · rw [exactly, if_neg (by simpa [List.isPrefixOf_iff_prefix] using hpre.2)]

/-- A visible character that is no backslash, no digit, and not one that a backslash is put in front
of. -/
def isSteady (c : Char) : Bool :=
  !isBlank c && !isAsciiDigit c && !markable.contains c && c != '\\'

/-- Cells that start with a steady character start so without a backslash; where they start with
something else, so do the text and the layout. -/
theorem Fit.steady_cases (hc : isSteady c) (h : Fit free zs) :
    Fit false zs ∧ (∃ ys, zs = .char c :: ys) ∨
      (src zs).head? ≠ some c ∧ (out zs).head? ≠ some c := by
  simp only [isSteady, Bool.and_eq_true, Bool.not_eq_true', bne_iff_ne] at hc
  obtain ⟨⟨⟨hblank, hdigit⟩, hmarkable⟩, hbackslash⟩ := hc
  cases zs with
  | nil => simp
  | cons z zs =>
    cases z with
    | char d =>
      by_cases hcd : d = c
      · subst hcd
        -- the character is no digit, so no backslash follows it
        exact .inl ⟨⟨h.1, by simpa [hdigit] using h.2⟩, zs, rfl⟩
      · exact .inr (by simpa using hcd)
    | gap g g' =>
      obtain ⟨d, g, rfl, hd⟩ := h.1.exists_cons
      obtain ⟨d', g', rfl, hd'⟩ := h.2.1.exists_cons
      have hne : ∀ e, isBlank e → e ≠ c := by
        rintro e he rfl
        simp [he] at hblank
      exact .inr (by simpa using ⟨hne d hd, hne d' hd'⟩)
    | mark =>
      obtain ⟨_, ⟨d, rest, rfl, hd⟩, _⟩ := h
      refine .inr ⟨?_, by simpa using hbackslash.symm⟩
      rintro heq
      obtain rfl : d = c := by simpa using heq
      simp [hd] at hmarkable

theorem exactly_eq_none {t : Text} (h : t.head? ≠ some c) : exactly (c :: s) t = none := by
  cases t with
  | nil => rfl
  | cons d t =>
    have hcd : c ≠ d := fun heq => h (by simp [heq])
    simp [exactly, isPrefixOf, hcd]

theorem respects_exactly (hc : isSteady c) (hs : ∀ d ∈ s, isBlank d = false) :
    Respects true (exactly (c :: s)) false := by
  intro zs hzs
  rcases hzs.steady_cases hc with ⟨hfit, ys, rfl⟩ | ⟨hsrc, hout⟩
  · exact respects_exactly_of_visible (s := c :: s) (by simpa [hzs.1] using hs) _ hfit
  · exact .inl ⟨exactly_eq_none hsrc, exactly_eq_none hout⟩

/-! ## Runs of characters -/

theorem respects_many_blank : Respects free (many isBlank) true := by
  intro zs hzs
  by_cases hgap : ∀ z ∈ zs.head?, z.isGap = false
  · -- nothing is read
    obtain ⟨hsrc, hout⟩ := hzs.isBlank_head hgap
    have hzero : ∀ t : Text, (∀ c ∈ t.head?, isBlank c = false) → many isBlank t = some 0 := by
      intro t ht
      cases t with
      | nil => rfl
      | cons c t => simp [many, ht c rfl]
    exact .inr ⟨[], zs, rfl, hzs.to_true, hzero _ hsrc, hzero _ hout⟩
  · cases zs with
    | nil => simp at hgap
    | cons z zs =>
      cases z with
      | char c => simp [Cell.isGap] at hgap
      | mark => simp [Cell.isGap] at hgap
      | gap g g' =>
        obtain ⟨hg, hg', hnext, hrest⟩ := hzs
        obtain ⟨hsrc, hout⟩ := hrest.isBlank_head hnext
        have hrun : ∀ {g t : Text}, BlankRun g → (∀ c ∈ t.head?, isBlank c = false) →
            many isBlank (g ++ t) = some g.length := by
          intro g t hg ht
          have htake : t.takeWhile isBlank = [] := by
            cases t with
            | nil => rfl
            | cons c t => simp [ht c rfl]
          rw [many, takeWhile_append_of_pos hg.2, htake, append_nil]
        refine .inr ⟨[.gap g g'], zs, rfl, hrest, ?_, ?_⟩
        · simpa using hrun hg hsrc
        · simpa using hrun hg' hout

/-- Everything up to a character is read up to the same cell, and no backslash comes before that
character. -/
theorem respects_many_until (hblank : isBlank c = false) (hdigit : isAsciiDigit c = false)
    (hbackslash : c ≠ '\\') : Respects true (many fun d => some c != some d) false := by
  suffices key : ∀ (free : Bool) (zs : List Cell), Fit free zs →
      ∃ xs ys, zs = xs ++ ys ∧ Fit false ys ∧
        many (fun d => some c != some d) (src zs) = some (src xs).length ∧
        many (fun d => some c != some d) (out zs) = some (out xs).length from
    fun zs hzs => .inr (key true zs hzs)
  intro free zs hzs
  -- a cell that is not the character is read, and reading goes on
  have hcons : ∀ {g t : Text} {n : Nat}, (∀ d ∈ g, c ≠ d) →
      many (fun d => some c != some d) t = some n →
      many (fun d => some c != some d) (g ++ t) = some (g.length + n) := by
    intro g t n hg ht
    simp only [many, Option.some.injEq] at ht ⊢
    rw [takeWhile_append_of_pos (by simpa using hg), length_append, ht]
  have hgap : ∀ {g : Text}, BlankRun g → ∀ d ∈ g, c ≠ d := by
    rintro g hg d hd rfl
    simp [hg.2 c hd] at hblank
  induction zs generalizing free with
  | nil => exact ⟨[], [], rfl, trivial, rfl, rfl⟩
  | cons z zs ih =>
    cases z with
    | char d =>
      by_cases hcd : c = d
      · subst hcd
        refine ⟨[], _, rfl, ⟨hzs.1, by simpa [hdigit] using hzs.2⟩, ?_, ?_⟩
        · simp [many]
        · simp [many]
      · obtain ⟨xs, ys, rfl, hys, hsrc, hout⟩ := ih _ hzs.2
        refine ⟨.char d :: xs, ys, rfl, hys, ?_, ?_⟩
        · simpa [Nat.add_comm] using hcons (g := [d]) (by simpa using hcd) hsrc
        · simpa [Nat.add_comm] using hcons (g := [d]) (by simpa using hcd) hout
    | gap g g' =>
      obtain ⟨xs, ys, rfl, hys, hsrc, hout⟩ := ih _ hzs.2.2.2
      refine ⟨.gap g g' :: xs, ys, rfl, hys, ?_, ?_⟩
      · simpa using hcons (hgap hzs.1) hsrc
      · simpa using hcons (hgap hzs.2.1) hout
    | mark =>
      obtain ⟨xs, ys, rfl, hys, hsrc, hout⟩ := ih _ hzs.2.2
      refine ⟨.mark :: xs, ys, rfl, hys, hsrc, ?_⟩
      simpa [Nat.add_comm] using hcons (g := ['\\']) (by simpa using hbackslash) hout

/-- Visible characters are read up to the same cell where no backslash may come first. -/
theorem respects_many_of_visible (hp : ∀ c, isBlank c → p c = false) :
    Respects false (many p) false := by
  intro zs hzs
  refine .inr ?_
  induction zs with
  | nil => exact ⟨[], [], rfl, trivial, rfl, rfl⟩
  | cons z zs ih =>
    cases z with
    | char c =>
      cases hc : p c with
      | true =>
        obtain ⟨xs, ys, rfl, hys, hsrc, hout⟩ := ih hzs.2
        refine ⟨.char c :: xs, ys, rfl, hys, ?_, ?_⟩
        · simpa [many, hc] using hsrc
        · simpa [many, hc] using hout
      | false => exact ⟨[], _, rfl, hzs, by simp [many, hc], by simp [many, hc]⟩
    | gap g g' =>
      obtain ⟨d, g, rfl, hd⟩ := hzs.1.exists_cons
      obtain ⟨d', g', rfl, hd'⟩ := hzs.2.1.exists_cons
      exact ⟨[], _, rfl, hzs, by simp [many, hp d hd], by simp [many, hp d' hd']⟩
    | mark => exact absurd hzs.1 Bool.false_ne_true

theorem Fit.takeWhile_eq (hp : ∀ c, isBlank c → p c = false) (h : Fit false zs) :
    (src zs).takeWhile p = (out zs).takeWhile p := by
  induction zs with
  | nil => rfl
  | cons z zs ih =>
    cases z with
    | char c => rw [src_char, out_char, takeWhile_cons, takeWhile_cons, ih h.2]
    | gap g g' =>
      have hnone : ∀ {g t : Text}, BlankRun g → (g ++ t).takeWhile p = [] := by
        rintro g t hg
        obtain ⟨c, g, rfl, hc⟩ := hg.exists_cons
        simp [hp c hc]
      rw [src_gap, out_gap, hnone h.1, hnone h.2.1]
    | mark => exact absurd h.1 Bool.false_ne_true

theorem respects_one_of_visible (hp : ∀ c, isBlank c → p c = false) :
    Respects false (one p) false := by
  intro zs hzs
  cases zs with
  | nil => exact .inl ⟨rfl, rfl⟩
  | cons z zs =>
    cases z with
    | char c =>
      cases hc : p c with
      | true => exact .inr ⟨[.char c], zs, rfl, hzs.2, by simp [one, hc], by simp [one, hc]⟩
      | false => exact .inl ⟨by simp [one, hc], by simp [one, hc]⟩
    | gap g g' =>
      obtain ⟨d, g, rfl, hd⟩ := hzs.1.exists_cons
      obtain ⟨d', g', rfl, hd'⟩ := hzs.2.1.exists_cons
      exact .inl ⟨by simp [one, hp d hd], by simp [one, hp d' hd']⟩
    | mark => exact absurd hzs.1 Bool.false_ne_true

/-! ## Searching -/

theorem cut?_cons_of_head_ne {d : Char} {t : Text} (h : c ≠ d) :
    cut? (c :: s) (d :: t) = (cut? (c :: s) t).map fun (before, after) => (d :: before, after) := by
  rw [cut?]
  simp [isPrefixOf, h]

theorem cut?_blank_append (hc : isBlank c = false) {g : Text} (hg : ∀ d ∈ g, isBlank d)
    (s t : Text) :
    cut? (c :: s) (g ++ t) = (cut? (c :: s) t).map fun (before, after) => (g ++ before, after) := by
  induction g with
  | nil => simp
  | cons d g ih =>
    have hcd : c ≠ d := by
      rintro rfl
      simp [hg c (by simp)] at hc
    rw [cons_append, cut?_cons_of_head_ne hcd, ih fun e he => hg e (by simp [he]),
      Option.map_map]
    rfl

/-- A visible text that is searched for is found at the same cells, or nowhere. -/
theorem Fit.cut?_eq (hc : isBlank c = false) (hdigit : isAsciiDigit c = false)
    (hbackslash : c ≠ '\\') (hs : ∀ d ∈ s, isBlank d = false) (h : Fit free zs) :
    cut? (c :: s) (src zs) = none ∧ cut? (c :: s) (out zs) = none ∨
      ∃ xs ys, zs = xs ++ ((c :: s).map Cell.char ++ ys) ∧ Fit false ys ∧
        cut? (c :: s) (src zs) = some (src xs, src ys) ∧
        cut? (c :: s) (out zs) = some (out xs, out ys) := by
  induction zs generalizing free with
  | nil => exact .inl ⟨rfl, rfl⟩
  | cons z zs ih =>
    -- the cell is passed over: what is found after it is found
    have hskip : ∀ {free' : Bool}, Fit free' zs →
        (cut? (c :: s) (src (z :: zs))
          = (cut? (c :: s) (src zs)).map fun (before, after) => (z.src ++ before, after)) →
        (cut? (c :: s) (out (z :: zs))
          = (cut? (c :: s) (out zs)).map fun (before, after) => (z.out ++ before, after)) →
        cut? (c :: s) (src (z :: zs)) = none ∧ cut? (c :: s) (out (z :: zs)) = none ∨
          ∃ xs ys, z :: zs = xs ++ ((c :: s).map Cell.char ++ ys) ∧ Fit false ys ∧
            cut? (c :: s) (src (z :: zs)) = some (src xs, src ys) ∧
            cut? (c :: s) (out (z :: zs)) = some (out xs, out ys) := by
      intro free' hrest hsrc hout
      rcases ih hrest with ⟨hsrc', hout'⟩ | ⟨xs, ys, rfl, hys, hsrc', hout'⟩
      · exact .inl ⟨by rw [hsrc, hsrc']; rfl, by rw [hout, hout']; rfl⟩
      · refine .inr ⟨z :: xs, ys, rfl, hys, ?_, ?_⟩
        · rw [hsrc, hsrc']
          rfl
        · rw [hout, hout']
          rfl
    cases z with
    | char d =>
      by_cases hcd : c = d
      · subst hcd
        have hrest : Fit false zs := by simpa [hdigit] using h.2
        by_cases hpre : s <+: src zs ∨ s <+: out zs
        · obtain ⟨ys, rfl, hys⟩ := hrest.exists_of_isPrefix hs hpre
          refine .inr ⟨[], ys, rfl, hys, ?_, ?_⟩
          · simp [cut?, isPrefixOf_iff_prefix]
          · simp [cut?, isPrefixOf_iff_prefix]
        · rw [not_or] at hpre
          refine hskip hrest ?_ ?_
          · rw [src_char, cut?, if_neg (by simpa [List.isPrefixOf_iff_prefix] using hpre.1)]
            rfl
          · rw [out_char, cut?, if_neg (by simpa [List.isPrefixOf_iff_prefix] using hpre.2)]
            rfl
      · exact hskip h.2 (cut?_cons_of_head_ne hcd) (cut?_cons_of_head_ne hcd)
    | gap g g' =>
      exact hskip h.2.2.2 (cut?_blank_append hc h.1.2 s _) (cut?_blank_append hc h.2.1.2 s _)
    | mark =>
      refine hskip h.2.2 ?_ (cut?_cons_of_head_ne hbackslash)
      simp [Cell.src]

theorem respects_through (hc : isBlank c = false) (hdigit : isAsciiDigit c = false)
    (hbackslash : c ≠ '\\') (hs : ∀ d ∈ s, isBlank d = false) :
    Respects true (through (c :: s)) false := by
  intro zs hzs
  rcases hzs.cut?_eq hc hdigit hbackslash hs with ⟨hsrc, hout⟩ | ⟨xs, ys, rfl, hys, hsrc, hout⟩
  · exact .inl ⟨by rw [through, hsrc]; rfl, by rw [through, hout]; rfl⟩
  · refine .inr ⟨xs ++ (c :: s).map Cell.char, ys, by simp, hys, ?_, ?_⟩
    · rw [through, hsrc]
      simp
    · rw [through, hout]
      simp

/-! ## Constructs -/

section Constructs

open Construct

variable {c : Char} (k : TagKind)

theorem toNat_of_isAsciiLetter (h : isAsciiLetter c) : 65 ≤ c.toNat ∧ c.toNat ≤ 122 := by
  simp only [isAsciiLetter, Bool.or_eq_true, Bool.and_eq_true, decide_eq_true_eq, Char.le_def,
    UInt32.le_iff_toNat_le] at h
  rcases h with ⟨hlow, hhigh⟩ | ⟨hlow, hhigh⟩
  · have hlow : 97 ≤ c.toNat := hlow
    have hhigh : c.toNat ≤ 122 := hhigh
    omega
  · have hlow : 65 ≤ c.toNat := hlow
    have hhigh : c.toNat ≤ 90 := hhigh
    omega

theorem isAsciiLetter_of_isBlank (h : isBlank c) : isAsciiLetter c = false := by
  by_contra hletter
  obtain ⟨hlow, hhigh⟩ := toNat_of_isAsciiLetter (by simpa using hletter)
  have hblank : isBlank c = false := by
    simp only [isBlank, blankRanges, Ranges.contains]
    grind
  rw [h] at hblank
  exact absurd hblank (by simp)

theorem isAddressChar_of_isBlank (h : isBlank c) : isAddressChar c = false := by
  simp [isAddressChar, h]

theorem isMailboxChar_of_isBlank (h : isBlank c) : isMailboxChar c = false := by
  simp [isMailboxChar, isAddressChar_of_isBlank h]

theorem isSchemeChar_of_isBlank (h : isBlank c) : isSchemeChar c = false := by
  have hdigit : isAsciiDigit c = false := by
    by_contra hd
    have := Wrap.isBlank_of_isAsciiDigit (by simpa using hd : isAsciiDigit c)
    rw [h] at this
    exact absurd this (by simp)
  have hrest : ∀ d, isBlank d = false → c ≠ d := by
    rintro d hd rfl
    rw [h] at hd
    exact absurd hd (by simp)
  simp only [isSchemeChar, isAsciiLetter_of_isBlank h, Bool.false_or]
  have : ('0' ≤ c && c ≤ '9') = false := hdigit
  simp [this, hrest '+' (by decide), hrest '.' (by decide), hrest '-' (by decide)]

/-- A text that ends in front of a character that is never marked is not empty for one and not for
the other. -/
theorem Fit.ne_nil {free : Bool} (hc : c ∉ markable) {xs ys : List Cell}
    (h : Fit free (xs ++ .char c :: ys)) (hne : xs ≠ []) : src xs ≠ [] ∧ out xs ≠ [] := by
  cases xs with
  | nil => exact absurd rfl hne
  | cons x xs =>
    cases x with
    | char d => simp
    | gap g g' => simp [h.1.1, h.2.1.1]
    | mark =>
      obtain ⟨_, ⟨d, rest, hrest, hd⟩, _⟩ := h
      cases xs with
      | nil =>
        obtain ⟨hcd, _⟩ := cons.inj hrest
        obtain rfl : c = d := Cell.char.inj hcd
        exact absurd hd hc
      | cons x xs =>
        obtain ⟨rfl, _⟩ := cons.inj hrest
        simp

theorem codeSpanOf_lockstep {k : Nat} (hk : 0 < k) {zs : List Cell} (h : Fit false zs)
    (hticks : repeated k '`' <+: src zs) : Lockstep (codeSpanOf k) false zs := by
  obtain ⟨k, rfl⟩ : ∃ m, k = m + 1 := ⟨k - 1, by omega⟩
  have hvisible : ∀ c ∈ repeated (k + 1) '`', isBlank c = false := by
    intro c hc
    rw [eq_of_mem_replicate hc]
    decide
  have hcons : repeated (k + 1) '`' = '`' :: repeated k '`' := replicate_succ
  obtain ⟨ws, rfl, hws⟩ := h.exists_of_isPrefix hvisible (.inl hticks)
  have hlen : (repeated (k + 1) '`').length = k + 1 := length_replicate
  have hdrop : (src ((repeated (k + 1) '`').map Cell.char ++ ws)).drop (k + 1) = src ws := by
    rw [src_append, src_map_char, drop_left' hlen]
  have hdrop' : (out ((repeated (k + 1) '`').map Cell.char ++ ws)).drop (k + 1) = out ws := by
    rw [out_append, out_map_char, drop_left' hlen]
  unfold Lockstep codeSpanOf
  rw [hdrop, hdrop', hcons]
  rcases hws.cut?_eq (c := '`') (s := repeated k '`') (by decide) (by decide) (by decide)
      (fun c hc => hvisible c (hcons ▸ mem_cons_of_mem _ hc))
    with ⟨hsrc, hout⟩ | ⟨xs, ys, rfl, hys, hsrc, hout⟩
  · rw [hsrc, hout]
    exact .inl ⟨rfl, rfl⟩
  · rw [hsrc, hout]
    -- ticks right after ticks make no span
    by_cases hxs : xs = []
    · subst hxs
      exact .inl ⟨rfl, rfl⟩
    · obtain ⟨hne, hne'⟩ := Fit.ne_nil (c := '`') (by decide) (by simpa using hws) hxs
      have hlen' : (repeated k '`').length = k := length_replicate
      refine .inr ⟨('`' :: repeated k '`').map Cell.char ++ xs ++ ('`' :: repeated k '`').map Cell.char,
        ys, by simp, hys, ?_, ?_⟩
      · simp only [src_append, src_map_char, length_append, length_cons, hlen']
        exact if_neg (by simpa using hne)
      · simp only [out_append, out_map_char, length_append, length_cons, hlen']
        exact if_neg (by simpa using hne')

theorem repeated_isPrefix {t : Text} {m : Nat} (hm : m ≤ (t.takeWhile (· == c)).length) :
    repeated m c <+: t := by
  refine IsPrefix.trans ?_ (List.takeWhile_prefix (· == c))
  rw [takeWhile_eq_repeated]
  refine ⟨repeated ((t.takeWhile (· == c)).length - m) c, ?_⟩
  rw [repeated, repeated, repeated, replicate_append_replicate, Nat.add_sub_cancel' hm]

theorem codeSpanUpTo_lockstep {zs : List Cell} (h : Fit false zs) {m : Nat}
    (hm : m ≤ ((src zs).takeWhile (· == '`')).length) : Lockstep (codeSpanUpTo m) false zs := by
  induction m with
  | zero => exact .inl ⟨rfl, rfl⟩
  | succ m ih =>
    simp only [Lockstep, codeSpanUpTo]
    -- if this number of ticks is never closed, it is not closed in the result either, and the next
    -- smaller number is tried in both
    rcases codeSpanOf_lockstep (Nat.succ_pos m) h (repeated_isPrefix hm) with
      ⟨hsrc, hout⟩ | ⟨xs, ys, hsplit, hys, hsrc, hout⟩
    · rw [hsrc, hout]
      exact ih (by omega)
    · rw [hsrc, hout]
      exact .inr ⟨xs, ys, hsplit, hys, rfl, rfl⟩

theorem codeSpanLength_eq_none {t : Text} (ht : t.head? ≠ some '`') : codeSpanLength t = none := by
  cases h : codeSpanLength t with
  | none => rfl
  | some n =>
    obtain ⟨c, u, rfl, hc⟩ := startsIn_codeSpanLength t n h
    obtain rfl : c = '`' := by simpa using hc
    exact absurd rfl ht

theorem respects_codeSpanLength : Respects true codeSpanLength false := by
  intro zs hzs
  rcases hzs.steady_cases (c := '`') (by decide) with ⟨hfit, _⟩ | ⟨hsrc, hout⟩
  · unfold Lockstep codeSpanLength
    rw [← hfit.takeWhile_eq fun c hc => by
      simpa using fun h : c = '`' => absurd (h ▸ hc) (by decide)]
    exact codeSpanUpTo_lockstep hfit (Nat.le_refl _)
  · exact .inl ⟨codeSpanLength_eq_none hsrc, codeSpanLength_eq_none hout⟩

theorem respects_bracketed : Respects true bracketed false :=
  .sequence_cons (respects_exactly (by decide) (by simp))
    (.sequence_cons (respects_through (by decide) (by decide) (by decide) (by simp)).of_true
      .sequence_nil)

theorem respects_parenthesised : Respects true parenthesised false :=
  .sequence_cons (respects_exactly (by decide) (by simp))
    (.sequence_cons (respects_through (by decide) (by decide) (by decide) (by simp)).of_true
      .sequence_nil)

theorem respects_linkLength : Respects true linkLength true :=
  respects_bracketed.andThen (respects_parenthesised.orElse respects_bracketed).optional

theorem respects_opening : Respects true (exactly k.opening) false := by
  cases k
  all_goals exact respects_exactly (by decide) (isBlank_of_all (by decide))

theorem respects_through_closing : Respects true (through k.closing) false := by
  cases k
  all_goals exact respects_through (by decide) (by decide) (by decide) (isBlank_of_all (by decide))

theorem respects_tagLength : Respects true (tagLength k) false :=
  .sequence_cons (respects_opening k)
    (.sequence_cons (respects_through_closing k).of_true .sequence_nil)

theorem respects_slash : Respects true slash false :=
  .sequence_cons respects_many_blank
    (.sequence_cons (respects_exactly (by decide) (by simp)) .sequence_nil)

theorem respects_pairBody : Respects true (pairBody k) false := by
  have hseq : ∀ {c d : Char}, isBlank c = false → isAsciiDigit c = false → c ≠ '\\' →
      isBlank d = false →
      Respects true (sequence [many fun e => some c != some e, exactly [c, d]]) false := by
    intro c d hc hdigit hbackslash hd
    refine .sequence_cons (respects_many_until hc hdigit hbackslash)
      (.sequence_cons (respects_exactly_of_visible ?_) .sequence_nil)
    simp [hc, hd]
  cases k with
  | statement | comment | expression => exact hseq (by decide) (by decide) (by decide) (by decide)
  | htmlComment =>
    intro zs hzs
    rcases hzs.cut?_eq (c := '-') (s := ['-']) (by decide) (by decide) (by decide)
      (isBlank_of_all (by decide)) with ⟨hsrc, hout⟩ | ⟨xs, ys, rfl, hys, hsrc, hout⟩
    · exact .inl ⟨by simp only [pairBody, hsrc], by simp only [pairBody, hout]⟩
    · by_cases hclose : ['>'] <+: src ys ∨ ['>'] <+: out ys
      · obtain ⟨ys, rfl, hys'⟩ := hys.exists_of_isPrefix (isBlank_of_all (by decide)) hclose
        refine .inr ⟨xs ++ ['-', '-', '>'].map Cell.char, ys, by simp, hys', ?_, ?_⟩
        · simp only [pairBody, hsrc]
          simp [startsWith]
        · simp only [pairBody, hout]
          simp [startsWith]
      · rw [not_or] at hclose
        refine .inl ⟨?_, ?_⟩
        · simp only [pairBody, hsrc]
          exact if_neg (by simpa [startsWith, isPrefixOf_iff_prefix] using hclose.1)
        · simp only [pairBody, hout]
          exact if_neg (by simpa [startsWith, isPrefixOf_iff_prefix] using hclose.2)

theorem respects_tagPairLength : Respects true (tagPairLength k) false :=
  .sequence_cons (respects_opening k) (.sequence_cons respects_slash.absent.of_true
    (.sequence_cons (respects_pairBody k) (.sequence_cons respects_many_blank
      (.sequence_cons (respects_opening k) (.sequence_cons respects_slash.of_true
        (.sequence_cons (respects_pairBody k).of_true .sequence_nil))))))

theorem respects_htmlTag {s : Text} (hs : ∀ c ∈ s, isBlank c = false) :
    Respects true (sequence [exactly ('<' :: s), one isAsciiLetter, through ['>']]) false :=
  .sequence_cons (respects_exactly (by decide) hs)
    (.sequence_cons (respects_one_of_visible fun _ => isAsciiLetter_of_isBlank)
      (.sequence_cons (respects_through (by decide) (by decide) (by decide) (by simp)).of_true
        .sequence_nil))

theorem respects_autolink : Respects true (Recogniser.orElse schemeAutolink mailAutolink) false := by
  have hclose : Respects false (sequence [many isAddressChar, exactly ['>']]) false :=
    .sequence_cons (respects_many_of_visible fun _ => isAddressChar_of_isBlank)
      (.sequence_cons (respects_exactly_of_visible (isBlank_of_all (by decide))) .sequence_nil)
  have hopen : Respects true (exactly ['<']) false := respects_exactly (by decide) (by simp)
  refine .orElse ?_ ?_
  · exact .sequence_cons hopen
      (.sequence_cons (respects_one_of_visible fun _ => isAsciiLetter_of_isBlank)
        (.sequence_cons (respects_many_of_visible fun _ => isSchemeChar_of_isBlank)
          (.sequence_cons (respects_exactly_of_visible (isBlank_of_all (by decide))) hclose)))
  · exact .sequence_cons hopen
      (.sequence_cons (respects_one_of_visible fun _ => isMailboxChar_of_isBlank)
        (.sequence_cons (respects_many_of_visible fun _ => isMailboxChar_of_isBlank)
          (.sequence_cons (respects_exactly_of_visible (isBlank_of_all (by decide)))
            (.sequence_cons (respects_one_of_visible fun _ => isAddressChar_of_isBlank) hclose))))

theorem respects_urlStart : Respects true urlStart false :=
  .orElse (respects_exactly (by decide) (isBlank_of_all (by decide)))
    (.orElse (respects_exactly (by decide) (isBlank_of_all (by decide)))
      (respects_exactly (by decide) (isBlank_of_all (by decide))))

theorem respects_urlRest : Respects false urlRest false := by
  intro zs hzs
  have htake := hzs.takeWhile_eq fun _ => isAddressChar_of_isBlank
  generalize hkept : dropEndWhile isUrlTrailing ((src zs).takeWhile isAddressChar) = kept
  have hkept' : dropEndWhile isUrlTrailing ((out zs).takeWhile isAddressChar) = kept := by
    rw [← htake, hkept]
  by_cases hne : kept = []
  · refine .inl ⟨?_, ?_⟩
    · rw [urlRest, hkept, hne]
    · rw [urlRest, hkept', hne]
  · obtain ⟨g, _, hsplit⟩ := exists_dropEndWhile isUrlTrailing ((src zs).takeWhile isAddressChar)
    rw [hkept] at hsplit
    have hvisible : ∀ c ∈ kept, isBlank c = false := by
      intro c hc
      have haddress : isAddressChar c :=
        mem_takeWhile_imp (hsplit ▸ mem_append_left g hc)
      by_contra hblank
      rw [isAddressChar_of_isBlank (by simpa using hblank)] at haddress
      exact absurd haddress (by simp)
    have hpre : kept <+: src zs := by
      refine IsPrefix.trans ⟨g, hsplit.symm⟩ (List.takeWhile_prefix _)
    obtain ⟨ys, hys, hfit⟩ := hzs.exists_of_isPrefix hvisible (.inl hpre)
    have hpos : 0 < kept.length := length_pos_iff.2 hne
    refine .inr ⟨kept.map Cell.char, ys, hys, hfit, ?_, ?_⟩
    · exact urlRest_eq_some.2 ⟨by simp [hkept], by simpa using hpos⟩
    · exact urlRest_eq_some.2 ⟨by simp [hkept'], by simpa using hpos⟩

/-- **All constructs are read in lockstep.** -/
theorem respects_recogniser (k : Construct) : Respects true k.recogniser true := by
  cases k with
  | codeSpan => exact respects_codeSpanLength.to_true
  | link => exact respects_linkLength
  | autolink => exact respects_autolink.to_true
  | bareUrl => exact (respects_urlStart.andThen respects_urlRest).to_true
  | tag k => exact (respects_tagLength k).to_true
  | tagPair k => exact (respects_tagPairLength k).to_true
  | htmlOpen => exact (respects_htmlTag (by simp)).to_true
  | htmlClose => exact (respects_htmlTag (isBlank_of_all (by decide))).to_true

end Constructs

end Reflow.Relaid
