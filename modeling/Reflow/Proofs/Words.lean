import Reflow.Atomic.Word
import Reflow.Proofs.Constructs

/-!
Words as a tiling of the text.

`Tiles start ms ws` says that the words `ws` stand in the marks `ms`, the first mark having the
offset `start`, with gaps and nothing else before, between and after them. `solidRuns` finds exactly
such a row, for every list of marks. Joined by spaces, its words keep the visible text and every
separation of it (`Tiles.keeps`). Cutting at every blank is the case in which no character is glued.
-/

open List

namespace Reflow.Text

/-! ## Words between blanks -/

theorem words_cons_of_blank {c : Char} (hc : isBlank c) (t : Text) : words (c :: t) = words t := by
  rw [words.eq_def]
  simp [hc]

theorem words_append_of_visible {w t : Text} (hne : w ≠ []) (hw : ∀ c ∈ w, isBlank c = false)
    (ht : ∀ c ∈ t.head?, isBlank c) : words (w ++ t) = w :: words t := by
  induction w with
  | nil => exact absurd rfl hne
  | cons c w ih =>
    have hc := hw c (by simp)
    cases w with
    | nil =>
      cases t with
      | nil => simp [words, hc]
      | cons d t => rw [singleton_append, words]; simp [hc, ht d (by simp)]
    | cons d w =>
      have hd := hw d (by simp)
      have hrest := ih (by simp) fun e he => hw e (by simp [he])
      rw [cons_append, cons_append, words]
      simp only [hc, hd, Bool.false_eq_true, if_false]
      rw [← cons_append, hrest]

theorem words_of_strewn {t : Text} {ws : List Text} (h : Strewn t ws)
    (hws : ∀ w ∈ ws, w ≠ [] ∧ ∀ c ∈ w, isBlank c = false) : words t = ws := by
  have hblanks : ∀ {g : Text}, (∀ c ∈ g, isBlank c) → ∀ u, words (g ++ u) = words u := by
    intro g hg u
    induction g with
    | nil => rfl
    | cons c g ih =>
      rw [cons_append, words_cons_of_blank (hg c (by simp)), ih fun d hd => hg d (by simp [hd])]
  induction h with
  | @nil g hg => simpa [words] using hblanks hg []
  | @cons g w rest ws hg hrest _ ih =>
    obtain ⟨hne, hvisible⟩ := hws w (by simp)
    rw [append_assoc, hblanks hg, words_append_of_visible hne hvisible hrest,
      ih fun v hv => hws v (by simp [hv])]

end Reflow.Text

namespace Reflow.Atomic

open Text

/-! ## Runs -/

variable {m : Mark} {constructs : List Construct} {t : Text} {k : Construct} {n : Nat}

theorem solidRuns_gap (hm : isGap m) (start : Nat) (ms : List Mark) :
    solidRuns start (m :: ms) = solidRuns (start + 1) ms := by
  conv_lhs => rw [solidRuns.eq_def]
  simp [hm]

theorem solidRuns_singleton (hm : isGap m = false) (start : Nat) :
    solidRuns start [m] = [⟨[m.1], start⟩] := by
  simp [solidRuns, hm]

theorem solidRuns_before_gap {next : Mark} (hm : isGap m = false) (hnext : isGap next)
    (start : Nat) (ms : List Mark) :
    solidRuns start (m :: next :: ms) = ⟨[m.1], start⟩ :: solidRuns (start + 1) (next :: ms) := by
  conv_lhs => rw [solidRuns.eq_def]
  cases hws : solidRuns (start + 1) (next :: ms) <;> simp [hm, hnext, hws]

theorem solidRuns_before_solid {next : Mark} (hm : isGap m = false) (hnext : isGap next = false)
    (start : Nat) (ms : List Mark) :
    ∃ w ws, solidRuns (start + 1) (next :: ms) = w :: ws ∧
      solidRuns start (m :: next :: ms) = ⟨m.1 :: w.text, start⟩ :: ws := by
  have hne : solidRuns (start + 1) (next :: ms) ≠ [] := by
    rw [solidRuns.eq_def]
    simp only [hnext, Bool.false_eq_true, if_false]
    split
    · split <;> simp
    · simp
  obtain ⟨w, ws, hws⟩ := exists_cons_of_ne_nil hne
  refine ⟨w, ws, hws, ?_⟩
  rw [solidRuns.eq_def]
  simp [hm, hnext, hws]

/-- **A gap cuts the work in two.** -/
theorem solidRuns_append_gap (hm : isGap m) (start : Nat) (x y : List Mark) :
    solidRuns start (x ++ m :: y) = solidRuns start x ++ solidRuns (start + x.length + 1) y := by
  induction x generalizing start with
  | nil => simp [solidRuns_gap hm, solidRuns]
  | cons a x ih =>
    have ih := ih (start + 1)
    have hlen : start + 1 + x.length + 1 = start + (a :: x).length + 1 := by
      simp only [length_cons]; omega
    rw [hlen] at ih
    by_cases ha : isGap a
    · rw [cons_append, solidRuns_gap ha, solidRuns_gap ha, ih]
    · have ha : isGap a = false := by simpa using ha
      cases x with
      | nil =>
        rw [cons_append, nil_append, solidRuns_before_gap ha hm, solidRuns_singleton ha,
          solidRuns_gap hm]
        rfl
      | cons b x =>
        by_cases hb : isGap b
        · rw [cons_append, cons_append, solidRuns_before_gap ha hb,
            solidRuns_before_gap ha hb, ← cons_append, ih, cons_append]
        · have hb : isGap b = false := by simpa using hb
          obtain ⟨w, ws, hws, heq⟩ := solidRuns_before_solid ha hb start (x ++ m :: y)
          obtain ⟨w', ws', hws', heq'⟩ := solidRuns_before_solid ha hb start x
          rw [cons_append, hws', hws, cons_append] at ih
          obtain ⟨rfl, rfl⟩ := cons.inj ih
          rw [cons_append, cons_append, heq, heq', cons_append]

/-! ## Gaps and words in turn -/

/-- The words stand in the marks with gaps before, between and after them. -/
inductive Tiles : Nat → List Mark → List Word → Prop
  | nil {start : Nat} {gs : List Mark} : (∀ m ∈ gs, isGap m = true) → Tiles start gs []
  | cons {start : Nat} {g w rest : List Mark} {ws : List Word} :
      (∀ m ∈ g, isGap m = true) → w ≠ [] → (∀ m ∈ w, isGap m = false) →
      (∀ m ∈ rest.head?, isGap m = true) → Tiles (start + g.length + w.length) rest ws →
      Tiles start (g ++ w ++ rest) (⟨w.map Prod.fst, start + g.length⟩ :: ws)

namespace Tiles

variable {start : Nat} {ms : List Mark} {ws : List Word}

theorem cons_gap {m : Mark} (hm : isGap m) (h : Tiles (start + 1) ms ws) :
    Tiles start (m :: ms) ws := by
  cases h with
  | nil hg => exact .nil (by simpa [hm] using hg)
  | @cons _ g w rest ws hg hne hw hrest htiles =>
    have hlen : start + 1 + g.length = start + (m :: g).length := by
      simp only [length_cons]; omega
    rw [hlen] at htiles ⊢
    exact .cons (g := m :: g) (by simpa [hm] using hg) hne hw hrest htiles

theorem cons_before_gap {m : Mark} (hm : isGap m = false) (hms : ∀ n ∈ ms.head?, isGap n)
    (h : Tiles (start + 1) ms ws) : Tiles start (m :: ms) (⟨[m.1], start⟩ :: ws) :=
  .cons (g := []) (w := [m]) (by simp) (by simp) (by simp [hm]) hms h

theorem cons_before_solid {m next : Mark} {w : Word} (hm : isGap m = false)
    (hnext : isGap next = false) (h : Tiles (start + 1) (next :: ms) (w :: ws)) :
    Tiles start (m :: next :: ms) (⟨m.1 :: w.text, start⟩ :: ws) := by
  generalize hns : next :: ms = ns at h
  cases h with
  | @cons _ g v rest ws hg hne hv hrest htiles =>
    -- the next character is no gap, so there are no gaps before the word
    have hnil : g = [] := by
      cases g with
      | nil => rfl
      | cons x g =>
        obtain rfl : next = x := by simpa using congrArg head? hns
        exact absurd (hg next (by simp)) (by simp [hnext])
    subst hnil
    have hlen : start + 1 + ([] : List Mark).length + v.length
        = start + ([] : List Mark).length + (m :: v).length := by
      simp only [length_cons, length_nil]; omega
    rw [hlen] at htiles
    exact .cons (g := []) (w := m :: v) (by simp) (by simp) (by simpa [hm] using hv) hrest htiles

end Tiles

/-- **Runs tile.** Every list of marks is tiled by its runs of characters that are no gaps. -/
theorem tiles_solidRuns (start : Nat) (ms : List Mark) : Tiles start ms (solidRuns start ms) := by
  induction ms generalizing start with
  | nil => exact .nil (by simp)
  | cons m ms ih =>
    have ih := ih (start + 1)
    by_cases hm : isGap m
    · rw [solidRuns_gap hm]
      exact ih.cons_gap hm
    · have hm : isGap m = false := by simpa using hm
      cases ms with
      | nil =>
        rw [solidRuns_singleton hm]
        exact Tiles.cons_before_gap hm (by simp) (.nil (by simp))
      | cons next ms =>
        by_cases hnext : isGap next
        · rw [solidRuns_before_gap hm hnext]
          exact ih.cons_before_gap hm (by simp [hnext])
        · have hnext : isGap next = false := by simpa using hnext
          obtain ⟨w, ws, hws, heq⟩ := solidRuns_before_solid hm hnext start ms
          rw [hws] at ih
          rw [heq]
          exact ih.cons_before_solid hm hnext

theorem tiles_words (constructs : List Construct) (t : Text) :
    Tiles 0 (marks constructs t) (words constructs t) := tiles_solidRuns 0 _

namespace Tiles

variable {start : Nat} {ms : List Mark} {ws : List Word}

theorem isBlank_of_isGap {g : List Mark} (hg : ∀ m ∈ g, isGap m) :
    ∀ c ∈ g.map Prod.fst, isBlank c := by
  intro c hc
  obtain ⟨m, hm, rfl⟩ := mem_map.1 hc
  have := hg m hm
  simp only [isGap, Bool.and_eq_true] at this
  exact this.1

theorem isBlank_of_head?_isGap {g : List Mark} (hg : ∀ m ∈ g.head?, isGap m) :
    ∀ c ∈ (g.map Prod.fst).head?, isBlank c := by
  intro c hc
  rw [head?_map] at hc
  obtain ⟨m, hm, rfl⟩ := Option.map_eq_some_iff.1 hc
  exact isBlank_of_isGap (g := [m]) (by simpa using hg m hm) m.1 (by simp)

theorem strewn (h : Tiles start ms ws) : Strewn (ms.map Prod.fst) (ws.map Word.text) := by
  induction h with
  | nil hg => exact .nil (isBlank_of_isGap hg)
  | @cons start g w rest ws hg _ _ hrest _ ih =>
    rw [map_append, map_append]
    exact .cons (isBlank_of_isGap hg) (isBlank_of_head?_isGap hrest) ih

/-- **Words keep separations.** Joined by single spaces, the words have the visible text of the
marks, and they are separated wherever it was. -/
theorem keeps (h : Tiles start ms ws) :
    Respaced KeepsGap (ms.map Prod.fst) (unwords (ws.map Word.text)) := h.strewn.keeps

/-- A word stands in the marks with a gap or nothing on either side. -/
theorem exists_split (h : Tiles start ms ws) {w : Word} (hw : w ∈ ws) :
    ∃ front v back, ms = front ++ v ++ back ∧ w = ⟨v.map Prod.fst, start + front.length⟩ ∧ v ≠ [] ∧
      (∀ m ∈ v, isGap m = false) ∧ (∀ m ∈ front.getLast?, isGap m) ∧ ∀ m ∈ back.head?, isGap m := by
  induction h with
  | nil _ => simp at hw
  | @cons start g v rest ws hg hne hv hrest _ ih =>
    rcases mem_cons.1 hw with rfl | hw
    · exact ⟨g, v, rest, rfl, rfl, hne, hv, fun m hm => hg m (mem_of_getLast? hm), hrest⟩
    · obtain ⟨front, u, back, rfl, rfl, hu, hsolid, hfront, hback⟩ := ih hw
      have hfront' : front ≠ [] := by
        -- what follows the first word begins with a gap
        rintro rfl
        obtain ⟨m, u, rfl⟩ := exists_cons_of_ne_nil hu
        simpa [hsolid m (by simp)] using hrest m (by simp)
      refine ⟨g ++ v ++ front, u, back, by simp, by simp [Nat.add_assoc], hu, hsolid, ?_, hback⟩
      rwa [getLast?_append_of_ne_nil _ hfront']

theorem subset (h : Tiles start ms ws) : ∀ w ∈ ws, ∀ c ∈ w.text, c ∈ ms.map Prod.fst := by
  intro w hw c hc
  obtain ⟨front, v, back, rfl, rfl, -⟩ := h.exists_split hw
  rw [map_append, map_append]
  exact mem_append_left _ (mem_append_right _ hc)

/-- **Where words meet.** Between two words there is a mark that is a gap, after the visible
characters of the words before it. -/
theorem gap_between {vs us : List Word} (h : Tiles start ms (vs ++ us)) (hvs : vs ≠ [])
    (hus : us ≠ []) :
    ∃ x m y, ms = x ++ m :: y ∧ isGap m ∧
      visible (x.map Prod.fst) = (vs.map Word.text).flatMap visible := by
  induction vs generalizing start ms with
  | nil => exact absurd rfl hvs
  | cons v vs ih =>
    generalize hall : v :: vs ++ us = all at h
    cases h with
    | nil _ => simp at hall
    | @cons _ g w rest ws hg hne hw hrest htiles =>
      obtain ⟨rfl, rfl⟩ : v = ⟨w.map Prod.fst, start + g.length⟩ ∧ vs ++ us = ws := by
        simpa using hall
      by_cases hvs' : vs = []
      · subst hvs'
        -- the words that follow are in `rest`, which begins with a gap
        cases rest with
        | nil =>
          generalize hnil : ([] : List Mark) = e at htiles
          cases htiles with
          | nil _ => exact absurd rfl hus
          | cons _ hne' _ _ _ => simp [hne'] at hnil
        | cons m y =>
          refine ⟨g ++ w, m, y, by simp, hrest m (by simp), ?_⟩
          simp [visible_eq_nil (isBlank_of_isGap hg)]
      · obtain ⟨x, m, y, hms, hm, hx⟩ := ih htiles hvs'
        refine ⟨g ++ w ++ x, m, y, by simp [hms], hm, ?_⟩
        simp [visible_eq_nil (isBlank_of_isGap hg), hx]

end Tiles

/-! ## Glued blanks -/

/-- A glued blank has a character that is no gap on either side. -/
def Framed (ms : List Mark) : Prop :=
  ∀ x m y, ms = x ++ m :: y → isBlank m.1 = true → m.2 = true →
    (∃ p ∈ x.getLast?, isGap p = false) ∧ ∃ q ∈ y.head?, isGap q = false

theorem Framed.append {a b : List Mark} (ha : Framed a) (hb : Framed b) : Framed (a ++ b) := by
  intro x m y h hblank hglued
  rcases append_eq_append_iff.1 h with ⟨x', rfl, hb'⟩ | ⟨y', ha', hy⟩
  · obtain ⟨⟨p, hp, hpgap⟩, hq⟩ := hb x' m y hb' hblank hglued
    refine ⟨⟨p, ?_, hpgap⟩, hq⟩
    simp only [Option.mem_def] at hp ⊢
    simp [hp]
  · cases y' with
    | nil =>
      -- the blank is the first mark of `b`, and nothing stands before it there
      obtain ⟨⟨p, hp, _⟩, _⟩ := hb [] m y (by simpa using hy.symm) hblank hglued
      simp at hp
    | cons m' y' =>
      obtain ⟨rfl, rfl⟩ : m = m' ∧ y = y' ++ b := by simpa using hy
      obtain ⟨hp, q, hq, hqgap⟩ := ha x m y' ha' hblank hglued
      refine ⟨hp, q, ?_, hqgap⟩
      simp only [Option.mem_def] at hq ⊢
      simp [hq]

/-- **Words are solid.** Where glued blanks are framed, every word begins and ends with a visible
character. -/
theorem Tiles.solid {start : Nat} {ms : List Mark} {ws : List Word} (h : Tiles start ms ws)
    (hf : Framed ms) : ∀ w ∈ ws, Solid w.text := by
  intro w hw
  obtain ⟨front, v, back, rfl, rfl, hne, hv, hfront, hback⟩ := h.exists_split hw
  -- a blank at either edge would be glued, and framed by a gap
  constructor
  · obtain ⟨m, v, rfl⟩ := exists_cons_of_ne_nil hne
    by_contra hblank
    have hblank : isBlank m.1 := by simpa using hblank
    have hglued : m.2 := by simpa [isGap, hblank] using hv m (by simp)
    obtain ⟨⟨p, hp, hpgap⟩, _⟩ := hf front m (v ++ back) (by simp) hblank hglued
    rw [hfront p hp] at hpgap
    simp at hpgap
  · rcases eq_nil_or_concat' v with rfl | ⟨v, m, rfl⟩
    · exact absurd rfl hne
    by_contra hblank
    have hblank : isBlank m.1 := by simpa using hblank
    have hglued : m.2 := by simpa [isGap, hblank] using hv m (by simp)
    obtain ⟨_, q, hq, hqgap⟩ := hf (front ++ v) m back (by simp) hblank hglued
    rw [hback q hq] at hqgap
    simp at hqgap

/-! ## Marks of a text -/

theorem recognise?_eq_some (h : recognise? constructs t = some (k, n)) :
    k ∈ constructs ∧ k.recogniser t = some n := by
  obtain ⟨k', hk', hmap⟩ := exists_of_findSome?_eq_some h
  obtain ⟨n', hn', heq⟩ := Option.map_eq_some_iff.1 hmap
  obtain ⟨rfl, rfl⟩ : k' = k ∧ n' = n := by simpa using heq
  exact ⟨hk', hn'⟩

theorem solid_take_of_recogniser (h : k.recogniser t = some n) :
    0 < n ∧ n ≤ t.length ∧ Solid (t.take n) := by
  obtain ⟨c, u, hc, hcv⟩ := k.startsVisible_recogniser h
  obtain ⟨a, d, b, hd, hdv, rfl⟩ := k.lasting_recogniser.endsVisible t n h
  refine ⟨by omega, by rw [hd]; simp, ⟨c, u.take a.length, by rw [hc]; rfl, hcv⟩, ⟨a, d, ?_, hdv⟩⟩
  rw [hd, take_append, take_of_length_le (Nat.le_succ _)]
  simp

theorem flatMap_marks_consPlain (c : Char) (ps : List Piece) :
    (consPlain c ps).flatMap Piece.marks = (c, false) :: ps.flatMap Piece.marks := by
  unfold consPlain
  split <;> simp [Piece.marks]

@[simp] theorem marks_nil (constructs : List Construct) : marks constructs [] = [] := by
  simp [marks, pieces]

theorem marks_of_none {c : Char} (h : recognise? constructs (c :: t) = none) :
    marks constructs (c :: t) = (c, false) :: marks constructs t := by
  rw [marks, pieces, h]
  exact flatMap_marks_consPlain c _

theorem pieces_of_some (h : recognise? constructs t = some (k, n)) :
    pieces constructs t = ⟨t.take n, some k⟩ :: pieces constructs (t.drop n) := by
  obtain ⟨hpos, hle, _⟩ := solid_take_of_recogniser (recognise?_eq_some h).2
  obtain ⟨m, rfl⟩ : ∃ m, n = m + 1 := ⟨n - 1, by omega⟩
  cases t with
  | nil => simp at hle
  | cons c t =>
    rw [pieces, h]
    rfl

theorem marks_of_some (h : recognise? constructs t = some (k, n)) :
    marks constructs t = (t.take n).map (fun c => (c, true)) ++ marks constructs (t.drop n) := by
  rw [marks, pieces_of_some h]
  simp [marks, Piece.marks]

/-- Marks are a text and what is glued in it: they are built up a character or a construct at a
time. -/
theorem marks_induction (constructs : List Construct) {motive : Text → Prop} (nil : motive [])
    (plain : ∀ c t, recognise? constructs (c :: t) = none → motive t → motive (c :: t))
    (atomic : ∀ t k n, recognise? constructs t = some (k, n) → motive (t.drop n) → motive t)
    (t : Text) : motive t := by
  generalize hlen : t.length = len
  induction len using Nat.strong_induction_on generalizing t with
  | _ len ih =>
    subst hlen
    cases h : recognise? constructs t with
    | none =>
      cases t with
      | nil => exact nil
      | cons c t => exact plain c t h (ih t.length (by simp) t rfl)
    | some p =>
      obtain ⟨k, n⟩ := p
      obtain ⟨hpos, hle, _⟩ := solid_take_of_recogniser (recognise?_eq_some h).2
      refine atomic t k n h (ih _ ?_ _ rfl)
      rw [length_drop]
      omega

theorem map_fst_marks (constructs : List Construct) (t : Text) :
    (marks constructs t).map Prod.fst = t := by
  induction t using marks_induction constructs with
  | nil => simp
  | plain c t h ih => rw [marks_of_none h, map_cons, ih]
  | atomic t k n h ih =>
    rw [marks_of_some h, map_append, ih, map_map]
    exact (congrArg (· ++ t.drop n) (map_id _)).trans (take_append_drop n t)

/-- Constructs begin and end with visible characters, so the blanks glued by them are framed. -/
theorem framed_marks (constructs : List Construct) (t : Text) : Framed (marks constructs t) := by
  induction t using marks_induction constructs with
  | nil => intro x m y h; simp at h
  | plain c t h ih =>
    rw [marks_of_none h, ← singleton_append]
    refine Framed.append (fun x m y hx _ hglued => ?_) ih
    obtain ⟨rfl, rfl, rfl⟩ : x = [] ∧ m = (c, false) ∧ y = [] := by
      cases x <;> simp_all
    simp at hglued
  | atomic t k n h ih =>
    rw [marks_of_some h]
    refine Framed.append (fun x m y hx hblank _ => ?_) ih
    obtain ⟨_, _, hsolid⟩ := solid_take_of_recogniser (recognise?_eq_some h).2
    have hglued : ∀ p ∈ x ++ m :: y, isGap p = false := by
      intro p hp
      rw [← hx] at hp
      obtain ⟨c, _, rfl⟩ := mem_map.1 hp
      simp [isGap]
    have hchars : t.take n = x.map Prod.fst ++ m.1 :: y.map Prod.fst := by
      have := congrArg (map Prod.fst) hx
      simpa [Function.comp_def] using this
    constructor
    · rcases eq_nil_or_concat' x with rfl | ⟨x', p, rfl⟩
      · obtain ⟨c, u, hc, hcv⟩ := hsolid.first
        obtain ⟨rfl, _⟩ : m.1 = c ∧ y.map Prod.fst = u := by
          simpa [hc] using hchars.symm
        rw [hblank] at hcv
        simp at hcv
      · exact ⟨p, by simp, hglued p (by simp)⟩
    · cases y with
      | nil =>
        obtain ⟨u, d, hd, hdv⟩ := hsolid.last
        rw [hd] at hchars
        obtain ⟨_, hlast⟩ := append_inj' hchars rfl
        obtain rfl : d = m.1 := by simpa using hlast
        rw [hblank] at hdv
        simp at hdv
      | cons q y => exact ⟨q, by simp, hglued q (by simp)⟩

theorem solid_of_mem_words : ∀ w ∈ words constructs t, Solid w.text :=
  (tiles_words constructs t).solid (framed_marks constructs t)

/-! ## Plain words -/

theorem Tiles.visible {t : Text} {start : Nat} {ws : List Word}
    (h : Tiles start (t.map fun c => (c, false)) ws) {w : Word} (hw : w ∈ ws) :
    w.text ≠ [] ∧ ∀ c ∈ w.text, isBlank c = false := by
  obtain ⟨front, v, back, hms, rfl, hne, hv, -⟩ := h.exists_split hw
  refine ⟨by simpa using hne, fun c hc => ?_⟩
  obtain ⟨m, hm, rfl⟩ := mem_map.1 hc
  have hmem : m ∈ t.map fun c => (c, false) := by rw [hms]; simp [hm]
  obtain ⟨d, _, rfl⟩ := mem_map.1 hmem
  simpa [isGap] using hv _ hm

theorem words_eq_solidRuns (t : Text) (start : Nat) :
    Text.words t = (solidRuns start (t.map fun c => (c, false))).map Word.text := by
  have htiles := tiles_solidRuns start (t.map fun c => (c, false))
  refine words_of_strewn ?_ (forall_mem_map.2 fun _ => htiles.visible)
  simpa [Function.comp_def] using htiles.strewn

theorem tiles_plain (t : Text) :
    ∃ ws : List Word, Tiles 0 (t.map fun c => (c, false)) ws ∧ Text.words t = ws.map Word.text :=
  ⟨_, tiles_solidRuns 0 _, words_eq_solidRuns t 0⟩

theorem strewn_plain_words (t : Text) : Strewn t (Text.words t) := by
  obtain ⟨ws, htiles, hws⟩ := tiles_plain t
  have h := htiles.strewn
  rw [← hws] at h
  simpa [Function.comp_def] using h

theorem keeps_words (t : Text) : Respaced KeepsGap t (unwords (Text.words t)) :=
  (strewn_plain_words t).keeps

theorem visible_of_mem_words {w : Text} (h : w ∈ Text.words t) :
    w ≠ [] ∧ ∀ c ∈ w, isBlank c = false := by
  obtain ⟨ws, htiles, hws⟩ := tiles_plain t
  rw [hws] at h
  obtain ⟨_, hw, rfl⟩ := mem_map.1 h
  exact htiles.visible hw

theorem solid_of_mem_plain_words {w : Text} (h : w ∈ Text.words t) : Solid w :=
  solid_of_visible (visible_of_mem_words h).1 (visible_of_mem_words h).2

end Reflow.Atomic
