import Reflow.Proofs.Words

/-!
Constructs and the blanks inside them.

A construct glues the blanks inside it, and a blank that is not glued cuts the search for constructs
in two (`marks_append_gap`). So the words on either side of such a blank are the words of the two
parts (`words_append_gap`). `InsideConstruct t p` says that the place `p` lies strictly inside a
construct of `t`; the glued blanks are those at such places.
-/

open List

namespace Reflow.Atomic

open Text

variable {x y : List Mark} {t : Text}

/-! ## Constructs of a shorter text -/

section Cutting

variable {constructs : List Construct} {c : Char} {a b : Text}

/-- A construct that is found and ends before more text follows is found without that text. -/
theorem recognise?_of_append {u v : Text} {k : Construct} {n : Nat}
    (h : recognise? constructs (u ++ v) = some (k, n)) (hn : n ≤ u.length) :
    recognise? constructs u = some (k, n) := by
  induction constructs with
  | nil => simp [recognise?] at h
  | cons k' ks ih =>
    simp only [recognise?, findSome?_cons] at h ih ⊢
    cases hk : k'.recogniser (u ++ v) with
    | none =>
      rw [hk] at h
      rw [k'.lasting_recogniser.persists.eq_none hk]
      exact ih h
    | some m =>
      rw [hk] at h
      obtain ⟨rfl, rfl⟩ : k' = k ∧ m = n := by simpa using h
      rw [k'.lasting_recogniser.isLocal u v m hk hn]
      rfl

theorem recognise?_eq_none_of_append {u v : Text} (h : recognise? constructs (u ++ v) = none) :
    recognise? constructs u = none := by
  simp only [recognise?, findSome?_eq_none_iff, Option.map_eq_none_iff] at h ⊢
  intro k hk
  exact k.lasting_recogniser.persists.eq_none (h k hk)

theorem recognise?_of_blank (hc : isBlank c) (t : Text) :
    recognise? constructs (c :: t) = none := by
  cases h : recognise? constructs (c :: t) with
  | none => rfl
  | some p =>
    obtain ⟨d, u, hd, hdv⟩ := p.1.startsVisible_recogniser (recognise?_eq_some h).2
    obtain ⟨rfl, _⟩ := cons.inj hd
    rw [hc] at hdv
    simp at hdv

/-! ## Marks around a gap -/

/-- No construct reaches over a character that is not glued. -/
theorem le_length_of_not_glued {x y : List Mark} {k : Construct} {n : Nat}
    (h : marks constructs (a ++ c :: b) = x ++ (c, false) :: y) (hx : x.length = a.length)
    (hrec : recognise? constructs (a ++ c :: b) = some (k, n)) : n ≤ a.length := by
  by_contra hlt
  have hmem : (c, false) ∈ ((a ++ c :: b).take n).map fun d => (d, true) := by
    have hget := congrArg (fun l => l[a.length]?) h
    rw [marks_of_some hrec, getElem?_append_left (by simp; omega), ← hx] at hget
    exact mem_of_getElem? (hget.trans (by simp))
  obtain ⟨d, _, hd⟩ := mem_map.1 hmem
  simp at hd

/-- **A character that is not glued cuts the work in two.** -/
theorem marks_append_gap {x y : List Mark}
    (h : marks constructs (a ++ c :: b) = x ++ (c, false) :: y) (hx : x.length = a.length) :
    x = marks constructs a ∧ y = marks constructs b := by
  -- along the text before the blank, a character or a construct at a time
  generalize hlen : a.length = len
  induction len using Nat.strong_induction_on generalizing a x with
  | _ len ih =>
    subst hlen
    cases hrec : recognise? constructs (a ++ c :: b) with
    | none =>
      cases a with
      | nil =>
        obtain rfl : x = [] := eq_nil_of_length_eq_zero hx
        rw [nil_append, marks_of_none hrec] at h
        obtain ⟨_, rfl⟩ := cons.inj h
        exact ⟨(marks_nil _).symm, rfl⟩
      | cons d a =>
        obtain ⟨m, x, rfl⟩ : ∃ m x', x = m :: x' := by
          cases x with
          | nil => simp at hx
          | cons m x => exact ⟨m, x, rfl⟩
        have hrec' : recognise? constructs (d :: a) = none :=
          recognise?_eq_none_of_append hrec
        rw [cons_append] at hrec h
        rw [marks_of_none hrec] at h
        obtain ⟨rfl, hrest⟩ := cons.inj h
        obtain ⟨rfl, rfl⟩ := ih a.length (by simp) hrest (by simpa using hx) rfl
        exact ⟨(marks_of_none hrec').symm, rfl⟩
    | some p =>
      obtain ⟨k, n⟩ := p
      obtain ⟨hpos, _, _⟩ := solid_take_of_recogniser (recognise?_eq_some hrec).2
      have hle : n ≤ a.length := le_length_of_not_glued h hx hrec
      have htake : (a ++ c :: b).take n = a.take n := take_append_of_le_length hle
      have hdrop : (a ++ c :: b).drop n = a.drop n ++ c :: b := drop_append_of_le_length hle
      rw [marks_of_some hrec, htake, hdrop] at h
      -- what is left of `x` after the construct
      obtain ⟨x, rfl⟩ : ∃ x', x = (a.take n).map (fun d => (d, true)) ++ x' := by
        have hpre : (a.take n).map (fun d => (d, true)) <+: x ++ (c, false) :: y :=
          ⟨_, h⟩
        have hlen : ((a.take n).map fun d => (d, true)).length ≤ x.length := by
          rw [length_map, length_take]
          omega
        obtain ⟨x', hx'⟩ :=
          prefix_of_prefix_length_le hpre (prefix_append _ _) hlen
        exact ⟨x', hx'.symm⟩
      rw [append_assoc] at h
      obtain ⟨rfl, rfl⟩ := ih (a.drop n).length (by simp; omega) (append_cancel_left h)
        (by simp at hx ⊢; omega) rfl
      exact ⟨(marks_of_some (recognise?_of_append hrec hle)).symm, rfl⟩

/-- The word stands `n` characters further on. -/
def shift (n : Nat) (w : Word) : Word := ⟨w.text, w.start + n⟩

theorem map_text_shift (n : Nat) (ws : List Word) :
    (ws.map (shift n)).map Word.text = ws.map Word.text := by
  simp [Function.comp_def, shift]

theorem solidRuns_shift (start n : Nat) (ms : List Mark) :
    solidRuns (start + n) ms = (solidRuns start ms).map (shift n) := by
  induction ms generalizing start with
  | nil => rfl
  | cons m ms ih =>
    have ih : solidRuns (start + n + 1) ms = (solidRuns (start + 1) ms).map (shift n) := by
      rw [← ih, Nat.add_right_comm]
    by_cases hm : isGap m
    · rw [solidRuns_gap hm, solidRuns_gap hm, ih]
    · have hm : isGap m = false := by simpa using hm
      cases ms with
      | nil =>
        rw [solidRuns_singleton hm, solidRuns_singleton hm]
        rfl
      | cons next ms =>
        by_cases hnext : isGap next
        · rw [solidRuns_before_gap hm hnext, solidRuns_before_gap hm hnext, ih]
          rfl
        · have hnext : isGap next = false := by simpa using hnext
          obtain ⟨w, ws, hws, heq⟩ := solidRuns_before_solid hm hnext start ms
          obtain ⟨w', ws', hws', heq'⟩ := solidRuns_before_solid hm hnext (start + n) ms
          rw [hws, hws'] at ih
          obtain ⟨rfl, rfl⟩ := cons.inj ih
          rw [heq, heq']
          rfl

theorem map_text_solidRuns (start start' : Nat) (ms : List Mark) :
    (solidRuns start ms).map Word.text = (solidRuns start' ms).map Word.text := by
  rw [← Nat.zero_add start, ← Nat.zero_add start', solidRuns_shift, solidRuns_shift,
    map_text_shift, map_text_shift]

theorem words_append_gap (hc : isBlank c)
    (h : marks constructs (a ++ c :: b) = marks constructs a ++ (c, false) :: marks constructs b) :
    (words constructs (a ++ c :: b)).map Word.text
      = (words constructs a).map Word.text ++ (words constructs b).map Word.text := by
  have hgap : isGap (c, false) := by simp [isGap, hc]
  rw [words, h, solidRuns_append_gap hgap, map_append, words, words,
    map_text_solidRuns (0 + (marks constructs a).length + 1) 0]

end Cutting

/-! ## Pieces and their places -/

theorem solid_of_mem_pieces {constructs : List Construct} {p : Piece} (hp : p ∈ pieces constructs t)
    (hatomic : p.construct.isSome) : Solid p.text := by
  fun_induction pieces constructs t with
  | case1 => simp at hp
  | case2 c cs k n h ih =>
    rcases mem_cons.1 hp with rfl | hp
    · exact (solid_take_of_recogniser (recognise?_eq_some h).2).2.2
    · exact ih hp
  | case3 c cs h ih =>
    unfold consPlain at hp
    split at hp
    · next t rest hpieces =>
      rcases mem_cons.1 hp with rfl | hp
      · simp at hatomic
      · exact ih (by rw [hpieces]; simp [hp])
    · rcases mem_cons.1 hp with rfl | hp
      · simp at hatomic
      · exact ih hp

/-- A span is a piece, with the length of the pieces before it as its start. -/
theorem mem_locate_iff {start : Nat} {ps : List Piece} {s : Span} :
    s ∈ locate start ps ↔ ∃ ps₁ ps₂, ps = ps₁ ++ s.toPiece :: ps₂ ∧
      s.start = start + (ps₁.flatMap Piece.text).length := by
  induction ps generalizing start with
  | nil => simp [locate]
  | cons p ps ih =>
    rw [locate, mem_cons, ih]
    constructor
    · rintro (rfl | ⟨ps₁, ps₂, rfl, hstart⟩)
      · exact ⟨[], ps, rfl, by simp⟩
      · refine ⟨p :: ps₁, ps₂, rfl, ?_⟩
        rw [flatMap_cons, length_append]
        omega
    · rintro ⟨ps₁, ps₂, hps, hstart⟩
      cases ps₁ with
      | nil =>
        cases s
        simp_all
      | cons q ps₁ =>
        obtain ⟨rfl, rfl⟩ := cons.inj hps
        refine .inr ⟨ps₁, ps₂, rfl, ?_⟩
        rw [hstart, flatMap_cons, length_append]
        omega

theorem map_fst_flatMap_marks (ps : List Piece) :
    (ps.flatMap Piece.marks).map Prod.fst = ps.flatMap Piece.text := by
  induction ps with
  | nil => rfl
  | cons p ps ih =>
    rw [flatMap_cons, map_append, ih, Piece.marks, map_map]
    exact congrArg (· ++ _) (map_id _)

theorem exists_piece_of_marks {ps : List Piece} {m : Mark}
    (h : ps.flatMap Piece.marks = x ++ m :: y) :
    ∃ ps₁ p ps₂ a b, ps = ps₁ ++ p :: ps₂ ∧ p.marks = a ++ m :: b ∧
      x = ps₁.flatMap Piece.marks ++ a := by
  induction ps generalizing x with
  | nil => simp at h
  | cons p ps ih =>
    rw [flatMap_cons] at h
    rcases append_eq_append_iff.1 h with ⟨x', rfl, hx'⟩ | ⟨y', hp, hy⟩
    · obtain ⟨ps₁, q, ps₂, a, b, rfl, hq, rfl⟩ := ih hx'
      exact ⟨p :: ps₁, q, ps₂, a, b, rfl, hq, by simp⟩
    · cases y' with
      | nil =>
        obtain ⟨ps₁, q, ps₂, a, b, rfl, hq, hx⟩ := ih (x := []) (by simpa using hy.symm)
        refine ⟨p :: ps₁, q, ps₂, a, b, rfl, hq, ?_⟩
        rw [flatMap_cons, append_assoc, ← hx, hp, append_nil, append_nil]
      | cons m' y' =>
        obtain ⟨rfl, rfl⟩ : m' = m ∧ y' ++ ps.flatMap Piece.marks = y := by
          simpa [eq_comm] using hy
        exact ⟨[], p, ps, x, y', rfl, hp, by simp⟩

/-- The place `p` lies strictly inside a construct of the text. -/
def InsideConstruct (t : Text) (p : Nat) : Prop :=
  ∃ s ∈ spans Construct.wrapping t, s.construct.isSome = true ∧
    (visible (t.take s.start)).length < p ∧ p < (visible (t.take s.stop)).length

/-- **A glued blank is inside a construct.** -/
theorem insideConstruct_of_glued {c : Char} (h : marks Construct.wrapping t = x ++ (c, true) :: y)
    (hc : isBlank c) : InsideConstruct t (visible (x.map Prod.fst)).length := by
  obtain ⟨ps₁, p, ps₂, a, b, hps, hp, rfl⟩ := exists_piece_of_marks h
  have hatomic : p.construct.isSome := by
    have hmem : (c, true) ∈ p.marks := by rw [hp]; simp
    simp only [Piece.marks, mem_map] at hmem
    obtain ⟨_, _, heq⟩ := hmem
    exact (Prod.mk.inj heq).2
  have htext : p.text = a.map Prod.fst ++ c :: b.map Prod.fst := by
    have := congrArg (map Prod.fst) hp
    simpa [Piece.marks, Function.comp_def] using this
  have hmem : p ∈ pieces Construct.wrapping t := by rw [hps]; simp
  have hsolid : Solid p.text := solid_of_mem_pieces hmem hatomic
  have hwhole : t = ps₁.flatMap Piece.text ++ p.text ++ ps₂.flatMap Piece.text := by
    have hflat := flatMap_pieces Construct.wrapping t
    rw [hps] at hflat
    simpa using hflat.symm
  -- the construct begins and ends with a visible character, so not with the blank
  rw [htext] at hsolid
  obtain ⟨hbefore, hafter⟩ := hsolid.visible_around_blank hc
  have hx : visible ((ps₁.flatMap Piece.marks ++ a).map Prod.fst)
      = visible (ps₁.flatMap Piece.text) ++ visible (a.map Prod.fst) := by
    rw [map_append, map_fst_flatMap_marks, visible_append]
  refine ⟨⟨p, (ps₁.flatMap Piece.text).length⟩, mem_locate_iff.2 ⟨ps₁, ps₂, hps, by simp⟩,
    hatomic, ?_, ?_⟩
  · rw [hx, hwhole, append_assoc, take_left, length_append]
    omega
  · have hstop : t.take (Span.stop ⟨p, (ps₁.flatMap Piece.text).length⟩)
        = ps₁.flatMap Piece.text ++ p.text := by
      rw [hwhole, Span.stop, ← length_append, take_left]
    rw [hx, hstop, htext, visible_append, visible_append, visible_cons_of_blank hc]
    simp only [length_append]
    omega

theorem length_visible_take_le (t : Text) {i j : Nat} (h : i ≤ j) :
    (visible (t.take i)).length ≤ (visible (t.take j)).length := by
  have htake : t.take j = t.take i ++ (t.drop i).take (j - i) := by
    rw [← take_add, Nat.add_sub_cancel' h]
  rw [htake, visible_append, length_append]
  omega

/-- **Inside a construct everything is glued.** -/
theorem glued_of_insideConstruct {m : Mark} (h : marks Construct.wrapping t = x ++ m :: y)
    (hinside : InsideConstruct t (visible (x.map Prod.fst)).length) : m.2 := by
  obtain ⟨s, hs, hatomic, hstart, hstop⟩ := hinside
  obtain ⟨ps₁, ps₂, hps, hlen⟩ := mem_locate_iff.1 hs
  have hx : x.map Prod.fst = t.take x.length := by
    have hfst := map_fst_marks Construct.wrapping t
    rw [h, map_append] at hfst
    rw [← hfst, take_left' (by simp)]
  rw [hx] at hstart hstop
  -- the mark comes after the start of the construct and before its end
  have hlow : s.start < x.length := by
    by_contra hle
    have := length_visible_take_le t (Nat.le_of_not_lt hle)
    omega
  have hhigh : x.length < s.stop := by
    by_contra hle
    have := length_visible_take_le t (Nat.le_of_not_lt hle)
    omega
  have hmarks : marks Construct.wrapping t
      = ps₁.flatMap Piece.marks ++ (s.toPiece.marks ++ ps₂.flatMap Piece.marks) := by
    rw [marks, hps, flatMap_append, flatMap_cons]
  have hfront : (ps₁.flatMap Piece.marks).length = s.start := by
    rw [hlen, Nat.zero_add, ← map_fst_flatMap_marks, length_map]
  have hpiece : s.toPiece.marks.length = s.text.length := by simp [Piece.marks]
  have hget : s.toPiece.marks[x.length - s.start]? = some m := by
    have hall : (marks Construct.wrapping t)[x.length]? = some m := by rw [h]; simp
    rw [hmarks, getElem?_append_right (by omega), hfront,
      getElem?_append_left (by rw [hpiece]; unfold Span.stop at hhigh; omega)] at hall
    exact hall
  have hmem := mem_of_getElem? hget
  simp only [Piece.marks, mem_map] at hmem
  obtain ⟨_, _, rfl⟩ := hmem
  exact hatomic

/-! ## What glues a blank -/

/-- The first characters of the constructs that are kept whole on a line. -/
def glueChars : List Char := ['`', '[', '{', '<']

theorem firstChars_subset {k : Construct} (hk : k ∈ Construct.wrapping) :
    ∀ c ∈ k.firstChars, c ∈ glueChars := by
  cases k with
  | autolink | bareUrl => simp [Construct.wrapping, TagKind.all] at hk
  | codeSpan | link | htmlOpen | htmlClose => simp [Construct.firstChars, glueChars]
  | tag _ | tagPair _ => simp [Construct.firstChars, glueChars]

/-- Back from a glued blank, through glued characters only, there is one that a construct begins
with. -/
def Headed (ms : List Mark) : Prop :=
  ∀ x c y, ms = x ++ (c, true) :: y → isBlank c = true →
    ∃ x₁ d x₂, x = x₁ ++ (d, true) :: x₂ ∧ d ∈ glueChars ∧ ∀ m ∈ x₂, m.2 = true

theorem Headed.append {a b : List Mark} (ha : Headed a) (hb : Headed b) : Headed (a ++ b) := by
  intro x c y h hc
  rcases append_eq_append_iff.1 h with ⟨x', rfl, hb'⟩ | ⟨y', ha', hy⟩
  · obtain ⟨x₁, d, x₂, rfl, hd, hx₂⟩ := hb x' c y hb' hc
    exact ⟨a ++ x₁, d, x₂, by simp, hd, hx₂⟩
  · cases y' with
    | nil =>
      obtain ⟨x₁, d, x₂, hx, _, _⟩ := hb [] c y (by simpa using hy.symm) hc
      simp at hx
    | cons m y' =>
      obtain ⟨rfl, rfl⟩ : m = (c, true) ∧ y = y' ++ b := by simpa [eq_comm] using hy
      exact ha x c y' ha' hc

theorem headed_marks (t : Text) : Headed (marks Construct.wrapping t) := by
  induction t using marks_induction Construct.wrapping with
  | nil => intro x c y h; simp at h
  | plain c t h ih =>
    rw [marks_of_none h, ← singleton_append]
    refine Headed.append (fun x d y hx _ => ?_) ih
    cases x <;> simp at hx
  | atomic t k n h ih =>
    rw [marks_of_some h]
    refine Headed.append (fun x c y hx hc => ?_) ih
    obtain ⟨hk, hrec⟩ := recognise?_eq_some h
    obtain ⟨d, u, rfl, hd⟩ := k.startsIn_recogniser t n hrec
    obtain ⟨hpos, _, _⟩ := solid_take_of_recogniser hrec
    obtain ⟨n, rfl⟩ : ∃ m, n = m + 1 := ⟨n - 1, by omega⟩
    cases x with
    | nil =>
      -- a construct does not begin with a blank
      obtain ⟨hdc, _⟩ := cons.inj hx
      obtain rfl : d = c := (Prod.mk.inj hdc).1
      obtain ⟨e, v, hv, he⟩ := k.startsVisible_recogniser hrec
      obtain ⟨rfl, _⟩ := cons.inj hv
      rw [hc] at he
      simp at he
    | cons m x =>
      obtain ⟨rfl, hrest⟩ := cons.inj hx
      refine ⟨[], d, x, rfl, firstChars_subset hk d hd, fun m hm => ?_⟩
      have hmem : m ∈ (u.take n).map fun c => (c, true) := by
        rw [hrest]
        simp [hm]
      obtain ⟨_, _, rfl⟩ := mem_map.1 hmem
      rfl

theorem exists_append_of_glued {a x x₁ z : List Mark} (h : a ++ x = x₁ ++ z)
    (ha : ∀ m ∈ a.getLast?, m.2 = false) (hz : ∀ m ∈ z, m.2) : ∃ x', x = x' ++ z := by
  rcases append_eq_append_iff.1 h with ⟨x', _, hx⟩ | ⟨a', hax, rfl⟩
  · exact ⟨x', hx⟩
  · rcases eq_nil_or_concat' a' with rfl | ⟨a'', m, rfl⟩
    · exact ⟨[], by simp⟩
    · have hlast := ha m (by rw [hax]; simp)
      rw [hz m (by simp)] at hlast
      simp at hlast

/-- **Words with blanks.** A word with a blank in it has, before its first blank, a character that a
construct begins with. -/
theorem Tiles.headed {start : Nat} {ms : List Mark} {ws : List Word} (h : Tiles start ms ws)
    (hms : Headed ms) : ∀ w ∈ ws, ∀ u c v, w.text = u ++ c :: v → isBlank c →
      ∃ d ∈ u, d ∈ glueChars := by
  induction h with
  | nil _ => simp
  | @cons start g w rest ws hg _ hw hrest _ ih =>
    intro v hv
    rcases mem_cons.1 hv with rfl | hv
    · intro u c v htext hc
      obtain ⟨x, z, rfl, rfl, hz⟩ := map_eq_append_iff.1 htext
      obtain ⟨m, y, rfl, rfl, rfl⟩ := map_eq_cons_iff.1 hz
      -- the blank is in the word, so it is glued
      have hglued : m.2 := by simpa [isGap, hc] using hw m (by simp)
      obtain ⟨x₁, d, x₂, hx, hd, hx₂⟩ := hms (g ++ x) m.1 (y ++ rest) (by
        rw [← hglued]
        simp) hc
      obtain ⟨x', rfl⟩ := exists_append_of_glued hx (fun p hp => by
        have := hg p (mem_of_getLast? hp)
        simpa [isGap] using (Bool.and_eq_true_iff.1 this).2) (by simpa using hx₂)
      exact ⟨d, by simp, hd⟩
    · refine ih (fun x c y hx hc => ?_) v hv
      -- the rest begins with a gap, and no glue reaches back over it
      cases x with
      | nil =>
        have := hrest (c, true) (by rw [hx]; simp)
        simp [isGap] at this
      | cons m x =>
        have hm : m.2 = false := by
          have := hrest m (by rw [hx]; simp)
          simpa [isGap] using (Bool.and_eq_true_iff.1 this).2
        obtain ⟨x₁, d, x₂, hx', hd, hx₂⟩ := hms (g ++ w ++ m :: x) c y (by simp [hx]) hc
        obtain ⟨x', rfl⟩ := exists_append_of_glued (a := g ++ w ++ [m]) (x := x)
          (by simpa using hx') (by simpa using hm) (z := (d, true) :: x₂) (by simpa using hx₂)
        exact ⟨m :: x', d, x₂, rfl, hd, hx₂⟩

end Reflow.Atomic
