import Reflow.Proofs.Relaid

/-!
Words of a text laid out anew.

Constructs are read in lockstep from a text and from its layout, so a run of blanks is glued in the
one exactly if it is glued in the other (`exists_flags`). A text is `Cut` into words at the runs of
blanks that are not glued; cutting commutes with laying out (`Cut.relaid`). In particular a layout
that only changes the blanks between words, and the words themselves by a backslash, has as its
words the words that were laid out.
-/

open List

namespace Reflow.Relaid

open Text Atomic

/-! ## Glue in lockstep -/

section Flags

variable {constructs : List Construct} {zs : List Cell} {free : Bool}

variable (constructs) in
theorem recognise?_lockstep (h : Fit free zs) :
    recognise? constructs (src zs) = none ∧ recognise? constructs (out zs) = none ∨
      ∃ k xs ys, zs = xs ++ ys ∧ Fit true ys ∧
        recognise? constructs (src zs) = some (k, (src xs).length) ∧
        recognise? constructs (out zs) = some (k, (out xs).length) := by
  induction constructs with
  | nil => exact .inl ⟨rfl, rfl⟩
  | cons k ks ih =>
    simp only [recognise?, findSome?_cons] at ih ⊢
    rcases respects_recogniser k zs h.to_true with
      ⟨hsrc, hout⟩ | ⟨xs, ys, hsplit, hys, hsrc, hout⟩
    · rw [hsrc, hout]
      exact ih
    · rw [hsrc, hout]
      exact .inr ⟨k, xs, ys, hsplit, hys, rfl, rfl⟩

variable {g a b c k : Text}

theorem marks_blank_append (hg : ∀ c ∈ g, isBlank c) (t : Text) :
    marks constructs (g ++ t) = g.map (fun c => (c, false)) ++ marks constructs t := by
  induction g with
  | nil => rfl
  | cons c g ih =>
    rw [cons_append, marks_of_none (recognise?_of_blank (hg c (by simp)) _),
      ih fun d hd => hg d (by simp [hd])]
    rfl

/-- The characters that a view of the cells shows, each glued as its cell is. -/
def flagged (view : Cell → Text) (fs : List (Cell × Bool)) : List Mark :=
  fs.flatMap fun f => (view f.1).map fun c => (c, f.2)

theorem flagged_append (view : Cell → Text) (fs fs' : List (Cell × Bool)) :
    flagged view (fs ++ fs') = flagged view fs ++ flagged view fs' := by simp [flagged]

theorem flagged_cons (view : Cell → Text) (f : Cell × Bool) (fs : List (Cell × Bool)) :
    flagged view (f :: fs) = (view f.1).map (fun c => (c, f.2)) ++ flagged view fs := rfl

theorem flagged_map (view : Cell → Text) (glued : Bool) (zs : List Cell) :
    flagged view (zs.map fun z => (z, glued)) = (zs.flatMap view).map fun c => (c, glued) := by
  induction zs with
  | nil => rfl
  | cons z zs ih => rw [map_cons, flagged_cons, ih, flatMap_cons, map_append]

theorem map_fst_flagged (view : Cell → Text) (fs : List (Cell × Bool)) :
    (flagged view fs).map Prod.fst = (fs.map Prod.fst).flatMap view := by
  induction fs with
  | nil => rfl
  | cons f fs ih =>
    rw [flagged_cons, map_append, ih, map_map]
    exact congrArg (· ++ _) (map_id _)

theorem length_flagged (view : Cell → Text) {fs : List (Cell × Bool)} (h : fs.map Prod.fst = zs) :
    (flagged view fs).length = (zs.flatMap view).length := by
  rw [← h, ← map_fst_flagged, length_map]

variable (constructs) in
/-- **The same cells are glued.** -/
theorem exists_flags (h : Fit free zs) :
    ∃ fs : List (Cell × Bool), fs.map Prod.fst = zs ∧
      marks constructs (src zs) = flagged Cell.src fs ∧
      marks constructs (out zs) = flagged Cell.out fs := by
  -- the cells of a construct are read at once, so the induction is on the number of cells
  induction hn : zs.length using Nat.strong_induction_on generalizing free zs with
  | _ n ih =>
    rcases recognise?_lockstep constructs h with
      ⟨hsrc, hout⟩ | ⟨k, xs, ys, rfl, hys, hsrc, hout⟩
    · cases zs with
      | nil => exact ⟨[], rfl, by simp [flagged], by simp [flagged]⟩
      | cons z zs =>
        have hlen : zs.length < n := by
          rw [← hn]
          simp
        cases z with
        | char c =>
          obtain ⟨fs, rfl, hfs, hfs'⟩ := ih _ hlen h.2 rfl
          refine ⟨(.char c, false) :: fs, rfl, ?_, ?_⟩
          · rw [src_char] at hsrc ⊢
            rw [marks_of_none hsrc, hfs]
            rfl
          · rw [out_char] at hout ⊢
            rw [marks_of_none hout, hfs']
            rfl
        | gap g g' =>
          obtain ⟨fs, rfl, hfs, hfs'⟩ := ih _ hlen h.2.2.2 rfl
          refine ⟨(.gap g g', false) :: fs, rfl, ?_, ?_⟩
          · rw [src_gap, marks_blank_append h.1.2, hfs]
            rfl
          · rw [out_gap, marks_blank_append h.2.1.2, hfs']
            rfl
        | mark =>
          obtain ⟨fs, rfl, hfs, hfs'⟩ := ih _ hlen h.2.2 rfl
          refine ⟨(.mark, false) :: fs, rfl, hfs, ?_⟩
          rw [out_mark] at hout ⊢
          rw [marks_of_none hout, hfs']
          rfl
    · have hpos : 0 < (src xs).length :=
        (solid_take_of_recogniser (recognise?_eq_some hsrc).2).1
      have hlen : ys.length < n := by
        cases xs with
        | nil => simp at hpos
        | cons x xs =>
          rw [← hn, length_append, length_cons]
          omega
      obtain ⟨fs, hmap, hfs, hfs'⟩ := ih _ hlen hys rfl
      refine ⟨xs.map (fun x => (x, true)) ++ fs, ?_, ?_, ?_⟩
      · simp [hmap, Function.comp_def]
      · rw [marks_of_some hsrc, flagged_append, flagged_map, ← hfs]
        simp [src]
      · rw [marks_of_some hout, flagged_append, flagged_map, ← hfs']
        simp [out]

variable (constructs) in
/-- Two texts are kept apart by a run of blanks: it is not glued. -/
structure Apart (a g b : Text) : Prop where
  blank : BlankRun g
  marks_eq : marks constructs (a ++ g ++ b)
    = marks constructs a ++ g.map (fun c => (c, false)) ++ marks constructs b

/-- It is enough that the first blank is not glued. -/
theorem Apart.of_marks {c : Char} {x y : List Mark} (hg : BlankRun (c :: g))
    (h : marks constructs (a ++ c :: g ++ b) = x ++ (c, false) :: y) (hx : x.length = a.length) :
    Apart constructs a (c :: g) b ∧ x = marks constructs a ∧
      y = g.map (fun c => (c, false)) ++ marks constructs b := by
  rw [append_assoc, cons_append] at h
  obtain ⟨rfl, hy⟩ := marks_append_gap h hx
  rw [marks_blank_append fun d hd => hg.2 d (by simp [hd])] at hy
  refine ⟨⟨hg, ?_⟩, rfl, hy⟩
  rw [append_assoc, cons_append, h, hy]
  simp

/-- Of two runs of blanks that are not glued, either keeps apart what stands next to it. -/
theorem Apart.assoc (h : Apart constructs a g (b ++ k ++ c)) (h' : Apart constructs b k c) :
    Apart constructs a g b ∧ Apart constructs (a ++ g ++ b) k c := by
  have hlen := fun t => congrArg length (map_fst_marks constructs t)
  simp only [length_map] at hlen
  obtain ⟨d, k, rfl⟩ := exists_cons_of_ne_nil h'.blank.1
  have hmarks : marks constructs (a ++ g ++ b ++ d :: k ++ c)
      = marks constructs a ++ g.map (fun c => (c, false)) ++ marks constructs b
        ++ (d, false) :: (k.map (fun c => (c, false)) ++ marks constructs c) := by
    have heq := h.marks_eq
    rw [h'.marks_eq] at heq
    simpa using heq
  obtain ⟨hapart, heq, _⟩ := Apart.of_marks h'.blank hmarks (by simp [hlen])
  exact ⟨⟨h.blank, heq.symm⟩, hapart⟩

theorem Apart.assoc_right (h : Apart constructs a g b) (h' : Apart constructs (a ++ g ++ b) k c) :
    Apart constructs a g (b ++ k ++ c) ∧ Apart constructs b k c := by
  have hlen := congrArg length (map_fst_marks constructs a)
  rw [length_map] at hlen
  obtain ⟨d, g, rfl⟩ := exists_cons_of_ne_nil h.blank.1
  have hmarks : marks constructs (a ++ d :: g ++ (b ++ k ++ c))
      = marks constructs a ++ (d, false) :: (g.map (fun c => (c, false)) ++
        (marks constructs b ++ k.map (fun c => (c, false)) ++ marks constructs c)) := by
    have heq := h'.marks_eq
    rw [h.marks_eq] at heq
    simpa using heq
  obtain ⟨hapart, _, heq⟩ := Apart.of_marks h.blank hmarks hlen
  exact ⟨hapart, h'.blank, (append_cancel_left heq).symm⟩

theorem Apart.between (h : Apart constructs a g (b ++ k ++ c))
    (h' : Apart constructs (a ++ g ++ b) k c) :
    Apart constructs a g b ∧ Apart constructs b k c := by
  have hlen := fun t => congrArg length (map_fst_marks constructs t)
  simp only [length_map] at hlen
  obtain ⟨d, k, rfl⟩ := exists_cons_of_ne_nil h'.blank.1
  have heq : marks constructs a ++ g.map (fun c => (c, false)) ++ marks constructs (b ++ d :: k ++ c)
      = marks constructs (a ++ g ++ b) ++ ((d, false) :: (k.map (fun c => (c, false)) ++
        marks constructs c)) := by
    have hwhole : a ++ g ++ (b ++ d :: k ++ c) = a ++ g ++ b ++ d :: k ++ c := by simp
    rw [← h.marks_eq, hwhole, h'.marks_eq]
    simp
  -- the marks of the text between the two are an ending of those of the text up to the second
  have hle : (marks constructs a ++ g.map fun c => (c, false)).length
      ≤ (marks constructs (a ++ g ++ b)).length := by
    simp only [length_append, length_map, hlen]
    omega
  obtain ⟨y, hy⟩ := prefix_of_prefix_length_le (prefix_append _ _)
    (⟨_, heq.symm⟩ : marks constructs (a ++ g ++ b) <+: _) hle
  rw [← hy, append_assoc _ y] at heq
  have hbetween : Apart constructs b (d :: k) c := by
    refine (Apart.of_marks h'.blank (append_cancel_left heq) ?_).1
    have hcount := congrArg length hy
    simp only [length_append, length_map, hlen] at hcount
    omega
  exact ⟨(h.assoc hbetween).1, hbetween⟩

/-- A gap that keeps its two sides apart does so however wide it is laid out. -/
theorem apart_lockstep {g' : Text} {xs ys : List Cell} (h : Fit free (xs ++ .gap g g' :: ys))
    (hsrc : Apart constructs (src xs) g (src ys)) : Apart constructs (out xs) g' (out ys) := by
  obtain ⟨hg, hg', _, _⟩ := h.right
  obtain ⟨fs, hmap, hfs, hfs'⟩ := exists_flags constructs h
  obtain ⟨fs₁, fs₂, rfl, hfs₁, hfs₂⟩ := map_eq_append_iff.1 hmap
  obtain ⟨⟨z, glued⟩, fs₂, rfl, hz, _⟩ := map_eq_cons_iff.1 hfs₂
  obtain rfl : z = .gap g g' := hz
  -- in the text the run of blanks is at the place of the same cell
  have hglued : glued = false := by
    have hlen : (flagged Cell.src fs₁).length = (marks constructs (src xs)).length := by
      have hmarks := congrArg length (map_fst_marks constructs (src xs))
      rw [length_map] at hmarks
      rw [length_flagged Cell.src hfs₁, hmarks]
      rfl
    have heq : flagged Cell.src fs₁ ++ (g.map (fun c => (c, glued)) ++ flagged Cell.src fs₂)
        = marks constructs (src xs) ++ (g.map (fun c => (c, false)) ++ marks constructs (src ys)) := by
      rw [flagged_append, flagged_cons, src_append, src_gap, ← append_assoc,
        hsrc.marks_eq] at hfs
      rw [← append_assoc (marks _ _), hfs]
      rfl
    obtain ⟨c, g, rfl⟩ := exists_cons_of_ne_nil hg.1
    have hhead := (append_inj heq hlen).2
    exact (Prod.mk.inj (cons.inj hhead).1).2
  subst hglued
  obtain ⟨c, g', rfl⟩ := exists_cons_of_ne_nil hg'.1
  have hcut : marks constructs (out xs ++ c :: g' ++ out ys)
      = flagged Cell.out fs₁ ++ (c, false) :: (g'.map (fun c => (c, false)) ++ flagged Cell.out fs₂) := by
    rw [flagged_append, out_append, out_gap, ← append_assoc] at hfs'
    exact hfs'
  exact (Apart.of_marks hg' hcut (length_flagged Cell.out hfs₁)).1

/-- Nothing cuts the text: every blank in it is glued. -/
def Uncut (constructs : List Construct) (t : Text) : Prop :=
  ∀ m ∈ marks constructs t, isGap m = false

theorem uncut_lockstep (h : Fit free zs) (hsrc : Uncut constructs (src zs)) :
    Uncut constructs (out zs) := by
  obtain ⟨fs, rfl, hfs, hfs'⟩ := exists_flags constructs h
  intro m hm
  rw [hfs'] at hm
  obtain ⟨⟨z, glued⟩, hz, hm⟩ := mem_flatMap.1 hm
  obtain ⟨c, hc, rfl⟩ := mem_map.1 hm
  have hmem : z ∈ fs.map Prod.fst := mem_map.2 ⟨_, hz, rfl⟩
  obtain ⟨xs, ys, hsplit⟩ := append_of_mem hmem
  rw [hsplit] at h
  cases z with
  | char d =>
    obtain rfl : c = d := by simpa [Cell.out] using hc
    simp [isGap, h.right.1]
  | mark =>
    obtain rfl : c = '\\' := by simpa [Cell.out] using hc
    simp [isGap, isBlank_backslash]
  | gap g g' =>
    -- the run of blanks is glued in the text
    obtain ⟨d, g, rfl⟩ := exists_cons_of_ne_nil h.right.1.1
    have hd := hsrc (d, glued) (by
      rw [hfs]
      exact mem_flatMap.2 ⟨_, hz, by simp [Cell.src]⟩)
    have hblank : isBlank d := h.right.1.2 d (by simp)
    have hglued : glued := by simpa [isGap, hblank] using hd
    simp [isGap, hglued]

theorem solidRuns_of_no_gap {ms : List Mark} (hne : ms ≠ []) (h : ∀ m ∈ ms, isGap m = false)
    (start : Nat) : solidRuns start ms = [⟨ms.map Prod.fst, start⟩] := by
  induction ms generalizing start with
  | nil => exact absurd rfl hne
  | cons m ms ih =>
    have hm : isGap m = false := h m (by simp)
    cases ms with
    | nil => exact solidRuns_singleton hm start
    | cons next ms =>
      obtain ⟨w, ws, hws, heq⟩ := solidRuns_before_solid hm (h next (by simp)) start ms
      have hnext := ih (by simp) (fun n hn => h n (by simp [hn])) (start + 1)
      rw [hws] at hnext
      obtain ⟨rfl, rfl⟩ := cons.inj hnext
      rw [heq]
      rfl

theorem words_of_uncut {t : Text} (h : Uncut constructs t) (hne : t ≠ []) :
    Atomic.words constructs t = [⟨t, 0⟩] := by
  have hmarks : marks constructs t ≠ [] := by
    intro hnil
    have := map_fst_marks constructs t
    rw [hnil] at this
    exact hne this.symm
  rw [Atomic.words, solidRuns_of_no_gap hmarks h, map_fst_marks]

theorem solidRuns_blank_append (hg : ∀ c ∈ g, isBlank c) (start : Nat) (ms : List Mark) :
    solidRuns start (g.map (fun c => (c, false)) ++ ms) = solidRuns (start + g.length) ms := by
  induction g generalizing start with
  | nil => rfl
  | cons c g ih =>
    have hc : isGap (c, false) := by simp [isGap, hg c (by simp)]
    rw [map_cons, cons_append, solidRuns_gap hc, ih fun d hd => hg d (by simp [hd]),
      length_cons, Nat.add_right_comm, Nat.add_assoc]

/-- **Words on either side of a run of blanks** that is not glued. -/
theorem words_append (h : Apart constructs a g b) :
    words constructs (a ++ g ++ b)
      = Atomic.words constructs a
        ++ (Atomic.words constructs b).map (shift (a.length + g.length)) := by
  obtain ⟨c, g, rfl⟩ := exists_cons_of_ne_nil h.blank.1
  have hc : isGap (c, false) := by simp [isGap, h.blank.2 c (by simp)]
  have hlen : (marks constructs a).length = a.length := by
    rw [← length_map (f := Prod.fst), map_fst_marks]
  rw [Atomic.words, h.marks_eq, map_cons, append_assoc, cons_append,
    solidRuns_append_gap hc, solidRuns_blank_append fun d hd => h.blank.2 d (by simp [hd]), hlen,
    Atomic.words, Atomic.words, ← solidRuns_shift, length_cons]
  congr 2
  omega

end Flags

/-! ## Cutting into words -/

/-- Texts cut at the runs of blanks that are not glued. -/
inductive Cut (constructs : List Construct) : Text → List Text → Prop
  | last {w : Text} : Solid w → Uncut constructs w → Cut constructs w [w]
  | cons {w g t : Text} {ws : List Text} : Solid w → Uncut constructs w →
      Apart constructs w g t → Cut constructs t ws → Cut constructs (w ++ g ++ t) (w :: ws)

namespace Cut

variable {constructs : List Construct} {t : Text} {ws : List Text}

theorem ne_nil (h : Cut constructs t ws) : ws ≠ [] := by
  cases h <;> simp

theorem solid (h : Cut constructs t ws) : Solid t := by
  induction h with
  | last hw _ => exact hw
  | cons hw _ _ _ ih => exact hw.append ih _

theorem solid_words (h : Cut constructs t ws) : ∀ w ∈ ws, Solid w := by
  induction h with
  | last hw _ => simpa using hw
  | cons hw _ _ _ ih =>
    intro v hv
    rcases mem_cons.1 hv with rfl | hv
    · exact hw
    · exact ih v hv

theorem words_eq (h : Cut constructs t ws) : (words constructs t).map Word.text = ws := by
  induction h with
  | last hw huncut => rw [words_of_uncut huncut hw.ne_nil]; rfl
  | cons hw huncut hapart _ ih =>
    rw [words_append hapart, map_append, map_text_shift, ih,
      words_of_uncut huncut hw.ne_nil]
    rfl

theorem append {a g b : Text} {vs : List Text} (h : Cut constructs a ws)
    (hapart : Apart constructs a g b) (h' : Cut constructs b vs) :
    Cut constructs (a ++ g ++ b) (ws ++ vs) := by
  induction h with
  | last hw huncut => exact .cons hw huncut hapart h'
  | @cons w k a ws hw huncut hword _ ih =>
    obtain ⟨hword', hrest⟩ := hword.assoc_right hapart
    have hcons := Cut.cons hw huncut hword' (ih hrest)
    simpa using hcons

end Cut

variable {t : Text} {constructs : List Construct} {free : Bool} {zs : List Cell}
  {cs : List (List Cell)}

theorem eq_nil_of_gaps_left {u : Text} {gs : List Mark} (ht : Solid t)
    (htext : t = gs.map Prod.fst ++ u) (hgs : ∀ m ∈ gs, isGap m) : gs = [] := by
  cases gs with
  | nil => rfl
  | cons m gs =>
    have hm := ht.isBlank_head m.1 (by simp [htext])
    simp [Tiles.isBlank_of_isGap hgs m.1 (by simp)] at hm

theorem eq_nil_of_gaps_right {u : Text} {gs : List Mark} (ht : Solid t)
    (htext : t = u ++ gs.map Prod.fst) (hgs : ∀ m ∈ gs, isGap m) : gs = [] := by
  rcases eq_nil_or_concat' gs with rfl | ⟨gs, m, rfl⟩
  · rfl
  · have hm := ht.isBlank_getLast m.1 (by simp [htext])
    simp [Tiles.isBlank_of_isGap hgs m.1 (by simp)] at hm

theorem solid_of_append {a : Text} (ht : Solid (a ++ t))
    (hfirst : ∃ c u, t = c :: u ∧ isBlank c = false) : Solid t := by
  obtain ⟨c, u, rfl, hc⟩ := hfirst
  obtain ⟨v, d, hv, hd⟩ := ht.last
  refine ⟨⟨c, u, rfl, hc⟩, ?_⟩
  obtain ⟨u', e, hu⟩ := (eq_nil_or_concat' (c :: u)).resolve_left (by simp)
  rw [hu, ← append_assoc] at hv
  have heq : e = d := (cons.inj (append_inj' hv rfl).2).1
  exact ⟨u', e, hu, heq ▸ hd⟩

/-- A solid text that is not one word has a first word, with a gap after it. -/
theorem exists_gap (ht : Solid t) (hcut : ¬ Uncut constructs t) :
    ∃ w g u, t = w ++ g ++ u ∧ Solid w ∧ Uncut constructs w ∧ Apart constructs w g u ∧ Solid u := by
  have htiles := tiles_words constructs t
  have hsolid := htiles.solid (framed_marks constructs t)
  have htext := map_fst_marks constructs t
  rw [Uncut] at hcut
  generalize hms : marks constructs t = ms at htiles htext hcut
  generalize words constructs t = ws at htiles hsolid
  cases htiles with
  | nil hgs =>
    obtain rfl := eq_nil_of_gaps_left ht (u := []) (by simp [htext]) hgs
    exact absurd htext.symm ht.ne_nil
  | @cons _ gs w rest ws hgs hne hw hrest htail =>
    obtain rfl : gs = [] :=
      eq_nil_of_gaps_left ht (u := (w ++ rest).map Prod.fst) (by simp [← htext]) hgs
    cases htail with
    | nil hgs' =>
      obtain rfl := eq_nil_of_gaps_right ht (u := w.map Prod.fst) (by simp [← htext]) hgs'
      exact absurd (by simpa using hw) hcut
    | @cons _ gs' w' rest' ws' hgs' hne' hw' _ _ =>
      cases gs' with
      | nil =>
        obtain ⟨m, w', rfl⟩ := exists_cons_of_ne_nil hne'
        have hm := hrest m (by simp)
        exact absurd (hw' m (by simp)) (by simp [hm])
      | cons m gs' =>
        have hblank := Tiles.isBlank_of_isGap hgs'
        have hm : isBlank m.1 ∧ m.2 = false := by
          simpa [isGap] using hgs' m (by simp)
        have hcutting : marks constructs (w.map Prod.fst ++ m.1 :: gs'.map Prod.fst
              ++ (w' ++ rest').map Prod.fst)
            = w ++ (m.1, false) :: (gs' ++ (w' ++ rest')) := by
          rw [← hm.2]
          simpa [← htext] using hms
        obtain ⟨hapart, hword, _⟩ := Apart.of_marks ⟨by simp, hblank⟩ hcutting (by simp)
        refine ⟨w.map Prod.fst, (m :: gs').map Prod.fst, (w' ++ rest').map Prod.fst,
          by simp [← htext], hsolid _ mem_cons_self, ?_, hapart, ?_⟩
        · rw [Uncut, ← hword]
          exact hw
        · obtain ⟨c, v, hv, hc⟩ : ∃ c v, w'.map Prod.fst = c :: v ∧ isBlank c = false :=
            (hsolid _ (mem_cons_of_mem _ mem_cons_self)).first
          refine solid_of_append (a := (w ++ m :: gs').map Prod.fst) ?_
            ⟨c, v ++ rest'.map Prod.fst, ?_, hc⟩
          · simpa [← htext] using ht
          · rw [map_append, hv, cons_append]

theorem exists_cut (constructs : List Construct) (ht : Solid t) : ∃ ws, Cut constructs t ws := by
  induction hn : t.length using Nat.strong_induction_on generalizing t with
  | _ n ih =>
    by_cases huncut : Uncut constructs t
    · exact ⟨[t], .last ht huncut⟩
    · obtain ⟨w, g, u, rfl, hw, hword, hapart, hu⟩ := exists_gap ht huncut
      have hlen : u.length < n := by
        have hpos := length_pos_iff.2 hapart.blank.1
        simp only [length_append] at hn
        omega
      obtain ⟨ws, hws⟩ := ih _ hlen hu rfl
      exact ⟨w :: ws, .cons hw hword hapart hws⟩

/-! ## Cells joined by gaps -/

/-- Groups of cells with a run of blanks between neighbours. -/
inductive Joined : List Cell → List (List Cell) → Prop
  | last (c : List Cell) : Joined c [c]
  | cons (c : List Cell) (g g' : Text) {zs : List Cell} {cs : List (List Cell)} :
      Joined zs cs → Joined (c ++ .gap g g' :: zs) (c :: cs)

theorem Joined.fit (h : Joined zs cs) (hfit : Fit free zs) : ∀ c ∈ cs, Fit true c := by
  induction h generalizing free with
  | last c => simpa using hfit.to_true
  | cons c g g' _ ih => simpa using ⟨hfit.left.to_true, ih hfit.right.2.2.2⟩

theorem Joined.unique {cs' : List (List Cell)} (h : Joined zs cs) (h' : Joined zs cs')
    (hfit : Fit free zs) (heq : cs.map src = cs'.map src) : cs = cs' := by
  induction h generalizing free cs' with
  | last c =>
    cases h' with
    | last _ => rfl
    | cons c' g g' h' =>
      have hg := hfit.right.1.1
      simp_all
  | @cons c g g' zs cs h ih =>
    have hg : g ≠ [] := hfit.right.1.1
    generalize hzs : c ++ .gap g g' :: zs = all at h' hfit
    cases h' with
    | last _ =>
      subst hzs
      simp [hg] at heq
    | @cons c' k k' zs' cs' h' =>
      obtain ⟨hsrc, htail⟩ := cons.inj heq
      -- the first groups have the same source, so neither of them reaches beyond the other: it would
      -- hold the blanks of a gap besides
      rcases append_eq_append_iff.1 hzs with ⟨x, rfl, hx⟩ | ⟨x, rfl, hx⟩
      · cases x with
        | nil =>
          obtain ⟨_, rfl⟩ := cons.inj hx
          rw [ih h' hfit.right.2.2.2 htail, append_nil]
        | cons z x =>
          obtain ⟨rfl, _⟩ := cons.inj hx
          simp [hg] at hsrc
      · cases x with
        | nil =>
          obtain ⟨_, rfl⟩ := cons.inj hx
          rw [ih h' hfit.right.2.2.2 htail, append_nil]
        | cons z x =>
          obtain ⟨rfl, _⟩ := cons.inj hx
          have hk := hfit.right.1.1
          simp [hk] at hsrc

/-- A run of blanks ends where the next visible character is. -/
theorem blank_append_inj {g g' a b : Text} (hg : ∀ c ∈ g, isBlank c)
    (hg' : ∀ c ∈ g', isBlank c) (ha : ∀ c ∈ a.head?, isBlank c = false)
    (hb : ∀ c ∈ b.head?, isBlank c = false) (h : g ++ a = g' ++ b) : g = g' ∧ a = b := by
  induction g generalizing g' with
  | nil =>
    cases g' with
    | nil => exact ⟨rfl, h⟩
    | cons c g' =>
      have hc := ha c (by rw [nil_append] at h; simp [h])
      exact absurd (hg' c (by simp)) (by simp [hc])
  | cons c g ih =>
    cases g' with
    | nil =>
      have hc := hb c (by rw [nil_append] at h; simp [← h])
      exact absurd (hg c (by simp)) (by simp [hc])
    | cons d g' =>
      rw [cons_append, cons_append, cons.injEq] at h
      obtain ⟨hgap, hrest⟩ := ih (fun e he => hg e (by simp [he])) (fun e he => hg' e (by simp [he])) h.2
      exact ⟨by rw [h.1, hgap], hrest⟩

/-- A run of blanks that is split off is a gap of the cells. -/
theorem Fit.exists_gap (h : Fit free zs) {w g : Text} (hsplit : src zs = w ++ (g ++ t))
    (hw : ∀ c ∈ w.getLast?, isBlank c = false) (hg : BlankRun g)
    (ht : ∀ c ∈ t.head?, isBlank c = false) :
    ∃ xs g' ys, zs = xs ++ .gap g g' :: ys ∧ src xs = w ∧ src ys = t := by
  induction zs generalizing free w with
  | nil =>
    have hnil := hg.1
    simp_all
  | cons z zs ih =>
    cases z with
    | char c =>
      cases w with
      | nil =>
        obtain ⟨d, g, rfl⟩ := exists_cons_of_ne_nil hg.1
        have hd := hg.2 d (by simp)
        rw [← (cons.inj hsplit).1, h.1] at hd
        exact absurd hd (by simp)
      | cons d w =>
        rw [src_char, cons_append, cons.injEq] at hsplit
        have hlast : ∀ e ∈ w.getLast?, isBlank e = false := by
          intro e he
          refine hw e ?_
          cases w with
          | nil => simp at he
          | cons f w => rwa [getLast?_cons_cons]
        obtain ⟨xs, g', ys, rfl, rfl, rfl⟩ := ih h.2 hsplit.2 hlast
        exact ⟨.char c :: xs, g', ys, rfl, by rw [src_char, hsplit.1], rfl⟩
    | gap k k' =>
      obtain ⟨hk, _, hnext, hrest⟩ := h
      rcases append_eq_append_iff.1 hsplit with ⟨w', rfl, hsplit'⟩ | ⟨x, rfl, hx⟩
      · -- the run of this cell is a part of the text before
        have hlast : ∀ e ∈ w'.getLast?, isBlank e = false := by
          intro e he
          refine hw e ?_
          rw [getLast?_append, he]
          rfl
        obtain ⟨xs, g', ys, rfl, rfl, rfl⟩ := ih hrest hsplit' hlast
        exact ⟨.gap k k' :: xs, g', ys, rfl, rfl, rfl⟩
      · -- it reaches beyond the text before, which ends with a visible character
        have hnil : w = [] := by
          rcases eq_nil_or_concat' w with rfl | ⟨w', e, rfl⟩
          · rfl
          · have he := hk.2 e (by simp)
            rw [hw e (by simp)] at he
            exact absurd he (by simp)
        subst hnil
        obtain ⟨rfl, rfl⟩ := blank_append_inj hg.2 hk.2 ht (hrest.isBlank_head hnext).1 hx
        exact ⟨[], k', zs, rfl, rfl, rfl⟩
    | mark =>
      obtain ⟨xs, g', ys, rfl, rfl, rfl⟩ := ih h.2.2 hsplit hw
      exact ⟨.mark :: xs, g', ys, rfl, rfl, rfl⟩

theorem Fit.exists_concat (h : Fit free zs) (hsolid : Solid (src zs)) :
    ∃ xs c, zs = xs ++ [.char c] ∧ isBlank c = false := by
  obtain ⟨t, d, hd, hvisible⟩ := hsolid.last
  rcases eq_nil_or_concat' zs with rfl | ⟨xs, z, rfl⟩
  · exact absurd hd (by simp)
  · have hz := h.right
    cases z with
    | char c => exact ⟨xs, c, rfl, hz.1⟩
    | gap g g' =>
      obtain ⟨g, c, rfl⟩ := (eq_nil_or_concat' g).resolve_left hz.1.1
      have hc := hz.1.2 c (by simp)
      rw [src_append, src_gap, src_nil, append_nil, ← append_assoc] at hd
      rw [(cons.inj (append_inj' hd rfl).2).1, hvisible] at hc
      exact absurd hc (by simp)
    | mark =>
      obtain ⟨_, ⟨c, rest, hnil, _⟩, _⟩ := hz
      exact absurd hnil (by simp)

theorem Fit.solid (h : Fit free zs) (hsolid : Solid (src zs)) : Solid (out zs) := by
  constructor
  · obtain ⟨c, t, hc, hvisible⟩ := hsolid.first
    cases zs with
    | nil => simp at hc
    | cons z zs =>
      cases z with
      | char e => exact ⟨e, out zs, rfl, h.1⟩
      | gap g g' =>
        obtain ⟨e, g, rfl⟩ := exists_cons_of_ne_nil h.1.1
        have he := h.1.2 e (by simp)
        rw [(cons.inj hc).1, hvisible] at he
        exact absurd he (by simp)
      | mark => exact ⟨'\\', out zs, rfl, isBlank_backslash⟩
  · obtain ⟨xs, c, rfl, hc⟩ := h.exists_concat hsolid
    exact ⟨out xs, c, by simp, hc⟩

/-- **Cutting commutes with laying out.** -/
theorem Cut.relaid {ws : List Text} (hfit : Fit free zs) (h : Cut constructs (src zs) ws) :
    ∃ cs, ws = cs.map src ∧ Cut constructs (out zs) (cs.map out) ∧ Joined zs cs := by
  generalize ht : src zs = t at h
  induction h generalizing free zs with
  | last hw huncut =>
    subst ht
    exact ⟨[zs], rfl, .last (hfit.solid hw) (uncut_lockstep hfit huncut), .last zs⟩
  | @cons w g t ws hw huncut hapart hcut ih =>
    obtain ⟨xs, g', ys, rfl, rfl, rfl⟩ := hfit.exists_gap (by simpa using ht) hw.isBlank_getLast
        hapart.blank
        hcut.solid.isBlank_head
    obtain ⟨cs, rfl, hcs, hjoined⟩ := ih hfit.right.2.2.2 rfl
    refine ⟨xs :: cs, rfl, ?_, .cons xs g g' hjoined⟩
    rw [out_append, out_gap, ← append_assoc]
    exact .cons (hfit.left.solid hw) (uncut_lockstep hfit.left huncut) (apart_lockstep hfit hapart)
      hcs

theorem Cut.of_joined (h : Cut constructs (src zs) (cs.map src)) (hfit : Fit free zs)
    (hjoined : Joined zs cs) : Cut constructs (out zs) (cs.map out) := by
  obtain ⟨cs', hcs, hout, hjoined'⟩ := h.relaid hfit
  rwa [hjoined.unique hjoined' hfit hcs]

end Reflow.Relaid
