import Mathlib.Data.List.Chain
import Mathlib.Data.List.Pairwise
import Reflow.Proofs.Glue
import Reflow.Proofs.Sentences

/-!
Spans and words as tilings of a text.

`Laid` says what a row of pieces is: an atomic piece is what the first recognised construct reaches,
and in a plain piece no construct is recognised at any place. Words are the runs of marks that are
no gaps, so they are compared with the spans place by place: a place in a span is a mark, glued
exactly when the span is atomic, and a place is outside all words exactly when its mark is a gap.
-/

open List

namespace Reflow.Atomic

open Text
open Sentence (slice slice_append)

variable {constructs : List Construct} {t : Text} {ps : List Piece} {s : Span} {i : Nat}

/-! ## Rows of pieces -/

/-- The row of pieces that a text is cut into, from any of its places on. -/
inductive Laid (constructs : List Construct) : List Piece → Prop
  | nil : Laid constructs []
  | atomic {u : Text} {k : Construct} {ps : List Piece} :
      recognise? constructs (u ++ ps.flatMap Piece.text) = some (k, u.length) →
      Laid constructs ps → Laid constructs (⟨u, some k⟩ :: ps)
  | plain {u : Text} {ps : List Piece} : u ≠ [] →
      (∀ a b, u = a ++ b → b ≠ [] →
        recognise? constructs (b ++ ps.flatMap Piece.text) = none) →
      (∀ p ∈ ps.head?, p.construct.isSome = true) →
      Laid constructs ps → Laid constructs (⟨u, none⟩ :: ps)

theorem Laid.consPlain {c : Char} (h : Laid constructs ps)
    (hc : recognise? constructs (c :: ps.flatMap Piece.text) = none) :
    Laid constructs (consPlain c ps) := by
  have halone : (∀ p ∈ ps.head?, p.construct.isSome) → Laid constructs (⟨[c], none⟩ :: ps) := by
    intro hhead
    refine .plain (by simp) (fun a b hab hb => ?_) hhead h
    obtain ⟨rfl, rfl⟩ : a = [] ∧ b = [c] := by
      cases a <;> simp_all
    exact hc
  -- the character makes a plain piece of its own, unless there is one to go in front of
  cases h with
  | nil => exact halone (by simp)
  | atomic hrec hps => exact halone (by simp)
  | @plain u ps hne hnone hhead hps =>
    refine .plain (by simp) (fun a b hab hb => ?_) hhead hps
    cases a with
    | nil =>
      obtain rfl : c :: u = b := hab
      simpa using hc
    | cons d a =>
      obtain ⟨rfl, rfl⟩ : c = d ∧ u = a ++ b := by simpa using hab
      exact hnone a b rfl hb

/-- **The pieces of a text are such a row.** -/
theorem laid_pieces (constructs : List Construct) (t : Text) :
    Laid constructs (pieces constructs t) := by
  induction t using marks_induction constructs with
  | nil =>
    rw [pieces]
    exact .nil
  | plain c t h ih =>
    rw [pieces, h]
    exact ih.consPlain (by rwa [flatMap_pieces])
  | atomic t k n h ih =>
    obtain ⟨_, hle, _⟩ := solid_take_of_recogniser (recognise?_eq_some h).2
    rw [pieces_of_some h]
    refine .atomic ?_ ih
    rwa [flatMap_pieces, take_append_drop, length_take_of_le hle]

/-! ## What spans are -/

/-- The spans follow one another from `lo` to `hi`, and none is empty. -/
def Consecutive : Nat → List Span → Nat → Prop
  | lo, [], hi => lo = hi
  | lo, s :: rest, hi => s.start = lo ∧ s.start < s.stop ∧ Consecutive s.stop rest hi

/-- `k` is the first construct of the list that is recognised at the start of the text, and it
reaches over `n` characters. -/
def FirstAt (constructs : List Construct) (u : Text) (k : Construct) (n : Nat) : Prop :=
  ∃ before after, constructs = before ++ k :: after ∧ (∀ j ∈ before, j.recogniser u = none) ∧
    k.recogniser u = some n

/-- A row of spans that tiles a text. -/
structure SpanTiling (constructs : List Construct) (t : Text) (ss : List Span) : Prop where
  /-- The spans run from the start of the text to its end. -/
  consecutive : Consecutive 0 ss t.length
  /-- A span holds the stretch of the text that it covers. -/
  text_eq : ∀ s ∈ ss, s.text = slice t s.start s.stop
  /-- Plain spans are never adjacent. -/
  maximal : ss.IsChain fun a b => a.construct.isSome = true ∨ b.construct.isSome = true
  /-- An atomic span is the first construct that is recognised at its start, as far as it
  reaches. -/
  atomic : ∀ s ∈ ss, ∀ k, s.construct = some k → FirstAt constructs (t.drop s.start) k s.text.length
  /-- No construct is recognised anywhere in a plain span. -/
  plain : ∀ s ∈ ss, s.construct = none → ∀ i, s.start ≤ i → i < s.stop →
    ∀ k ∈ constructs, k.recogniser (t.drop i) = none

theorem firstAt_of_recognise? {u : Text} {k : Construct} {n : Nat}
    (h : recognise? constructs u = some (k, n)) : FirstAt constructs u k n := by
  obtain ⟨before, j, after, rfl, hj, hbefore⟩ := findSome?_eq_some_iff.1 h
  obtain ⟨m, hm, heq⟩ := Option.map_eq_some_iff.1 hj
  obtain ⟨rfl, rfl⟩ : j = k ∧ m = n := by simpa using heq
  exact ⟨before, after, rfl, fun i hi => by simpa using hbefore i hi, hm⟩

theorem consecutive_locate (h : Laid constructs ps) (start : Nat) :
    Consecutive start (locate start ps) (start + (ps.flatMap Piece.text).length) := by
  induction h generalizing start with
  | nil => exact rfl
  | @atomic u k ps hrec _ ih =>
    have hpos : 0 < u.length := (solid_take_of_recogniser (recognise?_eq_some hrec).2).1
    refine ⟨rfl, Nat.lt_add_of_pos_right hpos, ?_⟩
    rw [flatMap_cons, length_append, ← Nat.add_assoc]
    exact ih _
  | @plain u ps hne _ _ _ ih =>
    refine ⟨rfl, Nat.lt_add_of_pos_right (length_pos_iff.2 hne), ?_⟩
    rw [flatMap_cons, length_append, ← Nat.add_assoc]
    exact ih _

theorem head?_locate (start : Nat) (ps : List Piece) :
    (locate start ps).head? = ps.head?.map fun p => { p with start := start } := by
  cases ps <;> rfl

theorem isChain_locate (h : Laid constructs ps) (start : Nat) :
    (locate start ps).IsChain fun a b => a.construct.isSome ∨ b.construct.isSome := by
  induction h generalizing start with
  | nil => exact .nil
  | atomic _ _ ih => exact isChain_cons.2 ⟨fun _ _ => .inl rfl, ih _⟩
  | plain _ _ hhead _ ih =>
    refine isChain_cons.2 ⟨fun s hs => .inr ?_, ih _⟩
    rw [head?_locate] at hs
    obtain ⟨p, hp, rfl⟩ := Option.map_eq_some_iff.1 hs
    exact hhead p hp

theorem Laid.of_append {ps₁ ps₂ : List Piece} (h : Laid constructs (ps₁ ++ ps₂)) :
    Laid constructs ps₂ := by
  induction ps₁ with
  | nil => exact h
  | cons p ps₁ ih =>
    cases h with
    | atomic _ h => exact ih h
    | plain _ _ _ h => exact ih h

theorem exists_row (hs : s ∈ spans constructs t) :
    ∃ before ps, t = before ++ (s.text ++ ps.flatMap Piece.text) ∧ s.start = before.length ∧
      Laid constructs (s.toPiece :: ps) := by
  obtain ⟨ps₁, ps₂, hps, hstart⟩ := mem_locate_iff.1 hs
  refine ⟨ps₁.flatMap Piece.text, ps₂, ?_, by simpa using hstart, ?_⟩
  · rw [← flatMap_pieces constructs t, hps, flatMap_append, flatMap_cons]
  · have hlaid := laid_pieces constructs t
    rw [hps] at hlaid
    exact hlaid.of_append

/-- **The spans of a text tile it.** -/
theorem spanTiling_spans (constructs : List Construct) (t : Text) :
    SpanTiling constructs t (spans constructs t) where
  consecutive := by
    have h := consecutive_locate (laid_pieces constructs t) 0
    rwa [flatMap_pieces, Nat.zero_add] at h
  text_eq s hs := by
    obtain ⟨before, ps, ht, hstart, _⟩ := exists_row hs
    rw [Span.stop, hstart, ht, ← append_assoc, slice_append]
  maximal := isChain_locate (laid_pieces constructs t) 0
  atomic s hs k hk := by
    obtain ⟨before, ps, ht, hstart, hlaid⟩ := exists_row hs
    obtain ⟨⟨u, construct⟩, start⟩ := s
    obtain rfl : construct = some k := hk
    cases hlaid with
    | atomic hrec _ =>
      rw [ht, hstart, drop_left]
      exact firstAt_of_recognise? hrec
  plain s hs hplain i hi hstop k hk := by
    obtain ⟨before, ps, ht, hstart, hlaid⟩ := exists_row hs
    obtain ⟨⟨u, construct⟩, start⟩ := s
    obtain rfl : construct = none := hplain
    obtain rfl : start = before.length := hstart
    obtain ⟨j, rfl⟩ : ∃ j, i = before.length + j := ⟨i - before.length, by
      simp only at hi
      omega⟩
    have hj : j < u.length := by
      simp only [Span.stop] at hstop
      omega
    cases hlaid with
    | plain _ hnone _ _ =>
      -- no construct starts inside the plain stretch, so none starts at this offset of the text
      have hrest := hnone (u.take j) (u.drop j) (take_append_drop j u).symm
        (ne_nil_of_length_pos (by rw [length_drop]; omega))
      rw [ht, drop_length_add_append, drop_append_of_le_length hj.le]
      simp only [recognise?, findSome?_eq_none_iff, Option.map_eq_none_iff] at hrest
      exact hrest k hk

/-! ## Places of words -/

section Places

variable {m : Mark} {i : Nat}

variable {start : Nat} {ms : List Mark} {ws : List Word} (h : Tiles start ms ws)
include h

theorem Tiles.text_ne_nil : ∀ w ∈ ws, w.text ≠ [] := by
  intro w hw
  obtain ⟨front, v, back, -, rfl, hne, -⟩ := h.exists_split hw
  simpa using hne

/-- **Inside a word there is no gap.** -/
theorem Tiles.isGap_inside {w : Word} (hw : w ∈ ws) (hm : ms[i]? = some m)
    (hlo : w.start ≤ start + i) (hhi : start + i < w.stop) : isGap m = false := by
  obtain ⟨front, v, back, rfl, rfl, -, hv, -⟩ := h.exists_split hw
  simp only [Word.stop, length_map] at hlo hhi
  rw [append_assoc, getElem?_append_right (by omega),
    getElem?_append_left (by omega)] at hm
  exact hv m (mem_of_getElem? hm)

/-- **Outside all words there are only gaps.** -/
theorem Tiles.isGap_outside (hm : ms[i]? = some m)
    (hout : ∀ w ∈ ws, ¬ (w.start ≤ start + i ∧ start + i < w.stop)) : isGap m := by
  induction h generalizing i with
  | nil hg => exact hg m (mem_of_getElem? hm)
  | @cons start g v rest ws hg _ _ _ _ ih =>
    have hfirst := hout ⟨v.map Prod.fst, start + g.length⟩ mem_cons_self
    simp only [Word.stop, length_map] at hfirst
    by_cases hi : i < g.length
    · rw [append_assoc, getElem?_append_left hi] at hm
      exact hg m (mem_of_getElem? hm)
    · rw [getElem?_append_right (by rw [length_append]; omega), length_append] at hm
      refine ih hm fun w hw => ?_
      have hrest := hout w (by simp [hw])
      omega

/-- **A word ends only at a gap.** -/
theorem Tiles.isGap_stop {w : Word} (hw : w ∈ ws) (hm : ms[i]? = some m) (hi : start + i = w.stop) :
    isGap m := by
  obtain ⟨front, v, back, rfl, rfl, -, -, -, hback⟩ := h.exists_split hw
  simp only [Word.stop, length_map] at hi
  rw [getElem?_append_right (by rw [length_append]; omega), length_append,
    show i - (front.length + v.length) = 0 by omega, ← head?_eq_getElem?] at hm
  exact hback m hm

theorem Tiles.text_eq (before : Text) (hbefore : before.length = start) :
    ∀ w ∈ ws, w.text = slice (before ++ ms.map Prod.fst) w.start w.stop := by
  intro w hw
  obtain ⟨front, v, back, rfl, rfl, -⟩ := h.exists_split hw
  have htext : before ++ (front ++ v ++ back).map Prod.fst
      = (before ++ front.map Prod.fst) ++ v.map Prod.fst ++ back.map Prod.fst := by simp
  have hlen : start + front.length = (before ++ front.map Prod.fst).length := by simp [hbefore]
  simp only [htext, Word.stop, hlen, slice_append]

/-- **Between consecutive words there are gaps**, and at least one. -/
theorem Tiles.isChain (before : Text) (hbefore : before.length = start) :
    ws.IsChain fun a b =>
      a.stop < b.start ∧ isBlankText (slice (before ++ ms.map Prod.fst) a.stop b.start) := by
  induction h generalizing before with
  | nil _ => exact .nil
  | @cons start g v rest ws _ _ _ hrest htiles ih =>
    obtain ⟨front, hfront⟩ : ∃ front, before ++ g.map Prod.fst ++ v.map Prod.fst = front := ⟨_, rfl⟩
    have htext : before ++ (g ++ v ++ rest).map Prod.fst = front ++ rest.map Prod.fst := by
      simp [← hfront]
    have hlen : front.length = start + g.length + v.length := by
      simp [← hfront, hbefore, Nat.add_assoc]
    have hstop : (⟨v.map Prod.fst, start + g.length⟩ : Word).stop = front.length := by
      rw [hlen, Word.stop, length_map]
    rw [htext]
    refine isChain_cons.2 ⟨fun b hb => ?_, ih front hlen⟩
    cases htiles with
    | nil _ => simp at hb
    | @cons _ g' v' rest' ws' hg' hne' hv' _ _ =>
      have hstart : b.start = front.length + (g'.map Prod.fst).length := by
        obtain rfl : (⟨v'.map Prod.fst, start + g.length + v.length + g'.length⟩ : Word) = b := by
          simpa using hb
        rw [hlen, length_map]
      rw [hstop, hstart]
      constructor
      · -- what follows the word begins with a gap, so the next word does not begin there
        refine Nat.lt_add_of_pos_right ?_
        cases g' with
        | cons _ _ => simp
        | nil =>
          obtain ⟨m, v', rfl⟩ := exists_cons_of_ne_nil hne'
          have hgap := hrest m (by simp)
          rw [hv' m (by simp)] at hgap
          simp at hgap
      · rw [append_assoc g' v' rest', map_append, ← append_assoc, slice_append]
        exact all_eq_true.2 (isBlank_of_isGap hg')

theorem Tiles.pairwise : ws.Pairwise fun a b => a.stop < b.start := by
  have htrans : Trans (fun a b : Word => a.stop < b.start) (fun a b : Word => a.stop < b.start)
      (fun a b : Word => a.stop < b.start) := by
    refine ⟨fun {a b c} hab hbc => ?_⟩
    have hle : b.start ≤ b.stop := Nat.le_add_right _ _
    omega
  have hchain := h.isChain (replicate start ' ') (by simp)
  exact (hchain.imp fun _ _ hab => hab.1).pairwise

end Places

theorem eq_of_apart {α : Type} {start stop : α → Nat} {l : List α}
    (h : l.Pairwise fun a b => stop a < start b) {a b : α} (ha : a ∈ l) (hb : b ∈ l)
    (hai : start a ≤ i ∧ i < stop a) (hbi : start b ≤ i ∧ i < stop b) : a = b := by
  have hsymm : Std.Symm fun a b : α => stop a < start b ∨ stop b < start a :=
    ⟨fun _ _ => Or.symm⟩
  have happart : l.Pairwise fun a b => stop a < start b ∨ stop b < start a :=
    h.imp fun hab => .inl hab
  by_contra hne
  rcases happart.forall ha hb hne with hlt | hlt
  all_goals omega

/-! ## Words and spans, place by place -/

theorem getElem?_marks (constructs : List Construct) (t : Text) (i : Nat) :
    t[i]? = ((marks constructs t)[i]?).map Prod.fst := by
  rw [← getElem?_map, map_fst_marks]

/-- A place in a span is glued exactly when the span is atomic. -/
theorem exists_mark_of_span (hs : s ∈ spans constructs t) (hlo : s.start ≤ i) (hhi : i < s.stop) :
    ∃ c, (marks constructs t)[i]? = some (c, s.construct.isSome) := by
  obtain ⟨ps₁, ps₂, hps, hstart⟩ := mem_locate_iff.1 hs
  have hlen : (ps₁.flatMap Piece.marks).length = s.start := by
    rw [hstart, Nat.zero_add, ← map_fst_flatMap_marks, length_map]
  have hj : i - s.start < s.text.length := by
    simp only [Span.stop] at hhi
    omega
  rw [marks, hps, flatMap_append, flatMap_cons,
    getElem?_append_right (by omega), hlen, getElem?_append_left (by simpa [Piece.marks])]
  simp [Piece.marks, hj]

theorem exists_span_of_glued {c : Char} (hm : (marks constructs t)[i]? = some (c, true)) :
    ∃ s ∈ spans constructs t, s.construct.isSome ∧ s.start ≤ i ∧ i < s.stop := by
  obtain ⟨hi, hget⟩ := List.getElem?_eq_some_iff.1 hm
  have hsplit : marks constructs t
      = (marks constructs t).take i ++ (c, true) :: (marks constructs t).drop (i + 1) := by
    rw [← hget, ← drop_eq_getElem_cons hi, take_append_drop]
  -- the piece whose marks hold this one, `a` before it and `b` after it
  obtain ⟨ps₁, p, ps₂, a, b, hps, hp, hx⟩ := exists_piece_of_marks hsplit
  have hlen : (ps₁.flatMap Piece.text).length + a.length = i := by
    have := congrArg length hx
    rw [length_take_of_le hi.le, length_append] at this
    rw [this, ← map_fst_flatMap_marks, length_map]
  have hplen : p.text.length = a.length + (b.length + 1) := by
    simpa [Piece.marks] using congrArg length hp
  have hglued : p.construct.isSome := by
    have hmem : ((c, true) : Mark) ∈ p.marks := by simp [hp]
    obtain ⟨d, _, hd⟩ := mem_map.1 hmem
    exact congrArg Prod.snd hd
  refine ⟨{ p with start := (ps₁.flatMap Piece.text).length },
    mem_locate_iff.2 ⟨ps₁, ps₂, hps, by simp⟩, hglued, ?_, ?_⟩
  · exact hlen ▸ Nat.le_add_right _ _
  · simp only [Span.stop]
    omega

theorem start_lt_stop_of_atomic (hs : s ∈ spans constructs t) (hatomic : s.construct.isSome) :
    s.start < s.stop := by
  have hmem : s.toPiece ∈ pieces constructs t := by
    obtain ⟨ps₁, ps₂, hps, _⟩ := mem_locate_iff.1 hs
    simp [hps]
  have hsolid := solid_of_mem_pieces hmem hatomic
  exact Nat.lt_add_of_pos_right (length_pos_iff.2 hsolid.ne_nil)

/-- A row of words that tiles a text. -/
structure WordTiling (constructs : List Construct) (t : Text) (ws : List Word) : Prop where
  /-- A word holds the stretch of the text that it covers, which is not empty. -/
  text_eq : ∀ w ∈ ws, w.text = slice t w.start w.stop ∧ w.start < w.stop
  /-- Between consecutive words there are blanks, and nothing else. -/
  gaps : ws.IsChain fun a b =>
    a.stop < b.start ∧ isBlankText (slice t a.stop b.start) = true
  /-- Outside the words everything is blank. -/
  outside : ∀ i c, t[i]? = some c → (∀ w ∈ ws, ¬ (w.start ≤ i ∧ i < w.stop)) → isBlank c = true
  /-- An atomic span lies inside exactly one word. -/
  whole : ∀ s ∈ spans constructs t, s.construct.isSome = true →
    ∃! w, w ∈ ws ∧ w.start ≤ s.start ∧ s.stop ≤ w.stop
  /-- A blank inside a word lies inside an atomic span. -/
  blanks : ∀ w ∈ ws, ∀ i c, w.start ≤ i → i < w.stop → t[i]? = some c → isBlank c = true →
    ∃ s ∈ spans constructs t, s.construct.isSome = true ∧ s.start ≤ i ∧ i < s.stop

theorem stop_le_of_span (hs : s ∈ spans constructs t) (hatomic : s.construct.isSome) {w : Word}
    (hw : w ∈ words constructs t) (hin : w.start ≤ s.start ∧ s.start < w.stop) :
    s.stop ≤ w.stop := by
  -- otherwise the place where the word ends is in the span, and so glued
  by_contra hlt
  obtain ⟨c, hm⟩ := exists_mark_of_span hs (i := w.stop) (by omega) (by omega)
  have hgap := (tiles_words constructs t).isGap_stop hw hm (Nat.zero_add _)
  simp [isGap, hatomic] at hgap

/-- **The words of a text tile it**, and keep its constructs whole. -/
theorem wordTiling_words (constructs : List Construct) (t : Text) :
    WordTiling constructs t (words constructs t) := by
  have htiles := tiles_words constructs t
  have hnonempty : ∀ w ∈ words constructs t, w.start < w.stop := fun w hw =>
    Nat.lt_add_of_pos_right (length_pos_iff.2 (htiles.text_ne_nil w hw))
  have houtside : ∀ i c, t[i]? = some c →
      (∀ w ∈ words constructs t, ¬ (w.start ≤ i ∧ i < w.stop)) → isBlank c := by
    intro i c hc hout
    rw [getElem?_marks constructs] at hc
    obtain ⟨m, hm, rfl⟩ := Option.map_eq_some_iff.1 hc
    have hgap := htiles.isGap_outside hm (by simpa using hout)
    simp only [isGap, Bool.and_eq_true] at hgap
    exact hgap.1
  refine ⟨fun w hw => ⟨?_, hnonempty w hw⟩, ?_, houtside, ?_, ?_⟩
  · have h := htiles.text_eq [] rfl w hw
    rwa [map_fst_marks] at h
  · have h := htiles.isChain [] rfl
    rwa [map_fst_marks] at h
  · intro s hs hatomic
    have hpos := start_lt_stop_of_atomic hs hatomic
    -- the first place of the span is glued, so it is no gap and there is a word around it
    obtain ⟨c, hm⟩ := exists_mark_of_span hs le_rfl hpos
    obtain ⟨w, hw, hin⟩ : ∃ w ∈ words constructs t, w.start ≤ s.start ∧ s.start < w.stop := by
      by_contra hnone
      have hgap := htiles.isGap_outside hm fun w hw hin => hnone ⟨w, hw, by omega⟩
      simp [isGap, hatomic] at hgap
    refine ⟨w, ⟨hw, hin.1, stop_le_of_span hs hatomic hw hin⟩, ?_⟩
    rintro v ⟨hv, hlo, hhi⟩
    exact eq_of_apart htiles.pairwise hv hw ⟨hlo, by omega⟩ hin
  · intro w hw i c hlo hhi hc hblank
    rw [getElem?_marks constructs] at hc
    obtain ⟨⟨d, glued⟩, hm, rfl⟩ := Option.map_eq_some_iff.1 hc
    have hgap := htiles.isGap_inside hw hm (by omega) (by omega)
    obtain rfl : glued := by simpa [isGap, hblank] using hgap
    exact exists_span_of_glued hm

theorem marks_no_constructs (t : Text) : marks [] t = t.map fun c => (c, false) := by
  induction t with
  | nil => simp
  | cons c t ih => rw [marks_of_none rfl, ih, map_cons]

/-! ## Main result -/

/-- **Spans and words tile the text.** For every text and every list of constructs, in any order, the
spans cover the text from its start to its end, each holding its own stretch; the atomic ones are
the first constructs recognised where they start, the plain ones lie between them. The words are
stretches of the text with blanks between them and around them, no construct is cut, and blanks
inside a word are blanks of a construct. With no constructs the words are those between blanks. -/
theorem spans_and_words_tile (constructs : List Construct) (t : Text) :
    SpanTiling constructs t (spans constructs t) ∧
      WordTiling constructs t (words constructs t) ∧
      (words [] t).map Word.text = Text.words t := by
  refine ⟨spanTiling_spans constructs t, wordTiling_words constructs t, ?_⟩
  rw [words, marks_no_constructs, ← words_eq_solidRuns]

end Reflow.Atomic
