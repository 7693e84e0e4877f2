import Mathlib.Data.List.Basic
import Mathlib.Data.List.Infix
import Mathlib.Data.List.TakeWhile
import Reflow.Text.Basic

/-!
Texts that are read with all line ends alike.

A text of a file is read with a line feed in the place of each carriage return, alone or before a line
feed. Marks without line ends stand in what is read where they stand in the text (`IsMark.infix_iff`,
`IsMark.universalNewlines_append`).
-/

open List

namespace Reflow.Text

variable {t : Text}

/-! ## Line ends -/

theorem universalNewlines_cons_of_ne {c : Char} (h : c ≠ '\r') (t : Text) :
    universalNewlines (c :: t) = c :: universalNewlines t := by
  simp [universalNewlines, h]

theorem universalNewlines_return (h : t.head? ≠ some '\n') :
    universalNewlines ('\r' :: t) = '\n' :: universalNewlines t := by
  rw [universalNewlines, if_pos rfl]
  rintro rest - rfl
  exact h rfl

/-- Induction along the reading of line ends: a character that is kept, a carriage return with its line
feed, and a carriage return alone. -/
@[elab_as_elim]
theorem lineEndInduction {motive : Text → Prop} (t : Text) (nil : motive [])
    (kept : ∀ c t, c ≠ '\r' → motive t → motive (c :: t))
    (pair : ∀ t, motive t → motive ('\r' :: '\n' :: t))
    (alone : ∀ t, t.head? ≠ some '\n' → motive t → motive ('\r' :: t)) : motive t := by
  induction hn : t.length using Nat.strongRecOn generalizing t with
  | ind n ih =>
    subst hn
    cases t with
    | nil => exact nil
    | cons c t =>
      by_cases hc : c = '\r'
      · subst hc
        by_cases hhead : t.head? = some '\n'
        · obtain ⟨rest, rfl⟩ := head?_eq_some_iff.1 hhead
          exact pair rest (ih rest.length (by simp only [length_cons]; omega) rest rfl)
        · exact alone t hhead (ih t.length (by simp) t rfl)
      · exact kept c t hc (ih t.length (by simp) t rfl)

theorem carriageReturn_not_mem_universalNewlines (t : Text) : '\r' ∉ universalNewlines t := by
  induction t using lineEndInduction with
  | nil => simp [universalNewlines]
  | kept c t hc ih =>
    rw [universalNewlines_cons_of_ne hc, mem_cons, not_or]
    exact ⟨hc.symm, ih⟩
  | pair t ih => simpa [universalNewlines] using ih
  | alone t ht ih => simpa [universalNewlines_return ht] using ih

theorem universalNewlines_eq_self (h : '\r' ∉ t) : universalNewlines t = t := by
  induction t with
  | nil => rfl
  | cons c t ih =>
    obtain ⟨hc, ht⟩ : c ≠ '\r' ∧ '\r' ∉ t := by simpa [eq_comm] using h
    rw [universalNewlines_cons_of_ne hc, ih ht]

theorem universalNewlines_eq_self_iff : universalNewlines t = t ↔ '\r' ∉ t :=
  ⟨fun h => h ▸ carriageReturn_not_mem_universalNewlines t, universalNewlines_eq_self⟩

theorem universalNewlines_append (a : Text) {b : Text} (hb : b.head? ≠ some '\n') :
    universalNewlines (a ++ b) = universalNewlines a ++ universalNewlines b := by
  induction a using lineEndInduction with
  | nil => rfl
  | kept c t hc ih =>
    rw [cons_append, universalNewlines_cons_of_ne hc, universalNewlines_cons_of_ne hc, ih,
      cons_append]
  | pair t ih => simpa [universalNewlines] using ih
  | alone t ht ih =>
    have hhead : (t ++ b).head? ≠ some '\n' := by
      cases t with
      | nil => exact hb
      | cons c t => exact ht
    rw [cons_append, universalNewlines_return hhead, universalNewlines_return ht, ih,
      cons_append]

theorem universalNewlines_append_left {s : Text} (hs : '\r' ∉ s) (b : Text) :
    universalNewlines (s ++ b) = s ++ universalNewlines b := by
  induction s with
  | nil => rfl
  | cons c s ih =>
    rw [mem_cons, not_or] at hs
    rw [cons_append, universalNewlines_cons_of_ne (Ne.symm hs.1), ih hs.2, cons_append]

theorem takeWhile_universalNewlines {p : Char → Bool} (hreturn : p '\r' = false)
    (hnewline : p '\n' = false) (t : Text) : (universalNewlines t).takeWhile p = t.takeWhile p := by
  induction t using lineEndInduction with
  | nil => rfl
  | kept c t hc ih => rw [universalNewlines_cons_of_ne hc, takeWhile_cons, takeWhile_cons, ih]
  | pair t => simp [universalNewlines, hreturn, hnewline]
  | alone t ht => simp [universalNewlines_return ht, hreturn, hnewline]

/-- What goes on beyond line ends ends where it did. -/
theorem dropWhile_universalNewlines {p : Char → Bool} (hreturn : p '\r' = true)
    (hnewline : p '\n' = true) (t : Text) :
    (universalNewlines t).dropWhile p = universalNewlines (t.dropWhile p) := by
  induction t using lineEndInduction with
  | nil => rfl
  | kept c t hc ih =>
    rw [universalNewlines_cons_of_ne hc, dropWhile_cons, dropWhile_cons, ih]
    split
    · rfl
    · exact (universalNewlines_cons_of_ne hc t).symm
  | pair t ih => simpa [universalNewlines, hreturn, hnewline] using ih
  | alone t ht ih => simpa [universalNewlines_return ht, hreturn, hnewline] using ih

/-! ## Marks -/

/-- A mark has no line ends in it, and starts with a character that it has nowhere else. -/
structure IsMark (m : Text) : Prop where
  return_not_mem : '\r' ∉ m
  newline_not_mem : '\n' ∉ m
  head_once : ∃ c cs, m = c :: cs ∧ c ∉ cs

variable {m : Text}

theorem IsMark.ne_nil (hm : IsMark m) : m ≠ [] := by
  obtain ⟨c, cs, rfl, -⟩ := hm.head_once
  simp

theorem prefix_cons_iff_of_not_mem {c : Char} (hc : c ∉ m) (t : Text) : m <+: c :: t ↔ m = [] := by
  cases m with
  | nil => simp
  | cons d m => simp [cons_prefix_cons, Ne.symm (ne_of_not_mem_cons hc)]

theorem prefix_universalNewlines_iff (hreturn : '\r' ∉ m) (hnewline : '\n' ∉ m) (p a b : Text) :
    m <+: p ++ (universalNewlines a ++ b) ↔ m <+: p ++ (a ++ b) := by
  induction p generalizing m with
  | cons c p ih =>
    cases m with
    | nil => simp
    | cons d m =>
      rw [mem_cons, not_or] at hreturn hnewline
      simp only [cons_append, cons_prefix_cons, ih hreturn.2 hnewline.2]
  | nil =>
    simp only [nil_append]
    induction a using lineEndInduction generalizing m with
    | nil => rfl
    | kept c t hc ih =>
      rw [universalNewlines_cons_of_ne hc]
      cases m with
      | nil => simp
      | cons d m =>
        rw [mem_cons, not_or] at hreturn hnewline
        simp only [cons_append, cons_prefix_cons, ih hreturn.2 hnewline.2]
    | pair t => simp [universalNewlines, prefix_cons_iff_of_not_mem, hreturn, hnewline]
    | alone t ht => simp [universalNewlines_return ht, prefix_cons_iff_of_not_mem, hreturn, hnewline]

theorem infix_universalNewlines_iff (hreturn : '\r' ∉ m) (hnewline : '\n' ∉ m) (p a b : Text) :
    m <:+: p ++ (universalNewlines a ++ b) ↔ m <:+: p ++ (a ++ b) := by
  have hstart := prefix_universalNewlines_iff hreturn hnewline
  -- a mark starts before a line end or after it
  have hbreak : ∀ {c} (u : Text), c = '\r' ∨ c = '\n' → (m <:+: c :: u ↔ m <:+: u) := by
    intro c u hc
    rw [infix_cons_iff, or_iff_right_of_imp]
    intro hprefix
    cases m with
    | nil => exact nil_infix
    | cons d m =>
      obtain rfl := (cons_prefix_cons.1 hprefix).1
      rcases hc with rfl | rfl <;> simp at hreturn hnewline
  induction p with
  | cons c p ih =>
    rw [cons_append, cons_append, infix_cons_iff, infix_cons_iff]
    exact or_congr (hstart (c :: p) a b) ih
  | nil =>
    simp only [nil_append]
    induction a using lineEndInduction with
    | nil => rfl
    | kept c t hc ih =>
      have hcons := hstart [] (c :: t) b
      rw [universalNewlines_cons_of_ne hc] at hcons ⊢
      rw [cons_append, cons_append, infix_cons_iff, infix_cons_iff]
      exact or_congr hcons ih
    | pair t ih =>
      rw [show universalNewlines ('\r' :: '\n' :: t) = '\n' :: universalNewlines t from rfl]
      simp only [cons_append]
      rw [hbreak _ (.inr rfl), hbreak _ (.inl rfl), hbreak _ (.inr rfl)]
      exact ih
    | alone t ht ih =>
      rw [universalNewlines_return ht, cons_append, cons_append, hbreak _ (.inr rfl),
        hbreak _ (.inl rfl)]
      exact ih

theorem infix_flatten_universalNewlines_iff (hreturn : '\r' ∉ m) (hnewline : '\n' ∉ m) (p : Text)
    (ts : List Text) :
    m <:+: p ++ (ts.map universalNewlines).flatten ↔ m <:+: p ++ ts.flatten := by
  induction ts generalizing p with
  | nil => rfl
  | cons t ts ih =>
    rw [map_cons, flatten_cons, flatten_cons,
      infix_universalNewlines_iff hreturn hnewline, ← append_assoc, ← append_assoc, ih]

theorem isPrefixOf_universalNewlines (hreturn : '\r' ∉ m) (hnewline : '\n' ∉ m) (t : Text) :
    m.isPrefixOf (universalNewlines t) = m.isPrefixOf t := by
  rw [Bool.eq_iff_iff, isPrefixOf_iff_prefix, isPrefixOf_iff_prefix]
  simpa using prefix_universalNewlines_iff hreturn hnewline [] t []

theorem IsMark.infix_iff (hm : IsMark m) (t : Text) : m <:+: universalNewlines t ↔ m <:+: t := by
  simpa using infix_universalNewlines_iff hm.return_not_mem hm.newline_not_mem [] t []

theorem IsMark.universalNewlines_append (hm : IsMark m) (a b : Text) :
    universalNewlines (a ++ (m ++ b)) = universalNewlines a ++ (m ++ universalNewlines b) := by
  have hhead : (m ++ b).head? ≠ some '\n' := by
    obtain ⟨c, cs, rfl, -⟩ := hm.head_once
    rintro ⟨⟩
    exact hm.newline_not_mem (by simp)
  rw [Text.universalNewlines_append a hhead, universalNewlines_append_left hm.return_not_mem]

/-! ## Cutting at marks -/

theorem cut?_eq_none_iff (hm : m ≠ []) : cut? m t = none ↔ ¬ m <:+: t := by
  induction t with
  | nil => simp [cut?, hm]
  | cons c t ih =>
    rw [cut?, infix_cons_iff, not_or, ← ih, ← isPrefixOf_iff_prefix]
    split
    · next h => simp [h]
    · next h => simp [h]

theorem includes_iff (hm : m ≠ []) : includes t m = true ↔ m <:+: t := by
  rw [includes, Option.isSome_iff_ne_none, Ne, cut?_eq_none_iff hm, not_not]

/-- **The first of the marks**: there is none in what stands before it. -/
theorem IsMark.cut?_eq_some_iff (hm : IsMark m) {t a b : Text} :
    cut? m t = some (a, b) ↔ t = a ++ (m ++ b) ∧ ¬ m <:+: a := by
  obtain ⟨d, ds, hmark, honce⟩ := hm.head_once
  induction t generalizing a with
  | nil =>
    simp only [cut?, List.isEmpty_iff, if_neg hm.ne_nil, List.nil_eq, List.append_eq_nil_iff]
    simp [hm.ne_nil]
  | cons c t ih =>
    rw [cut?]
    split
    · next hprefix =>
      obtain ⟨r, hr⟩ := isPrefixOf_iff_prefix.1 hprefix
      rw [← hr, drop_left]
      constructor
      · intro h
        cases h
        exact ⟨rfl, fun hnil => hm.ne_nil (eq_nil_of_infix_nil hnil)⟩
      · rintro ⟨heq, hfirst⟩
        -- two marks that overlap are one
        rcases prefix_or_prefix_of_prefix (heq ▸ prefix_append m r)
            (prefix_append a (m ++ b)) with h | ⟨s, hs⟩
        · exact absurd h.isInfix hfirst
        · cases a with
          | nil =>
            rw [nil_append, append_cancel_left_eq] at heq
            rw [heq]
          | cons x a =>
            exfalso
            rw [← hs, append_assoc, append_cancel_left_eq] at heq
            rw [hmark] at hs
            obtain ⟨rfl, rfl⟩ := cons.inj hs
            cases s with
            | nil => exact hfirst ⟨[], [], by simp [hmark]⟩
            | cons y s =>
              rw [hs] at heq
              obtain ⟨rfl, -⟩ := cons.inj heq
              exact honce (by simp)
    · next hprefix =>
      rw [List.isPrefixOf_iff_prefix] at hprefix
      cases a with
      | nil =>
        constructor
        · intro h
          obtain ⟨⟨x, y⟩, -, hxy⟩ := Option.map_eq_some_iff.1 h
          cases hxy
        · rintro ⟨heq, -⟩
          exact absurd (heq ▸ prefix_append m b) hprefix
      | cons x a =>
        have hcons : (cut? m t).map (fun p => (c :: p.1, p.2)) = some (x :: a, b) ↔
            c = x ∧ cut? m t = some (a, b) := by
          rcases hcut : cut? m t with - | ⟨a', b'⟩ <;> simp [and_assoc]
        rw [hcons, ih, cons_append, cons.injEq, infix_cons_iff, not_or, and_assoc]
        refine and_congr_right fun hc => and_congr_right fun heq => ?_
        rw [iff_and_self]
        rintro - ⟨r, hr⟩
        exact hprefix ⟨r ++ (m ++ b), by rw [hc, heq, ← append_assoc, hr, cons_append]⟩

end Reflow.Text
