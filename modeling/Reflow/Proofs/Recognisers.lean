import Mathlib.Data.List.Basic
import Mathlib.Data.List.TakeWhile
import Reflow.Text.Recogniser

/-!
Laws of recognisers.

`Within` says that the accepted part does not reach past the text, `EndsVisible` that its last
character is not a blank. `Stable` says that an answer stays as it is when more text follows,
`Persists` that there still is an answer, and `Local` that an answer that fits into a part of the
text is the answer on that part alone. Every law is stated per combinator. Only `many` is not
stable: on a text that ends inside the run it stops at the end of the text (`Stable.many_andThen`).
-/

open List

namespace Reflow.Text

theorem cut?_append {s u before after : Text} (h : cut? s u = some (before, after)) (v : Text) :
    cut? s (u ++ v) = some (before, after ++ v) := by
  induction u generalizing before with
  | nil =>
    have hs : s = [] ∧ before = [] ∧ after = [] := by
      simp only [cut?] at h
      split at h <;> simp_all
    obtain ⟨rfl, rfl, rfl⟩ := hs
    cases v <;> simp [cut?]
  | cons c u ih =>
    simp only [cut?] at h
    rw [cons_append, cut?]
    split at h
    · next hp =>
      obtain ⟨rfl, rfl⟩ : [] = before ∧ (c :: u).drop s.length = after := by simpa using h
      obtain ⟨r, hr⟩ := isPrefixOf_iff_prefix.1 hp
      have hp' : s.isPrefixOf (c :: (u ++ v)) := by
        rw [List.isPrefixOf_iff_prefix, ← cons_append, ← hr, append_assoc]
        exact prefix_append _ _
      rw [if_pos hp', ← cons_append, drop_append_of_le_length]
      simpa using IsPrefix.length_le ⟨r, hr⟩
    · next hp =>
      obtain ⟨⟨b, a⟩, hb, hab⟩ := Option.map_eq_some_iff.1 h
      obtain ⟨rfl, rfl⟩ : c :: b = before ∧ a = after := by simpa using hab
      -- an occurrence further on leaves no room for one here that reaches past the end
      have hlen : s.length ≤ (c :: u).length := by
        rw [cut?_eq_append hb]
        simp only [length_cons, length_append]
        omega
      have hp' : ¬ s.isPrefixOf (c :: (u ++ v)) := by
        rw [List.isPrefixOf_iff_prefix]
        intro hpre
        exact hp (List.isPrefixOf_iff_prefix.2
          (prefix_of_prefix_length_le hpre (prefix_append _ _) hlen))
      rw [if_neg hp', ih hb]
      rfl

theorem cut?_of_append {s u v before after : Text} (h : cut? s (u ++ v) = some (before, after))
    (hle : before.length + s.length ≤ u.length) : ∃ after', cut? s u = some (before, after') := by
  cases hu : cut? s u with
  | some p =>
    obtain ⟨b, a⟩ := p
    have h' := cut?_append hu v
    rw [h] at h'
    obtain ⟨rfl, _⟩ : before = b ∧ after = a ++ v := by simpa using h'
    exact ⟨a, rfl⟩
  | none =>
    -- with no occurrence in `u`, the one in `u ++ v` would end after `u`
    exfalso
    induction u generalizing before with
    | nil =>
      have hs : s = [] := by
        rw [← length_eq_zero_iff]
        simp only [length_nil] at hle
        omega
      simp [hs, cut?] at hu
    | cons c u ih =>
      simp only [cut?] at hu
      split at hu
      · simp at hu
      · next hp =>
        rw [cons_append, cut?] at h
        split at h
        · next hp' =>
          obtain ⟨rfl, _⟩ : [] = before ∧ (c :: (u ++ v)).drop s.length = after := by
            simpa using h
          rw [length_nil, Nat.zero_add] at hle
          rw [List.isPrefixOf_iff_prefix] at hp'
          exact absurd (List.isPrefixOf_iff_prefix.2
            (prefix_of_prefix_length_le hp' (prefix_append _ _) hle)) hp
        · obtain ⟨⟨b, a⟩, hb, hab⟩ := Option.map_eq_some_iff.1 h
          obtain ⟨rfl, rfl⟩ : c :: b = before ∧ a = after := by simpa using hab
          have hle' : b.length + s.length ≤ u.length := by
            simp only [length_cons] at hle
            omega
          exact ih hb hle' (by simpa using hu)

end Reflow.Text

namespace Reflow.Recogniser

open Text

variable {r s : Recogniser} {w : Text} {d : Char}

/-! ## Where the accepted part ends -/

/-- The accepted part lies within the text. -/
def Within (r : Recogniser) : Prop := ∀ t n, r t = some n → n ≤ t.length

/-- The accepted part ends in a character that is not blank. -/
def EndsVisible (r : Recogniser) : Prop :=
  ∀ t n, r t = some n → ∃ a d b, t = a ++ d :: b ∧ isBlank d = false ∧ n = a.length + 1

theorem EndsVisible.within (h : EndsVisible r) : Within r := by
  intro t n hn
  obtain ⟨a, d, b, rfl, _, rfl⟩ := h t n hn
  simp only [length_append, length_cons]
  omega

theorem andThen_eq_some {t : Text} {n : Nat} :
    andThen r s t = some n ↔ ∃ i j, r t = some i ∧ s (t.drop i) = some j ∧ n = i + j := by
  simp only [andThen, Option.bind_eq_bind, Option.bind_eq_some_iff, Option.pure_def,
    Option.some.injEq]
  constructor
  · rintro ⟨i, hi, j, hj, rfl⟩
    exact ⟨i, j, hi, hj, rfl⟩
  · rintro ⟨i, j, hi, hj, rfl⟩
    exact ⟨i, hi, j, hj, rfl⟩

theorem exactly_eq_some {w t : Text} {n : Nat} :
    exactly w t = some n ↔ ∃ u, t = w ++ u ∧ n = w.length := by
  simp only [exactly, Option.ite_none_right_eq_some, Option.some.injEq,
    isPrefixOf_iff_prefix]
  constructor
  · rintro ⟨⟨u, rfl⟩, rfl⟩
    exact ⟨u, rfl, rfl⟩
  · rintro ⟨u, rfl, rfl⟩
    exact ⟨prefix_append w u, rfl⟩

theorem within_exactly (w : Text) : Within (exactly w) := by
  intro t n h
  obtain ⟨u, rfl, rfl⟩ := exactly_eq_some.1 h
  simp

theorem within_many (p : Char → Bool) : Within (many p) := by
  intro t n h
  simp only [many, Option.some.injEq] at h
  rw [← h]
  exact (List.takeWhile_prefix p).length_le

theorem within_one (p : Char → Bool) : Within (one p) := by
  intro t n h
  cases t with
  | nil => simp [one] at h
  | cons c t =>
    simp only [one, Option.ite_none_right_eq_some, Option.some.injEq] at h
    rw [length_cons]
    omega

theorem within_absent (r : Recogniser) : Within (absent r) := by
  intro t n h
  simp only [absent, Option.ite_none_left_eq_some, Option.some.injEq] at h
  omega

theorem endsVisible_exactly (hd : isBlank d = false) : EndsVisible (exactly (w ++ [d])) := by
  intro t n h
  simp only [exactly, Option.ite_none_right_eq_some, Option.some.injEq] at h
  obtain ⟨hp, rfl⟩ := h
  obtain ⟨rest, rfl⟩ := isPrefixOf_iff_prefix.1 hp
  exact ⟨w, d, rest, by simp, hd, by simp⟩

theorem endsVisible_through (hd : isBlank d = false) : EndsVisible (through (w ++ [d])) := by
  intro t n h
  obtain ⟨⟨before, after⟩, hcut, hn⟩ := Option.map_eq_some_iff.1 h
  refine ⟨before ++ w, d, after, ?_, hd, ?_⟩
  · rw [cut?_eq_append hcut]
    simp
  · rw [← hn]
    simp only [length_append, length_singleton]
    omega

theorem EndsVisible.andThen (hr : Within r) (hs : EndsVisible s) : EndsVisible (andThen r s) := by
  intro t n h
  obtain ⟨i, j, hi, hj, rfl⟩ := andThen_eq_some.1 h
  obtain ⟨a, d, b, ht, hd, rfl⟩ := hs _ _ hj
  refine ⟨t.take i ++ a, d, b, ?_, hd, ?_⟩
  · rw [append_assoc, ← ht, take_append_drop]
  · rw [length_append, length_take, Nat.min_eq_left (hr _ _ hi)]
    omega

theorem EndsVisible.sequence_singleton (hr : EndsVisible r) : EndsVisible (sequence [r]) := by
  intro t n h
  obtain ⟨i, j, hi, hj, rfl⟩ := andThen_eq_some.1 h
  obtain rfl : 0 = j := by simpa [sequence] using hj
  exact hr t i hi

theorem EndsVisible.orElse (hr : EndsVisible r) (hs : EndsVisible s) :
    EndsVisible (orElse r s) := by
  intro t n h
  rcases Option.or_eq_some_iff.1 h with h | h
  · exact hr t n h
  · exact hs t n h.2

theorem EndsVisible.andThen_optional (hr : EndsVisible r) (hs : EndsVisible s) :
    EndsVisible (Recogniser.andThen r (optional s)) := by
  intro t n h
  obtain ⟨i, j, hi, hj, rfl⟩ := andThen_eq_some.1 h
  simp only [optional, Option.some.injEq] at hj
  cases hst : s (t.drop i) with
  | none =>
    rw [hst] at hj
    rw [← hj]
    exact hr t i hi
  | some m =>
    rw [hst] at hj
    rw [← hj]
    exact EndsVisible.andThen hr.within hs t (i + m) (andThen_eq_some.2 ⟨i, m, hi, hst, rfl⟩)

/-! ## Longer and shorter texts -/

/-- An answer stays as it is when more text follows. -/
def Stable (r : Recogniser) : Prop := ∀ u v n, r u = some n → r (u ++ v) = some n

/-- There still is an answer when more text follows. -/
def Persists (r : Recogniser) : Prop := ∀ u v, (r u).isSome → (r (u ++ v)).isSome

/-- An answer that fits into a part of the text is the answer on that part. -/
def Local (r : Recogniser) : Prop := ∀ u v n, r (u ++ v) = some n → n ≤ u.length → r u = some n

theorem Stable.persists (h : Stable r) : Persists r := by
  intro u v hu
  obtain ⟨n, hn⟩ := Option.isSome_iff_exists.1 hu
  rw [h u v n hn]
  rfl

theorem Persists.eq_none (h : Persists r) {u v : Text} (hn : r (u ++ v) = none) : r u = none := by
  cases hu : r u with
  | none => rfl
  | some n =>
    have := h u v (by simp [hu])
    simp [hn] at this

theorem stable_exactly (w : Text) : Stable (exactly w) := by
  intro u v n h
  simp only [exactly, Option.ite_none_right_eq_some, Option.some.injEq] at h ⊢
  refine ⟨?_, h.2⟩
  rw [List.isPrefixOf_iff_prefix] at h ⊢
  exact h.1.trans (prefix_append _ _)

theorem local_exactly (w : Text) : Local (exactly w) := by
  intro u v n h hle
  simp only [exactly, Option.ite_none_right_eq_some, Option.some.injEq] at h ⊢
  refine ⟨?_, h.2⟩
  rw [List.isPrefixOf_iff_prefix] at h ⊢
  exact prefix_of_prefix_length_le h.1 (prefix_append _ _) (by omega)

theorem stable_one (p : Char → Bool) : Stable (one p) := by
  intro u v n h
  cases u with
  | nil => simp [one] at h
  | cons c u => exact h

theorem local_one (p : Char → Bool) : Local (one p) := by
  intro u v n h hle
  cases u with
  | nil =>
    obtain rfl : n = 0 := by simpa using hle
    cases v with
    | nil => simp [one] at h
    | cons c v => simp [one] at h
  | cons c u => exact h

theorem stable_through (w : Text) : Stable (through w) := by
  intro u v n h
  obtain ⟨⟨before, after⟩, hcut, hn⟩ := Option.map_eq_some_iff.1 h
  exact Option.map_eq_some_iff.2 ⟨_, cut?_append hcut v, hn⟩

theorem local_through (w : Text) : Local (through w) := by
  intro u v n h hle
  obtain ⟨⟨before, after⟩, hcut, hn⟩ := Option.map_eq_some_iff.1 h
  obtain ⟨after', hcut'⟩ := cut?_of_append hcut (by simpa [hn] using hle)
  exact Option.map_eq_some_iff.2 ⟨_, hcut', hn⟩

theorem local_many (p : Char → Bool) : Local (many p) := by
  intro u v n h hle
  simp only [many, Option.some.injEq] at h ⊢
  rw [takeWhile_append] at h
  split at h
  · rw [length_append] at h
    omega
  · exact h

theorem Local.andThen (hr : Local r) (hs : Local s) : Local (andThen r s) := by
  intro u v n h hle
  obtain ⟨i, j, hi, hj, rfl⟩ := andThen_eq_some.1 h
  have hi' : i ≤ u.length := by omega
  rw [drop_append_of_le_length hi'] at hj
  refine andThen_eq_some.2 ⟨i, j, hr u v i hi hi', hs _ v j hj ?_, rfl⟩
  rw [length_drop]
  omega

theorem local_sequence_nil : Local (sequence []) := fun _ _ _ h _ => h

theorem stable_sequence_nil : Stable (sequence []) := fun _ _ _ h => h

theorem Stable.andThen (hw : Within r) (hr : Stable r) (hs : Stable s) : Stable (andThen r s) := by
  intro u v n h
  obtain ⟨i, j, hi, hj, rfl⟩ := andThen_eq_some.1 h
  refine andThen_eq_some.2 ⟨i, j, hr u v i hi, ?_, rfl⟩
  rw [drop_append_of_le_length (hw _ _ hi)]
  exact hs _ v j hj

/-- A run that ends inside the text ends at the same place when more text follows. So `many` may
stand in a sequence in front of anything that does not accept the empty text. -/
theorem Stable.many_andThen {p : Char → Bool} (hs : Stable s) (hnil : s [] = none) :
    Stable (Recogniser.andThen (many p) s) := by
  intro u v n h
  obtain ⟨i, j, hi, hj, rfl⟩ := andThen_eq_some.1 h
  obtain rfl : (u.takeWhile p).length = i := by simpa [many] using hi
  have hne : ¬ (u.takeWhile p).length = u.length := by
    intro heq
    rw [heq, drop_length, hnil] at hj
    simp at hj
  refine andThen_eq_some.2 ⟨(u.takeWhile p).length, j, ?_, ?_, rfl⟩
  · rw [many, takeWhile_append, if_neg hne]
  · rw [drop_append_of_le_length (List.takeWhile_prefix p).length_le]
    exact hs _ v j hj

theorem Local.absent (hr : Persists r) : Local (absent r) := by
  intro u v n h _
  simp only [Recogniser.absent, Option.ite_none_left_eq_some, Option.some.injEq] at h ⊢
  exact ⟨fun hu => h.1 (hr u v hu), h.2⟩

theorem Persists.orElse (hr : Persists r) (hs : Persists s) : Persists (orElse r s) := by
  intro u v h
  simp only [Recogniser.orElse, Option.isSome_or, Bool.or_eq_true] at h ⊢
  exact h.imp (hr u v) (hs u v)

theorem Local.orElse (hp : Persists r) (hr : Local r) (hs : Local s) : Local (orElse r s) := by
  intro u v n h hle
  rcases Option.or_eq_some_iff.1 h with h | ⟨hnone, h⟩
  · exact Option.or_eq_some_iff.2 (.inl (hr u v n h hle))
  · exact Option.or_eq_some_iff.2 (.inr ⟨hp.eq_none hnone, hs u v n h hle⟩)

theorem Local.optional (hp : Persists r) (hr : Local r) : Local (optional r) := by
  intro u v n h hle
  simp only [Recogniser.optional, Option.some.injEq] at h ⊢
  cases huv : r (u ++ v) with
  | none =>
    rw [huv, Option.getD_none] at h
    rw [hp.eq_none huv, Option.getD_none, h]
  | some m =>
    rw [huv, Option.getD_some] at h
    rw [hr u v m huv (by omega), Option.getD_some, h]

theorem Stable.andThen_optional (hr : Stable r) :
    Persists (Recogniser.andThen r (Recogniser.optional s)) := by
  intro u v h
  obtain ⟨n, hn⟩ := Option.isSome_iff_exists.1 h
  obtain ⟨i, j, hi, _, _⟩ := andThen_eq_some.1 hn
  refine Option.isSome_iff_exists.2 ⟨_, andThen_eq_some.2 ⟨i, _, hr u v i hi, rfl, rfl⟩⟩

/-! ## Constructs that close themselves -/

/-- The answer depends on the accepted part alone. -/
structure Steady (r : Recogniser) : Prop where
  within : Within r
  stable : Stable r
  isLocal : Local r

/-- The answer depends on the accepted part alone, and this ends in a visible character. -/
structure Contained (r : Recogniser) : Prop extends Steady r where
  endsVisible : EndsVisible r

theorem steady_exactly (w : Text) : Steady (exactly w) :=
  ⟨within_exactly w, stable_exactly w, local_exactly w⟩

theorem steady_one (p : Char → Bool) : Steady (one p) := ⟨within_one p, stable_one p, local_one p⟩

theorem contained_exactly (hd : isBlank d = false) :
    Contained (exactly (w ++ [d])) := ⟨steady_exactly _, endsVisible_exactly hd⟩

theorem contained_through (hd : isBlank d = false) : Contained (through (w ++ [d])) :=
  ⟨⟨(endsVisible_through hd).within, stable_through _, local_through _⟩, endsVisible_through hd⟩

namespace Contained

variable {rs : List Recogniser}

theorem of_laws (hstable : Stable r) (hlocal : Local r) (hv : EndsVisible r) : Contained r :=
  ⟨⟨hv.within, hstable, hlocal⟩, hv⟩

theorem singleton (hr : Contained r) : Contained (sequence [r]) :=
  of_laws (.andThen hr.within hr.stable stable_sequence_nil)
    (.andThen hr.isLocal local_sequence_nil) hr.endsVisible.sequence_singleton

theorem cons (hr : Steady r) (hrs : Contained (sequence rs)) : Contained (sequence (r :: rs)) :=
  of_laws (.andThen hr.within hr.stable hrs.stable) (.andThen hr.isLocal hrs.isLocal)
    (.andThen hr.within hrs.endsVisible)

theorem many_cons {p : Char → Bool} (hrs : Contained (sequence rs))
    (hnil : sequence rs [] = none) : Contained (sequence (many p :: rs)) :=
  of_laws (.many_andThen hrs.stable hnil) (.andThen (local_many p) hrs.isLocal)
    (.andThen (within_many p) hrs.endsVisible)

end Contained

/-- The laws that every construct obeys: what it accepts ends visibly, is accepted in any part of the
text that it ends within, and something is accepted when more text follows. -/
structure Lasting (r : Recogniser) : Prop where
  endsVisible : EndsVisible r
  isLocal : Local r
  persists : Persists r

theorem Contained.lasting (h : Contained r) : Lasting r :=
  ⟨h.endsVisible, h.isLocal, h.stable.persists⟩

theorem Lasting.orElse (hr : Lasting r) (hs : Lasting s) : Lasting (orElse r s) :=
  ⟨hr.endsVisible.orElse hs.endsVisible, .orElse hr.persists hr.isLocal hs.isLocal,
    hr.persists.orElse hs.persists⟩

/-! ## Finding -/

theorem find?_eq_some {t before rest : Text} (h : r.find? t = some (before, rest)) :
    t = before ++ rest ∧ (r rest).isSome := by
  induction t generalizing before with
  | nil =>
    simp only [find?] at h
    split at h
    · next hr =>
      obtain ⟨rfl, rfl⟩ : [] = before ∧ [] = rest := by simpa using h
      exact ⟨rfl, hr⟩
    · simp at h
  | cons c t ih =>
    simp only [find?] at h
    split at h
    · next hr =>
      obtain ⟨rfl, rfl⟩ : [] = before ∧ c :: t = rest := by simpa using h
      exact ⟨rfl, hr⟩
    · obtain ⟨⟨b, u⟩, hb, heq⟩ := Option.map_eq_some_iff.1 h
      obtain ⟨rfl, rfl⟩ : c :: b = before ∧ u = rest := by simpa using heq
      obtain ⟨rfl, hr⟩ := ih hb
      exact ⟨rfl, hr⟩

end Reflow.Recogniser
