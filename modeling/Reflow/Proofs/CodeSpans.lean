import Mathlib.Data.List.Basic
import Reflow.Document.Render

/-!
Code spans, written and read back.

A code span is opened by a run of backticks and closed by the first later run of exactly as many.
`readSpan?` reads a text so. The writer puts one backtick on either side, or two with a space inside
if the code starts or ends with a backtick. Neither form looks at the middle of the code.
-/

open List

namespace Reflow.Document

open Text

variable {c : Char}

/-! ## Reading a code span -/

/-- How many backticks the text starts with. -/
def ticks (t : Text) : Nat := (t.takeWhile (· == '`')).length

/-- What stands before the first maximal run of exactly `k` backticks, and what stands after it.
`afterTick` says whether the text itself stands after a backtick, so that a run at its start is a
part of a longer one. -/
def closing? (k : Nat) (afterTick : Bool) : Text → Option (Text × Text)
  | [] => none
  | c :: cs =>
    if !afterTick && ticks (c :: cs) == k then some ([], (c :: cs).drop k)
    else (closing? k (c == '`') cs).map (Prod.map (c :: ·) id)

/-- Read the code span that a text starts with: what it holds, and the text after it. It is closed
by the first later run of as many backticks as open it. -/
def readSpan? (t : Text) : Option (Text × Text) :=
  if ticks t = 0 then none else closing? (ticks t) true (t.drop (ticks t))

/-! ## Maximal runs of backticks -/

/-- The text ends in a backtick; an empty one ends in what stands before it. -/
def endsInTick (afterTick : Bool) (t : Text) : Bool := (t.getLast?.map (· == '`')).getD afterTick

@[simp] theorem endsInTick_cons (afterTick : Bool) (c : Char) (t : Text) :
    endsInTick afterTick (c :: t) = endsInTick (c == '`') t := by
  cases t with
  | nil => rfl
  | cons d t =>
    rfl

/-- A maximal run of exactly `k` backticks stands in `t` between `a` and `b`. -/
structure RunBetween (afterTick : Bool) (k : Nat) (t a b : Text) : Prop where
  eq_append : t = a ++ (repeated k '`' ++ b)
  before : endsInTick afterTick a = false
  after : b.head? ≠ some '`'

variable {p : Bool} {k : Nat} {t a b code : Text}

theorem RunBetween.cons_iff :
    RunBetween p k (c :: t) (c :: a) b ↔ RunBetween (c == '`') k t a b := by
  constructor
  · intro h
    exact ⟨(cons.inj h.eq_append).2, by simpa using h.before, h.after⟩
  · intro h
    exact ⟨by rw [h.eq_append, cons_append], by simpa using h.before, h.after⟩

theorem takeWhile_repeated_append (k : Nat) (hb : b.head? ≠ some c) :
    (repeated k c ++ b).takeWhile (· == c) = repeated k c := by
  have htail : b.takeWhile (· == c) = [] := by
    cases b with
    | nil => rfl
    | cons d b => exact takeWhile_cons_of_neg (by simpa using hb)
  rw [repeated, takeWhile_append_of_pos (by simp), htail, append_nil]

theorem exists_eq_repeated_append (c : Char) (t : Text) :
    ∃ r, t = repeated (t.takeWhile (· == c)).length c ++ r ∧ r.head? ≠ some c := by
  refine ⟨t.dropWhile (· == c), ?_, ?_⟩
  · rw [← takeWhile_eq_repeated, takeWhile_append_dropWhile]
  · intro hhead
    have hstop := head?_dropWhile_not (· == c) t
    rw [hhead] at hstop
    simp at hstop

theorem ticks_repeated_append (k : Nat) (hb : b.head? ≠ some '`') :
    ticks (repeated k '`' ++ b) = k := by
  rw [ticks, takeWhile_repeated_append k hb]
  simp [repeated]

theorem eq_repeated_ticks_append (t : Text) :
    t = repeated (ticks t) '`' ++ t.drop (ticks t) ∧ (t.drop (ticks t)).head? ≠ some '`' := by
  obtain ⟨r, heq, hr⟩ := exists_eq_repeated_append '`' t
  have hdrop : t.drop (ticks t) = r :=
    (congrArg (drop (ticks t)) heq).trans (drop_left' (by simp [repeated, ticks]))
  rw [hdrop]
  exact ⟨heq, hr⟩

/-- A run stands at the start exactly if nothing extends it to the left and it has the length. -/
theorem RunBetween.nil_iff : RunBetween p k t [] b ↔ p = false ∧ ticks t = k ∧ t.drop k = b := by
  constructor
  · rintro ⟨heq, hbefore, hafter⟩
    rw [nil_append] at heq
    refine ⟨hbefore, by rw [heq, ticks_repeated_append k hafter], ?_⟩
    rw [heq, drop_left' (by simp [repeated])]
  · rintro ⟨hp, rfl, rfl⟩
    obtain ⟨heq, hafter⟩ := eq_repeated_ticks_append t
    exact ⟨heq, hp, hafter⟩

/-- The first maximal run of exactly `k` backticks stands between `a` and `b`. -/
def FirstRun (afterTick : Bool) (k : Nat) (t a b : Text) : Prop :=
  RunBetween afterTick k t a b ∧
    ∀ a' b', RunBetween afterTick k t a' b' → a.length ≤ a'.length

theorem FirstRun.unique {a' b' : Text} (h : FirstRun p k t a b) (h' : FirstRun p k t a' b') :
    a = a' ∧ b = b' := by
  have hlength : a.length = a'.length := Nat.le_antisymm (h.2 a' b' h'.1) (h'.2 a b h.1)
  have heq : a ++ (repeated k '`' ++ b) = a' ++ (repeated k '`' ++ b') :=
    h.1.eq_append.symm.trans h'.1.eq_append
  obtain ⟨ha, hrest⟩ := append_inj heq hlength
  exact ⟨ha, append_cancel_left hrest⟩

/-- **What closes a span.** The search finds the first maximal run, and nothing if there is none. -/
theorem closing?_spec (hk : 0 < k) (p : Bool) (t : Text) :
    (∀ a b, closing? k p t = some (a, b) → FirstRun p k t a b) ∧
      (closing? k p t = none → ∀ a b, ¬ RunBetween p k t a b) := by
  induction t generalizing p with
  | nil =>
    refine ⟨by simp [closing?], fun _ a b h => ?_⟩
    have hlength := congrArg length h.eq_append
    simp only [length_nil, length_append, repeated, length_replicate] at hlength
    omega
  | cons c t ih =>
    obtain ⟨hsome, hnone⟩ := ih (c == '`')
    rw [closing?]
    split
    · rename_i hhere
      have hrun : RunBetween p k (c :: t) [] ((c :: t).drop k) :=
        RunBetween.nil_iff.2 (by simpa using hhere)
      refine ⟨fun a b h => ?_, by simp⟩
      obtain ⟨rfl, rfl⟩ : [] = a ∧ (c :: t).drop k = b := by simpa using h
      exact ⟨hrun, fun a' b' _ => by simp⟩
    · rename_i hhere
      -- no run starts here, so every run of the whole is one of what follows
      have hlater : ∀ a b, RunBetween p k (c :: t) a b →
          ∃ a', a = c :: a' ∧ RunBetween (c == '`') k t a' b := by
        intro a b h
        cases a with
        | nil =>
          obtain ⟨hp, hticks, _⟩ := RunBetween.nil_iff.1 h
          exact absurd (by simp [hp, hticks]) hhere
        | cons d a =>
          obtain rfl : c = d := (cons.inj h.eq_append).1
          exact ⟨a, rfl, RunBetween.cons_iff.1 h⟩
      constructor
      · intro a b h
        obtain ⟨⟨a', b'⟩, hfound, hab⟩ := Option.map_eq_some_iff.1 h
        obtain ⟨rfl, rfl⟩ : c :: a' = a ∧ b' = b := by simpa using hab
        obtain ⟨hrun, hfirst⟩ := hsome a' b' hfound
        refine ⟨RunBetween.cons_iff.2 hrun, fun a₂ b₂ h₂ => ?_⟩
        obtain ⟨a₃, rfl, h₃⟩ := hlater a₂ b₂ h₂
        exact Nat.succ_le_succ (hfirst a₃ b₂ h₃)
      · intro h a b hrun
        obtain ⟨a', rfl, h'⟩ := hlater a b hrun
        exact hnone (Option.map_eq_none_iff.1 h) a' b h'

theorem closing?_eq_some_iff (hk : 0 < k) : closing? k p t = some (a, b) ↔ FirstRun p k t a b := by
  obtain ⟨hsome, hnone⟩ := closing?_spec hk p t
  refine ⟨hsome a b, fun h => ?_⟩
  cases hfound : closing? k p t with
  | none => exact absurd h.1 (hnone hfound a b)
  | some ab =>
    obtain ⟨rfl, rfl⟩ := (hsome ab.1 ab.2 hfound).unique h
    rfl

theorem closing?_eq_none_iff (hk : 0 < k) :
    closing? k p t = none ↔ ∀ a b, ¬ RunBetween p k t a b := by
  obtain ⟨hsome, hnone⟩ := closing?_spec hk p t
  refine ⟨hnone, fun h => ?_⟩
  cases hfound : closing? k p t with
  | none => rfl
  | some ab => exact absurd (hsome ab.1 ab.2 hfound).1 (h _ _)

/-! ## Texts one after the other -/

theorem ticks_append {v w : Text} (h : w.head? = some '`' → ∃ c ∈ v, c ≠ '`') :
    ticks (v ++ w) = ticks v := by
  induction v with
  | nil =>
    have hw : w.head? ≠ some '`' := fun hw => by simpa using h hw
    exact ticks_repeated_append 0 hw
  | cons c v ih =>
    by_cases hc : c = '`'
    · simp_all [ticks]
    · simp [ticks, hc]

/-- What closes a span in two texts, one after the other, no run going from one to the other: it
stands in the first, or else in the second. -/
theorem closing?_append {v w : Text} (h : w.head? = some '`' → endsInTick p v = false) :
    closing? k p (v ++ w) = ((closing? k p v).map (Prod.map id (· ++ w))).or
      ((closing? k (endsInTick p v) w).map (Prod.map (v ++ ·) id)) := by
  induction v generalizing p with
  | nil => cases hw : closing? k p w <;> simp [closing?, endsInTick, hw, Prod.map]
  | cons c v ih =>
    have hticks : ticks (c :: v ++ w) = ticks (c :: v) := by
      refine ticks_append fun hw => ?_
      have hend := h hw
      obtain ⟨u, d, hu⟩ : ∃ u d, c :: v = u ++ [d] :=
        (eq_nil_or_concat' (c :: v)).resolve_left (cons_ne_nil c v)
      rw [hu] at hend ⊢
      exact ⟨d, by simp, by simpa [endsInTick] using hend⟩
    have hrest := ih (p := c == '`') (by simpa using h)
    rw [cons_append, closing?, ← cons_append, hticks, closing?]
    split
    · have hk : k ≤ (c :: v).length := by
        have hlength : (c :: v).takeWhile (· == '`') <+: c :: v := takeWhile_prefix _
        have : ticks (c :: v) = k := by simp_all
        rw [← this]
        exact hlength.length_le
      rw [drop_append_of_le_length hk]
      rfl
    · rw [hrest, endsInTick_cons]
      cases closing? k (c == '`') v with
      | some ab => rfl
      | none => cases closing? k (endsInTick (c == '`') v) w <;> rfl

theorem closing?_cons (hk : 0 < k) (hc : c ≠ '`') (t : Text) :
    closing? k p (c :: t) = (closing? k false t).map (Prod.map (c :: ·) id) := by
  have hticks : ticks (c :: t) = 0 := by simp [ticks, hc]
  rw [closing?, if_neg (by simp; omega), beq_false_of_ne hc]

theorem closing?_repeated (hk : 0 < k) : closing? k false (repeated k '`') = some ([], []) := by
  refine (closing?_eq_some_iff hk).2 ⟨⟨by simp, rfl, by simp⟩, fun a' b' _ => by simp⟩

/-! ## Writing a code span -/

/-- How many backticks stand on either side of a code span. -/
def spanTicks (code : Text) : Nat :=
  if code.head? = some '`' ∨ code.getLast? = some '`' then 2 else 1

/-- What stands between the backticks and the code. -/
def spanPadding (code : Text) : Text :=
  if code.head? = some '`' ∨ code.getLast? = some '`' then [' '] else []

theorem codeSpan_eq (code : Text) :
    codeSpan code = repeated (spanTicks code) '`' ++
      (spanPadding code ++ code ++ spanPadding code ++ repeated (spanTicks code) '`') := by
  unfold codeSpan spanTicks spanPadding
  by_cases h : code.head? = some '`' ∨ code.getLast? = some '`'
  · rw [if_pos (by simpa using h), if_pos h, if_pos h]
    simp [repeated, replicate]
  · rw [if_neg (by simpa using h), if_neg h, if_neg h]
    simp [repeated]

theorem spanTicks_pos (code : Text) : 0 < spanTicks code := by
  unfold spanTicks
  split <;> omega

theorem spanPadding_cases (hcode : code ≠ []) :
    (spanPadding code = [' ']) ∨
      (spanPadding code = [] ∧ code.head? ≠ some '`' ∧ endsInTick true code = false) := by
  unfold spanPadding
  split
  · exact .inl rfl
  · rename_i h
    obtain ⟨hhead, hlast⟩ := not_or.1 h
    refine .inr ⟨rfl, hhead, ?_⟩
    obtain ⟨u, d, rfl⟩ := (eq_nil_or_concat' code).resolve_left hcode
    simpa [endsInTick] using hlast

theorem ticks_codeSpan (hcode : code ≠ []) : ticks (codeSpan code) = spanTicks code := by
  rw [codeSpan_eq]
  refine ticks_repeated_append _ ?_
  rcases spanPadding_cases hcode with hpad | ⟨hpad, hhead, _⟩
  · simp [hpad]
  · obtain ⟨c, code, rfl⟩ := exists_cons_of_ne_nil hcode
    simpa [hpad] using hhead

/-- **A written code span, read back.** It is closed by the first run of its code that is as long as
the delimiter, or else by the delimiter at its end. -/
theorem readSpan?_codeSpan (hcode : code ≠ []) :
    readSpan? (codeSpan code)
      = ((closing? (spanTicks code) false code).map
          (Prod.map (spanPadding code ++ ·) (· ++ (spanPadding code ++ repeated (spanTicks code) '`')))).or
        (some (spanPadding code ++ code ++ spanPadding code, [])) := by
  have hk := spanTicks_pos code
  have hticks := ticks_codeSpan hcode
  rw [readSpan?, hticks, if_neg (by omega)]
  conv_lhs => rw [codeSpan_eq]
  rw [drop_left' (by simp [repeated])]
  rcases spanPadding_cases hcode with hpad | ⟨hpad, hhead, hlast⟩
  · have hshape : [' '] ++ code ++ [' '] ++ repeated (spanTicks code) '`'
        = ' ' :: (code ++ ' ' :: repeated (spanTicks code) '`') := by simp
    rw [hpad, hshape, closing?_cons hk (by decide), closing?_append (by simp),
      closing?_cons hk (by decide), closing?_repeated hk]
    cases closing? (spanTicks code) false code <;> simp [Prod.map]
  · obtain ⟨c, code, rfl⟩ := exists_cons_of_ne_nil hcode
    have hc : c ≠ '`' := by simpa using hhead
    rw [hpad, nil_append, append_nil, closing?_append (fun _ => hlast), hlast,
      closing?_repeated hk, closing?_cons hk hc, closing?_cons hk hc]
    cases closing? (spanTicks (c :: code)) false code <;> simp [Prod.map]

/-- **Code spans.** A code span starts with one backtick, or with two if its code starts or ends with
one. Read back, it ends at the end of what is written exactly if the code has no maximal run of that
many backticks, and holds the code and its padding then. Otherwise the first such run closes it, and
what follows in the code is left outside. -/
theorem code_span_read_back_iff {code : Text} (hcode : code ≠ []) :
    ticks (codeSpan code) = spanTicks code ∧
      ((∃ body, readSpan? (codeSpan code) = some (body, [])) ↔
        ∀ a b, ¬ RunBetween false (spanTicks code) code a b) ∧
      ((∀ a b, ¬ RunBetween false (spanTicks code) code a b) →
        readSpan? (codeSpan code) = some (spanPadding code ++ code ++ spanPadding code, [])) ∧
      ∀ a b, FirstRun false (spanTicks code) code a b →
        readSpan? (codeSpan code)
          = some (spanPadding code ++ a,
              b ++ (spanPadding code ++ repeated (spanTicks code) '`')) := by
  have hk := spanTicks_pos code
  have hread := readSpan?_codeSpan hcode
  have hwhole : (∀ a b, ¬ RunBetween false (spanTicks code) code a b) →
      readSpan? (codeSpan code) = some (spanPadding code ++ code ++ spanPadding code, []) := by
    intro h
    rw [hread, (closing?_eq_none_iff hk).2 h]
    rfl
  have hleak : ∀ a b, FirstRun false (spanTicks code) code a b → readSpan? (codeSpan code)
      = some (spanPadding code ++ a,
          b ++ (spanPadding code ++ repeated (spanTicks code) '`')) := by
    intro a b h
    rw [hread, (closing?_eq_some_iff hk).2 h]
    rfl
  refine ⟨ticks_codeSpan hcode, ⟨?_, fun h => ⟨_, hwhole h⟩⟩, hwhole, hleak⟩
  rintro ⟨body, hbody⟩
  refine (closing?_eq_none_iff hk).1 ?_
  cases hfound : closing? (spanTicks code) false code with
  | none => rfl
  | some ab =>
    -- a run inside leaves at least the last delimiter outside
    rw [hleak ab.1 ab.2 ((closing?_eq_some_iff hk).1 hfound)] at hbody
    have hlength := congrArg (fun o => (o.map fun q => q.2.length).getD 0) hbody
    simp only [Option.map_some, Option.getD_some, length_append, repeated,
      length_replicate, length_nil] at hlength
    omega

/-- Two backticks inside code do not close a span of one. -/
theorem two_ticks_inside_code_kept :
    "a``b".toList ≠ [] ∧
      readSpan? (codeSpan "a``b".toList) = some ("a``b".toList, []) :=
  ⟨by decide, (code_span_read_back_iff (by decide)).2.2.1
    ((closing?_eq_none_iff (by decide)).1 (by decide))⟩

/-- One backtick inside code closes a span of one, and the rest of the code is left outside. -/
theorem tick_inside_code_leaks :
    codeSpan "a`b".toList = "`a`b`".toList ∧
      readSpan? (codeSpan "a`b".toList) = some ("a".toList, "b`".toList) ∧
      ¬ ∃ body, readSpan? (codeSpan "a`b".toList) = some (body, []) := by
  have hread : readSpan? (codeSpan "a`b".toList) = some ("a".toList, "b`".toList) := by decide
  refine ⟨by decide, hread, ?_⟩
  rintro ⟨body, hbody⟩
  rw [hread] at hbody
  exact absurd hbody (by simp)

end Reflow.Document
