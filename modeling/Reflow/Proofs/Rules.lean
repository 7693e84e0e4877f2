import Mathlib.Data.List.Forall2
import Reflow.Text.Recogniser

/-!
Laws of replacement rules.

A rule is applied from left to right: at each place it takes a stretch of the text and puts another
one there, or it finds nothing and one character stays. `Lawful.induction` is this reading as a
principle of induction, and `applyAfter_cons` and `applyAfter_append` are its two steps, so that
what a rule does to a whole text is proved from what it does at one place. `taken` lists what a rule
takes up on its way.
-/

open List

namespace Reflow.Rule

/-- The rule takes one character or more, and no more than there are. -/
def Lawful (rule : Rule) : Prop :=
  ∀ before t n new, rule before t = some (n, new) → 0 < n ∧ n ≤ t.length

/-- What the rule takes from a text that stands after `before`, from left to right. -/
def taken (rule : Rule) (before : Option Char) : Text → List Text
  | [] => []
  | c :: cs =>
    match rule before (c :: cs) with
    | some (n + 1, _) => (c :: cs.take n) :: taken rule (c :: cs)[n]? (cs.drop n)
    | _ => taken rule (some c) cs
termination_by t => t.length
decreasing_by all_goals (simp; try omega)

variable {rule : Rule} {before : Option Char}

/-! ## One step -/

section Step

@[simp] theorem applyAfter_nil : rule.applyAfter before [] = [] := by rw [applyAfter]

@[simp] theorem taken_nil : rule.taken before [] = [] := by rw [taken]

theorem applyAfter_cons {c : Char} {t : Text} (h : rule before (c :: t) = none) :
    rule.applyAfter before (c :: t) = c :: rule.applyAfter (some c) t := by
  rw [applyAfter, h]

theorem taken_cons {c : Char} {t : Text} (h : rule before (c :: t) = none) :
    rule.taken before (c :: t) = rule.taken (some c) t := by
  rw [taken, h]

theorem getElem?_length_cons_append (c : Char) (a t : Text) :
    (c :: (a ++ t))[a.length]? = (c :: a).getLast? := by
  rw [← cons_append, getElem?_append_left (by simp), getLast?_eq_getElem?]
  rfl

variable {a t new : Text} (ha : a ≠ []) (h : rule before (a ++ t) = some (a.length, new))
include ha h

theorem applyAfter_append :
    rule.applyAfter before (a ++ t) = new ++ rule.applyAfter a.getLast? t := by
  obtain ⟨c, a, rfl⟩ := exists_cons_of_ne_nil ha
  rw [cons_append] at h ⊢
  rw [applyAfter, h, length_cons]
  simp only [getElem?_length_cons_append, drop_left]

theorem taken_append : rule.taken before (a ++ t) = a :: rule.taken a.getLast? t := by
  obtain ⟨c, a, rfl⟩ := exists_cons_of_ne_nil ha
  rw [cons_append] at h ⊢
  rw [taken, h, length_cons]
  simp only [getElem?_length_cons_append, drop_left, take_left]

end Step

/-! ## The whole reading -/

namespace Lawful

/-- Reading a text with a rule: the text is at its end, or the rule finds nothing and one character
is passed, or the rule takes `a`. -/
theorem induction (hrule : rule.Lawful) {motive : Option Char → Text → Prop}
    (nil : ∀ before, motive before [])
    (keep : ∀ before c t, rule before (c :: t) = none → motive (some c) t → motive before (c :: t))
    (take : ∀ before a t new, a ≠ [] → rule before (a ++ t) = some (a.length, new) →
      motive a.getLast? t → motive before (a ++ t))
    (before : Option Char) (t : Text) : motive before t := by
  match t with
  | [] => exact nil before
  | c :: t =>
    cases h : rule before (c :: t) with
    | none => exact keep before c t h (hrule.induction nil keep take _ t)
    | some found =>
      obtain ⟨n, new⟩ := found
      obtain ⟨hpos, hle⟩ := hrule _ _ _ _ h
      have hlength : ((c :: t).take n).length = n := length_take_of_le hle
      have hne : (c :: t).take n ≠ [] := by
        intro hnil
        rw [hnil, length_nil] at hlength
        omega
      have hstep := take before ((c :: t).take n) ((c :: t).drop n) new hne
        (by rw [hlength, take_append_drop, h]) (hrule.induction nil keep take _ _)
      rwa [take_append_drop] at hstep
termination_by t.length
decreasing_by
  · simp
  · simp only [length_drop, length_cons]
    omega

section Reading

variable {before : Option Char}

variable (hrule : rule.Lawful)
include hrule

/-- A change that the rule makes character by character, wherever it takes something, is such a
change of the whole text. -/
theorem forall₂_applyAfter {R : Char → Char → Prop} (hR : ∀ c, R c c)
    (hnew : ∀ {before a t new}, rule before (a ++ t) = some (a.length, new) →
      Forall₂ R a new) (before : Option Char) (t : Text) :
    Forall₂ R t (rule.applyAfter before t) := by
  induction before, t using hrule.induction with
  | nil before => simp
  | keep before c t h ih =>
    rw [applyAfter_cons h]
    exact .cons (hR c) ih
  | take before a t new ha h ih =>
    rw [applyAfter_append ha h]
    exact rel_append (hnew h) ih

theorem isInfix_of_mem_taken {a : Text} {t : Text} (h : a ∈ rule.taken before t) : a <:+: t := by
  induction before, t using hrule.induction with
  | nil before => simp at h
  | keep before c t hno ih =>
    rw [taken_cons hno] at h
    exact (ih h).trans (suffix_cons c t).isInfix
  | take before b t new hb hrule ih =>
    rw [taken_append hb hrule, mem_cons] at h
    rcases h with rfl | h
    · exact (prefix_append a t).isInfix
    · exact (ih h).trans (suffix_append b t).isInfix

/-- **When nothing changes.** A rule that keeps lengths leaves a text as it is exactly if it puts
back all that it takes. -/
theorem applyAfter_eq_self_iff {P : Text → Prop}
    (hlength : ∀ {before a t new}, rule before (a ++ t) = some (a.length, new) →
      new.length = a.length)
    (hkept : ∀ {before a t new}, rule before (a ++ t) = some (a.length, new) → (new = a ↔ P a))
    (before : Option Char) (t : Text) :
    rule.applyAfter before t = t ↔ ∀ a ∈ rule.taken before t, P a := by
  induction before, t using hrule.induction with
  | nil before => simp
  | keep before c t h ih => rw [applyAfter_cons h, taken_cons h, cons_inj_right, ih]
  | take before a t new ha h ih =>
    rw [applyAfter_append ha h, taken_append ha h, forall_mem_cons, ← hkept h, ← ih]
    exact ⟨fun heq => append_inj heq (hlength h), fun heq => by rw [heq.1, heq.2]⟩

theorem eq_none_of_taken_cons {c : Char} {t : Text} (h : rule.taken before (c :: t) = []) :
    rule before (c :: t) = none := by
  cases hfound : rule before (c :: t) with
  | none => rfl
  | some found =>
    obtain ⟨n, new⟩ := found
    obtain ⟨hpos, -⟩ := hrule _ _ _ _ hfound
    obtain ⟨m, rfl⟩ : ∃ m, n = m + 1 := ⟨n - 1, by omega⟩
    rw [taken, hfound] at h
    simp at h

theorem eq_none_of_taken_append {a t : Text} (h : rule.taken before (a ++ t) = []) (ht : t ≠ []) :
    rule (a.getLast?.or before) t = none := by
  induction a generalizing before with
  | nil =>
    obtain ⟨c, t, rfl⟩ := exists_cons_of_ne_nil ht
    exact hrule.eq_none_of_taken_cons h
  | cons c a ih =>
    rw [cons_append, taken_cons (hrule.eq_none_of_taken_cons h)] at h
    rw [← ih h]
    cases a <;> simp [getLast?_cons]

end Reading

end Lawful

end Reflow.Rule
