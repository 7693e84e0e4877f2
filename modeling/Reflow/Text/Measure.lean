import Reflow.Text.Basic

/-!
Measures of a text.

The width of a line is counted in code points or in the bytes of the UTF-8 form. Both are sums over
the characters, so the measure of a concatenation is the sum of the measures.
-/

namespace Reflow

inductive Measure where
  | codePoints
  | utf8Bytes
deriving DecidableEq, Repr

namespace Measure

def ofChar : Measure → Char → Nat
  | codePoints, _ => 1
  | utf8Bytes, c => c.utf8Size

def of (m : Measure) (t : Text) : Nat := t.foldr (fun c n => m.ofChar c + n) 0

@[simp] theorem of_nil (m : Measure) : m.of [] = 0 := rfl

@[simp] theorem of_cons (m : Measure) (c : Char) (t : Text) :
    m.of (c :: t) = m.ofChar c + m.of t := rfl

@[simp] theorem of_append (m : Measure) (s t : Text) : m.of (s ++ t) = m.of s + m.of t := by
  induction s with
  | nil => simp
  | cons c s ih => rw [List.cons_append, of_cons, of_cons, ih]; omega

@[simp] theorem of_codePoints (t : Text) : codePoints.of t = t.length := by
  induction t with
  | nil => rfl
  | cons c t ih => rw [of_cons, ih, List.length_cons, ofChar]; omega

end Measure

end Reflow
