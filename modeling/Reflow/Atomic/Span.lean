import Reflow.Atomic.Construct

/-!
Cutting a text into atomic and plain pieces.

`pieces` cuts a text from left to right: where one of the given constructs is recognised, the
piece is that construct, the first one in the list winning; everything between is plain. The
pieces concatenate to the text. `spans` adds to each piece where it starts.
-/

namespace Reflow.Atomic

/-- A piece of a text: an atomic construct, or plain text between constructs. -/
structure Piece where
  text : Text
  construct : Option Construct
deriving DecidableEq, Repr

/-- The first construct of the list that is recognised at the start of the text, and how far it
reaches. -/
def recognise? (constructs : List Construct) (t : Text) : Option (Construct × Nat) :=
  constructs.findSome? fun k => (k.recogniser t).map fun n => (k, n)

def consPlain (c : Char) : List Piece → List Piece
  | ⟨t, none⟩ :: rest => ⟨c :: t, none⟩ :: rest
  | rest => ⟨[c], none⟩ :: rest

def pieces (constructs : List Construct) : Text → List Piece
  | [] => []
  | c :: cs =>
    match recognise? constructs (c :: cs) with
    | some (k, n + 1) => ⟨c :: cs.take n, some k⟩ :: pieces constructs (cs.drop n)
    | _ => consPlain c (pieces constructs cs)
termination_by t => t.length
decreasing_by all_goals (simp; try omega)

structure Span extends Piece where
  start : Nat
deriving DecidableEq, Repr

def Span.stop (s : Span) : Nat := s.start + s.text.length

def locate (start : Nat) : List Piece → List Span
  | [] => []
  | p :: rest => { p with start := start } :: locate (start + p.text.length) rest

def spans (constructs : List Construct) (t : Text) : List Span := locate 0 (pieces constructs t)

/-! ## Joined text -/

theorem flatMap_consPlain (c : Char) (ps : List Piece) :
    (consPlain c ps).flatMap (·.text) = c :: ps.flatMap (·.text) := by
  unfold consPlain
  split <;> simp

theorem flatMap_pieces (constructs : List Construct) (t : Text) :
    (pieces constructs t).flatMap (·.text) = t := by
  fun_induction pieces constructs t with
  | case1 => rfl
  | case2 c cs k n _ ih => simp [ih]
  | case3 c cs _ ih => simp [flatMap_consPlain, ih]

end Reflow.Atomic
