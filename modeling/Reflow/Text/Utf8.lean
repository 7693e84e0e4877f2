import Reflow.Text.Basic

/-!
Bytes as text.

Text is stored in UTF-8. The first byte of a character says how many bytes follow it and in which
range the first of these lies; the others lie in the range of all following bytes. Bytes that do not
go by this rule are no text, and the fault says which bytes they are and what is wrong with them.
-/

namespace Reflow.Utf8

/-! ## Faults -/

inductive Flaw where
  /-- No character starts with the byte. -/
  | start
  /-- What follows does not continue the character. -/
  | continuation
  /-- The bytes end inside the character. -/
  | cutOff
deriving DecidableEq, Repr

structure Fault where
  flaw : Flaw
  position : Nat
  bytes : List UInt8
deriving DecidableEq, Repr

def decimal (n : Nat) : Text := Nat.toDigits 10 n

def Fault.message (e : Fault) : Text :=
  "'utf-8' codec can't decode ".toList ++ subject ++ [':', ' '] ++ reason.toList
where
  subject : Text :=
    match e.bytes with
    | [b] =>
      "byte 0x".toList ++ Nat.toDigits 16 b.toNat ++ " in position ".toList ++ decimal e.position
    | bytes =>
      "bytes in position ".toList ++ decimal e.position ++ ['-']
        ++ decimal (e.position + bytes.length - 1)
  reason : String :=
    match e.flaw with
    | .start => "invalid start byte"
    | .continuation => "invalid continuation byte"
    | .cutOff => "unexpected end of data"

/-! ## Reading -/

/-- What is to follow in a character: so many bytes, the first of them in a range. -/
structure Due where
  count : Nat
  low : Nat := 0x80
  high : Nat := 0xBF
deriving DecidableEq, Repr

/-- The bits that the first byte of a character gives, and what is to follow. -/
def start? (b : Nat) : Option (Nat × Due) :=
  if b ≤ 0x7F then some (b, ⟨0, 0x80, 0xBF⟩)
  else if b < 0xC2 then none
  else if b ≤ 0xDF then some (b - 0xC0, ⟨1, 0x80, 0xBF⟩)
  else if b ≤ 0xEF then
    some (b - 0xE0, ⟨2, if b = 0xE0 then 0xA0 else 0x80, if b = 0xED then 0x9F else 0xBF⟩)
  else if b ≤ 0xF4 then
    some (b - 0xF0, ⟨3, if b = 0xF0 then 0x90 else 0x80, if b = 0xF4 then 0x8F else 0xBF⟩)
  else none

/-- A character under way: its bytes and bits so far, and what is to follow. -/
structure Partial where
  bytes : List UInt8
  bits : Nat
  due : Due
deriving DecidableEq, Repr

def Partial.push? (p : Partial) (b : UInt8) : Option Partial :=
  if p.due.low ≤ b.toNat && b.toNat ≤ p.due.high then
    some ⟨p.bytes ++ [b], p.bits * 64 + (b.toNat - 0x80), ⟨p.due.count - 1, 0x80, 0xBF⟩⟩
  else none

def decodeFrom (position : Nat) (p : Option Partial) : List UInt8 → Except Fault Text
  | [] =>
    match p with
    | none => .ok []
    | some p => .error ⟨.cutOff, position - p.bytes.length, p.bytes⟩
  | b :: rest =>
    match p with
    | none =>
      match start? b.toNat with
      | none => .error ⟨.start, position, [b]⟩
      | some (bits, due) =>
        if due.count = 0 then
          (decodeFrom (position + 1) none rest).map (Char.ofNat bits :: ·)
        else decodeFrom (position + 1) (some ⟨[b], bits, due⟩) rest
    | some p =>
      match p.push? b with
      | none => .error ⟨.continuation, position - p.bytes.length, p.bytes⟩
      | some p =>
        if p.due.count = 0 then
          (decodeFrom (position + 1) none rest).map (Char.ofNat p.bits :: ·)
        else decodeFrom (position + 1) (some p) rest

def decode (bytes : List UInt8) : Except Fault Text := decodeFrom 0 none bytes

end Reflow.Utf8
