import Reflow.Files.Tree

/-!
Texts as bytes.

Reading the bytes of a text in UTF-8 gives the text back (`decode_encode`), so two texts with the
same bytes are the same. The reader takes one byte at a time; each of the four lengths of a
character is followed through it byte by byte. What is not obvious is that the ranges that the
reader asks of the second byte are met: they keep out what has a shorter form, and the numbers that
are no characters.
-/

namespace Reflow

namespace Utf8

variable {n : Nat}

def encode (t : Text) : List UInt8 := t.flatMap String.utf8EncodeChar

/-! ## Reading byte by byte -/

theorem toNat_ofNat_of_lt (h : n < 256) : (UInt8.ofNat n).toNat = n :=
  UInt8.toNat_ofNat_of_lt' h

section Steps

variable {position bits : Nat} {b : UInt8} {rest bytes : List UInt8}

theorem decodeFrom_alone (h : start? b.toNat = some (bits, ⟨0, 0x80, 0xBF⟩)) :
    decodeFrom position none (b :: rest)
      = (decodeFrom (position + 1) none rest).map (Char.ofNat bits :: ·) := by
  rw [decodeFrom, h]
  rfl

theorem decodeFrom_start {n low high : Nat} (h : start? b.toNat = some (bits, ⟨n + 1, low, high⟩)) :
    decodeFrom position none (b :: rest)
      = decodeFrom (position + 1) (some ⟨[b], bits, ⟨n + 1, low, high⟩⟩) rest := by
  rw [decodeFrom, h]
  rfl

theorem push?_following {v n low high : Nat} (hlow : low ≤ v % 0x40 + 0x80)
    (hhigh : v % 0x40 + 0x80 ≤ high) :
    Partial.push? ⟨bytes, v / 64, ⟨n, low, high⟩⟩ (UInt8.ofNat (v % 0x40 + 0x80))
      = some ⟨bytes ++ [UInt8.ofNat (v % 0x40 + 0x80)], v, ⟨n - 1, 0x80, 0xBF⟩⟩ := by
  have hbits : v / 64 * 64 + (v % 0x40 + 0x80 - 0x80) = v := by omega
  simp only [Partial.push?, toNat_ofNat_of_lt (show v % 0x40 + 0x80 < 256 by omega), hlow, hhigh,
    hbits, decide_true, Bool.and_self, if_true]

/-- A byte that follows another one brings the next six bits of the number. -/
theorem decodeFrom_more {v n low high : Nat} (hlow : low ≤ v % 0x40 + 0x80)
    (hhigh : v % 0x40 + 0x80 ≤ high) :
    decodeFrom position (some ⟨bytes, v / 64, ⟨n + 2, low, high⟩⟩)
        (UInt8.ofNat (v % 0x40 + 0x80) :: rest)
      = decodeFrom (position + 1)
          (some ⟨bytes ++ [UInt8.ofNat (v % 0x40 + 0x80)], v, ⟨n + 1, 0x80, 0xBF⟩⟩) rest := by
  rw [decodeFrom, push?_following hlow hhigh]
  rfl

theorem decodeFrom_last {v : Nat} :
    decodeFrom position (some ⟨bytes, v / 64, ⟨1, 0x80, 0xBF⟩⟩)
        (UInt8.ofNat (v % 0x40 + 0x80) :: rest)
      = (decodeFrom (position + 1) none rest).map (Char.ofNat v :: ·) := by
  rw [decodeFrom, push?_following (by omega) (by omega)]
  rfl

end Steps

theorem start?_two {v : Nat} (hlow : 0x7F < v) (hhigh : v ≤ 0x7FF) :
    start? (v / 64 + 0xC0) = some (v / 64, ⟨1, 0x80, 0xBF⟩) := by
  rw [start?, if_neg (by omega), if_neg (by omega), if_pos (by omega), Nat.add_sub_cancel]

theorem start?_three (hn : n < 16) :
    start? (n + 0xE0) = some (n, ⟨2, if n = 0 then 0xA0 else 0x80,
      if n = 13 then 0x9F else 0xBF⟩) := by
  rw [start?, if_neg (by omega), if_neg (by omega), if_neg (by omega), if_pos (by omega),
    Nat.add_sub_cancel]
  simp only [Nat.add_eq_right, Nat.reduceEqDiff]

theorem start?_four (hn : n ≤ 4) :
    start? (n + 0xF0) = some (n, ⟨3, if n = 0 then 0x90 else 0x80,
      if n = 4 then 0x8F else 0xBF⟩) := by
  rw [start?, if_neg (by omega), if_neg (by omega), if_neg (by omega), if_neg (by omega),
    if_pos (by omega), Nat.add_sub_cancel]
  simp only [Nat.add_eq_right, Nat.reduceEqDiff]

section Characters

variable {v : Nat} (position : Nat) (rest : List UInt8)

theorem decodeFrom_one (hhigh : v ≤ 0x7F) :
    decodeFrom position none (UInt8.ofNat v :: rest)
      = (decodeFrom (position + 1) none rest).map (Char.ofNat v :: ·) := by
  refine decodeFrom_alone ?_
  rw [toNat_ofNat_of_lt (by omega), start?, if_pos hhigh]

theorem decodeFrom_two (hlow : 0x7F < v) (hhigh : v ≤ 0x7FF) :
    decodeFrom position none
        (UInt8.ofNat (v / 64 % 0x20 + 0xC0) :: UInt8.ofNat (v % 0x40 + 0x80) :: rest)
      = (decodeFrom (position + 2) none rest).map (Char.ofNat v :: ·) := by
  have hfirst : (UInt8.ofNat (v / 64 % 0x20 + 0xC0)).toNat = v / 64 + 0xC0 := by
    rw [toNat_ofNat_of_lt (by omega)]
    omega
  rw [decodeFrom_start (hfirst ▸ start?_two hlow hhigh), decodeFrom_last]

/-- The second byte of a character of three lies higher where there would be a shorter form, and
lower where the numbers would be no characters. -/
theorem decodeFrom_three (hlow : 0x7FF < v) (hhigh : v ≤ 0xFFFF)
    (hvalid : v < 0xD800 ∨ 0xDFFF < v) :
    decodeFrom position none (UInt8.ofNat (v / 4096 % 0x10 + 0xE0)
        :: UInt8.ofNat (v / 64 % 0x40 + 0x80) :: UInt8.ofNat (v % 0x40 + 0x80) :: rest)
      = (decodeFrom (position + 3) none rest).map (Char.ofNat v :: ·) := by
  have hfirst : (UInt8.ofNat (v / 4096 % 0x10 + 0xE0)).toNat = v / 64 / 64 + 0xE0 := by
    rw [toNat_ofNat_of_lt (by omega)]
    omega
  rw [decodeFrom_start (hfirst ▸ start?_three (by omega)),
    decodeFrom_more (by split <;> omega) (by split <;> omega), decodeFrom_last]

/-- The second byte of a character of four lies higher where there would be a shorter form, and
lower where the numbers would go too far. -/
theorem decodeFrom_four (hlow : 0xFFFF < v) (hhigh : v ≤ 0x10FFFF) :
    decodeFrom position none (UInt8.ofNat (v / 262144 % 0x08 + 0xF0)
        :: UInt8.ofNat (v / 4096 % 0x40 + 0x80) :: UInt8.ofNat (v / 64 % 0x40 + 0x80)
        :: UInt8.ofNat (v % 0x40 + 0x80) :: rest)
      = (decodeFrom (position + 4) none rest).map (Char.ofNat v :: ·) := by
  have hfirst : (UInt8.ofNat (v / 262144 % 0x08 + 0xF0)).toNat = v / 64 / 64 / 64 + 0xF0 := by
    rw [toNat_ofNat_of_lt (by omega)]
    omega
  have hsecond : v / 4096 = v / 64 / 64 := by omega
  rw [decodeFrom_start (hfirst ▸ start?_four (by omega)), hsecond,
    decodeFrom_more (by split <;> omega) (by split <;> omega),
    decodeFrom_more (by omega) (by omega), decodeFrom_last]

end Characters

/-- **One character.** Its bytes are read as the character, whatever follows. -/
theorem decodeFrom_utf8EncodeChar (position : Nat) (c : Char) (rest : List UInt8) :
    decodeFrom position none (String.utf8EncodeChar c ++ rest)
      = (decodeFrom (position + (String.utf8EncodeChar c).length) none rest).map (c :: ·) := by
  have hc : Char.ofNat c.val.toNat = c := Char.ofNat_toNat c
  have hvalid : c.val.toNat < 0xD800 ∨ 0xDFFF < c.val.toNat ∧ c.val.toNat < 0x110000 := c.valid
  -- the number of the character decides how many bytes there are
  generalize hv : c.val.toNat = v at hc hvalid
  unfold String.utf8EncodeChar
  simp only [hv]
  subst hc
  split
  · exact decodeFrom_one position rest (by omega)
  split
  · exact decodeFrom_two position rest (by omega) (by omega)
  split
  · exact decodeFrom_three position rest (by omega) (by omega) (by omega)
  · exact decodeFrom_four position rest (by omega) (by omega)

theorem decodeFrom_encode (position : Nat) (t : Text) :
    decodeFrom position none (encode t) = .ok t := by
  induction t generalizing position with
  | nil => rfl
  | cons c t ih =>
    have hcons : encode (c :: t) = String.utf8EncodeChar c ++ encode t := List.flatMap_cons
    rw [hcons, decodeFrom_utf8EncodeChar, ih]
    rfl

/-- **Reading the bytes of a text gives the text.** -/
theorem decode_encode (t : Text) : decode (encode t) = .ok t := decodeFrom_encode 0 t

theorem encode_inj {s t : Text} : encode s = encode t ↔ s = t := by
  constructor
  · intro h
    have hsame := decode_encode s
    rw [h, decode_encode] at hsame
    exact (Except.ok.inj hsame).symm
  · rintro rfl
    rfl

end Utf8

namespace Files.Content

/-- The bytes of a file. -/
def toBytes : Content → List UInt8
  | text t => Utf8.encode t
  | bytes bs => bs

/-- **A file in UTF-8 can be read.** What is read is its text, with all line ends alike. -/
theorem read_of_toBytes {c : Content} {raw : Text} (h : c.toBytes = Utf8.encode raw) :
    c.read = .ok (Text.universalNewlines raw) := by
  cases c with
  | text t =>
    cases Utf8.encode_inj.1 h
    rfl
  | bytes bs =>
    have hbs : bs = Utf8.encode raw := h
    rw [read, hbs, Utf8.decode_encode]
    rfl

end Files.Content

end Reflow
