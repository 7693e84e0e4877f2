import Reflow.Text.Blank

/-!
Text and its elementary cuts.

A text is a list of characters, so lengths, columns and offsets all count code points. This module
holds the operations that the rest of the library is written in: trimming, cutting into words and
lines, joining, collapsing runs of blanks, and finding or replacing a fixed piece of text.

The *visible* part of a text is what is left when every blank is deleted. It is the view through
which layout is judged: wrapping may move blanks about, and must keep the visible part.
-/

namespace Reflow

abbrev Text := List Char

namespace Text

/-! ## Trimming -/

def dropEndWhile (p : Char → Bool) : Text → Text
  | [] => []
  | c :: cs =>
    match dropEndWhile p cs with
    | [] => if p c then [] else [c]
    | d :: ds => c :: d :: ds

def stripLeft (t : Text) : Text := t.dropWhile isBlank

def stripRight (t : Text) : Text := dropEndWhile isBlank t

def strip (t : Text) : Text := stripRight (stripLeft t)

def isBlankText (t : Text) : Bool := t.all isBlank

/-- The visible part: the text without its blanks. -/
def visible (t : Text) : Text := t.filter fun c => !isBlank c

def dropEndNewlines (t : Text) : Text := dropEndWhile (· == '\n') t

/-! ## Cutting and joining -/

/-- Cut at every occurrence of a character; the pieces are one more than the occurrences. -/
def splitOn (sep : Char) : Text → List Text
  | [] => [[]]
  | c :: cs =>
    if c = sep then [] :: splitOn sep cs
    else
      match splitOn sep cs with
      | [] => [[c]]
      | piece :: rest => (c :: piece) :: rest

def joinWith (sep : Text) : List Text → Text
  | [] => []
  | [t] => t
  | t :: ts => t ++ sep ++ joinWith sep ts

def lines (t : Text) : List Text := splitOn '\n' t

def unlines (ls : List Text) : Text := joinWith ['\n'] ls

def unwords (ws : List Text) : Text := joinWith [' '] ws

def words : Text → List Text
  | [] => []
  | c :: cs =>
    if isBlank c then words cs
    else
      match cs with
      | [] => [[c]]
      | d :: _ =>
        if isBlank d then [c] :: words cs
        else
          match words cs with
          | [] => [[c]]
          | w :: ws => (c :: w) :: ws

def runs : Text → List Text
  | [] => []
  | c :: cs =>
    match cs, runs cs with
    | d :: _, run :: rest =>
      if isBlank c == isBlank d then (c :: run) :: rest else [c] :: run :: rest
    | _, rest => [c] :: rest

def collapse : Text → Text
  | [] => []
  | c :: cs =>
    if isBlank c then
      match cs with
      | [] => [' ']
      | d :: _ => if isBlank d then collapse cs else ' ' :: collapse cs
    else c :: collapse cs

/-- Cut at line breaks of every kind. A break ends a line, so a text that ends in one has no empty
line after it. -/
def splitLines : Text → List Text
  | [] => []
  | '\r' :: '\n' :: cs => [] :: splitLines cs
  | c :: cs =>
    if isLineBreak c then [] :: splitLines cs
    else
      match splitLines cs with
      | [] => [[c]]
      | line :: rest => (c :: line) :: rest

/-! ## Finding and replacing -/

def startsWith (t s : Text) : Bool := s.isPrefixOf t

def endsWith (t s : Text) : Bool := s.isSuffixOf t

def cut? (s : Text) : Text → Option (Text × Text)
  | [] => if s.isEmpty then some ([], []) else none
  | c :: cs =>
    if s.isPrefixOf (c :: cs) then some ([], (c :: cs).drop s.length)
    else (cut? s cs).map fun (before, after) => (c :: before, after)

theorem cut?_eq_append {s t before after : Text} (h : cut? s t = some (before, after)) :
    t = before ++ s ++ after := by
  induction t generalizing before with
  | nil =>
    simp only [cut?] at h
    split at h
    · next hs => simp_all
    · simp at h
  | cons c cs ih =>
    simp only [cut?] at h
    split at h
    · next hp =>
      obtain ⟨rfl, rfl⟩ : [] = before ∧ (c :: cs).drop s.length = after := by simpa using h
      exact (List.prefix_iff_eq_append.1 (List.isPrefixOf_iff_prefix.1 hp)).symm
    · obtain ⟨⟨b, a⟩, hb, hab⟩ := Option.map_eq_some_iff.1 h
      obtain ⟨rfl, rfl⟩ : c :: b = before ∧ a = after := by simpa using hab
      simp [ih hb]

def includes (t s : Text) : Bool := (cut? s t).isSome

/-- Replace every occurrence of `old`, from left to right, by `new`. An empty `old` replaces
nothing. -/
def replaceAll (old new : Text) : Text → Text
  | [] => []
  | c :: cs =>
    if old.isPrefixOf (c :: cs) && !old.isEmpty then
      new ++ replaceAll old new (cs.drop (old.length - 1))
    else c :: replaceAll old new cs
termination_by t => t.length
decreasing_by all_goals (simp; try omega)

def le : Text → Text → Bool
  | [], _ => true
  | _ :: _, [] => false
  | c :: s, d :: t => if c = d then le s t else c.toNat < d.toNat

def repeated (n : Nat) (c : Char) : Text := List.replicate n c

theorem takeWhile_eq_repeated (c : Char) (t : Text) :
    t.takeWhile (· == c) = repeated (t.takeWhile (· == c)).length c :=
  List.eq_replicate_of_mem fun d hd => by simpa using List.all_eq_true.1 List.all_takeWhile d hd

/-! ## Reading files

A file is read with all line ends alike: a carriage return, with or without a line feed after it,
is a line feed. -/

/-- Carriage returns, alone or before a line feed, become line feeds. -/
def universalNewlines : Text → Text
  | [] => []
  | '\r' :: '\n' :: cs => '\n' :: universalNewlines cs
  | c :: cs => (if c = '\r' then '\n' else c) :: universalNewlines cs

end Text

end Reflow
