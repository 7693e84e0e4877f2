import Reflow.Config.Value

/-!
Values that will not do for what they are used for.

A configuration is not checked as it is read. A value of the wrong kind is kept, and shows where it
is put to use: two settings that are joined have to be lists, their items have to be texts, and a
bound has to be a number.
-/

namespace Reflow.Config

inductive Misfit where
  /-- Something that cannot be joined to a list. -/
  | besideList (v : Value)
  /-- Something that cannot be joined to a text. -/
  | besideText (v : Value)
  /-- Two things that cannot be joined. -/
  | apart (v w : Value)
  /-- Something in a list of patterns that is no text. -/
  | notPattern (v : Value)
  /-- Something in place of a bound. -/
  | notBound (v : Value)

def Misfit.message : Misfit → Text
  | besideList v => ("can only concatenate list (not \"" ++ v.kindName ++ "\") to list").toList
  | besideText v => ("can only concatenate str (not \"" ++ v.kindName ++ "\") to str").toList
  | apart v w =>
    ("unsupported operand type(s) for +: '" ++ v.kindName ++ "' and '" ++ w.kindName
      ++ "'").toList
  | notPattern v =>
    "pattern:".toList ++ v.shown ++ " is not a string, re.Pattern, or None.".toList
  | notBound v =>
    ("'>' not supported between instances of 'int' and '" ++ v.kindName ++ "'").toList

def Value.pattern (v : Value) : Except Misfit Text :=
  match v.text? with
  | some t => .ok t
  | none => .error (.notPattern v)

/-- The patterns of two settings. What is empty is no pattern; of two texts that are joined every
character is one. -/
def Value.patterns : Value → Value → Except Misfit (List Text)
  | .list items, .list more => ((items ++ more).filter Value.isYes).mapM Value.pattern
  | .list _, v => .error (.besideList v)
  | .text t, .text more => .ok ((t ++ more).map fun c => [c])
  | .text _, v => .error (.besideText v)
  | v, w => .error (.apart v w)

end Reflow.Config
