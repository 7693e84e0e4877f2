import Reflow.Atomic.Word
import Reflow.Tag.Adjacent

/-!
How a paragraph is cut into words before it is wrapped.
-/

namespace Reflow.Wrap

inductive Splitter where
  /-- At every run of blanks. -/
  | plain
  /-- At runs of blanks outside atomic constructs, adjacent tags being words of their own. -/
  | markup
deriving DecidableEq, Repr

def Splitter.words : Splitter → Text → List Text
  | plain, t => Text.words t
  | markup, t => (Atomic.words Construct.wrapping (Tag.separate t)).map (·.text)

end Reflow.Wrap
