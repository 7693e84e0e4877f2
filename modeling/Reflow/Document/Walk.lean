import Reflow.Document.Node

/-!
Reading a document: all nodes in order, the plain text of a node, and links.
-/

namespace Reflow.Document

namespace Node

mutual

/-- All nodes below a node, each before those below it. -/
def descendants : Node → List Node
  | leaf _ => []
  | text _ _ => []
  | branch _ cs => descendantsAll cs

def descendantsAll : List Node → List Node
  | [] => []
  | n :: ns => n :: descendants n ++ descendantsAll ns

end

mutual

def plainText : Node → Text
  | leaf _ => []
  | text _ t => t
  | branch _ cs => plainTextAll cs

def plainTextAll : List Node → Text
  | [] => []
  | n :: ns => plainText n ++ plainTextAll ns

end

end Node

structure Link where
  text : Text
  target : Target
deriving DecidableEq, Repr

structure LinkFilter where
  autolinks : Bool := true
  images : Bool := false
deriving DecidableEq, Repr

def LinkFilter.link? (f : LinkFilter) (n : Node) : Option Link :=
  match n.kind with
  | .link target => some ⟨n.plainText, target⟩
  | .image target => if f.images then some ⟨n.plainText, target⟩ else none
  | .autolink address | .bareUrl address =>
    if f.autolinks then some ⟨n.plainText, ⟨address, none⟩⟩ else none
  | _ => none

def links (f : LinkFilter) (n : Node) : List Link := n.descendants.filterMap f.link?

end Reflow.Document
