import Reflow.Text.Basic

/-!
Document trees.

A Markdown document is a tree of nodes. Every node has a kind, which carries what is particular to
it (the level of a heading, the target of a link), and most have content: a piece of text, or a
list of child nodes. The tree is deliberately loose about which kinds stand inside which, so that
every walk over it is defined for every tree.
-/

namespace Reflow.Document

structure Target where
  address : Text
  title : Option Text
deriving DecidableEq, Repr

structure Reference where
  label : Text
  target : Target
deriving DecidableEq, Repr

/-- Define a label. A label that is defined already keeps its place and gets the new target. -/
def define (references : List Reference) (r : Reference) : List Reference :=
  if references.any fun old => old.label = r.label then
    references.map fun old => if old.label = r.label then r else old
  else references ++ [r]

structure ListShape where
  ordered : Bool
  start : Int
  bullet : Text
  tight : Bool
deriving DecidableEq, Repr

structure FenceInfo where
  language : Text
  extra : Text
deriving DecidableEq, Repr

structure Fence where
  char : Char
  length : Nat
deriving DecidableEq, Repr

inductive Kind where
  | document (references : List Reference)
  /-- A paragraph; `checked` is the state of a task item's box. -/
  | paragraph (checked : Option Bool)
  | heading (level : Nat)
  | underlinedHeading (level : Nat)
  | blankLine
  | quote
  /-- A quote with a label such as `NOTE`. -/
  | alert (label : Text)
  | list (shape : ListShape)
  | listItem
  | indentedCode
  | fencedCode (info : FenceInfo)
  | fencedBlock (info : FenceInfo) (fence : Fence)
  | htmlBlock (body : Text)
  | thematicBreak
  | linkDefinition (reference : Reference)
  | footnoteDefinition (label : Text)
  | footnoteReference (label : Text)
  | table (delimiters : List Text)
  | tableRow
  | tableCell
  | rawText
  | emphasis
  | strong
  | strikethrough
  | link (target : Target)
  | image (target : Target)
  | autolink (address : Text)
  | bareUrl (address : Text)
  | codeSpan
  | inlineHtml
  /-- A character that was written with a backslash. -/
  | literal
  | lineBreak (soft : Bool)
deriving DecidableEq, Repr

/-- What every node has: its kind, and the stretch of the source it was read from if that is
known. -/
structure Head where
  kind : Kind
  span : Option (Nat × Nat) := none
deriving DecidableEq, Repr

inductive Node where
  | leaf (head : Head)
  | text (head : Head) (content : Text)
  | branch (head : Head) (children : List Node)
deriving Repr

namespace Node

def head : Node → Head
  | leaf h => h
  | text h _ => h
  | branch h _ => h

def kind (n : Node) : Kind := n.head.kind

def children : Node → List Node
  | branch _ cs => cs
  | _ => []

def withHead (h : Head) : Node → Node
  | leaf _ => leaf h
  | text _ t => text h t
  | branch _ cs => branch h cs

mutual

def size : Node → Nat
  | leaf _ => 1
  | text _ _ => 1
  | branch _ cs => sizeAll cs + 1

def sizeAll : List Node → Nat
  | [] => 0
  | n :: ns => size n + sizeAll ns

end

/-- Induction over trees: what holds of a node if it holds of all its children holds of every node. -/
@[elab_as_elim]
theorem induct {P : Node → Prop} (leaf : ∀ h, P (.leaf h)) (text : ∀ h t, P (.text h t))
    (branch : ∀ h cs, (∀ c ∈ cs, P c) → P (.branch h cs)) (n : Node) : P n :=
  @Node.rec P (fun ns => ∀ n ∈ ns, P n) leaf text branch (by simp)
    (fun _ _ hn hns => by simpa using ⟨hn, hns⟩) n

end Node

/-- The kinds whose children the transforms of a document go into. -/
def Kind.isContainer : Kind → Bool
  | document _ | quote | alert _ | list _ | listItem | paragraph _ | heading _ | emphasis | strong
  | link _ | footnoteDefinition _ | table _ | tableRow | tableCell | strikethrough => true
  | _ => false

/-- The kinds whose children are one run of inline text. -/
def Kind.isInlineScope : Kind → Bool
  | paragraph _ | heading _ | tableCell => true
  | _ => false

end Reflow.Document
