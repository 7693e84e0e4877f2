import Mathlib.Data.List.Basic
import Reflow.Document.Transform
import Reflow.Document.Walk

/-!
Where the raw text of a document stands, and which of it a transform gets to.

`rawPieces` lists the raw text of a tree in order, each piece with the kinds of the nodes around it;
`Node.emptied` is the tree with that text taken out. A transform visits the root and goes on from
containers only, so it keeps the text of code, but also that of images and addresses.
-/

open List

namespace Reflow.Document

/-- The kinds of node that hold code on lines of its own. -/
def Kind.isCodeBlock : Kind → Bool
  | indentedCode | fencedCode _ | fencedBlock _ _ => true
  | _ => false

/-- A piece of raw text, and the kinds of the nodes it stands in, the outermost first. -/
structure RawPiece where
  above : List Kind
  content : Text
deriving DecidableEq, Repr

namespace RawPiece

/-- The piece, one node further down. -/
def within (k : Kind) (p : RawPiece) : RawPiece := { p with above := k :: p.above }

/-- The piece with its text changed. -/
def rewrite (f : Text → Text) (p : RawPiece) : RawPiece := { p with content := f p.content }

/-- The piece stands in a block of code. -/
def inCode (p : RawPiece) : Bool := p.above.any Kind.isCodeBlock

/-- Every node around the piece is one that transforms go into. -/
def isVisited (p : RawPiece) : Bool := p.above.all Kind.isContainer

theorem inCode_eq_false_of_isVisited {p : RawPiece} (h : p.isVisited) : p.inCode = false := by
  have hcontainer : ∀ k : Kind, k.isContainer → k.isCodeBlock = false := by
    intro k hk
    cases k <;> simp_all [Kind.isContainer, Kind.isCodeBlock]
  simp only [isVisited, all_eq_true] at h
  simpa [inCode] using fun k hk => hcontainer k (h k hk)

end RawPiece

mutual

/-- The raw text of a tree, in order. -/
def rawPieces : Node → List RawPiece
  | .leaf _ => []
  | .text h t => if h.kind = .rawText then [⟨[], t⟩] else []
  | .branch h cs => (rawPiecesAll cs).map (.within h.kind)

def rawPiecesAll : List Node → List RawPiece
  | [] => []
  | n :: ns => rawPieces n ++ rawPiecesAll ns

end

mutual

/-- The tree with its raw text taken out: everything else about it. -/
def Node.emptied : Node → Node
  | .leaf h => .leaf h
  | .text h t => if h.kind = .rawText then .text h [] else .text h t
  | .branch h cs => .branch h (Node.emptiedAll cs)

def Node.emptiedAll : List Node → List Node
  | [] => []
  | n :: ns => n.emptied :: Node.emptiedAll ns

end

namespace Node

theorem emptiedAll_eq_map (ns : List Node) : emptiedAll ns = ns.map emptied := by
  induction ns with
  | nil => rfl
  | cons n ns ih => rw [emptiedAll, ih, map_cons]

@[simp] theorem kind_emptied (n : Node) : n.emptied.kind = n.kind := by
  cases n with
  | text h t => by_cases hraw : h.kind = .rawText <;> simp [emptied, kind, head, hraw]
  | _ => rfl

theorem descendantsAll_eq_flatMap (ns : List Node) :
    descendantsAll ns = ns.flatMap fun n => n :: n.descendants := by
  induction ns with
  | nil => rfl
  | cons n ns ih => rw [descendantsAll, ih, flatMap_cons]

theorem descendants_emptied (n : Node) : n.emptied.descendants = n.descendants.map emptied := by
  induction n using induct with
  | leaf h => rfl
  | text h t => by_cases hraw : h.kind = .rawText <;> simp [emptied, descendants, hraw]
  | branch h cs ih =>
    simp only [emptied, descendants, descendantsAll_eq_flatMap, emptiedAll_eq_map, flatMap_map,
      map_flatMap, map_cons]
    exact flatMap_congr fun c hc => by rw [ih c hc]

end Node

/-! ## Changing text piece by piece -/

mutual

theorem emptied_mapText (f : Text → Text) (n : Node) : (mapText f n).emptied = n.emptied := by
  cases n with
  | leaf h => rfl
  | text h t =>
    simp only [mapText]
    split <;> simp_all [Node.emptied]
  | branch h cs =>
    simp only [mapText]
    split
    · simp only [Node.emptied, emptiedAll_mapTextAll f cs]
    · rfl

theorem emptiedAll_mapTextAll (f : Text → Text) (ns : List Node) :
    Node.emptiedAll (mapTextAll f ns) = Node.emptiedAll ns := by
  cases ns with
  | nil => rfl
  | cons n ns => simp only [mapTextAll, Node.emptiedAll, emptied_mapText, emptiedAll_mapTextAll]

end

/-- The piece after a change that goes into containers only. -/
def RawPiece.visit (f : Text → Text) (p : RawPiece) : RawPiece :=
  if p.isVisited then p.rewrite f else p

theorem RawPiece.visit_within {k : Kind} (hk : k.isContainer) (f : Text → Text)
    (p : RawPiece) : (p.within k).visit f = (p.visit f).within k := by
  have hvisited : (p.within k).isVisited = p.isVisited := by simp [isVisited, within, hk]
  unfold visit
  rw [hvisited]
  split <;> rfl

theorem RawPiece.visit_within_of_not {k : Kind} (hk : k.isContainer = false) (f : Text → Text)
    (p : RawPiece) : (p.within k).visit f = p.within k := by
  simp [visit, isVisited, within, hk]

mutual

/-- **Exactly the raw text in containers is changed.** -/
theorem rawPieces_mapText (f : Text → Text) (n : Node) :
    rawPieces (mapText f n) = (rawPieces n).map (.visit f) := by
  cases n with
  | leaf h => rfl
  | text h t =>
    by_cases hraw : h.kind = .rawText
    · simp [mapText, rawPieces, hraw, RawPiece.visit, RawPiece.isVisited, RawPiece.rewrite]
    · simp [mapText, rawPieces, hraw]
  | branch h cs =>
    cases hk : h.kind.isContainer with
    | true =>
      simp only [mapText, hk, if_true, rawPieces, rawPiecesAll_mapTextAll f cs, map_map]
      exact map_congr_left fun p _ => (RawPiece.visit_within hk f p).symm
    | false =>
      simp only [mapText, hk, Bool.false_eq_true, if_false, rawPieces, map_map]
      exact map_congr_left fun p _ => (RawPiece.visit_within_of_not hk f p).symm

theorem rawPiecesAll_mapTextAll (f : Text → Text) (ns : List Node) :
    rawPiecesAll (mapTextAll f ns) = (rawPiecesAll ns).map (.visit f) := by
  cases ns with
  | nil => rfl
  | cons n ns =>
    simp only [mapTextAll, rawPiecesAll, rawPieces_mapText f n, rawPiecesAll_mapTextAll f ns,
      map_append]

end

/-! ## All prose -/

/-- `new` is `old` with the prose changed by `f`: all raw text outside blocks of code, and no other. -/
def ProseRewritten (f : Text → Text) (old new : Node) : Prop :=
  rawPieces new = (rawPieces old).map fun p => if p.inCode then p else p.rewrite f

instance (f : Text → Text) (old new : Node) : Decidable (ProseRewritten f old new) :=
  inferInstanceAs (Decidable (_ = _))

/-- The two ways to change a piece agree unless it is prose that is not visited. -/
theorem RawPiece.visit_eq_iff (f : Text → Text) (p : RawPiece) :
    p.visit f = (if p.inCode then p else p.rewrite f) ↔
      (p.inCode = false → p.isVisited = false → f p.content = p.content) := by
  have hself : p = p.rewrite f ↔ f p.content = p.content := by
    constructor
    · intro h
      exact (congrArg RawPiece.content h).symm
    · intro h
      simp [rewrite, h]
  cases hv : p.isVisited with
  | true => simp [visit, hv, inCode_eq_false_of_isVisited hv]
  | false => cases hc : p.inCode <;> simp [visit, hv, hself]

/-- **What a change of text piece by piece gets to.** All of a tree but its raw text stays as it is,
and so does the raw text in blocks of code. Other raw text is changed exactly if all nodes around it
are containers: the change gets to all prose if it leaves alone what stands elsewhere, and a change
of any kind does so if and only if no prose stands elsewhere. -/
theorem prose_rewritten_iff (n : Node) :
    (∀ f, (mapText f n).emptied = n.emptied ∧ rawPieces (mapText f n) = (rawPieces n).map (.visit f)) ∧
    (∀ f, ProseRewritten f n (mapText f n) ↔
      ∀ p ∈ rawPieces n, p.inCode = false → p.isVisited = false → f p.content = p.content) ∧
    ((∀ f, ProseRewritten f n (mapText f n)) ↔
      ∀ p ∈ rawPieces n, p.inCode = false → p.isVisited = true) := by
  have heach : ∀ f, ProseRewritten f n (mapText f n) ↔
      ∀ p ∈ rawPieces n, p.inCode = false → p.isVisited = false → f p.content = p.content := by
    intro f
    rw [ProseRewritten, rawPieces_mapText, map_inj_left]
    exact forall₂_congr fun p _ => p.visit_eq_iff f
  refine ⟨fun f => ⟨emptied_mapText f n, rawPieces_mapText f n⟩, heach, ?_, ?_⟩
  · -- one change that leaves no text alone shows up every piece
    intro hall p hp hcode
    cases hvisited : p.isVisited with
    | true => rfl
    | false =>
      have hfixed := (heach fun t => ' ' :: t).1 (hall _) p hp hcode hvisited
      simp at hfixed
  · intro hall f
    rw [heach]
    intro p hp hcode hvisited
    rw [hall p hp hcode] at hvisited
    cases hvisited

/-- The text of an underlined heading is prose, and its apostrophe stays straight. -/
theorem underlined_heading_not_rewritten :
    ¬ ProseRewritten Typography.curlQuotes
      (.branch ⟨.document [], none⟩
        [.branch ⟨.underlinedHeading 1, none⟩ [.text ⟨.rawText, none⟩ "it's".toList]])
      (mapText Typography.curlQuotes (.branch ⟨.document [], none⟩
        [.branch ⟨.underlinedHeading 1, none⟩ [.text ⟨.rawText, none⟩ "it's".toList]])) ∧
    rawPieces (mapText Typography.curlQuotes (.branch ⟨.document [], none⟩
        [.branch ⟨.underlinedHeading 1, none⟩ [.text ⟨.rawText, none⟩ "it's".toList]]))
      = [⟨[.document [], .underlinedHeading 1], "it's".toList⟩] ∧
    Typography.curlQuotes "it's".toList = "it’s".toList := by
  decide +kernel

end Reflow.Document
