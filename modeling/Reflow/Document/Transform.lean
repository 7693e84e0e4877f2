import Reflow.Document.Node
import Reflow.Typography.Ellipsis

/-!
Transforms of a document.

A transform visits the root, and from a container its children. `coalesce` joins pieces of raw text
with the soft line breaks between them. `mapText` changes every visited piece of raw text by itself.
`mapAcross` changes the text of a whole paragraph, heading or table cell at once, so that a
quotation may begin in one piece and end in another: the pieces are put together, changed by a
function that keeps the length, and cut up again, and only raw text is changed. `unboldHeadings`
takes the bold off headings that are bold as a whole.
-/

namespace Reflow.Document

/-! ## Joining raw text -/

/-- Join raw text, a soft line break and raw text into one piece, as often as they follow each
other. -/
def mergeText : List Node → List Node
  | [] => []
  | n :: ns =>
    match n, mergeText ns with
    | .text h t, b :: .text h' t' :: rest =>
      if h.kind = .rawText && b.kind = .lineBreak true && h'.kind = .rawText then
        .text h (t ++ '\n' :: t') :: rest
      else n :: b :: .text h' t' :: rest
    | _, merged => n :: merged

mutual

def coalesce : Node → Node
  | .branch h cs => .branch h (mergeText (if h.kind.isContainer then coalesceAll cs else cs))
  | n => n

def coalesceAll : List Node → List Node
  | [] => []
  | n :: ns => coalesce n :: coalesceAll ns

end

/-! ## Changing raw text piece by piece -/

mutual

def mapText (f : Text → Text) : Node → Node
  | .text h t => if h.kind = .rawText then .text h (f t) else .text h t
  | .branch h cs => if h.kind.isContainer then .branch h (mapTextAll f cs) else .branch h cs
  | .leaf h => .leaf h

def mapTextAll (f : Text → Text) : List Node → List Node
  | [] => []
  | n :: ns => mapText f n :: mapTextAll f ns

end

/-! ## Changing text across inline markup -/

mutual

/-- The text of a node as one run: raw text, code and the like as they stand, a line feed for a
line break. -/
def inlineText : Node → Text
  | .leaf h => match h.kind with
    | .lineBreak _ => ['\n']
    | _ => []
  | .text h t => match h.kind with
    | .lineBreak _ => ['\n']
    | _ => t
  | .branch _ cs => inlineTextAll cs

def inlineTextAll : List Node → Text
  | [] => []
  | n :: ns => inlineText n ++ inlineTextAll ns

end

mutual

/-- Write a run of text of the same length back into the pieces it was put together from; only raw
text takes it up. -/
def writeBack (t : Text) : Node → Node
  | .text h old => if h.kind = .rawText then .text h (t.take old.length) else .text h old
  | .branch h cs => .branch h (writeBackAll t cs)
  | .leaf h => .leaf h

def writeBackAll (t : Text) : List Node → List Node
  | [] => []
  | n :: ns => writeBack t n :: writeBackAll (t.drop (inlineText n).length) ns

end

mutual

theorem size_writeBack (t : Text) (n : Node) : (writeBack t n).size = n.size := by
  cases n with
  | leaf h => rfl
  | text h old => simp only [writeBack]; split <;> rfl
  | branch h cs => simp only [writeBack, Node.size, sizeAll_writeBackAll]

theorem sizeAll_writeBackAll (t : Text) (ns : List Node) :
    Node.sizeAll (writeBackAll t ns) = Node.sizeAll ns := by
  cases ns with
  | nil => rfl
  | cons n ns => simp only [writeBackAll, Node.sizeAll, size_writeBack, sizeAll_writeBackAll]

end

/-- A change that was to keep the length of a text did not. -/
structure LengthChanged where
  before : Nat
  after : Nat
deriving DecidableEq, Repr

def LengthChanged.message (e : LengthChanged) : String :=
  s!"Rewrite function must be length-preserving: input length {e.before} != output length {e.after}"

def mapRun (f : Text → Text) (cs : List Node) : Except LengthChanged (List Node) :=
  let run := inlineTextAll cs
  if run.isEmpty then .ok cs
  else
    let new := f run
    if new.length = run.length then .ok (writeBackAll new cs)
    else .error ⟨run.length, new.length⟩

theorem sizeAll_mapRun {f : Text → Text} {cs cs' : List Node}
    (h : mapRun f cs = .ok cs') : Node.sizeAll cs' = Node.sizeAll cs := by
  simp only [mapRun] at h
  split at h
  · cases h; rfl
  · split at h
    · cases h; exact sizeAll_writeBackAll _ cs
    · cases h

mutual

def mapScopes (f : Text → Text) (n : Node) : Except LengthChanged Node :=
  match n with
  | .leaf h => .ok (.leaf h)
  | .text h t => .ok (.text h t)
  | .branch h cs =>
    match _hr : (if h.kind.isInlineScope then mapRun f cs else .ok cs) with
    | .error e => .error e
    | .ok cs' =>
      if h.kind.isContainer then
        (mapScopesAll f cs').map (.branch h ·)
      else .ok (.branch h cs')
termination_by (n.size, 0)
decreasing_by
  have hs : Node.sizeAll cs' = Node.sizeAll cs := by
    split at _hr
    · exact sizeAll_mapRun _hr
    · cases _hr; rfl
  simp only [Node.size, hs]
  exact Prod.Lex.left _ _ (Nat.lt_succ_self _)

def mapScopesAll (f : Text → Text) (ns : List Node) : Except LengthChanged (List Node) :=
  match ns with
  | [] => .ok []
  | n :: rest => do
    let n' ← mapScopes f n
    let rest' ← mapScopesAll f rest
    return n' :: rest'
termination_by (Node.sizeAll ns, 1)
decreasing_by
  · simp only [Node.sizeAll]
    rcases Nat.eq_zero_or_pos (Node.sizeAll rest) with h | h
    · rw [h]; exact Prod.Lex.right _ Nat.zero_lt_one
    · exact Prod.Lex.left _ _ (by omega)
  · simp only [Node.sizeAll]
    have : 0 < n.size := by cases n <;> simp [Node.size]
    exact Prod.Lex.left _ _ (by omega)

end

def mapAcross (f : Text → Text) (n : Node) : Except LengthChanged Node :=
  mapScopes f (coalesce n)

/-! ## Headings -/

/-- Take the bold off the children of a heading that is bold as a whole, maybe inside emphasis. -/
def unboldHeading (h : Head) (cs : List Node) : Node :=
  match cs with
  | [only] =>
    match only.kind, only with
    | .strong, _ => only.withHead h
    | .emphasis, .branch he [inner] =>
      if inner.kind = .strong then .branch h [inner.withHead he] else .branch h cs
    | _, _ => .branch h cs
  | _ => .branch h cs

mutual

def unboldHeadings : Node → Node
  | .branch h cs =>
    let cs' := if h.kind.isContainer then unboldHeadingsAll cs else cs
    match h.kind with
    | .heading _ => unboldHeading h cs'
    | _ => .branch h cs'
  | n => n

def unboldHeadingsAll : List Node → List Node
  | [] => []
  | n :: ns => unboldHeadings n :: unboldHeadingsAll ns

end

/-! ## The transforms of formatting -/

inductive Transform where
  | cleanUp
  | coalesce
  /-- Typographic quotes, across inline markup. -/
  | quotes
  /-- Typographic quotes, each piece of raw text by itself. -/
  | quotesPiecewise
  /-- Ellipses, raw text being joined across soft line breaks first. -/
  | ellipses
  /-- Ellipses, each piece of raw text by itself. -/
  | ellipsesPiecewise
  /-- Ellipses, across inline markup. -/
  | ellipsesAcross
deriving DecidableEq, Repr

def Transform.apply (t : Transform) (n : Node) : Except LengthChanged Node :=
  match t with
  | cleanUp => .ok (unboldHeadings n)
  | coalesce => .ok (Document.coalesce n)
  | quotes => mapAcross Typography.curlQuotes n
  | quotesPiecewise => .ok (mapText Typography.curlQuotes n)
  | ellipses => .ok (mapText Typography.writeEllipses (Document.coalesce n))
  | ellipsesPiecewise => .ok (mapText Typography.writeEllipses n)
  | ellipsesAcross => mapAcross Typography.writeEllipses n

def applyAll (ts : List Transform) (n : Node) : Except LengthChanged Node :=
  ts.foldlM (fun m t => t.apply m) n

end Reflow.Document
