import Mathlib.Data.List.Forall2
import Reflow.Proofs.Coalescing

/-!
Changing the text of a paragraph, heading or table cell as one run.

The run is put together from segments, one for each node that gives text to it, and only the
segments of raw text take the changed run up again. `overwrite` does that with a list of segments
and a running offset; `segments_writeBack` says that writing back into the tree comes to the same.
-/

open List

namespace Reflow.Document

variable {n : Node} {k : Kind}

/-! ## Segments -/

/-- What one node gives to a run of inline text. -/
structure Segment where
  text : Text
  /-- The node is raw text, which can be changed. -/
  isRaw : Bool
deriving DecidableEq, Repr

mutual

/-- The segments of a node, in order. -/
def segments : Node → List Segment
  | .leaf h => match h.kind with
    | .lineBreak _ => [⟨['\n'], false⟩]
    | _ => []
  | .text h t => match h.kind with
    | .lineBreak _ => [⟨['\n'], false⟩]
    | .rawText => [⟨t, true⟩]
    | _ => [⟨t, false⟩]
  | .branch _ cs => segmentsAll cs

def segmentsAll : List Node → List Segment
  | [] => []
  | n :: ns => segments n ++ segmentsAll ns

end

/-- The run that segments make up. -/
def composite (segs : List Segment) : Text := segs.flatMap Segment.text

/-- For each position of the run, whether it belongs to raw text. -/
def rawMask (segs : List Segment) : List Bool :=
  segs.flatMap fun s => replicate s.text.length s.isRaw

@[simp] theorem composite_nil : composite [] = [] := rfl

@[simp] theorem composite_cons (s : Segment) (segs : List Segment) :
    composite (s :: segs) = s.text ++ composite segs := rfl

@[simp] theorem composite_append (a b : List Segment) :
    composite (a ++ b) = composite a ++ composite b := flatMap_append

mutual

theorem composite_segments (n : Node) : composite (segments n) = inlineText n := by
  cases n with
  | leaf h =>
    simp only [segments, inlineText]
    cases h.kind <;> rfl
  | text h t =>
    simp only [segments, inlineText]
    cases h.kind <;> simp
  | branch h cs => exact composite_segmentsAll cs

theorem composite_segmentsAll (ns : List Node) : composite (segmentsAll ns) = inlineTextAll ns := by
  cases ns with
  | nil => rfl
  | cons n ns =>
    rw [segmentsAll, inlineTextAll, composite_append, composite_segments n,
      composite_segmentsAll ns]

end

/-- Write a run over segments: each one of raw text takes its stretch of the run. -/
def overwrite (t : Text) : List Segment → List Segment
  | [] => []
  | s :: rest =>
    { s with text := if s.isRaw then t.take s.text.length else s.text } ::
      overwrite (t.drop s.text.length) rest

theorem overwrite_append (t : Text) (a b : List Segment) :
    overwrite t (a ++ b) = overwrite t a ++ overwrite (t.drop (composite a).length) b := by
  induction a generalizing t with
  | nil => rfl
  | cons s a ih => simp [overwrite, ih, drop_drop]

/-- **The run afterwards, position by position**: raw text has the new run, all else the old one. -/
theorem getElem?_composite_overwrite {t : Text} {segs : List Segment}
    (h : t.length = (composite segs).length) (i : Nat) :
    (composite (overwrite t segs))[i]?
      = if (rawMask segs)[i]? = some true then t[i]? else (composite segs)[i]? := by
  induction segs generalizing t i with
  | nil => simp [overwrite, rawMask]
  | cons s segs ih =>
    have hle : s.text.length ≤ t.length := by simp [h]
    have hdrop : (t.drop s.text.length).length = (composite segs).length := by simp [h]
    have hmask : rawMask (s :: segs) = replicate s.text.length s.isRaw ++ rawMask segs := rfl
    obtain ⟨new, hnew⟩ : ∃ new, (if s.isRaw then t.take s.text.length else s.text) = new := ⟨_, rfl⟩
    have hlength : new.length = s.text.length := by
      rw [← hnew]
      split <;> simp [hle]
    rw [overwrite, hnew, composite_cons, composite_cons, hmask]
    rcases Nat.lt_or_ge i s.text.length with hi | hi
    · rw [getElem?_append_left (by simpa [hlength] using hi),
        getElem?_append_left (by simpa using hi), getElem?_append_left hi,
        getElem?_replicate, if_pos hi, ← hnew]
      cases s.isRaw with
      | true => simp [hi]
      | false => simp
    · -- past the first segment everything is shifted by its length, the new run too
      rw [getElem?_append_right (by simpa [hlength] using hi),
        getElem?_append_right (by simpa using hi), getElem?_append_right hi, hlength,
        length_replicate, ih hdrop, getElem?_drop, Nat.add_sub_cancel' hi]

mutual

theorem segments_writeBack (t : Text) (n : Node) :
    segments (writeBack t n) = overwrite t (segments n) := by
  cases n with
  | leaf h =>
    simp only [writeBack, segments]
    cases h.kind <;> rfl
  | text h old =>
    simp only [writeBack, segments]
    cases hk : h.kind <;> simp [segments, hk, overwrite]
  | branch h cs => exact segmentsAll_writeBackAll t cs

theorem segmentsAll_writeBackAll (t : Text) (ns : List Node) :
    segmentsAll (writeBackAll t ns) = overwrite t (segmentsAll ns) := by
  cases ns with
  | nil => rfl
  | cons n ns =>
    rw [writeBackAll, segmentsAll, segmentsAll, segments_writeBack, segmentsAll_writeBackAll,
      overwrite_append, composite_segments]

end

/-! ## What writing back keeps -/

mutual

theorem emptied_writeBack (t : Text) (n : Node) : (writeBack t n).emptied = n.emptied := by
  cases n with
  | leaf h => rfl
  | text h old =>
    simp only [writeBack]
    split <;> simp_all [Node.emptied]
  | branch h cs => simp only [writeBack, Node.emptied, emptiedAll_writeBackAll t cs]

theorem emptiedAll_writeBackAll (t : Text) (ns : List Node) :
    Node.emptiedAll (writeBackAll t ns) = Node.emptiedAll ns := by
  cases ns with
  | nil => rfl
  | cons n ns =>
    simp only [writeBackAll, Node.emptiedAll, emptied_writeBack, emptiedAll_writeBackAll]

end

namespace RawPiece

/-- The piece stands in a paragraph, heading or table cell that transforms visit. -/
def inScope (p : RawPiece) : Bool := (p.above.takeWhile Kind.isContainer).any Kind.isInlineScope

/-- The same place and the same length. -/
structure Aligned (old new : RawPiece) : Prop where
  above : new.above = old.above
  length : new.content.length = old.content.length

/-- Aligned, and the same text outside the visited scopes. -/
structure Kept (old new : RawPiece) : Prop extends Aligned old new where
  content : old.inScope = false → new.content = old.content

theorem Aligned.within {old new : RawPiece} (h : old.Aligned new) (k : Kind) :
    (old.within k).Aligned (new.within k) :=
  ⟨by simp [RawPiece.within, h.above], h.length⟩

theorem Kept.refl (p : RawPiece) : p.Kept p := ⟨⟨rfl, rfl⟩, fun _ => rfl⟩

end RawPiece

theorem kind_isContainer_of_scope (hk : k.isInlineScope) : k.isContainer := by
  cases k <;> simp_all [Kind.isInlineScope, Kind.isContainer]

theorem RawPiece.Aligned.kept_of_scope {old new : RawPiece} (h : old.Aligned new)
    (hk : k.isInlineScope) : (old.within k).Kept (new.within k) :=
  ⟨h.within k, fun hout => by
    simp [RawPiece.inScope, RawPiece.within, kind_isContainer_of_scope hk, hk] at hout⟩

theorem RawPiece.Kept.within {old new : RawPiece} (h : old.Kept new) (hk : k.isContainer)
    (hscope : k.isInlineScope = false) : (old.within k).Kept (new.within k) := by
  refine ⟨h.toAligned.within k, fun hout => h.content ?_⟩
  simpa [RawPiece.inScope, RawPiece.within, hk, hscope] using hout

mutual

theorem aligned_writeBack {t : Text} (n : Node) (h : (inlineText n).length ≤ t.length) :
    Forall₂ RawPiece.Aligned (rawPieces n) (rawPieces (writeBack t n)) := by
  cases n with
  | leaf _ => exact .nil
  | text head old =>
    by_cases hraw : head.kind = .rawText
    · simp only [inlineText, hraw] at h
      simp only [writeBack, rawPieces, hraw, if_true]
      exact .cons ⟨rfl, by simp [h]⟩ .nil
    · simp [writeBack, rawPieces, hraw]
  | branch head cs =>
    simp only [writeBack, rawPieces, forall₂_map_left_iff, forall₂_map_right_iff]
    exact (aligned_writeBackAll cs h).imp fun _ _ haligned => haligned.within head.kind

theorem aligned_writeBackAll {t : Text} (ns : List Node)
    (h : (inlineTextAll ns).length ≤ t.length) :
    Forall₂ RawPiece.Aligned (rawPiecesAll ns) (rawPiecesAll (writeBackAll t ns)) := by
  cases ns with
  | nil => exact .nil
  | cons n ns =>
    rw [inlineTextAll, length_append] at h
    exact rel_append (aligned_writeBack n (by omega))
      (aligned_writeBackAll ns (by rw [length_drop]; omega))

end

/-! ## Scopes -/

mutual

/-- The paragraphs, headings and table cells that transforms visit, in order. -/
def scopes (n : Node) : List Node :=
  (if n.kind.isInlineScope then [n] else []) ++
    match n with
    | .branch h cs => if h.kind.isContainer then scopesAll cs else []
    | _ => []

def scopesAll : List Node → List Node
  | [] => []
  | n :: ns => scopes n ++ scopesAll ns

end

/-- No paragraph, heading or table cell in the tree. -/
def Node.ScopeFree (n : Node) : Prop := ∀ m ∈ n :: n.descendants, m.kind.isInlineScope = false

/-- No paragraph, heading or table cell stands inside another. -/
def Node.ScopesApart (n : Node) : Prop :=
  ∀ m ∈ n :: n.descendants, m.kind.isInlineScope = true →
    ∀ k ∈ m.descendants, k.kind.isInlineScope = false

theorem Node.mem_descendantsAll {m : Node} {ns : List Node} :
    m ∈ descendantsAll ns ↔ ∃ n ∈ ns, m ∈ n :: n.descendants := by
  rw [descendantsAll_eq_flatMap, mem_flatMap]

theorem Node.scopeFree_branch_iff {h : Head} {cs : List Node} :
    (Node.branch h cs).ScopeFree ↔ h.kind.isInlineScope = false ∧ ∀ c ∈ cs, c.ScopeFree := by
  have hbelow : (∀ m ∈ (Node.branch h cs).descendants, m.kind.isInlineScope = false) ↔
      ∀ c ∈ cs, c.ScopeFree := by
    simp only [descendants, mem_descendantsAll, ScopeFree]
    refine ⟨fun hall c hc m hm => hall m ⟨c, hc, hm⟩, ?_⟩
    rintro hall m ⟨c, hc, hm⟩
    exact hall c hc m hm
  rw [ScopeFree, forall_mem_cons, hbelow]
  rfl

theorem Node.scopesApart_branch_iff {h : Head} {cs : List Node} :
    (Node.branch h cs).ScopesApart ↔
      (h.kind.isInlineScope → ∀ c ∈ cs, c.ScopeFree) ∧ ∀ c ∈ cs, c.ScopesApart := by
  simp only [ScopesApart, forall_mem_cons, ScopeFree, descendants, mem_descendantsAll, kind,
    head]
  constructor
  · rintro ⟨hself, hbelow⟩
    refine ⟨fun hscope c hc => ?_, fun c hc => ?_⟩
    · exact ⟨hself hscope c ⟨c, hc, by simp⟩, fun m hm => hself hscope m ⟨c, hc, by simp [hm]⟩⟩
    · exact ⟨hbelow c ⟨c, hc, by simp⟩, fun m hm => hbelow m ⟨c, hc, by simp [hm]⟩⟩
  · rintro ⟨hself, hbelow⟩
    constructor
    · rintro hscope m ⟨c, hc, hm⟩
      rcases mem_cons.1 hm with rfl | hm
      · exact (hself hscope m hc).1
      · exact (hself hscope c hc).2 m hm
    · rintro m ⟨c, hc, hm⟩
      rcases mem_cons.1 hm with rfl | hm
      · exact (hbelow m hc).1
      · exact (hbelow c hc).2 m hm

theorem scopeFree_of_emptiedAll {ns ms : List Node} (h : Node.emptiedAll ms = Node.emptiedAll ns)
    (hns : ∀ n ∈ ns, n.ScopeFree) : ∀ m ∈ ms, m.ScopeFree := by
  have hemptied : ∀ n : Node, n.emptied.ScopeFree ↔ n.ScopeFree := fun n => by
    simp [Node.ScopeFree, Node.descendants_emptied]
  intro m hm
  rw [Node.emptiedAll_eq_map, Node.emptiedAll_eq_map] at h
  obtain ⟨n, hn, heq⟩ := mem_map.1 (h ▸ mem_map_of_mem hm)
  rw [← hemptied, ← heq, hemptied]
  exact hns n hn

/-! ## Joining raw text keeps scopes apart -/

theorem scopeFree_rawText {h : Head} (hk : h.kind = .rawText) (t : Text) :
    (Node.text h t).ScopeFree := by
  simp [Node.ScopeFree, Node.descendants, Node.kind, Node.head, hk, Kind.isInlineScope]

theorem scopesApart_text (h : Head) (t : Text) : (Node.text h t).ScopesApart := by
  simp [Node.ScopesApart, Node.descendants]

theorem scopeFree_coalesce (hn : n.ScopeFree) : (coalesce n).ScopeFree := by
  induction n using Node.induct with
  | leaf h => exact hn
  | text h t => exact hn
  | branch h cs ih =>
    rw [Node.scopeFree_branch_iff] at hn
    rw [coalesce_branch, Node.scopeFree_branch_iff]
    exact ⟨hn.1, forall_children_coalesce hn.2 ih fun _ t hk => scopeFree_rawText hk t⟩

theorem scopesApart_coalesce (hn : n.ScopesApart) : (coalesce n).ScopesApart := by
  induction n using Node.induct with
  | leaf h => exact hn
  | text h t => exact hn
  | branch h cs ih =>
    rw [Node.scopesApart_branch_iff] at hn
    rw [coalesce_branch, Node.scopesApart_branch_iff]
    refine ⟨fun hscope => ?_, forall_children_coalesce hn.2 ih fun h' t _ => scopesApart_text h' t⟩
    exact forall_children_coalesce (hn.1 hscope) (fun c _ => scopeFree_coalesce)
      fun _ t hk => scopeFree_rawText hk t

/-! ## The walk over the scopes -/

/-- `new` is the scope `old` after its text was changed by `f`: raw text has the changed run, and
everything else has what it had. -/
def RunRewritten (f : Text → Text) (old new : Node) : Prop :=
  ∀ i : Nat, (inlineText new)[i]?
    = if (rawMask (segments old))[i]? = some true then (f (inlineText old))[i]?
      else (inlineText old)[i]?

/-- `new` is the tree `old` after the text of every visited scope was changed by `f`. -/
structure ScopesRewritten (f : Text → Text) (old new : Node) : Prop where
  emptied : new.emptied = old.emptied
  scopes : Forall₂ (RunRewritten f) (scopes old) (scopes new)
  pieces : Forall₂ RawPiece.Kept (rawPieces old) (rawPieces new)

section Walk

variable {f : Text → Text}

theorem ScopesRewritten.refl {n : Node} (h : ∀ s ∈ Document.scopes n, RunRewritten f s s) :
    ScopesRewritten f n n :=
  ⟨rfl, forall₂_same.2 h, forall₂_same.2 fun p _ => .refl p⟩

section Lists

variable {old new : List Node} (h : Forall₂ (ScopesRewritten f) old new)
include h

theorem emptiedAll_of_rewritten : Node.emptiedAll new = Node.emptiedAll old := by
  induction h with
  | nil => rfl
  | cons h _ ih => simp only [Node.emptiedAll, h.emptied, ih]

theorem scopesAll_of_rewritten : Forall₂ (RunRewritten f) (scopesAll old) (scopesAll new) := by
  induction h with
  | nil => exact .nil
  | cons h _ ih => exact rel_append h.scopes ih

theorem pieces_of_rewritten : Forall₂ RawPiece.Kept (rawPiecesAll old) (rawPiecesAll new) := by
  induction h with
  | nil => exact .nil
  | cons h _ ih => exact rel_append h.pieces ih

end Lists

theorem ScopesRewritten.branch {h : Head} (hk : h.kind.isContainer)
    (hscope : h.kind.isInlineScope = false) {cs ds : List Node}
    (hcs : Forall₂ (ScopesRewritten f) cs ds) :
    ScopesRewritten f (.branch h cs) (.branch h ds) where
  emptied := by simp only [Node.emptied, emptiedAll_of_rewritten hcs]
  scopes := by
    simpa [Document.scopes, Node.kind, Node.head, hk, hscope] using scopesAll_of_rewritten hcs
  pieces := by
    simp only [rawPieces, forall₂_map_left_iff, forall₂_map_right_iff]
    exact (pieces_of_rewritten hcs).imp fun _ _ hkept => hkept.within hk hscope

end Walk

/-! ### Trees without scopes -/

theorem Node.ScopeFree.kind_eq (hn : n.ScopeFree) : n.kind.isInlineScope = false :=
  hn n (by simp)

mutual

theorem scopes_of_scopeFree {n : Node} (hn : n.ScopeFree) : scopes n = [] := by
  cases n with
  | leaf h => simp [scopes, hn.kind_eq]
  | text h t => simp [scopes, hn.kind_eq]
  | branch h cs =>
    simp [scopes, hn.kind_eq, scopesAll_of_scopeFree (Node.scopeFree_branch_iff.1 hn).2]

theorem scopesAll_of_scopeFree {ns : List Node} (hns : ∀ n ∈ ns, n.ScopeFree) :
    scopesAll ns = [] := by
  cases ns with
  | nil => rfl
  | cons n ns =>
    rw [forall_mem_cons] at hns
    rw [scopesAll, scopes_of_scopeFree hns.1, scopesAll_of_scopeFree hns.2, append_nil]

end

/-! ### One node -/

section Node

variable {f : Text → Text} {h : Head} {cs : List Node}

theorem mapScopes_branch {cs' : List Node}
    (hrun : (if h.kind.isInlineScope then mapRun f cs else .ok cs) = .ok cs') :
    mapScopes f (.branch h cs)
      = if h.kind.isContainer then (mapScopesAll f cs').map (.branch h ·)
        else .ok (.branch h cs') := by
  rw [mapScopes]
  split
  · next he =>
    rw [hrun] at he
    cases he
  · next he =>
    rw [hrun] at he
    cases he
    rfl

theorem mapScopes_of_scope (hk : h.kind.isInlineScope) {cs' : List Node}
    (hrun : mapRun f cs = .ok cs') :
    mapScopes f (.branch h cs) = (mapScopesAll f cs').map (.branch h ·) := by
  rw [mapScopes_branch (by rw [if_pos hk, hrun]), if_pos (kind_isContainer_of_scope hk)]

theorem mapScopes_of_container (hscope : h.kind.isInlineScope = false) (hk : h.kind.isContainer) :
    mapScopes f (.branch h cs) = (mapScopesAll f cs).map (.branch h ·) := by
  rw [mapScopes_branch (by rw [if_neg (by simp [hscope])]), if_pos hk]

theorem mapScopes_of_closed (hscope : h.kind.isInlineScope = false)
    (hk : h.kind.isContainer = false) : mapScopes f (.branch h cs) = .ok (.branch h cs) := by
  rw [mapScopes_branch (by rw [if_neg (by simp [hscope])]), if_neg (by simp [hk])]

theorem mapScopesAll_cons {n m : Node} {ns ms : List Node} (hn : mapScopes f n = .ok m)
    (hns : mapScopesAll f ns = .ok ms) : mapScopesAll f (n :: ns) = .ok (m :: ms) := by
  rw [mapScopesAll, hn, hns]
  rfl

end Node

mutual

theorem mapScopes_of_scopeFree (f : Text → Text) {n : Node} (hn : n.ScopeFree) :
    mapScopes f n = .ok n := by
  cases n with
  | leaf h => rw [mapScopes]
  | text h t => rw [mapScopes]
  | branch h cs =>
    obtain ⟨hscope, hcs⟩ := Node.scopeFree_branch_iff.1 hn
    cases hk : h.kind.isContainer with
    | true =>
      rw [mapScopes_of_container hscope hk, mapScopesAll_of_scopeFree f hcs]
      rfl
    | false => exact mapScopes_of_closed hscope hk

theorem mapScopesAll_of_scopeFree (f : Text → Text) {ns : List Node}
    (hns : ∀ n ∈ ns, n.ScopeFree) : mapScopesAll f ns = .ok ns := by
  cases ns with
  | nil => rw [mapScopesAll]
  | cons n ns =>
    rw [forall_mem_cons] at hns
    exact mapScopesAll_cons (mapScopes_of_scopeFree f hns.1) (mapScopesAll_of_scopeFree f hns.2)

end

theorem runRewritten_self {f : Text → Text} (h : true ∉ rawMask (segments n)) :
    RunRewritten f n n := by
  intro i
  rw [if_neg]
  intro hraw
  exact h (mem_of_getElem? hraw)

theorem not_mem_rawMask_of_scope (hn : n.kind.isInlineScope) (hchildren : n.children = []) :
    true ∉ rawMask (segments n) := by
  cases n with
  | leaf h =>
    simp only [segments]
    cases h.kind <;> simp [rawMask]
  | text h t =>
    simp only [Node.kind, Node.head] at hn
    simp only [segments]
    cases hk : h.kind <;> simp_all [rawMask, Kind.isInlineScope]
  | branch h cs =>
    simp only [Node.children] at hchildren
    simp [hchildren, segments, segmentsAll, rawMask]

section Run

variable {f : Text → Text}

theorem mapRun_eq (hf : ∀ t, (f t).length = t.length) (cs : List Node) :
    mapRun f cs = .ok (if inlineTextAll cs = [] then cs else writeBackAll (f (inlineTextAll cs)) cs) := by
  unfold mapRun
  by_cases hempty : inlineTextAll cs = []
  · simp [hempty]
  · simp [hempty, hf]

/-- **One scope**: its children are rewritten as one run. -/
theorem scopesRewritten_mapRun (hf : ∀ t, (f t).length = t.length) {h : Head}
    (hk : h.kind.isInlineScope) {cs : List Node} (hfree : ∀ c ∈ cs, c.ScopeFree) :
    ∃ cs', mapRun f cs = .ok cs' ∧ (∀ c ∈ cs', c.ScopeFree) ∧
      ScopesRewritten f (.branch h cs) (.branch h cs') := by
  have hscopes : ∀ ds : List Node, (∀ d ∈ ds, d.ScopeFree) →
      scopes (.branch h ds) = [.branch h ds] := by
    intro ds hds
    simp [scopes, Node.kind, Node.head, hk, scopesAll_of_scopeFree hds]
  refine ⟨_, mapRun_eq hf cs, ?_⟩
  by_cases hempty : inlineTextAll cs = []
  · -- there is no text, and a change of the same length leaves none
    rw [if_pos hempty]
    have hnone : f [] = [] := length_eq_zero_iff.1 (hf [])
    refine ⟨hfree, .refl fun s hs => ?_⟩
    rw [hscopes cs hfree, mem_singleton] at hs
    subst hs
    intro i
    simp [inlineText, hempty, hnone]
  · rw [if_neg hempty]
    obtain ⟨new, hnew⟩ : ∃ new, f (inlineTextAll cs) = new := ⟨_, rfl⟩
    have hlength : new.length = (inlineTextAll cs).length := by rw [← hnew, hf]
    rw [hnew]
    have hfree' := scopeFree_of_emptiedAll (emptiedAll_writeBackAll new cs) hfree
    refine ⟨hfree', ?_, ?_, ?_⟩
    · simp only [Node.emptied, emptiedAll_writeBackAll]
    · rw [hscopes cs hfree, hscopes _ hfree']
      refine .cons (fun i => ?_) .nil
      simp only [inlineText, segments, hnew]
      rw [← composite_segmentsAll, segmentsAll_writeBackAll, ← composite_segmentsAll cs]
      exact getElem?_composite_overwrite (by rw [hlength, composite_segmentsAll]) i
    · simp only [rawPieces, forall₂_map_left_iff, forall₂_map_right_iff]
      exact (aligned_writeBackAll cs (Nat.le_of_eq hlength.symm)).imp fun _ _ haligned => haligned.kept_of_scope hk

mutual

/-- **The walk goes through and rewrites every visited scope once.** -/
theorem scopesRewritten_mapScopes (hf : ∀ t, (f t).length = t.length) {n : Node}
    (hn : n.ScopesApart) : ∃ m, mapScopes f n = .ok m ∧ ScopesRewritten f n m := by
  cases n with
  | leaf h =>
    refine ⟨.leaf h, by rw [mapScopes], .refl fun s hs => ?_⟩
    obtain ⟨hscope, rfl⟩ : (Node.leaf h).kind.isInlineScope ∧ s = .leaf h := by
      simpa [scopes] using hs
    exact runRewritten_self (not_mem_rawMask_of_scope hscope rfl)
  | text h t =>
    refine ⟨.text h t, by rw [mapScopes], .refl fun s hs => ?_⟩
    obtain ⟨hscope, rfl⟩ : (Node.text h t).kind.isInlineScope ∧ s = .text h t := by
      simpa [scopes] using hs
    exact runRewritten_self (not_mem_rawMask_of_scope hscope rfl)
  | branch h cs =>
    obtain ⟨hself, hcs⟩ := Node.scopesApart_branch_iff.1 hn
    cases hscope : h.kind.isInlineScope with
    | true =>
      -- what stands inside has no scopes, so that the walk leaves it as it was written back
      obtain ⟨cs', hrun, hfree, hrewritten⟩ := scopesRewritten_mapRun hf hscope (hself hscope)
      refine ⟨.branch h cs', ?_, hrewritten⟩
      rw [mapScopes_of_scope hscope hrun, mapScopesAll_of_scopeFree f hfree]
      rfl
    | false =>
      cases hk : h.kind.isContainer with
      | true =>
        obtain ⟨ds, hmap, hrewritten⟩ := scopesRewritten_mapScopesAll hf hcs
        refine ⟨.branch h ds, ?_, .branch hk hscope hrewritten⟩
        rw [mapScopes_of_container hscope hk, hmap]
        rfl
      | false =>
        refine ⟨.branch h cs, mapScopes_of_closed hscope hk, .refl fun s hs => ?_⟩
        simp [scopes, Node.kind, Node.head, hscope, hk] at hs

theorem scopesRewritten_mapScopesAll (hf : ∀ t, (f t).length = t.length) {ns : List Node}
    (hns : ∀ n ∈ ns, n.ScopesApart) :
    ∃ ms, mapScopesAll f ns = .ok ms ∧ Forall₂ (ScopesRewritten f) ns ms := by
  cases ns with
  | nil => exact ⟨[], by rw [mapScopesAll], .nil⟩
  | cons n ns =>
    rw [forall_mem_cons] at hns
    obtain ⟨m, hm, hrewritten⟩ := scopesRewritten_mapScopes hf hns.1
    obtain ⟨ms, hms, hrest⟩ := scopesRewritten_mapScopesAll hf hns.2
    exact ⟨m :: ms, mapScopesAll_cons hm hms, .cons hrewritten hrest⟩

end

end Run

/-- **Changing text across inline markup touches only raw text.** In a tree in which no paragraph,
heading or table cell stands inside another, a change that keeps the length of texts goes through, and
what it gives is the tree with its raw text joined across soft line breaks, in which only the contents
of raw text are other. In each visited scope the run afterwards has the changed run at every position
of raw text and the old one at every other, and each piece keeps its place and length; raw text
outside the visited scopes is as it was. -/
theorem inline_runs_rewritten {f : Text → Text} (hf : ∀ t, (f t).length = t.length) {doc : Node}
    (hdoc : doc.ScopesApart) :
    ∃ new, mapAcross f doc = .ok new ∧ new.emptied = (coalesce doc).emptied ∧
      Forall₂ (RunRewritten f) (scopes (coalesce doc)) (scopes new) ∧
      Forall₂ RawPiece.Kept (rawPieces (coalesce doc)) (rawPieces new) := by
  obtain ⟨new, hnew, hrewritten⟩ := scopesRewritten_mapScopes hf (scopesApart_coalesce hdoc)
  exact ⟨new, hnew, hrewritten.emptied, hrewritten.scopes, hrewritten.pieces⟩

/-- Quotes on both sides of a code span are changed as one run, and the one in the code is kept. -/
theorem quotes_around_code_rewritten :
    let paragraph : Node := .branch ⟨.paragraph none, none⟩
      [.text ⟨.rawText, none⟩ ['"'], .text ⟨.codeSpan, none⟩ ['"'], .text ⟨.rawText, none⟩ ['"']]
    let doc : Node := .branch ⟨.document [], none⟩ [paragraph]
    let f : Text → Text := List.map fun c => if c = '"' then '”' else c
    (∀ t, (f t).length = t.length) ∧ doc.ScopesApart ∧
      ∃ new p, mapAcross f doc = .ok new ∧ scopes new = [p] ∧ inlineText p = ['”', '"', '”'] := by
  intro paragraph doc f
  have hf : ∀ t, (f t).length = t.length := fun t => length_map ..
  have hdoc : doc.ScopesApart := by
    simp [doc, paragraph, Node.ScopesApart, Node.descendants, Node.descendantsAll, Node.kind,
      Node.head, Kind.isInlineScope]
  refine ⟨hf, hdoc, ?_⟩
  obtain ⟨new, hnew, -, hscopes, -⟩ := inline_runs_rewritten hf hdoc
  have hone : scopes (coalesce doc) = [paragraph] := by rfl
  rw [hone] at hscopes
  obtain ⟨p, rest, hp, hrest, hsplit⟩ := forall₂_cons_left_iff.1 hscopes
  rw [forall₂_nil_left_iff.1 hrest] at hsplit
  refine ⟨new, p, hnew, hsplit, ext_getElem? fun i => ?_⟩
  rw [hp i]
  rcases i with _ | _ | _ | n <;> rfl

end Reflow.Document
