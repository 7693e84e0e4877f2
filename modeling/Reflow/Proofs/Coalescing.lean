import Reflow.Proofs.RawText

/-!
Joining raw text across soft line breaks.

A list of children is read as a text with markers in it: the characters of raw text and a line feed
for each soft line break, and every other node as it stands (`laid`). Joining keeps this reading, list
by list, and leaves no raw text, soft line break and raw text in a row (`Joined`); where there are
none it changes nothing. So the whole walk keeps what every visited list says, and a second walk finds
nothing to do (`coalescing_keeps_text`).
-/

open List

namespace Reflow.Document

variable {ns : List Node}

/-! ## One list of children -/

namespace Node

def isRaw : Node → Bool
  | .text h _ => h.kind = .rawText
  | _ => false

def isSoftBreak (n : Node) : Bool := n.kind = .lineBreak true

/-- A node as text and markers. -/
def laid (n : Node) : List (Char ⊕ Node) :=
  if n.isRaw then n.plainText.map .inl else if n.isSoftBreak then [.inl '\n'] else [.inr n]

end Node

/-- A list of nodes as text and markers. -/
def laidAll (ns : List Node) : List (Char ⊕ Node) := ns.flatMap Node.laid

/-- No raw text, soft line break and raw text in a row. -/
def Joined (ns : List Node) : Prop :=
  ∀ a b c, [a, b, c] <:+: ns → ¬ (a.isRaw = true ∧ b.isSoftBreak = true ∧ c.isRaw = true)

theorem mem_mergeText {m : Node} (hm : m ∈ mergeText ns) :
    m ∈ ns ∨ ∃ h t, m = .text h t ∧ h.kind = .rawText := by
  fun_induction mergeText ns with
  | case1 => cases hm
  | case2 ns h t b h' t' rest hmerged hjoined ih =>
    simp only [Bool.and_eq_true, decide_eq_true_eq] at hjoined
    rcases mem_cons.1 hm with rfl | hm
    · exact .inr ⟨_, _, rfl, hjoined.1.1⟩
    · exact (ih (by simp [hmerged, hm])).imp_left (mem_cons_of_mem _)
  | case3 ns h t b h' t' rest hmerged _ ih =>
    rcases mem_cons.1 hm with rfl | hm
    · exact .inl (by simp)
    · exact (ih (by simpa [hmerged] using hm)).imp_left (mem_cons_of_mem _)
  | case4 n ns _ ih =>
    rcases mem_cons.1 hm with rfl | hm
    · exact .inl (by simp)
    · exact (ih hm).imp_left (mem_cons_of_mem _)

/-- What is read off a list node by node stays, if joined text gives what its pieces and the soft line
break between them give. -/
theorem flatMap_mergeText {α : Type} {f : Node → List α}
    (hf : ∀ h t, ∀ b ∈ ns, ∀ h' t', h.kind = .rawText → b.isSoftBreak → h'.kind = .rawText →
      f (.text h (t ++ '\n' :: t')) = f (.text h t) ++ f b ++ f (.text h' t')) :
    (mergeText ns).flatMap f = ns.flatMap f := by
  fun_induction mergeText ns with
  | case1 => rfl
  | case2 ns h t b h' t' rest hmerged hjoined ih =>
    simp only [Bool.and_eq_true, decide_eq_true_eq] at hjoined
    have hb : b ∈ ns := by
      rcases mem_mergeText (hmerged ▸ mem_cons_self : b ∈ mergeText ns) with hb | ⟨h₁, t₁, rfl, hk⟩
      · exact hb
      · cases hk.symm.trans hjoined.1.2
    rw [flatMap_cons, flatMap_cons, ← ih fun h t b hb => hf h t b (mem_cons_of_mem _ hb),
      hmerged, hf h t b (mem_cons_of_mem _ hb) h' t' hjoined.1.1 (decide_eq_true hjoined.1.2)
        hjoined.2]
    simp
  | case3 ns h t b h' t' rest hmerged _ ih =>
    rw [← hmerged, flatMap_cons, ih fun h t b hb => hf h t b (mem_cons_of_mem _ hb),
      flatMap_cons]
  | case4 n ns _ ih =>
    rw [flatMap_cons, ih fun h t b hb => hf h t b (mem_cons_of_mem _ hb), flatMap_cons]

theorem laidAll_mergeText (ns : List Node) : laidAll (mergeText ns) = laidAll ns := by
  refine flatMap_mergeText fun h t b _ h' t' hraw hsoft hraw' => ?_
  have hb : b.isRaw = false := by
    cases b with
    | text h t =>
      have hk : h.kind = .lineBreak true := of_decide_eq_true hsoft
      simp [Node.isRaw, hk]
    | _ => rfl
  have hlaid : ∀ {h : Head} (t : Text), h.kind = .rawText → (Node.text h t).laid = t.map .inl :=
    fun t hk => if_pos (decide_eq_true hk)
  rw [hlaid _ hraw, hlaid _ hraw, hlaid _ hraw', Node.laid, hb, hsoft]
  simp

theorem joined_cons_iff {n : Node} :
    Joined (n :: ns) ↔ Joined ns ∧ ∀ b c rest, ns = b :: c :: rest →
      ¬ (n.isRaw ∧ b.isSoftBreak ∧ c.isRaw) := by
  constructor
  · intro h
    refine ⟨fun a b c habc => h a b c (habc.trans (suffix_cons n ns).isInfix), ?_⟩
    rintro b c rest rfl
    exact h n b c ⟨[], rest, rfl⟩
  · rintro ⟨hns, hn⟩ a b c habc
    rcases infix_cons_iff.1 habc with ⟨rest, heq⟩ | habc
    · obtain ⟨rfl, rfl⟩ := cons.inj heq
      exact hn b c rest rfl
    · exact hns a b c habc

theorem joined_mergeText (ns : List Node) : Joined (mergeText ns) := by
  fun_induction mergeText ns with
  | case1 => simp [Joined]
  | case2 ns h t b h' t' rest hmerged hjoined ih =>
    -- what follows the joined text followed its last piece before
    rw [hmerged, joined_cons_iff, joined_cons_iff] at ih
    simp only [Bool.and_eq_true, decide_eq_true_eq] at hjoined
    rw [joined_cons_iff]
    refine ⟨ih.1.1, fun b' c' rest' hrest htriple => ih.1.2 b' c' rest' hrest ?_⟩
    exact ⟨decide_eq_true hjoined.2, htriple.2⟩
  | case3 ns h t b h' t' rest hmerged hapart ih =>
    rw [hmerged] at ih
    refine joined_cons_iff.2 ⟨ih, ?_⟩
    rintro b' c' rest' heq htriple
    obtain ⟨rfl, rfl, -⟩ := heq
    exact hapart (by simpa [Node.isRaw, Node.isSoftBreak, and_assoc] using htriple)
  | case4 n ns hother ih =>
    refine joined_cons_iff.2 ⟨ih, ?_⟩
    rintro b c rest heq ⟨hn, -, hc⟩
    cases n with
    | text h t =>
      cases c with
      | text h' t' => exact hother h t b h' t' rest rfl heq
      | _ => cases hc
    | _ => cases hn

theorem mergeText_eq_self (h : Joined ns) : mergeText ns = ns := by
  fun_induction mergeText ns with
  | case1 => rfl
  | case2 ns h₁ t b h' t' rest hmerged hjoined ih =>
    rw [joined_cons_iff] at h
    rw [ih h.1] at hmerged
    refine absurd ?_ (h.2 b _ rest hmerged)
    simpa [Node.isRaw, Node.isSoftBreak, and_assoc] using hjoined
  | case3 ns h₁ t b h' t' rest hmerged _ ih => rw [← hmerged, ih (joined_cons_iff.1 h).1]
  | case4 n ns _ ih => rw [ih (joined_cons_iff.1 h).1]

/-! ## The walk -/

theorem coalesceAll_eq_map (ns : List Node) : coalesceAll ns = ns.map coalesce := by
  induction ns with
  | nil => rfl
  | cons n ns ih => rw [coalesceAll, ih, map_cons]

theorem coalesce_branch (h : Head) (cs : List Node) :
    coalesce (.branch h cs)
      = .branch h (mergeText (cs.map (if h.kind.isContainer then coalesce else id))) := by
  rw [coalesce, coalesceAll_eq_map]
  split <;> simp

@[simp] theorem head_coalesce (n : Node) : (coalesce n).head = n.head := by
  cases n <;> simp [coalesce, Node.head]

@[simp] theorem kind_coalesce (n : Node) : (coalesce n).kind = n.kind := by simp [Node.kind]

@[simp] theorem isSoftBreak_coalesce (n : Node) : (coalesce n).isSoftBreak = n.isSoftBreak := by
  simp [Node.isSoftBreak]

theorem forall_children_coalesce {P : Node → Prop} {h : Head} {cs : List Node} (hcs : ∀ c ∈ cs, P c)
    (hinside : ∀ c ∈ cs, P c → P (coalesce c))
    (hraw : ∀ (h : Head) (t : Text), h.kind = .rawText → P (.text h t)) :
    ∀ m ∈ mergeText (cs.map (if h.kind.isContainer then coalesce else id)), P m := by
  intro m hm
  rcases mem_mergeText hm with hm | ⟨h, t, rfl, hk⟩
  · obtain ⟨c, hc, rfl⟩ := mem_map.1 hm
    split
    · exact hinside c hc (hcs c hc)
    · exact hcs c hc
  · exact hraw h t hk

theorem coalesce_coalesce (n : Node) : coalesce (coalesce n) = coalesce n := by
  induction n using Node.induct with
  | leaf h => rfl
  | text h t => rfl
  | branch h cs ih =>
    have hfixed : ∀ m ∈ mergeText (cs.map (if h.kind.isContainer then coalesce else id)),
        (if h.kind.isContainer then coalesce else id) m = m := by
      intro m hm
      split
      · next hk =>
        rw [if_pos hk] at hm
        rcases mem_mergeText hm with hm | ⟨h', t, rfl, -⟩
        · obtain ⟨c, hc, rfl⟩ := mem_map.1 hm
          exact ih c hc
        · rfl
      · rfl
    rw [coalesce_branch, coalesce_branch, map_congr_left hfixed, map_id',
      mergeText_eq_self (joined_mergeText _)]

theorem laid_coalesce (n : Node) : (coalesce n).laid = n.laid.map (Sum.map id coalesce) := by
  cases hraw : n.isRaw with
  | true =>
    have hself : coalesce n = n := by
      cases n with
      | branch h cs => cases hraw
      | _ => rfl
    rw [hself, Node.laid, if_pos hraw, map_map]
    rfl
  | false =>
    have hraw' : (coalesce n).isRaw = false := by
      cases n with
      | branch h cs => rfl
      | _ => exact hraw
    rw [Node.laid, Node.laid, hraw, hraw', isSoftBreak_coalesce]
    cases n.isSoftBreak <;> rfl

mutual

/-- The visited nodes that hold nodes, in order. -/
def parents : Node → List Node
  | .branch h cs => .branch h cs :: if h.kind.isContainer then parentsAll cs else []
  | _ => []

def parentsAll : List Node → List Node
  | [] => []
  | n :: ns => parents n ++ parentsAll ns

end

theorem parentsAll_eq_flatMap (ns : List Node) : parentsAll ns = ns.flatMap parents := by
  induction ns with
  | nil => rfl
  | cons n ns ih => rw [parentsAll, ih, flatMap_cons]

theorem exists_of_mem_parents_coalesce {n m : Node} (hm : m ∈ parents (coalesce n)) :
    ∃ p ∈ parents n, m = coalesce p := by
  induction n using Node.induct with
  | leaf h => cases hm
  | text h t => cases hm
  | branch h cs ih =>
    rw [coalesce_branch] at hm
    rcases mem_cons.1 hm with rfl | hm
    · exact ⟨_, by simp [parents], (coalesce_branch h cs).symm⟩
    · split at hm
      · next hk =>
        rw [parentsAll_eq_flatMap, mem_flatMap] at hm
        obtain ⟨d, hd, hm⟩ := hm
        rcases mem_mergeText hd with hd | ⟨h', t, rfl, -⟩
        · obtain ⟨c, hc, rfl⟩ := mem_map.1 hd
          obtain ⟨p, hp, rfl⟩ := ih c hc hm
          refine ⟨p, ?_, rfl⟩
          rw [parents, if_pos hk, parentsAll_eq_flatMap]
          exact mem_cons_of_mem _ (mem_flatMap.2 ⟨c, hc, hp⟩)
        · cases hm
      · cases hm

/-- The visited nodes that hold nodes and are no soft line breaks. -/
def steadyParents (n : Node) : List Node := (parents n).filter fun p => !p.isSoftBreak

theorem steadyParents_branch (h : Head) (cs : List Node) :
    steadyParents (.branch h cs) = (if h.kind = .lineBreak true then [] else [.branch h cs]) ++
      if h.kind.isContainer then cs.flatMap steadyParents else [] := by
  have hbelow : (cs.flatMap parents).filter (fun p => !p.isSoftBreak) = cs.flatMap steadyParents :=
    filter_flatMap ..
  have hsoft : (Node.branch h cs).isSoftBreak = decide (h.kind = .lineBreak true) := rfl
  rw [steadyParents, parents, parentsAll_eq_flatMap, filter_cons, hsoft]
  cases h.kind.isContainer <;> by_cases hk : h.kind = .lineBreak true <;> simp [hk, hbelow]

theorem steadyParents_coalesce (n : Node) :
    steadyParents (coalesce n) = (steadyParents n).map coalesce := by
  induction n using Node.induct with
  | leaf h => rfl
  | text h t => rfl
  | branch h cs ih =>
    -- soft line breaks are no containers, so that nothing is lost with them
    have hsoft : ∀ b : Node, b.isSoftBreak → steadyParents b = [] := by
      intro b hb
      cases b with
      | branch h' ds =>
        have hk : h'.kind = .lineBreak true := of_decide_eq_true hb
        simp [steadyParents_branch, hk, Kind.isContainer]
      | _ => rfl
    have hmerge : ∀ ds : List Node,
        (mergeText ds).flatMap steadyParents = ds.flatMap steadyParents :=
      fun ds => flatMap_mergeText fun h t b _ h' t' _ hb _ => by simp [hsoft b hb]; rfl
    rw [coalesce_branch, steadyParents_branch, hmerge, steadyParents_branch, map_append,
      ← coalesce_branch]
    congr 1
    · split <;> rfl
    · split
      · rw [flatMap_map, map_flatMap]
        exact flatMap_congr ih
      · rfl

/-- **Joining keeps the text and leaves nothing to join.** In every visited node that holds nodes, the
children read as text and markers are as before, with what the walk makes of a marker in its place.
The nodes that the walk comes to are the same, soft line breaks apart, which can be joined away with
what they hold; each is what the walk makes of one before, and holds no raw text, soft line break and
raw text in a row. A second walk changes nothing. -/
theorem coalescing_keeps_text (doc : Node) :
    (∀ p ∈ parents doc, laidAll (coalesce p).children
      = (laidAll p.children).map (Sum.map id (if p.kind.isContainer then coalesce else id))) ∧
    steadyParents (coalesce doc) = (steadyParents doc).map coalesce ∧
    (∀ m ∈ parents (coalesce doc), (∃ p ∈ parents doc, m = coalesce p) ∧ Joined m.children) ∧
    coalesce (coalesce doc) = coalesce doc := by
  refine ⟨fun p _ => ?_, steadyParents_coalesce doc, fun m hm => ?_, coalesce_coalesce doc⟩
  · cases p with
    | branch h cs =>
      rw [coalesce_branch, Node.children, laidAll_mergeText, laidAll, flatMap_map, laidAll,
        map_flatMap]
      refine flatMap_congr fun c _ => ?_
      cases hk : h.kind.isContainer with
      | true => simpa [Node.kind, Node.head, hk] using laid_coalesce c
      | false => simp [Node.kind, Node.head, hk]
    | _ => rfl
  · obtain ⟨p, hp, rfl⟩ := exists_of_mem_parents_coalesce hm
    refine ⟨⟨p, hp, rfl⟩, ?_⟩
    cases p with
    | branch h cs =>
      exact joined_mergeText _
    | _ => simp [coalesce, Node.children, Joined]

/-- Three pieces of raw text across two soft line breaks, a hard one and a soft one before a code
span: the run becomes one piece, and the other breaks stay. -/
example :
    let raw (s : String) : Node := .text ⟨.rawText, none⟩ s.toList
    let stop (soft : Bool) : Node := .leaf ⟨.lineBreak soft, none⟩
    let code : Node := .text ⟨.codeSpan, none⟩ ['c']
    mergeText [raw "a", stop true, raw "b", stop true, raw "c", stop false, raw "d", stop true, code]
      = [raw "a\nb\nc", stop false, raw "d", stop true, code] := by rfl

end Reflow.Document
