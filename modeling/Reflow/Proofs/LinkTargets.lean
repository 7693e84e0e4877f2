import Reflow.Proofs.Formatting

/-!
What formatting keeps of the links of a document.

Whatever is read off a document node by node is a list over its descendants, in order
(`Node.readOff`). A transform keeps such a reading if it keeps what the reading says of each node,
and if the nodes that it takes away say nothing. A soft line break that is joined away goes with all
that it holds, so soft line breaks are to hold nothing (`Node.BareBreaks`), as in every document
read.
-/

open List

namespace Reflow.Document

variable {n : Node} (f : LinkFilter)

namespace Node

/-! ## Readings -/

/-- What is read off the nodes below a node, in order. -/
def readOff {α : Type} (g : Node → List α) (n : Node) : List α := n.descendants.flatMap g

/-- Soft line breaks hold no nodes. -/
def BareBreaks (n : Node) : Prop := ∀ b ∈ n.descendants, b.isSoftBreak = true → b.children = []

instance (n : Node) : Decidable n.BareBreaks :=
  decidable_of_iff (n.descendants.all fun b => !b.isSoftBreak || b.children.isEmpty) <| by
    simp [BareBreaks, Decidable.imp_iff_not_or]

section Readings

variable {α : Type} {g : Node → List α}

theorem readOff_branch (h : Head) (cs : List Node) :
    (Node.branch h cs).readOff g = cs.flatMap fun c => g c ++ c.readOff g := by
  rw [readOff, descendants, descendantsAll_eq_flatMap, flatMap_assoc]
  rfl

theorem readOff_of_children_nil {n : Node} (h : n.children = []) : n.readOff g = [] := by
  cases n with
  | branch h' cs =>
    obtain rfl : cs = [] := h
    rfl
  | _ => rfl

@[simp] theorem readOff_withHead (h : Head) (n : Node) : (n.withHead h).readOff g = n.readOff g := by
  cases n <;> rfl

theorem readOff_eq_of_emptied (hg : ∀ m, g m.emptied = g m) {m n : Node} (h : m.emptied = n.emptied) :
    m.readOff g = n.readOff g := by
  have hself : ∀ k : Node, k.emptied.readOff g = k.readOff g := by
    intro k
    rw [readOff, descendants_emptied, flatMap_map]
    exact flatMap_congr fun m _ => hg m
  rw [← hself m, h, hself n]

end Readings

theorem bareBreaks_branch_iff {h : Head} {cs : List Node} : (Node.branch h cs).BareBreaks ↔
    ∀ c ∈ cs, (c.isSoftBreak → c.children = []) ∧ c.BareBreaks := by
  simp only [BareBreaks, descendants, mem_descendantsAll, mem_cons]
  constructor
  · intro hall c hc
    exact ⟨hall c ⟨c, hc, .inl rfl⟩, fun b hb => hall b ⟨c, hc, .inr hb⟩⟩
  · rintro hall b ⟨c, hc, rfl | hb⟩
    · exact (hall b hc).1
    · exact (hall c hc).2 b hb

theorem BareBreaks.of_emptied {m n : Node} (hn : n.BareBreaks) (h : m.emptied = n.emptied) :
    m.BareBreaks := by
  have hchildren : ∀ k : Node, k.emptied.children = k.children.map emptied := by
    intro k
    cases k with
    | leaf h => rfl
    | text h t => by_cases hraw : h.kind = .rawText <;> simp [emptied, children, hraw]
    | branch h cs => exact emptiedAll_eq_map cs
  have hself : ∀ k : Node, k.emptied.BareBreaks ↔ k.BareBreaks := fun k => by
    simp [BareBreaks, descendants_emptied, isSoftBreak, hchildren]
  rwa [← hself, h, hself]

end Node

/-! ## Taking the bold off headings -/

/-- The same head and the same text; if the nodes are soft line breaks, both or none hold nodes. -/
structure Alike (m n : Node) : Prop where
  head : m.head = n.head
  text : m.plainText = n.plainText
  bare : n.isSoftBreak = true → (m.children = [] ↔ n.children = [])

theorem plainTextAll_eq_flatMap (ns : List Node) :
    Node.plainTextAll ns = ns.flatMap Node.plainText := by
  induction ns with
  | nil => rfl
  | cons n ns ih => rw [Node.plainTextAll, ih, flatMap_cons]

@[simp] theorem plainText_withHead (h : Head) (n : Node) :
    (n.withHead h).plainText = n.plainText := by
  cases n <;> rfl

theorem unboldHeadingsAll_eq_map (ns : List Node) :
    unboldHeadingsAll ns = ns.map unboldHeadings := by
  induction ns with
  | nil => rfl
  | cons n ns ih => rw [unboldHeadingsAll, ih, map_cons]

theorem unboldHeading_cases (h : Head) (cs : List Node) :
    (∃ b, cs = [b] ∧ b.kind = .strong ∧ unboldHeading h cs = b.withHead h) ∨
    (∃ he b, cs = [.branch he [b]] ∧ he.kind = .emphasis ∧ b.kind = .strong ∧
      unboldHeading h cs = .branch h [b.withHead he]) ∨
    unboldHeading h cs = .branch h cs := by
  unfold unboldHeading
  split
  · split
    · next hk => exact .inl ⟨_, rfl, hk, rfl⟩
    · next he b hk =>
      split
      · next hb => exact .inr (.inl ⟨he, b, rfl, hk, hb, rfl⟩)
      · exact .inr (.inr rfl)
    · exact .inr (.inr rfl)
  · exact .inr (.inr rfl)

theorem unboldHeadings_branch (h : Head) (cs : List Node) :
    ∃ cs', (cs' = cs.map unboldHeadings ∨ cs' = cs) ∧
      (unboldHeadings (.branch h cs) = .branch h cs' ∨
        h.kind ≠ .lineBreak true ∧ unboldHeadings (.branch h cs) = unboldHeading h cs') := by
  refine ⟨if h.kind.isContainer then cs.map unboldHeadings else cs, ?_, ?_⟩
  · split
    · exact .inl rfl
    · exact .inr rfl
  · rw [unboldHeadings, unboldHeadingsAll_eq_map]
    split
    · next level hk => exact .inr ⟨by simp [hk], rfl⟩
    · exact .inl rfl

theorem alike_unboldHeading {h : Head} (hk : h.kind ≠ .lineBreak true) (cs : List Node) :
    Alike (unboldHeading h cs) (.branch h cs) := by
  have hhard : (Node.branch h cs).isSoftBreak = false := decide_eq_false hk
  have hhead : ∀ b : Node, (b.withHead h).head = h := fun b => by cases b <;> rfl
  rcases unboldHeading_cases h cs with ⟨b, rfl, -, heq⟩ | ⟨he, b, rfl, -, -, heq⟩ | heq
  · rw [heq]
    exact ⟨hhead b, by simp [Node.plainText, Node.plainTextAll], by simp [hhard]⟩
  · rw [heq]
    exact ⟨rfl, by simp [Node.plainText, Node.plainTextAll], by simp [hhard]⟩
  · rw [heq]
    exact ⟨rfl, rfl, fun _ => Iff.rfl⟩

theorem alike_unboldHeadings (n : Node) : Alike (unboldHeadings n) n := by
  induction n using Node.induct with
  | leaf h => exact ⟨rfl, rfl, fun _ => Iff.rfl⟩
  | text h t => exact ⟨rfl, rfl, fun _ => Iff.rfl⟩
  | branch h cs ih =>
    obtain ⟨cs', hcs', hself⟩ := unboldHeadings_branch h cs
    have htext : (Node.branch h cs').plainText = (Node.branch h cs).plainText := by
      rcases hcs' with rfl | rfl
      · simp only [Node.plainText, plainTextAll_eq_flatMap, flatMap_map]
        exact flatMap_congr fun c hc => (ih c hc).text
      · rfl
    have hbare : cs' = [] ↔ cs = [] := by rcases hcs' with rfl | rfl <;> simp
    rcases hself with hself | ⟨hk, hself⟩
    · rw [hself]
      exact ⟨rfl, htext, fun _ => hbare⟩
    · rw [hself]
      have halike := alike_unboldHeading hk cs'
      exact ⟨halike.head, halike.text.trans htext, fun hsoft => absurd (of_decide_eq_true hsoft) hk⟩

/-- **What is read off a document stays when headings lose their bold**, if nothing is read off strong
emphasis. -/
theorem readOff_unboldHeadings {α : Type} {g : Node → List α}
    (hstrong : ∀ m, m.kind = .strong → g m = []) (hg : ∀ {m n}, Alike m n → g m = g n) (n : Node) :
    (unboldHeadings n).readOff g = n.readOff g := by
  have hheading : ∀ h cs, (unboldHeading h cs).readOff g = (Node.branch h cs).readOff g := by
    intro h cs
    rcases unboldHeading_cases h cs with ⟨b, rfl, hb, heq⟩ | ⟨he, b, rfl, hk, hb, heq⟩ | heq
    · rw [heq, Node.readOff_withHead, Node.readOff_branch]
      simp [hstrong b hb]
    · -- the emphasis takes over what its strong emphasis holds
      have hemphasis : g (b.withHead he) = g (.branch he [b]) := by
        refine hg ⟨by cases b <;> rfl, by simp [Node.plainText, Node.plainTextAll], ?_⟩
        intro hsoft
        have hsoft : he.kind = .lineBreak true := of_decide_eq_true hsoft
        cases hk.symm.trans hsoft
      rw [heq]
      simp only [Node.readOff_branch, flatMap_cons, flatMap_nil, append_nil,
        Node.readOff_withHead, hemphasis, hstrong b hb, nil_append]
    · rw [heq]
  induction n using Node.induct with
  | leaf h => rfl
  | text h t => rfl
  | branch h cs ih =>
    obtain ⟨cs', hcs', hself⟩ := unboldHeadings_branch h cs
    have hchildren : (Node.branch h cs').readOff g = (Node.branch h cs).readOff g := by
      rcases hcs' with rfl | rfl
      · rw [Node.readOff_branch, Node.readOff_branch, flatMap_map]
        exact flatMap_congr fun c hc => by rw [ih c hc, hg (alike_unboldHeadings c)]
      · rfl
    rcases hself with hself | ⟨-, hself⟩
    · rw [hself, hchildren]
    · rw [hself, hheading, hchildren]

/-! ## Joining raw text -/

theorem children_coalesce_eq_nil (h : n.children = []) : (coalesce n).children = [] := by
  cases n with
  | branch h' cs =>
    obtain rfl : cs = [] := h
    simp [coalesce_branch, mergeText, Node.children]
  | _ => rfl

theorem Node.BareBreaks.coalesce (hn : n.BareBreaks) : (coalesce n).BareBreaks := by
  induction n using Node.induct with
  | leaf h => exact hn
  | text h t => exact hn
  | branch h cs ih =>
    rw [Node.bareBreaks_branch_iff] at hn
    rw [coalesce_branch, Node.bareBreaks_branch_iff]
    refine forall_children_coalesce hn (fun c hc hbare => ⟨fun hsoft => ?_, ih c hc hbare.2⟩)
      fun _ t _ => ⟨fun _ => rfl, by simp [Node.BareBreaks, Node.descendants]⟩
    exact children_coalesce_eq_nil (hbare.1 (by simpa using hsoft))

/-- **What is read off a document stays when its raw text is joined**, if nothing is read off raw text
and soft line breaks. -/
theorem readOff_coalesce {α : Type} {g : Node → List α}
    (hraw : ∀ h t, h.kind = .rawText → g (.text h t) = [])
    (hsoft : ∀ b : Node, b.isSoftBreak → g b = []) (hg : ∀ m, g (coalesce m) = g m)
    (hn : n.BareBreaks) : (coalesce n).readOff g = n.readOff g := by
  induction n using Node.induct with
  | leaf h => rfl
  | text h t => rfl
  | branch h cs ih =>
    have hbare := Node.bareBreaks_branch_iff.1 hn
    rw [coalesce_branch, Node.readOff_branch, flatMap_mergeText, Node.readOff_branch, flatMap_map]
    · refine flatMap_congr fun c hc => ?_
      split
      · rw [hg, ih c hc (hbare c hc).2]
      · rfl
    · intro h₁ t b hb h₂ t' hraw₁ hsoft' hraw₂
      have hchildren : b.children = [] := by
        obtain ⟨c, hc, rfl⟩ := mem_map.1 hb
        split at hsoft'
        · next hk =>
          rw [if_pos hk]
          exact children_coalesce_eq_nil ((hbare c hc).1 (by simpa using hsoft'))
        · next hk =>
          rw [if_neg hk]
          exact (hbare c hc).1 hsoft'
      rw [hraw _ _ hraw₁, hraw _ _ hraw₁, hraw _ _ hraw₂, hsoft b hsoft',
        Node.readOff_of_children_nil hchildren]
      rfl

/-! ## Links -/

/-- Where a node leads, if it is a link that is asked for: its kind alone says so. -/
def LinkFilter.target? (f : LinkFilter) : Kind → Option Target
  | .link target => some target
  | .image target => if f.images then some target else none
  | .autolink address | .bareUrl address => if f.autolinks then some ⟨address, none⟩ else none
  | _ => none

theorem LinkFilter.map_target_link? (n : Node) :
    (f.link? n).map Link.target = f.target? n.kind := by
  unfold link? target?
  cases n.kind with
  | image target => cases f.images <;> rfl
  | autolink address | bareUrl address => cases f.autolinks <;> rfl
  | _ => rfl

/-- Where the links below a node lead, in order. -/
def linkTargets (f : LinkFilter) (n : Node) : List Target := (links f n).map Link.target

theorem links_eq_readOff (n : Node) :
    links f n = n.readOff fun m => (f.link? m).toList := filterMap_eq_flatMap_toList ..

theorem linkTargets_eq_readOff (n : Node) :
    linkTargets f n = n.readOff fun m => (f.target? m.kind).toList := by
  rw [linkTargets, links_eq_readOff, Node.readOff, map_flatMap, Node.readOff]
  refine flatMap_congr fun m _ => ?_
  rw [← f.map_target_link?]
  cases f.link? m <;> rfl

/-- The nodes below a node in order, strong emphasis apart, each with its text. -/
def nodesButStrong (n : Node) : List (Head × Text) :=
  (n.descendants.filter fun m => m.kind ≠ .strong).map fun m => (m.head, m.plainText)

theorem nodesButStrong_eq_readOff (n : Node) : nodesButStrong n
    = n.readOff fun m => if m.kind = .strong then [] else [(m.head, m.plainText)] := by
  rw [nodesButStrong, Node.readOff]
  induction n.descendants with
  | nil => rfl
  | cons m ms ih => by_cases hm : m.kind = .strong <;> simp_all

theorem Alike.kind {m n : Node} (h : Alike m n) : m.kind = n.kind := congrArg Head.kind h.head

theorem linkTargets_unboldHeadings (n : Node) :
    linkTargets f (unboldHeadings n) = linkTargets f n := by
  rw [linkTargets_eq_readOff, linkTargets_eq_readOff]
  refine readOff_unboldHeadings (fun m hm => ?_) (fun h => by rw [h.kind]) n
  rw [hm]
  rfl

theorem Node.BareBreaks.unboldHeadings (hn : n.BareBreaks) : (unboldHeadings n).BareBreaks := by
  -- the soft line breaks that hold nodes are read off, and there are none
  have hread : ∀ m : Node, m.BareBreaks ↔
      (m.readOff fun b => if b.isSoftBreak ∧ b.children ≠ [] then [()] else []) = [] := by
    intro m
    simp [Node.BareBreaks, Node.readOff]
  rw [hread] at hn ⊢
  rw [readOff_unboldHeadings _ _ n, hn]
  · intro m hm
    simp [Node.isSoftBreak, hm]
  · intro m n h
    have hsoft : m.isSoftBreak = n.isSoftBreak := by rw [Node.isSoftBreak, h.kind]; rfl
    by_cases hn : n.isSoftBreak
    · simp only [hsoft, hn, ne_eq, h.bare hn]
    · simp [hsoft, hn]

theorem linkTargets_coalesce (hn : n.BareBreaks) :
    linkTargets f (coalesce n) = linkTargets f n := by
  rw [linkTargets_eq_readOff, linkTargets_eq_readOff]
  refine readOff_coalesce (fun h t hk => ?_) (fun b hb => ?_) (fun m => by rw [kind_coalesce]) hn
  · simp [Node.kind, Node.head, hk, LinkFilter.target?]
  · simp [of_decide_eq_true hb, LinkFilter.target?]

/-- What a transform has to keep: where links lead, and soft line breaks that hold nothing. -/
structure KeepsTargets (n m : Node) : Prop where
  targets : ∀ f, linkTargets f m = linkTargets f n
  bare : m.BareBreaks

theorem KeepsTargets.trans {n m k : Node} (h : KeepsTargets n m) (h' : KeepsTargets m k) :
    KeepsTargets n k :=
  ⟨fun f => (h'.targets f).trans (h.targets f), h'.bare⟩

theorem keepsTargets_of_emptied {n m : Node} (hn : n.BareBreaks) (h : m.emptied = n.emptied) :
    KeepsTargets n m := by
  refine ⟨fun f => ?_, hn.of_emptied h⟩
  rw [linkTargets_eq_readOff, linkTargets_eq_readOff]
  exact Node.readOff_eq_of_emptied (fun k => by rw [Node.kind_emptied]) h

theorem keepsTargets_coalesce (hn : n.BareBreaks) : KeepsTargets n (coalesce n) :=
  ⟨fun f => linkTargets_coalesce f hn, hn.coalesce⟩

/-- **One transform** goes through and keeps where links lead. -/
theorem exists_apply_keepsTargets {t : Transform} (ht : t ≠ .ellipsesAcross) (hn : n.BareBreaks) :
    ∃ m, t.apply n = .ok m ∧ KeepsTargets n m := by
  have htext : ∀ (f : Text → Text) {k : Node}, k.BareBreaks → KeepsTargets k (mapText f k) :=
    fun f k hk => keepsTargets_of_emptied hk (emptied_mapText f k)
  have hjoined := keepsTargets_coalesce hn
  cases t with
  | cleanUp => exact ⟨_, rfl, fun f => linkTargets_unboldHeadings f n, hn.unboldHeadings⟩
  | coalesce => exact ⟨_, rfl, hjoined⟩
  | quotes =>
    obtain ⟨m, hm, hemptied⟩ := exists_mapScopes_emptied Typography.length_curlQuotes (coalesce n)
    exact ⟨m, hm, hjoined.trans (keepsTargets_of_emptied hjoined.bare hemptied)⟩
  | quotesPiecewise | ellipsesPiecewise => exact ⟨_, rfl, htext _ hn⟩
  | ellipses => exact ⟨_, rfl, hjoined.trans (htext _ hjoined.bare)⟩
  | ellipsesAcross => exact absurd rfl ht

theorem exists_applyAll_keepsTargets {ts : List Transform} (hts : .ellipsesAcross ∉ ts)
    (hn : n.BareBreaks) : ∃ m, applyAll ts n = .ok m ∧ KeepsTargets n m := by
  induction ts generalizing n with
  | nil => exact ⟨n, rfl, fun _ => rfl, hn⟩
  | cons t ts ih =>
    rw [mem_cons, not_or] at hts
    obtain ⟨k, hk, hstep⟩ := exists_apply_keepsTargets (Ne.symm hts.1) hn
    obtain ⟨m, hm, hrest⟩ := ih hts.2 hstep.bare
    refine ⟨m, ?_, hstep.trans hrest⟩
    rw [applyAll, foldlM_cons, hk]
    exact hm

/-- **Formatting keeps the links of a document.** Any sequence of the transforms of formatting goes
through, and afterwards the links lead where they led before, in the same order, whichever kinds of
links are asked for. Taking the bold off headings keeps the text of every link as well, and every node
that is not strong emphasis with its text, in order. -/
theorem transforms_keep_links {doc : Node} (hdoc : doc.BareBreaks) {ts : List Transform}
    (hts : .ellipsesAcross ∉ ts) :
    (∃ new, applyAll ts doc = .ok new ∧
      ∀ f, (links f new).map Link.target = (links f doc).map Link.target) ∧
    (∀ f, links f (unboldHeadings doc) = links f doc) ∧
    nodesButStrong (unboldHeadings doc) = nodesButStrong doc := by
  refine ⟨?_, fun f => ?_, ?_⟩
  · obtain ⟨new, hnew, hkept⟩ := exists_applyAll_keepsTargets hts hdoc
    exact ⟨new, hnew, hkept.targets⟩
  · rw [links_eq_readOff, links_eq_readOff]
    refine readOff_unboldHeadings (fun m hm => ?_) (fun h => ?_) doc
    · simp [LinkFilter.link?, hm]
    · simp only [LinkFilter.link?, h.kind, h.text]
  · rw [nodesButStrong_eq_readOff, nodesButStrong_eq_readOff]
    exact readOff_unboldHeadings (fun m hm => if_pos hm) (fun h => by rw [h.kind, h.head, h.text]) doc

/-- A bold heading with a link over two lines, and an image and an address after it: all transforms,
one after the other. -/
theorem links_of_bold_heading_kept :
    let raw (s : String) : Node := .text ⟨.rawText, none⟩ s.toList
    let target : Target := ⟨"/a".toList, some "t".toList⟩
    let doc : Node := .branch ⟨.document [], none⟩
      [.branch ⟨.heading 1, none⟩ [.branch ⟨.strong, none⟩
        [.branch ⟨.link target, none⟩ [raw "it's", .leaf ⟨.lineBreak true, none⟩, raw "so..."]]],
      .branch ⟨.paragraph none, none⟩
        [.branch ⟨.image target, none⟩ [raw "x"], .branch ⟨.bareUrl "u".toList, none⟩ [raw "u"]]]
    let f : LinkFilter := { images := true }
    doc.BareBreaks ∧ (∃ new, applyAll [.cleanUp, .coalesce, .quotes, .ellipses, .ellipsesPiecewise] doc
      = .ok new ∧ (links f new).map Link.target = [target, target, ⟨"u".toList, none⟩]) ∧
    links f (unboldHeadings doc) = links f doc := by
  intro raw target doc f
  have hbare : doc.BareBreaks := by decide +kernel
  have hts : Transform.ellipsesAcross ∉
      [Transform.cleanUp, .coalesce, .quotes, .ellipses, .ellipsesPiecewise] := by decide
  obtain ⟨⟨new, hnew, hlinks⟩, hcleaned, -⟩ := transforms_keep_links hbare hts
  exact ⟨hbare, ⟨new, hnew, hlinks f⟩, hcleaned f⟩

end Reflow.Document
