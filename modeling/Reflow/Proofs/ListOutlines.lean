import Reflow.Proofs.PlainParagraphs
import Reflow.Proofs.Writing

/-!
Lists as they stand on the page.

The marker of an item is taken by its first block, so an empty item writes none, and a list that is
the first block of an item gives the marker to every one of its own items (`heads`). The lines of an
item are spread over these starts (`Spread`): as many as its heads start with the marker, and all
others are blank or start with the indent.
-/

open List

namespace Reflow.Document

open Text Wrap

/-! ## Markers -/

theorem toDigits_injective : Function.Injective (Nat.toDigits 10) := by
  intro m n h
  rw [← Nat.ofDigitChars_toDigits (n := m) (b := 10) (by decide) (by decide), h,
    Nat.ofDigitChars_toDigits (by decide) (by decide)]

theorem toString_int_injective {m n : Int} (h : (toString m).toList = (toString n).toList) :
    m = n := by
  have hnat : ∀ k : Nat, (toString (Int.ofNat k)).toList = Nat.toDigits 10 k :=
    fun k => Nat.toList_repr
  have hneg : ∀ k : Nat, (toString (Int.negSucc k)).toList = '-' :: Nat.toDigits 10 k.succ := by
    intro k
    change ("-" ++ k.succ.repr).toList = _
    rw [String.toList_append, Nat.toList_repr]
    rfl
  -- the sign is no digit, so numbers on either side of zero differ in their first character
  have hsign : ∀ j k : Nat, Nat.toDigits 10 j ≠ '-' :: Nat.toDigits 10 k := by
    intro j k heq
    have hmem : '-' ∈ Nat.toDigits 10 j := by simp [heq]
    exact absurd (Nat.isDigit_of_mem_toDigits (by decide) (by decide) hmem) (by decide)
  cases m with
  | ofNat j =>
    cases n with
    | ofNat k =>
      rw [hnat, hnat] at h
      rw [toDigits_injective h]
    | negSucc k =>
      rw [hnat, hneg] at h
      exact absurd h (hsign j _)
  | negSucc j =>
    cases n with
    | ofNat k =>
      rw [hnat, hneg] at h
      exact absurd h.symm (hsign k _)
    | negSucc k =>
      rw [hneg, hneg] at h
      exact congrArg Int.negSucc (Nat.succ_inj.1 (toDigits_injective (cons.inj h).2))

/-- The items have numbers, or one of the bullets of Markdown. -/
def IsMarkdownShape (shape : ListShape) : Prop :=
  shape.ordered = true ∨ shape.bullet ∈ [['-'], ['+'], ['*']]

variable {shape : ListShape} {index k : Nat} {items : List Node} {groups : List (List Text)}
  {l : Text}

theorem IsMarkdownShape.single (h : IsMarkdownShape shape) :
    shape.ordered ∨ '\n' ∉ shape.bullet := by
  refine h.imp_right fun hbullet => ?_
  simp only [mem_cons, not_mem_nil, or_false] at hbullet
  rcases hbullet with hb | hb | hb <;> rw [hb] <;> decide

instance (shape : ListShape) : Decidable (IsMarkdownShape shape) :=
  inferInstanceAs (Decidable (_ ∨ _))

/-- The text begins with a visible character. -/
def StartsVisible (t : Text) : Prop := ∃ c u, t = c :: u ∧ isBlank c = false

theorem StartsVisible.append {t : Text} (h : StartsVisible t) (u : Text) :
    StartsVisible (t ++ u) := by
  obtain ⟨c, v, rfl, hc⟩ := h
  exact ⟨c, v ++ u, rfl, hc⟩

theorem StartsVisible.isBlankText_eq {t : Text} (h : StartsVisible t) : isBlankText t = false := by
  obtain ⟨c, u, rfl, hc⟩ := h
  simp [isBlankText, hc]

theorem mem_itemMarker (h : IsMarkdownShape shape) {c : Char} (hc : c ∈ itemMarker shape index) :
    c.isDigit ∨ c ∈ ['-', '+', '*', '.', ' '] := by
  unfold itemMarker at hc
  split at hc
  · rcases mem_append.1 hc with hc | hc
    · rcases mem_toString_int hc with hdigit | rfl
      · exact .inl hdigit
      · simp
    · rcases mem_cons.1 hc with rfl | hc <;> simp_all
  · next hordered =>
    have hbullet := h.resolve_left hordered
    rcases mem_append.1 hc with hc | hc
    · simp only [mem_cons, not_mem_nil, or_false] at hbullet
      rcases hbullet with hb | hb | hb <;> simp_all
    · simp_all

theorem isBlank_of_isDigit {c : Char} (h : c.isDigit) : isBlank c = false :=
  isBlank_of_isAsciiDigit (by simpa [isAsciiDigit, Char.isDigit, Char.le_def] using h)

theorem startsVisible_itemMarker (h : IsMarkdownShape shape) (index : Nat) :
    StartsVisible (itemMarker shape index) := by
  unfold itemMarker
  split
  · cases hdigits : (toString ((index : Int) + shape.start)).toList with
    | nil => exact ⟨'.', [' '], rfl, by decide⟩
    | cons c u =>
      refine ⟨c, u ++ ['.', ' '], rfl, ?_⟩
      rcases mem_toString_int (hdigits ▸ mem_cons_self : c ∈ _) with hc | rfl
      · exact isBlank_of_isDigit hc
      · decide
  · next hordered =>
    have hbullet := h.resolve_left hordered
    simp only [mem_cons, not_mem_nil, or_false] at hbullet
    rcases hbullet with hb | hb | hb <;> rw [hb] <;> exact ⟨_, [' '], rfl, by decide⟩

theorem unopened_itemMarker (h : IsMarkdownShape shape) (index : Nat) :
    Unopened (itemMarker shape index) := by
  constructor <;> intro hmem <;> rcases mem_itemMarker h hmem with hc | hc <;> simp at hc

theorem exists_itemIndent (shape : ListShape) (index : Nat) :
    ∃ u, itemIndent shape index = ' ' :: u := by
  unfold itemIndent
  split
  · next hordered =>
    have hlen : (itemMarker shape index).length
        = (toString ((index : Int) + shape.start)).toList.length + 1 + 1 := by
      simp [itemMarker, hordered]
    rw [hlen]
    exact ⟨_, replicate_succ⟩
  · exact ⟨[' '], rfl⟩

/-! ## Lines behind two starts -/

/-- Lines that are blank, or start with `lead` or with `indent`; `k` of them start with `lead`. -/
inductive Spread (lead indent : Text) : Nat → List Text → Prop
  | nil : Spread lead indent 0 []
  | blank {k : Nat} {l : Text} {ls : List Text} :
      isBlankText l = true → Spread lead indent k ls → Spread lead indent k (l :: ls)
  | first {k : Nat} {x : Text} {ls : List Text} :
      StartsVisible x → Spread lead indent k ls → Spread lead indent (k + 1) ((lead ++ x) :: ls)
  | later {k : Nat} {x : Text} {ls : List Text} :
      isBlankText x = false → Spread lead indent k ls → Spread lead indent k ((indent ++ x) :: ls)

namespace Spread

variable {lead indent : Text} {k : Nat} {ls : List Text}

theorem append (h : Spread lead indent k ls) {j : Nat} {ms : List Text}
    (h' : Spread lead indent j ms) : Spread lead indent (k + j) (ls ++ ms) := by
  induction h with
  | nil => simpa using h'
  | blank hl _ ih => exact .blank hl ih
  | first hx _ ih =>
    rw [Nat.add_right_comm]
    exact .first hx ih
  | later hx _ ih => exact .later hx ih

theorem shorten {lead' indent' : Text} (hlead : StartsVisible lead')
    (h : Spread (lead ++ lead') (indent ++ indent') k ls) : Spread lead indent k ls := by
  induction h with
  | nil => exact .nil
  | blank hl _ ih => exact .blank hl ih
  | first hx _ ih =>
    rw [append_assoc]
    exact .first (hlead.append _) ih
  | @later k x ls hx _ ih =>
    rw [append_assoc]
    refine .later ?_ ih
    rw [isBlankText, all_append, ← isBlankText, ← isBlankText, hx, Bool.and_false]

/-- Where the next line starts like the later ones, none starts with what came before. -/
theorem settled (h : Spread indent indent k ls) (lead : Text) : Spread lead indent 0 ls := by
  induction h with
  | nil => exact .nil
  | blank hl _ ih => exact .blank hl ih
  | first hx _ ih => exact .later hx.isBlankText_eq ih
  | later hx _ ih => exact .later hx ih

end Spread

theorem spread_apply {lead indent : Text} {ls : List Text} (h : TextLines ls) :
    Spread lead indent 1 (Indents.apply ⟨lead, indent⟩ ls) := by
  obtain ⟨l, ls, rfl⟩ := exists_cons_of_ne_nil h.ne_nil
  have hrest : ∀ ms : List Text, (∀ m ∈ ms, Solid m) →
      Spread lead indent 0 (ms.map (indent ++ ·)) := by
    intro ms hms
    induction ms with
    | nil => exact .nil
    | cons m ms ih =>
      have hm : StartsVisible m := (hms m (by simp)).first
      exact .later hm.isBlankText_eq (ih fun n hn => hms n (by simp [hn]))
  exact .first (h.solid l (by simp)).first (hrest ls fun m hm => h.solid m (by simp [hm]))

/-! ## Outlines -/

/-- What stands in a list, and what stands in an item. -/
inductive Level where
  | item
  | block

/-- Lists, items and paragraphs of plain words, to any depth. -/
inductive Outline (w : Writer) (references : Option (List Reference)) : Level → Node → Prop
  | paragraph {h : Head} {checked : Option Bool} {cs : List Node} :
      h.kind = .paragraph checked → (∀ c ∈ cs, Inline c) →
      PlainWords (withBox checked (paragraphText w references cs)) →
      Outline w references .block (.branch h cs)
  | list {h : Head} {shape : ListShape} {items : List Node} :
      h.kind = .list shape → IsMarkdownShape shape →
      (∀ i ∈ items, Outline w references .item i) → Outline w references .block (.branch h items)
  | item {h : Head} {cs : List Node} :
      h.kind = .listItem → (∀ c ∈ cs, Outline w references .block c) →
      Outline w references .item (.branch h cs)

mutual

/-- How many lines a node starts with the start that it finds: one in a paragraph, and all that the
items of a list do. An item leaves the start it finds to its first block. -/
def heads (n : Node) : Nat :=
  match n with
  | .branch h cs =>
    match h.kind with
    | .paragraph _ => 1
    | .list _ => headsAll cs
    | .listItem => headsFirst cs
    | _ => 0
  | _ => 0

/-- The same, all nodes together. -/
def headsAll (ns : List Node) : Nat :=
  match ns with
  | [] => 0
  | n :: rest => heads n + headsAll rest

/-- The same for the first of the nodes. -/
def headsFirst (ns : List Node) : Nat :=
  match ns with
  | [] => 0
  | n :: _ => heads n

end

theorem Outline.isBlock {w : Writer} {references : Option (List Reference)} {level : Level}
    {n : Node} (h : Outline w references level n) : IsBlock (fun _ => True) n := by
  induction h with
  | paragraph hk hcs _ => exact .paragraph hk hcs
  | list hk _ _ ih => exact .list hk trivial ih
  | item hk _ ih => exact .item hk ih

/-- The state between the blocks of a list: the next line may start with anything that is no tag, and
the later ones with spaces. -/
structure Ready (references : Option (List Reference)) (s : WriterState) : Prop where
  references_eq : s.references = references
  inHeading : s.inHeading = false
  single : '\n' ∉ s.lead
  unopened : Unopened s.lead
  indent : ∀ c ∈ s.indent, c = ' '

namespace Ready

variable {references : Option (List Reference)} {s after : WriterState}

theorem frame (h : Ready references s) (hframe : s.Frame after) : Ready references after := by
  have hindent : ∀ c ∈ after.indent, c = ' ' := by
    rw [hframe.indent]
    exact h.indent
  have hlead : '\n' ∉ after.lead ∧ Unopened after.lead := by
    rcases hframe.lead with hl | hl
    · rw [hl]
      exact ⟨h.single, h.unopened⟩
    · rw [hl]
      exact ⟨fun hmem => absurd (h.indent _ hmem) (by decide),
        fun hmem => absurd (h.indent _ hmem) (by decide),
        fun hmem => absurd (h.indent _ hmem) (by decide)⟩
  exact ⟨hframe.references.trans h.references_eq, hframe.inHeading h.inHeading, hlead.1, hlead.2,
    hindent⟩

theorem enter (h : Ready references s) {shape : ListShape} (hshape : IsMarkdownShape shape)
    (index : Nat) :
    Ready references (s.enter (itemMarker shape index) (itemIndent shape index)) where
  references_eq := h.references_eq
  inHeading := h.inHeading
  single hmem := (mem_append.1 hmem).elim h.single (newline_not_mem_itemMarker hshape.single index)
  unopened := h.unopened.append (unopened_itemMarker hshape index)
  indent c hc := (mem_append.1 hc).elim (h.indent c) eq_space_of_mem_itemIndent

end Ready

/-- The lines of the items from a given index on, item by item. -/
inductive Grouped (shape : ListShape) (lead indent : Text) : Nat → List Node → List (List Text) → Prop
  | nil {index : Nat} : Grouped shape lead indent index [] []
  | cons {index : Nat} {i : Node} {items : List Node} {ls : List Text} {groups : List (List Text)} :
      Spread (lead ++ itemMarker shape index) (indent ++ itemIndent shape index) (heads i) ls →
      Grouped shape lead indent (index + 1) items groups →
      Grouped shape lead indent index (i :: items) (ls :: groups)

theorem Grouped.spread (hshape : IsMarkdownShape shape) {lead indent : Text}
    (h : Grouped shape lead indent index items groups) :
    Spread lead indent (headsAll items) groups.flatten := by
  induction h with
  | nil => exact .nil
  | @cons index i items ls groups hls _ ih =>
    exact (hls.shorten (startsVisible_itemMarker hshape index)).append ih

section Lines

variable {w : Writer} {references : Option (List Reference)} {s : WriterState}

/-- The lines of the node are spread over the starts that it finds, and a block leaves the start of
the later lines for what comes next. -/
def SpreadsAt (w : Writer) (references : Option (List Reference)) (level : Level) (n : Node) : Prop :=
  ∀ s, Ready references s → Spread s.lead s.indent (heads n) (endedLines (write w n s).1) ∧
    (level = .block → (write w n s).2.lead = s.indent)

theorem exists_grouped {items : List Node} (hitems : ∀ i ∈ items, Outline w references .item i)
    (h : ∀ i ∈ items, SpreadsAt w references .item i) {shape : ListShape}
    (hshape : IsMarkdownShape shape) (index : Nat) (hs : Ready references s) :
    ∃ groups, Grouped shape s.lead s.indent index items groups ∧
      endedLines (writeItems w shape index items s).1 = groups.flatten := by
  induction items generalizing index s with
  | nil => exact ⟨[], .nil, by simp [writeItems_nil]⟩
  | cons i items ih =>
    have hinside := hs.enter hshape index
    obtain ⟨hspread, -⟩ := h i (by simp) _ hinside
    obtain ⟨groups, hgrouped, hlines⟩ := ih (fun j hj => hitems j (by simp [hj]))
      (fun j hj => h j (by simp [hj])) (index + 1) (hs.frame (frame_write w i _).leave)
    refine ⟨_ :: groups, .cons hspread hgrouped, ?_⟩
    rw [writeItems_cons, ((hitems i (by simp)).isBlock.ended w _).endedLines_append, hlines,
      flatten_cons]

/-- In an item, the first block takes the start, and the others start like later lines. -/
theorem spread_writeAll {cs : List Node} (hcs : ∀ c ∈ cs, Outline w references .block c)
    (h : ∀ c ∈ cs, SpreadsAt w references .block c) (hs : Ready references s) :
    Spread s.lead s.indent (headsFirst cs) (endedLines (writeAll w cs s).1) := by
  induction cs generalizing s with
  | nil => simpa using .nil
  | cons c cs ih =>
    have hframe := frame_write w c s
    obtain ⟨hspread, hnext⟩ := h c (by simp) s hs
    -- both starts are the same after the first block, so further heads count as later lines
    have hrest := ih (fun d hd => hcs d (by simp [hd])) (fun d hd => h d (by simp [hd]))
      (hs.frame hframe)
    rw [hnext rfl, hframe.indent] at hrest
    rw [writeAll_cons, ((hcs c (by simp)).isBlock.ended w s).endedLines_append]
    exact hspread.append (hrest.settled s.lead)

theorem spread_beginItem (hs : Ready references s) (lead indent : Text) :
    Spread lead indent 0 (endedLines (beginItem s).1) := by
  unfold beginItem
  split_ifs
  · simpa using .nil
  · simpa using .nil
  · have hstrip : strip s.indent = [] := by
      have hblank : ∀ c ∈ s.indent, isBlank c := by
        intro c hc
        rw [hs.indent c hc]
        decide
      rw [strip, stripLeft, dropWhile_eq_nil_iff.2 hblank]
      rfl
    rw [hstrip]
    exact .blank rfl .nil

/-- **Outlines.** The lines of lists, items and paragraphs are spread over the starts they find. -/
theorem Outline.spreadsAt (hwrap : IsMarkdownWrapper w.wrap) {level : Level} {n : Node}
    (hn : Outline w references level n) : SpreadsAt w references level n := by
  induction hn with
  | @paragraph h checked cs hk hcs hplain =>
    intro s hs
    have hindent : Unopened s.indent :=
      ⟨fun hmem => absurd (hs.indent _ hmem) (by decide),
        fun hmem => absurd (hs.indent _ hmem) (by decide)⟩
    obtain ⟨ls, hls, hwrapped⟩ :=
      hplain.exists_lines hwrap ⟨s.lead, s.indent⟩ hs.unopened hindent
    have hsingle : '\n' ∉ s.indent := fun hmem => absurd (hs.indent _ hmem) (by decide)
    rw [write_paragraph hk hcs w hs.inHeading, hs.references_eq, hwrapped,
      endedLines_unlines (hls.apply_ne_nil _) (hls.single_apply hs.single hsingle)]
    simp only [heads, hk]
    exact ⟨spread_apply hls, fun _ => trivial⟩
  | @list h shape items hk hshape hitems ih =>
    intro s hs
    obtain ⟨groups, hgrouped, hlines⟩ := exists_grouped hitems ih hshape 0
      (s := insideList w shape items s) ⟨hs.1, hs.2, hs.3, hs.4, hs.5⟩
    -- every item starts from what the list found, so the heads of the items are those of the list
    have hframe := frame_writeItems w shape 0 items (insideList w shape items s)
    rw [write_list w items s hk]
    simp only [heads, hk, hlines]
    exact ⟨hgrouped.spread hshape, fun _ => hframe.indent⟩
  | @item h cs hk hcs ih =>
    intro s hs
    obtain ⟨done, hstate⟩ := exists_beginItem s
    have hspread := spread_writeAll hcs ih (hs.frame (frame_beginItem s))
    rw [write_item w cs s hk, (ended_beginItem s).endedLines_append]
    simp only [heads, hk]
    rw [hstate] at hspread ⊢
    exact ⟨by simpa using (spread_beginItem hs s.lead s.indent).append hspread, nofun⟩

end Lines

/-! ## Lines at the margin -/

/-- The line starts with a visible character. -/
def startsAtMargin (l : Text) : Bool := l.head?.any fun c => !isBlank c

def marginLines (ls : List Text) : List Text := ls.filter startsAtMargin

/-- The lines of one item: `k` of them start at the margin, and with its marker; the others are blank
or start with its indent. -/
structure ItemLines (shape : ListShape) (index k : Nat) (ls : List Text) : Prop where
  count : (marginLines ls).length = k
  marked : ∀ l ∈ marginLines ls, itemMarker shape index <+: l
  indented : ∀ l ∈ ls, startsAtMargin l = false →
    isBlankText l = true ∨ itemIndent shape index <+: l

theorem startsAtMargin_of_blank (h : isBlankText l) : startsAtMargin l = false := by
  cases l with
  | nil => rfl
  | cons c l => simp_all [startsAtMargin, isBlankText]

theorem StartsVisible.startsAtMargin_eq (h : StartsVisible l) : startsAtMargin l := by
  obtain ⟨c, u, rfl, hc⟩ := h
  simp [startsAtMargin, hc]

theorem Spread.itemLines (hshape : IsMarkdownShape shape) {ls : List Text}
    (h : Spread (itemMarker shape index) (itemIndent shape index) k ls) :
    ItemLines shape index k ls := by
  have hmarker := startsVisible_itemMarker hshape index
  obtain ⟨u, hindent⟩ := exists_itemIndent shape index
  induction h with
  | nil => exact ⟨rfl, by simp [marginLines], by simp⟩
  | @blank k l ls hl _ ih =>
    have hmargin : marginLines (l :: ls) = marginLines ls := by
      simp [marginLines, startsAtMargin_of_blank hl]
    refine ⟨hmargin ▸ ih.count, hmargin ▸ ih.marked, fun m hm hstart => ?_⟩
    rcases mem_cons.1 hm with rfl | hm
    · exact .inl hl
    · exact ih.indented m hm hstart
  | @first k x ls hx _ ih =>
    have hstarts := (hmarker.append x).startsAtMargin_eq
    have hmargin : marginLines ((itemMarker shape index ++ x) :: ls)
        = (itemMarker shape index ++ x) :: marginLines ls := by
      simp [marginLines, hstarts]
    refine ⟨by simp [hmargin, ih.count], fun m hm => ?_, fun m hm hstart => ?_⟩
    · rw [hmargin] at hm
      rcases mem_cons.1 hm with rfl | hm
      · exact prefix_append _ _
      · exact ih.marked m hm
    · rcases mem_cons.1 hm with rfl | hm
      · rw [hstarts] at hstart
        exact absurd hstart (by simp)
      · exact ih.indented m hm hstart
  | @later k x ls hx _ ih =>
    -- an indent starts with a space, so the line does not count
    have hstarts : startsAtMargin (itemIndent shape index ++ x) = false := by
      rw [hindent]
      rfl
    have hmargin : marginLines ((itemIndent shape index ++ x) :: ls) = marginLines ls := by
      simp [marginLines, hstarts]
    refine ⟨hmargin ▸ ih.count, hmargin ▸ ih.marked, fun m hm hstart => ?_⟩
    rcases mem_cons.1 hm with rfl | hm
    · exact .inr (prefix_append _ _)
    · exact ih.indented m hm hstart

/-- The index of the item that each line at the margin belongs to, from a given index on. -/
def owners (index : Nat) : List Node → List Nat
  | [] => []
  | i :: items => replicate (heads i) index ++ owners (index + 1) items

theorem length_owners (index : Nat) (items : List Node) :
    (owners index items).length = headsAll items := by
  induction items generalizing index with
  | nil => rw [headsAll]; rfl
  | cons i items ih => simp [owners, headsAll, ih]

theorem le_of_mem_owners (h : k ∈ owners index items) : index ≤ k := by
  induction items generalizing index with
  | nil => simp [owners] at h
  | cons i items ih =>
    rcases mem_append.1 h with h | h
    · rw [eq_of_mem_replicate h]
    · have := ih h
      omega

theorem owners_eq_range'_iff (index : Nat) (items : List Node) :
    owners index items = range' index items.length ↔ ∀ i ∈ items, heads i = 1 := by
  induction items generalizing index with
  | nil => simp [owners]
  | cons i items ih =>
    rw [owners, forall_mem_cons, ← ih (index + 1)]
    constructor
    · intro heq
      have hone : heads i = 1 := by
        match hheads : heads i with
        | 0 =>
          -- an item with no line leaves the first line to a later one
          rw [hheads, replicate_zero, nil_append] at heq
          have hmem : index ∈ owners (index + 1) items := by simp [heq]
          have := le_of_mem_owners hmem
          omega
        | 1 => rfl
        | k + 2 =>
          -- an item with two lines or more takes the line of the next
          rw [hheads] at heq
          have htail := (cons.inj heq).2
          have hhead : index ∈ range' (index + 1) items.length := by simp [← htail]
          have := left_le_of_mem_range' hhead
          omega
      rw [hone] at heq
      exact ⟨hone, (cons.inj heq).2⟩
    · rintro ⟨hone, heq⟩
      rw [hone, heq]
      rfl

/-! ## One line for each item -/

/-- The line at the margin that is the `k`-th of them starts with the marker of the `k`-th item. -/
def Labelled (shape : ListShape) (n : Nat) (ls : List Text) : Prop :=
  Forall₂ (fun k l => itemMarker shape k <+: l) (range n) (marginLines ls)

theorem itemMarker_unique (hordered : shape.ordered) {j : Nat}
    (hj : itemMarker shape j <+: l) (hk : itemMarker shape k <+: l) : j = k := by
  -- the number is what stands before the first point
  have hnumber : ∀ {index : Nat}, itemMarker shape index <+: l →
      l.takeWhile (· != '.') = (toString ((index : Int) + shape.start)).toList := by
    rintro index ⟨u, rfl⟩
    rw [itemMarker, if_pos hordered, append_assoc, takeWhile_append_of_pos]
    · simp
    · intro c hc
      rcases mem_toString_int hc with hdigit | rfl
      · simp only [bne_iff_ne, ne_eq]
        rintro rfl
        exact absurd hdigit (by decide)
      · decide
  have heq := toString_int_injective ((hnumber hj).symm.trans (hnumber hk))
  omega

/-- The lines at the margin, item after item, start with the markers of their owners. -/
theorem forall₂_owners
    (h : Forall₂ (fun i ls => ItemLines shape i.2 (heads i.1) ls) (items.zipIdx index) groups) :
    Forall₂ (fun k l => itemMarker shape k <+: l) (owners index items)
      (marginLines groups.flatten) := by
  induction items generalizing index groups with
  | nil =>
    obtain rfl : groups = [] := by simpa using h
    exact .nil
  | cons i items ih =>
    cases h with
    | @cons _ ls _ groups hls hrest =>
      rw [flatten_cons, marginLines, filter_append]
      refine rel_append ?_ (ih hrest)
      refine forall₂_iff_zip.2 ⟨length_replicate.trans hls.count.symm, fun hmem => ?_⟩
      obtain ⟨hk, hl⟩ := of_mem_zip hmem
      rw [eq_of_mem_replicate hk]
      exact hls.marked _ hl

theorem labelled_iff
    (h : Forall₂ (fun i ls => ItemLines shape i.2 (heads i.1) ls) items.zipIdx groups) :
    Labelled shape items.length groups.flatten ↔
      (∀ i ∈ items, heads i = 1) ∨ (shape.ordered = false ∧ headsAll items = items.length) := by
  have howners := forall₂_owners h
  have hlength : (marginLines groups.flatten).length = headsAll items := by
    rw [← howners.length_eq, length_owners]
  rw [Labelled, range_eq_range', ← owners_eq_range'_iff 0]
  constructor
  · intro hlabelled
    cases hordered : shape.ordered with
    | true =>
      -- the number on a line tells its owner, so the owners are the indices in order
      have hunique : Relator.LeftUnique fun k l => itemMarker shape k <+: l :=
        fun j l k hj hk => itemMarker_unique hordered hj hk
      exact .inl (left_unique_forall₂' hunique howners hlabelled)
    | false =>
      have hcount := hlabelled.length_eq
      rw [hlength, length_range'] at hcount
      exact .inr ⟨rfl, hcount.symm⟩
  · rintro (heq | ⟨hordered, hcount⟩)
    · rwa [← heq]
    · -- a bullet is the same for all items, so that only the count matters
      have hmarker : ∀ j k, itemMarker shape j = itemMarker shape k := by
        simp [itemMarker, hordered]
      refine forall₂_iff_get.2 ⟨by simp [hlength, hcount], fun i h₁ h₂ => ?_⟩
      have hi := (forall₂_iff_get.1 howners).2 i (by rwa [howners.length_eq]) h₂
      rwa [hmarker _ ((range' 0 items.length).get ⟨i, h₁⟩)] at hi

theorem Grouped.forall₂_itemLines (hshape : IsMarkdownShape shape)
    (h : Grouped shape [] [] index items groups) :
    Forall₂ (fun i ls => ItemLines shape i.2 (heads i.1) ls) (items.zipIdx index) groups := by
  induction h with
  | nil => exact .nil
  | cons hls _ ih =>
    exact .cons (Spread.itemLines hshape hls) ih

/-- **The outline of a list.** Lists, items and paragraphs of plain words, written as a document of
their own by a wrapper for Markdown. The lines of the list are those of its items, one after the
other; all of an item's lines that do not start at the margin are blank or start with its indent, and
those that do start with its marker. There is one line at the margin for each item, with the marker
of that item, if and only if every item has one head; for bullets, which are all alike, it is enough
that there are as many heads as items. -/
theorem list_outline_iff (w : Writer) (hwrap : IsMarkdownWrapper w.wrap)
    (references : List Reference) (shape : ListShape) (hshape : IsMarkdownShape shape)
    {items : List Node} (hitems : ∀ i ∈ items, Outline w (some references) .item i)
    (span span' : Option (Nat × Nat)) :
    ∃ groups : List (List Text),
      endedLines (render w (.branch ⟨.document references, span⟩
        [.branch ⟨.list shape, span'⟩ items])) = groups.flatten ∧
      Forall₂ (fun i ls => ItemLines shape i.2 (heads i.1) ls) items.zipIdx groups ∧
      (Labelled shape items.length groups.flatten ↔
        (∀ i ∈ items, heads i = 1) ∨
          (shape.ordered = false ∧ headsAll items = items.length)) := by
  obtain ⟨s, hstart⟩ : ∃ s : WriterState, s = { references := some references } := ⟨_, rfl⟩
  have hready : Ready (some references) (insideList w shape items s) := by
    rw [hstart]
    exact ⟨rfl, rfl, by simp [insideList], by simp [insideList, Unopened], by simp [insideList]⟩
  obtain ⟨groups, hgrouped, hlines⟩ := exists_grouped hitems
    (fun i hi => (hitems i hi).spreadsAt hwrap) hshape 0 hready
  have hrender : render w (.branch ⟨.document references, span⟩ [.branch ⟨.list shape, span'⟩ items])
      = (writeItems w shape 0 items (insideList w shape items s)).1 := by
    rw [render_document w rfl, writeDocument, ← hstart, writeAll_cons, write_list w items s rfl]
    simp
  rw [hstart] at hgrouped
  have hforall := Grouped.forall₂_itemLines hshape hgrouped
  exact ⟨groups, by rw [hrender, hlines], hforall, labelled_iff hforall⟩

/-- Two numbered items, from nine to ten, with a bullet inside the first. -/
theorem numbered_list_labelled :
    Labelled ⟨true, 9, [], false⟩ 2 (endedLines (render { wrap := toWidth .codePoints true 80 }
      (.branch ⟨.document [], none⟩ [.branch ⟨.list ⟨true, 9, [], false⟩, none⟩
        [.branch ⟨.listItem, none⟩
          [.branch ⟨.paragraph none, none⟩ [.text ⟨.rawText, none⟩ ['a']],
            .branch ⟨.list ⟨false, 1, ['-'], false⟩, none⟩ [.branch ⟨.listItem, none⟩
              [.branch ⟨.paragraph none, none⟩ [.text ⟨.rawText, none⟩ ['b']]]]],
          .branch ⟨.listItem, none⟩
            [.branch ⟨.paragraph none, none⟩ [.text ⟨.rawText, none⟩ ['c']]]]]))) := by
  have hparagraph : ∀ c ∈ ['a', 'b', 'c'], Outline { wrap := toWidth .codePoints true 80 } (some [])
      .block (.branch ⟨.paragraph none, none⟩ [.text ⟨.rawText, none⟩ [c]]) := by
    intro c hc
    refine .paragraph rfl (by simpa using .text rfl) ?_
    simp only [mem_cons, not_mem_nil, or_false] at hc
    rcases hc with rfl | rfl | rfl <;> decide +kernel
  have hbullets : Outline { wrap := toWidth .codePoints true 80 } (some []) .block
      (.branch ⟨.list ⟨false, 1, ['-'], false⟩, none⟩ [.branch ⟨.listItem, none⟩
        [.branch ⟨.paragraph none, none⟩ [.text ⟨.rawText, none⟩ ['b']]]]) :=
    .list rfl (by decide) (by simpa using .item rfl (by simpa using hparagraph 'b' (by simp)))
  have hitems : ∀ i ∈ [Node.branch ⟨.listItem, none⟩
        [.branch ⟨.paragraph none, none⟩ [.text ⟨.rawText, none⟩ ['a']],
          .branch ⟨.list ⟨false, 1, ['-'], false⟩, none⟩ [.branch ⟨.listItem, none⟩
            [.branch ⟨.paragraph none, none⟩ [.text ⟨.rawText, none⟩ ['b']]]]],
        .branch ⟨.listItem, none⟩
          [.branch ⟨.paragraph none, none⟩ [.text ⟨.rawText, none⟩ ['c']]]],
      Outline { wrap := toWidth .codePoints true 80 } (some []) .item i := by
    simpa using ⟨.item rfl (by simpa using ⟨hparagraph 'a' (by simp), hbullets⟩),
      .item rfl (by simpa using hparagraph 'c' (by simp))⟩
  obtain ⟨groups, hlines, -, hiff⟩ := list_outline_iff { wrap := toWidth .codePoints true 80 }
    (.inl ⟨_, _, rfl⟩) [] ⟨true, 9, [], false⟩ (.inl rfl) hitems none none
  rw [hlines]
  exact hiff.2 (.inl (by decide))

/-- A list that is the first block of an item has the marker of that item in front of each of its own
items. -/
theorem marker_repeated_in_nested_list :
    render { wrap := toWidth .codePoints true 80 }
        (.branch ⟨.document [], none⟩ [.branch ⟨.list ⟨false, 1, ['-'], true⟩, none⟩
          [.branch ⟨.listItem, none⟩ [.branch ⟨.list ⟨false, 1, ['-'], true⟩, none⟩
            [.branch ⟨.listItem, none⟩
              [.branch ⟨.paragraph none, none⟩ [.text ⟨.rawText, none⟩ ['a']]],
              .branch ⟨.listItem, none⟩
                [.branch ⟨.paragraph none, none⟩ [.text ⟨.rawText, none⟩ ['b']]]]]]])
        = "- - a\n- - b\n".toList ∧
      ¬ Labelled ⟨false, 1, ['-'], true⟩ 1 (endedLines "- - a\n- - b\n".toList) := by
  refine ⟨by decide +kernel, fun h => ?_⟩
  exact absurd h.length_eq (by decide)

end Reflow.Document
