import Mathlib.Data.List.Count
import Reflow.Proofs.BlockStamps

/-!
The block in the page of a project.

A text is free of markers, or has a marker that is never ended, or starts with a block, at which it is
cut (`outsideInduction`). Putting in a fresh block leaves one block with what stood around the old ones
(`exists_withBlock`), and doing so again changes nothing. In a file this is true of what is read. The
carriage returns of what is around the blocks are lost when the page is written, and those inside a
block stay when it is not.
-/

open List

namespace Reflow.Skill

open Reflow.Text
open Files (Tree Place)

/-! ## Blocks and what is around them -/

theorem isMark_beginMark : IsMark beginMark where
  return_not_mem := by decide
  newline_not_mem := by decide
  head_once := ⟨'<', beginMark.tail, by decide, by decide⟩

theorem isMark_endMark : IsMark endMark where
  return_not_mem := by decide
  newline_not_mem := by decide
  head_once := ⟨'<', endMark.tail, by decide, by decide⟩

theorem outside_of_free {t : Text} (h : ¬ beginMark <:+: t) : outside t = [t] := by
  have hcut := (cut?_eq_none_iff isMark_beginMark.ne_nil).2 h
  rw [outside]
  split
  · rfl
  · next heq => cases hcut.symm.trans heq

theorem outside_of_open {a r : Text} (ha : ¬ beginMark <:+: a) (hr : ¬ endMark <:+: r) :
    outside (a ++ (beginMark ++ r)) = [a ++ (beginMark ++ r)] := by
  have hcut : cut? beginMark (a ++ (beginMark ++ r)) = some (a, r) :=
    isMark_beginMark.cut?_eq_some_iff.2 ⟨rfl, ha⟩
  have hend := (cut?_eq_none_iff isMark_endMark.ne_nil).2 hr
  rw [outside]
  split
  · rfl
  · next heq =>
    cases hcut.symm.trans heq
    split
    · rfl
    · next heq => cases hend.symm.trans heq

theorem outside_of_block {a i b : Text} (ha : ¬ beginMark <:+: a) (hi : ¬ endMark <:+: i) :
    outside (a ++ (beginMark ++ (i ++ (endMark ++ b)))) = a :: outside b := by
  have hcut : cut? beginMark (a ++ (beginMark ++ (i ++ (endMark ++ b))))
      = some (a, i ++ (endMark ++ b)) := isMark_beginMark.cut?_eq_some_iff.2 ⟨rfl, ha⟩
  have hend : cut? endMark (i ++ (endMark ++ b)) = some (i, b) :=
    isMark_endMark.cut?_eq_some_iff.2 ⟨rfl, hi⟩
  rw [outside]
  split
  · next heq => cases hcut.symm.trans heq
  · next heq =>
    cases hcut.symm.trans heq
    split
    · next heq => cases hend.symm.trans heq
    · next heq =>
      cases hend.symm.trans heq
      rfl

/-- Induction over the blocks of a text. -/
@[elab_as_elim]
theorem outsideInduction {motive : Text → Prop} (t : Text)
    (free : ∀ t, ¬ beginMark <:+: t → motive t)
    (opened : ∀ a r, ¬ beginMark <:+: a → ¬ endMark <:+: r → motive (a ++ (beginMark ++ r)))
    (block : ∀ a i b, ¬ beginMark <:+: a → ¬ endMark <:+: i → motive b →
      motive (a ++ (beginMark ++ (i ++ (endMark ++ b))))) : motive t := by
  induction hn : t.length using Nat.strongRecOn generalizing t with
  | ind n ih =>
    subst hn
    rcases hbegin : cut? beginMark t with - | ⟨a, r⟩
    · exact free t ((cut?_eq_none_iff isMark_beginMark.ne_nil).1 hbegin)
    · obtain ⟨rfl, ha⟩ := isMark_beginMark.cut?_eq_some_iff.1 hbegin
      rcases hend : cut? endMark r with - | ⟨i, b⟩
      · exact opened a r ha ((cut?_eq_none_iff isMark_endMark.ne_nil).1 hend)
      · obtain ⟨rfl, hi⟩ := isMark_endMark.cut?_eq_some_iff.1 hend
        have hpos := length_pos_of_ne_nil isMark_beginMark.ne_nil
        exact block a i b ha hi (ih b.length (by simp only [length_append]; omega) b rfl)

theorem outside_ne_nil (t : Text) : outside t ≠ [] := by
  cases t using outsideInduction with
  | free t h => simp [outside_of_free h]
  | opened a r ha hr => simp [outside_of_open ha hr]
  | block a i b ha hi => simp [outside_of_block ha hi]

theorem eq_of_outside_eq_singleton {t x : Text} (h : outside t = [x]) : x = t := by
  cases t using outsideInduction with
  | free t hfree => simpa [outside_of_free hfree] using h.symm
  | opened a r ha hr => simpa [outside_of_open ha hr] using h.symm
  | block a i b ha hi =>
    rw [outside_of_block ha hi] at h
    exact absurd (List.cons.inj h).2 (outside_ne_nil b)

theorem exists_of_outside_eq_pair {t a b : Text} (h : outside t = [a, b]) :
    ∃ i, t = a ++ (beginMark ++ (i ++ (endMark ++ b))) ∧ ¬ endMark <:+: i := by
  cases t using outsideInduction with
  | free t hfree => simp [outside_of_free hfree] at h
  | opened a r ha hr => simp [outside_of_open ha hr] at h
  | block a' i b' ha hi =>
    rw [outside_of_block ha hi] at h
    obtain ⟨rfl, hb⟩ := List.cons.inj h
    rw [eq_of_outside_eq_singleton hb]
    exact ⟨i, rfl, hi⟩

/-- **Blocks that are read** are where the stored blocks are. -/
theorem outside_universalNewlines (t : Text) :
    outside (universalNewlines t) = (outside t).map universalNewlines := by
  have hbegin : ∀ {t}, ¬ beginMark <:+: t → ¬ beginMark <:+: universalNewlines t :=
    fun h => mt (isMark_beginMark.infix_iff _).1 h
  have hend : ∀ {t}, ¬ endMark <:+: t → ¬ endMark <:+: universalNewlines t :=
    fun h => mt (isMark_endMark.infix_iff _).1 h
  induction t using outsideInduction with
  | free t h => rw [outside_of_free h, outside_of_free (hbegin h), map_singleton]
  | opened a r ha hr =>
    rw [outside_of_open ha hr, isMark_beginMark.universalNewlines_append,
      outside_of_open (hbegin ha) (hend hr), map_singleton,
      isMark_beginMark.universalNewlines_append]
  | block a i b ha hi ih =>
    rw [outside_of_block ha hi, isMark_beginMark.universalNewlines_append,
      isMark_endMark.universalNewlines_append, outside_of_block (hbegin ha) (hend hi), ih,
      map_cons]

theorem free_universalNewlines {ts : List Text} (h : ¬ beginMark <:+: ts.flatten) :
    ¬ beginMark <:+: (ts.map universalNewlines).flatten :=
  mt (infix_flatten_universalNewlines_iff isMark_beginMark.return_not_mem
    isMark_beginMark.newline_not_mem [] ts).1 h

/-! ## A fresh block -/

theorem infix_or_infix_of_not_mem {m a b : Text} {c : Char} (hc : c ∉ m) (h : m <:+: a ++ c :: b) :
    m <:+: a ∨ m <:+: b := by
  induction a with
  | nil =>
    rcases infix_cons_iff.1 h with hpre | hinfix
    · cases m with
      | nil => exact .inl nil_infix
      | cons d m => exact absurd (by simp [(cons_prefix_cons.1 hpre).1]) hc
    · exact .inr hinfix
  | cons d a ih =>
    rcases infix_cons_iff.1 h with hpre | hinfix
    · rcases prefix_or_prefix_of_prefix hpre (prefix_append (d :: a) (c :: b)) with
        hle | ⟨r, rfl⟩
      · exact .inl hle.isInfix
      · have htail := (prefix_append_right_inj (d :: a)).1 hpre
        cases r with
        | nil => exact .inl (by simp)
        | cons e r => exact absurd (by simp [(cons_prefix_cons.1 htail).1]) hc
    · exact (ih hinfix).imp_left fun hin => infix_cons hin

theorem exists_block_eq : ∃ h s : Text, (∀ v, block v = beginMark ++
      ((' ' :: (stampMark ++ ('0' :: '3' :: h)) ++ '=' :: (v ++ ' ' :: 'f' :: s)) ++ endMark)) ∧
    (¬ endMark <:+: ' ' :: (stampMark ++ ('0' :: '3' :: h)) ∧ ¬ endMark <:+: s) ∧
    h.head? = some ' ' ∧ '\r' ∉ h ∧ '\r' ∉ s := by
  -- `x` is the block up to the version, and what is wanted of it is between its stamp and its last
  -- character; it is computed, so that the wording is not repeated here
  obtain ⟨x, hblock, hx, hhead, hend, hreturn⟩ : ∃ x,
      (∀ v, block v = x ++ (v ++ (" flowmark`.\n\n".toList ++ endMark))) ∧
      x = beginMark ++ (' ' :: (stampMark ++
        ('0' :: '3' :: (x.drop (beginMark.length + stampMark.length + 3)).dropLast)) ++ ['=']) ∧
      (x.drop (beginMark.length + stampMark.length + 3)).dropLast.head? = some ' ' ∧
      cut? endMark x = none ∧ '\r' ∉ x :=
    ⟨_, fun v => by rw [block, append_assoc, append_assoc], by decide +kernel⟩
  rw [cut?_eq_none_iff isMark_endMark.ne_nil] at hend
  generalize (x.drop (beginMark.length + stampMark.length + 3)).dropLast = h at hx hhead
  refine ⟨h, "lowmark`.\n\n".toList, fun v => ?_, ⟨fun hin => hend ?_, ?_⟩, hhead,
    fun hin => hreturn ?_, ?_⟩
  · rw [hblock, hx]
    simp
  · rw [hx]
    exact hin.trans ⟨beginMark, ['='], by simp⟩
  · rw [← cut?_eq_none_iff isMark_endMark.ne_nil]
    decide
  · rw [hx]
    simp [hin]
  · decide

/-- A block has the end of a block only at its end. -/
theorem exists_inner (version : Text) : ∃ i, block version = beginMark ++ (i ++ endMark) ∧
    (endMark <:+: i ↔ endMark <:+: version) ∧ ('\r' ∈ block version ↔ '\r' ∈ version) := by
  obtain ⟨h, s, hblock, ⟨hh, hs⟩, -, hreturn, hreturn'⟩ := exists_block_eq
  refine ⟨_, hblock version, ⟨fun hin => ?_, fun hin => ?_⟩, ?_⟩
  · -- the end of a block has no equals sign and no `f` in it and does not end in a space, so it lies
    -- in the version
    rcases infix_or_infix_of_not_mem (by decide) hin with hin | hin
    · exact absurd hin hh
    · rw [append_cons] at hin
      rcases infix_or_infix_of_not_mem (by decide) hin with hin | hin
      · rcases infix_concat_iff.1 hin with hsuffix | hin
        · obtain ⟨x, hx⟩ := hsuffix
          have hlast := congrArg List.getLast? hx
          rw [List.getLast?_append_of_ne_nil _ isMark_endMark.ne_nil, List.getLast?_concat] at hlast
          exact absurd hlast (by decide)
        · exact hin
      · exact absurd hin hs
  · refine hin.trans ⟨' ' :: (stampMark ++ ('0' :: '3' :: h)) ++ ['='], ' ' :: 'f' :: s, ?_⟩
    simp
  · rw [hblock]
    have hmarks : '\r' ∉ beginMark ∧ '\r' ∉ endMark ∧ '\r' ∉ stampMark := by decide
    simp [hreturn, hreturn', hmarks]

theorem outside_block {version front back : Text} (hversion : ¬ endMark <:+: version)
    (h : ¬ beginMark <:+: front ++ back) :
    outside (front ++ block version ++ back) = [front, back] := by
  obtain ⟨i, hblock, hend, -⟩ := exists_inner version
  have hfront : ¬ beginMark <:+: front := fun hin => h (hin.trans (prefix_append _ _).isInfix)
  have hback : ¬ beginMark <:+: back := fun hin => h (hin.trans (suffix_append _ _).isInfix)
  rw [hblock, ← outside_of_free hback, ← outside_of_block hfront (mt hend.1 hversion)]
  simp

/-- **Putting in a fresh block.** What is left around it has no marker, and is what was around the old
blocks. Where there was none, line feeds follow the old text. -/
theorem exists_withBlock {found : Option Text} (h : ¬ beginMark <:+: (outside (found.getD [])).flatten)
    (new : Text) : ∃ front back, withBlock found new = front ++ new ++ back ∧
      ¬ beginMark <:+: front ++ back ∧
      (front ++ back = (outside (found.getD [])).flatten ∨
        outside (found.getD []) = [found.getD []] ∧
          ∃ n, front ++ back = found.getD [] ++ repeated n '\n') := by
  have hfeeds : ∀ n, ¬ beginMark <:+: repeated n '\n' := by
    intro n hin
    obtain ⟨c, cs, hmark, -⟩ := isMark_beginMark.head_once
    have hc : c ∈ repeated n '\n' := hin.subset (by simp [hmark])
    exact isMark_beginMark.newline_not_mem (by simp [hmark, (mem_replicate.1 hc).2])
  cases found with
  | none => exact ⟨[], ['\n'], by simp [withBlock], hfeeds 1, .inr ⟨outside_of_free (hfeeds 0), 1, rfl⟩⟩
  | some t =>
    rw [Option.getD_some] at h ⊢
    rcases houtside : outside t with - | ⟨before, - | ⟨after, rest⟩⟩
    · exact absurd houtside (outside_ne_nil t)
    · obtain rfl := eq_of_outside_eq_singleton houtside
      have hfree : ¬ beginMark <:+: before := by simpa [houtside] using h
      have hnone : includes before beginMark = false := by
        rw [← Bool.not_eq_true, includes_iff isMark_beginMark.ne_nil]
        exact hfree
      have hafter : ∀ n, ¬ beginMark <:+: before ++ repeated (n + 1) '\n' := fun n hin =>
        (infix_or_infix_of_not_mem isMark_beginMark.newline_not_mem hin).elim hfree (hfeeds n)
      rw [withBlock, hnone, if_neg Bool.false_ne_true]
      by_cases hempty : before = []
      · subst hempty
        exact ⟨[], ['\n'], rfl, hfeeds 1, .inr ⟨rfl, 1, rfl⟩⟩
      · rw [if_neg (by simpa using hempty)]
        split
        · exact ⟨before ++ ['\n'], ['\n'], by simp, by simpa [repeated] using hafter 1,
            .inr ⟨rfl, 2, by simp [repeated]⟩⟩
        · exact ⟨before ++ ['\n', '\n'], ['\n'], by simp, by simpa [repeated] using hafter 2,
            .inr ⟨rfl, 3, by simp [repeated]⟩⟩
    · have hmark : includes t beginMark = true := by
        rw [includes_iff isMark_beginMark.ne_nil]
        by_contra hfree
        rw [outside_of_free hfree] at houtside
        cases houtside
      refine ⟨before, (after :: rest).flatten, ?_, ?_, .inl (by simp)⟩
      · rw [withBlock, hmark, if_pos rfl, replaceBlocks, houtside]
      · rwa [houtside, flatten_cons] at h

theorem withBlock_self {version front back : Text} (hversion : ¬ endMark <:+: version)
    (h : ¬ beginMark <:+: front ++ back) :
    withBlock (some (front ++ block version ++ back)) (block version)
      = front ++ block version ++ back := by
  have hmark : includes (front ++ block version ++ back) beginMark = true := by
    obtain ⟨i, hblock, -⟩ := exists_inner version
    rw [includes_iff isMark_beginMark.ne_nil, hblock]
    exact ⟨front, i ++ endMark ++ back, by simp⟩
  rw [withBlock, hmark, if_pos rfl, replaceBlocks, outside_block hversion h]
  simp

theorem blockStampHere?_stamped {r : Text} (hr : r.head? = some ' ') :
    blockStampHere? (beginMark ++ (' ' :: (stampMark ++ ('0' :: '3' :: r)))) = some ['0', '3'] := by
  obtain ⟨r, rfl⟩ := List.head?_eq_some_iff.1 hr
  have hblanks : (' ' :: (stampMark ++ ('0' :: '3' :: ' ' :: r))).takeWhile isBlank = [' '] := rfl
  have hdigits : ('0' :: '3' :: ' ' :: r).takeWhile isDecimal = ['0', '3'] := rfl
  have hpre : ∀ a b : Text, a.isPrefixOf (a ++ b) = true :=
    fun a b => isPrefixOf_iff_prefix.2 (prefix_append a b)
  rw [blockStampHere?, if_pos (hpre _ _), drop_left]
  dsimp only
  rw [hblanks, if_neg (by simp), length_singleton, drop_one, tail_cons, stampHere?,
    if_pos (hpre _ _), drop_left]
  dsimp only
  rw [hdigits]
  rfl

theorem blockStamp?_block {front : Text} (hfront : ¬ beginMark <:+: front) (version back : Text) :
    blockStamp? (front ++ block version ++ back) = some ['0', '3'] := by
  obtain ⟨h, s, hblock, -, hhead, -⟩ := exists_block_eq
  obtain ⟨r, hr, hrest⟩ : ∃ r : Text, r.head? = some ' ' ∧ front ++ block version ++ back
      = front ++ (beginMark ++ (' ' :: (stampMark ++ ('0' :: '3' :: r)))) := by
    obtain ⟨h, rfl⟩ := List.head?_eq_some_iff.1 hhead
    refine ⟨' ' :: (h ++ ('=' :: (version ++ ' ' :: 'f' :: s) ++ endMark ++ back)), rfl, ?_⟩
    rw [hblock]
    simp
  have hstamp := blockStampHere?_stamped hr
  rw [hrest]
  generalize ' ' :: (stampMark ++ ('0' :: '3' :: r)) = rest at hstamp
  clear hrest
  -- no stamp is found before the first marker
  induction front with
  | nil => exact (congrArg (Option.or · _) hstamp).trans rfl
  | cons c front ih =>
    have hcut : cut? beginMark (c :: front ++ (beginMark ++ rest)) = some (c :: front, rest) :=
      isMark_beginMark.cut?_eq_some_iff.2 ⟨rfl, hfront⟩
    rw [cons_append, cut?] at hcut
    have hnone : blockStampHere? (c :: (front ++ (beginMark ++ rest))) = none := by
      split at hcut
      · cases hcut
      · next hpre => rw [blockStampHere?, if_neg hpre]
    rw [cons_append, blockStamp?, hnone, Option.none_or]
    exact ih fun hin => hfront (infix_cons hin)

/-! ## Updates of a stored page -/

/-- The page has one block, which is that for the version. Around it is what was around the blocks of
the old page; line feeds may follow an old page without blocks. -/
def HoldsBlock (version old page : Text) : Prop :=
  ∃ front back, outside page = [front, back] ∧ page = front ++ block version ++ back ∧
    (front ++ back = (outside old).flatten ∨
      outside old = [old] ∧ ∃ n, front ++ back = old ++ repeated n '\n')

/-- The one block of a page ends where the page first has the end of a block. -/
theorem HoldsBlock.end_not_isInfix {version old page : Text} (h : HoldsBlock version old page) :
    ¬ endMark <:+: version := by
  obtain ⟨front, back, hpair, hpage, -⟩ := h
  obtain ⟨i, hcut, hi⟩ := exists_of_outside_eq_pair hpair
  obtain ⟨j, hblock, hend, -⟩ := exists_inner version
  have hsame : j = i := by
    rw [hcut, hblock] at hpage
    simpa using hpage.symm
  rwa [← hend, hsame]

theorem map_universalNewlines_eq_self {ts : List Text} (h : '\r' ∉ ts.flatten) :
    ts.map universalNewlines = ts :=
  map_congr_left (fun t ht => universalNewlines_eq_self fun hin =>
    h (mem_flatten.2 ⟨t, ht, hin⟩)) |>.trans (map_id ts)

/-- **The block of a page that stays as it is**: its line ends are those of a fresh block exactly if all
carriage returns of the page are around it. -/
theorem holdsBlock_self_iff {version raw front back : Text}
    (hraw : universalNewlines raw = front ++ block version ++ back)
    (houtside : outside (universalNewlines raw) = [front, back]) :
    HoldsBlock version raw raw ↔ raw.count '\r' = (outside raw).flatten.count '\r' := by
  rw [outside_universalNewlines] at houtside
  obtain ⟨f, fs, hpair, rfl, hrest⟩ := map_eq_cons_iff.1 houtside
  obtain ⟨b, bs, rfl, rfl, hnil⟩ := map_eq_cons_iff.1 hrest
  obtain rfl := map_eq_nil_iff.1 hnil
  obtain ⟨i, rfl, -⟩ := exists_of_outside_eq_pair hpair
  rw [isMark_beginMark.universalNewlines_append, isMark_endMark.universalNewlines_append,
    append_assoc, append_cancel_left_eq, ← append_assoc, ← append_assoc,
    append_cancel_right_eq] at hraw
  have hreturn : '\r' ∉ block version := by
    rw [← hraw]
    simp [isMark_beginMark.return_not_mem, isMark_endMark.return_not_mem,
      carriageReturn_not_mem_universalNewlines]
  constructor
  · rintro ⟨f', b', hpair', hpage, -⟩
    obtain ⟨rfl, hb⟩ := List.cons.inj (hpair.symm.trans hpair')
    obtain ⟨rfl, -⟩ := List.cons.inj hb
    rw [hpair, hpage]
    simp [count_eq_zero_of_not_mem hreturn]
  · intro hcount
    rw [hpair] at hcount
    simp only [count_append, flatten_cons, flatten_nil, append_nil] at hcount
    have hi : '\r' ∉ i := count_eq_zero.1 (by omega)
    rw [universalNewlines_eq_self hi] at hraw
    exact ⟨f, b, hpair, by rw [← hraw]; simp, .inl (by simp [hpair])⟩

section Written

variable {version old front back : Text}
  (haround : front ++ back = (outside (universalNewlines old)).flatten ∨
    outside (universalNewlines old) = [universalNewlines old] ∧
      ∃ n, front ++ back = universalNewlines old ++ repeated n '\n')

include haround

theorem return_not_mem_around : '\r' ∉ front ++ back := by
  have hread := carriageReturn_not_mem_universalNewlines
  rcases haround with heq | ⟨-, n, heq⟩
  · rw [heq, outside_universalNewlines]
    intro hin
    obtain ⟨u, hu, hmem⟩ := mem_flatten.1 hin
    obtain ⟨v, -, rfl⟩ := mem_map.1 hu
    exact hread v hmem
  · rw [heq]
    simp [hread, repeated]

/-- **The block of a page that is written**: what is around it is as it was exactly if there was no
carriage return. -/
theorem holdsBlock_written_iff (houtside : outside (front ++ block version ++ back) = [front, back]) :
    HoldsBlock version old (front ++ block version ++ back) ↔ '\r' ∉ (outside old).flatten := by
  have hreturn := return_not_mem_around haround
  constructor
  · rintro ⟨f, b, hpair, -, hleft⟩
    obtain ⟨rfl, hb⟩ := List.cons.inj (houtside.symm.trans hpair)
    obtain ⟨rfl, -⟩ := List.cons.inj hb
    rcases hleft with heq | ⟨hone, n, heq⟩
    · rwa [heq] at hreturn
    · rw [heq, mem_append, not_or] at hreturn
      rw [hone]
      simpa using hreturn.1
  · intro hfree
    refine ⟨front, back, houtside, rfl, ?_⟩
    rw [outside_universalNewlines, map_universalNewlines_eq_self hfree] at haround
    refine haround.imp_right fun hone => ?_
    rwa [eq_of_outside_eq_singleton hone.1] at hone

end Written

/-- **Another update** of a page with one block leaves it, unless the version has a carriage return. -/
theorem updated_again_iff {t : Tree} {p : Place} {version front back : Text}
    (h : t.HasRoom p (some (front ++ block version ++ back))) (hversion : ¬ endMark <:+: version)
    (hrest : ¬ beginMark <:+: front ++ back) (hclean : '\r' ∉ front ++ back) :
    updatePageAt t p version = .ok (t, pageReport p .unchanged) ↔ '\r' ∉ version := by
  obtain ⟨i, -, -, hreturn⟩ := exists_inner version
  have hstamp : isLater ((some (front ++ block version ++ back)).bind blockStamp?) = .ok false := by
    rw [Option.bind_some,
      blockStamp?_block fun hin => hrest (hin.trans (prefix_append _ _).isInfix)]
    rfl
  constructor
  · intro hagain hin
    have hfree : ¬ beginMark <:+:
        (outside ((some (universalNewlines (front ++ block version ++ back))).getD [])).flatten := by
      rw [Option.getD_some, outside_universalNewlines, outside_block hversion hrest]
      exact free_universalNewlines (by simpa using hrest)
    obtain ⟨f, b, hnew, -⟩ := exists_withBlock hfree (block version)
    obtain ⟨t', a, hupdate, ⟨hsame, -⟩ | ⟨-, -, ha⟩⟩ := exists_updatePageAt h version hstamp rfl hnew
    · refine carriageReturn_not_mem_universalNewlines (front ++ block version ++ back) ?_
      rw [Option.some.inj hsame]
      simp [hreturn.2 hin]
    · rw [hagain] at hupdate
      cases hupdate
      rcases ha with ha | ha <;> cases ha
  · intro hnot
    have hread : universalNewlines (front ++ block version ++ back) = front ++ block version ++ back := by
      refine universalNewlines_eq_self ?_
      simpa [mt hreturn.1 hnot, not_or] using hclean
    obtain ⟨t', a, hupdate, ⟨-, rfl, rfl⟩ | ⟨hne, -⟩⟩ := exists_updatePageAt h version hstamp
      (congrArg some hread) (withBlock_self hversion hrest)
    · exact hupdate
    · exact absurd rfl hne

/-- **What an update does to a page.** Take a page that is not there or holds a text, where no first stamp
is of a later format and no marker is around the blocks. The update fails if that stamp has too many
digits, and goes through otherwise. Afterwards the page has one block, for the version, with what was
around the old ones, and another update changes nothing, if and only if the version has no end of a block
and no carriage return and either the page was written and no carriage return was around the blocks, or
it was not written and all were. -/
theorem page_updated_iff {t : Tree} {p : Place} {stored : Option Text}
    (h : t.HasRoom p stored) (hstamp : ∀ s ∈ stored.bind blockStamp?, digitsValue s ≤ formatNumber)
    (hmark : ¬ beginMark <:+: (outside (stored.getD [])).flatten) (version : Text) :
    (∀ s ∈ stored.bind blockStamp?, maxDigits < s.length →
      updatePageAt t p version = .error (.stamp ⟨s.length⟩)) ∧
    ((∀ s ∈ stored.bind blockStamp?, s.length ≤ maxDigits) →
      ∃ t' a page, updatePageAt t p version = .ok (t', pageReport p a) ∧ a ≠ .blockedNewer ∧
        t'.HasRoom p (some page) ∧
        (HoldsBlock version (stored.getD []) page ∧
            updatePageAt t' p version = .ok (t', pageReport p .unchanged) ↔
          ¬ endMark <:+: version ∧ '\r' ∉ version ∧
            if a = .unchanged then
              (stored.getD []).count '\r' = (outside (stored.getD [])).flatten.count '\r'
            else '\r' ∉ (outside (stored.getD [])).flatten)) := by
  refine ⟨fun s hs hlong => updatePageAt_of_long h version ?_, fun hshort => ?_⟩
  · rw [Option.mem_def.1 hs, isLater_some, if_neg (by omega)]
  have hcurrent : isLater (stored.bind blockStamp?) = .ok false := by
    cases hfirst : stored.bind blockStamp? with
    | none => rfl
    | some s =>
      have hle := hstamp s hfirst
      rw [isLater_some, if_pos (hshort s hfirst), decide_eq_false (by omega)]
  have hfound : (stored.map universalNewlines).getD [] = universalNewlines (stored.getD []) := by
    cases stored <;> rfl
  have hfree : ¬ beginMark <:+: (outside ((stored.map universalNewlines).getD [])).flatten := by
    rw [hfound, outside_universalNewlines]
    exact free_universalNewlines hmark
  obtain ⟨front, back, hnew, hrest, haround⟩ := exists_withBlock hfree (block version)
  rw [hfound] at haround
  obtain ⟨i, -, -, hreturn⟩ := exists_inner version
  obtain ⟨t', a, hupdate, ⟨hsame, rfl, rfl⟩ | ⟨-, hroom, ha⟩⟩ :=
    exists_updatePageAt h version hcurrent rfl hnew
  · obtain ⟨raw, rfl, hraw⟩ := Option.map_eq_some_iff.1 hsame
    refine ⟨t', .unchanged, raw, hupdate, by decide, h, ?_⟩
    have hclean : '\r' ∉ version := by
      intro hin
      refine carriageReturn_not_mem_universalNewlines raw ?_
      rw [hraw]
      simp [hreturn.2 hin]
    rw [if_pos rfl, and_iff_left hupdate, and_iff_right hclean]
    by_cases hversion : endMark <:+: version
    · exact iff_of_false (fun hholds => hholds.end_not_isInfix hversion) fun hboth => hboth.1 hversion
    · rw [and_iff_right hversion]
      exact holdsBlock_self_iff hraw (hraw ▸ outside_block hversion hrest)
  · have hblocked : a ≠ .blockedNewer ∧ a ≠ .unchanged := by
      rcases ha with rfl | rfl <;> decide
    refine ⟨t', a, _, hupdate, hblocked.1, hroom, ?_⟩
    by_cases hversion : endMark <:+: version
    · exact iff_of_false (fun hboth => hboth.1.end_not_isInfix hversion) fun hboth => hboth.1 hversion
    · rw [if_neg hblocked.2, holdsBlock_written_iff haround (outside_block hversion hrest),
        and_iff_right hversion, and_comm]
      refine and_congr_left fun _ => ?_
      exact updated_again_iff hroom hversion hrest (return_not_mem_around haround)

/-- A block of an earlier format is replaced, once, and the text before it stays. -/
theorem page_with_earlier_block_updated :
    let page := "Use tabs.\n".toList ++ stampedBlock "f02"
    let p : Place := ["AGENTS.md".toList]
    (pageTree page).HasRoom p (some page) ∧ blockStamp? page = some "02".toList ∧
      outside page = ["Use tabs.\n".toList, ['\n']] ∧
      ∃ t' a new, updatePageAt (pageTree page) p "1.0".toList = .ok (t', pageReport p a) ∧
        HoldsBlock "1.0".toList page new ∧
        updatePageAt t' p "1.0".toList = .ok (t', pageReport p .unchanged) := by
  intro page p
  have hstamp : blockStamp? page = some "02".toList := by decide
  have houtside : outside page = ["Use tabs.\n".toList, ['\n']] := by decide +kernel
  have hmark : ¬ beginMark <:+: (outside page).flatten := by
    rw [← cut?_eq_none_iff isMark_beginMark.ne_nil, houtside]
    decide
  have hend : ¬ endMark <:+: "1.0".toList := by
    rw [← cut?_eq_none_iff isMark_endMark.ne_nil]
    decide
  have hdigits : ∀ s ∈ (some page).bind blockStamp?, s = "02".toList := by
    intro s hs
    rw [Option.bind_some, hstamp, Option.mem_some_iff] at hs
    exact hs.symm
  obtain ⟨t', a, new, hupdate, -, -, hiff⟩ := (page_updated_iff (hasRoom_pageTree page)
    (fun s hs => by rw [hdigits s hs]; decide) hmark "1.0".toList).2
    (fun s hs => by rw [hdigits s hs]; decide)
  rw [Option.getD_some, houtside] at hiff
  refine ⟨hasRoom_pageTree page, hstamp, houtside, t', a, new, hupdate,
    hiff.2 ⟨hend, by decide, ?_⟩⟩
  split <;> decide

/-- The carriage returns around the block are gone when the page has been updated. -/
theorem returns_around_block_lost :
    let page := "Use tabs.\r\n".toList ++ beginMark ++ " format=f02 -->\r\n".toList ++ endMark
      ++ ['\r', '\n']
    let new := "Use tabs.\n".toList ++ block "1.0".toList ++ ['\n']
    let p : Place := ["AGENTS.md".toList]
    outside page = ["Use tabs.\r\n".toList, ['\r', '\n']] ∧
      (updatePageAt (pageTree page) p "1.0".toList).toOption.map (fun r => (r.2.action, r.1.files))
        = some (.updated, [(p, .text new)]) := by
  decide +kernel

end Reflow.Skill
