import Reflow.Proofs.CarriageReturns
import Reflow.Proofs.RegularFiles
import Reflow.Skill.Install

/-!
Places for pages.

A place has room for a page if there are only folders on the way to it, or nothing, and a text or
nothing at the place itself. What is there can be read, and a page can be written there
(`HasRoom.write_eq`). Nothing that lies elsewhere changes (`HasRoom.put_other`).
-/

open List

namespace Reflow.Files

namespace Tree

/-- What stands at the place: nothing, or a file that holds the text. -/
def Stores (t : Tree) (p : Place) : Option Text → Prop
  | none => t.at? p = none
  | some raw => ∃ c, t.at? p = some (.file c) ∧ c.toBytes = Utf8.encode raw

/-- The place is free or has a text, and no file and no link is on the way to it. -/
structure HasRoom (t : Tree) (p : Place) (stored : Option Text) : Prop where
  named : p ≠ []
  plain : up ∉ p
  above : ∀ {q}, q <+: p → q ≠ p → t.entries.lookup q = none
  stores : t.Stores p stored

variable {t : Tree} {p : Place} {stored : Option Text}

theorem Stores.unique {other : Option Text} (h : t.Stores p stored) (h' : t.Stores p other) :
    stored = other := by
  cases stored with
  | none =>
    cases other with
    | none => rfl
    | some raw =>
      obtain ⟨c, hc, -⟩ := h'
      cases Eq.trans (Eq.symm h) hc
  | some raw =>
    obtain ⟨c, hc, hraw⟩ := h
    cases other with
    | none => cases hc.symm.trans h'
    | some raw' =>
      obtain ⟨c', hc', hraw'⟩ := h'
      cases hc.symm.trans hc'
      rw [Utf8.encode_inj.1 (hraw.symm.trans hraw')]

theorem at?_ne_none_of_isFolder (h : t.isFolder p) : t.at? p ≠ none := by
  unfold at?
  split <;> simp [h]

theorem at?_ne_none_of_append {names : List Text} (h : t.at? (p ++ names) ≠ none) :
    t.at? p ≠ none := by
  rcases eq_nil_or_concat names with rfl | ⟨front, name, rfl⟩
  · simpa using h
  · obtain ⟨found, hfound⟩ := Option.ne_none_iff_exists'.1 h
    rw [concat_eq_append, ← append_assoc] at hfound
    exact at?_ne_none_of_isFolder (isFolder_of_append (isFolder_of_at? hfound))

namespace HasRoom

theorem of_take (hnamed : p ≠ []) (hplain : up ∉ p)
    (habove : ∀ k < p.length, t.entries.lookup (p.take k) = none) (hstores : t.Stores p stored) :
    t.HasRoom p stored := by
  refine ⟨hnamed, hplain, fun {q} hq hne => ?_, hstores⟩
  rw [prefix_iff_eq_take.1 hq]
  refine habove _ (Nat.lt_of_le_of_ne hq.length_le fun hlength => hne ?_)
  exact hq.eq_of_length hlength

variable (h : t.HasRoom p stored)
include h

theorem at?_above {q : Place} (hq : q <+: p) (hne : q ≠ p) :
    t.at? q = none ∨ t.at? q = some .folder := by
  rw [at?, h.above hq hne]
  by_cases hfolder : t.isFolder q <;> simp [hfolder]

theorem ne_up {base : List Text} {name : Text} (hp : base ++ [name] <+: p) : name ≠ up := by
  rintro rfl
  exact h.plain (hp.subset (by simp))

/-! ## Reading -/

theorem stretch_eq {base names : List Text} (hp : base ++ names <+: p) (hbase : t.at? base ≠ none) :
    t.stretch base names
      = if t.at? (base ++ names) = none then .missing else .place (base ++ names) := by
  induction names generalizing base with
  | nil => rw [stretch, append_nil, if_neg hbase]
  | cons name names ih =>
    have hnext : base ++ [name] ++ names <+: p := by simpa using hp
    have hhere : base ++ [name] <+: p := (prefix_append _ _).trans hnext
    have hup : name ≠ up := h.ne_up hhere
    rw [stretch, if_neg hup, append_cons base name names]
    -- the way ends where nothing is; the place itself may hold a file, what is above it only folders
    cases hat : t.at? (base ++ [name]) with
    | none => exact (if_pos (by_contra fun hne => at?_ne_none_of_append hne hat)).symm
    | some found =>
      by_cases hlast : base ++ [name] = p
      · obtain rfl : names = [] := by
          have hlength := hnext.length_le
          rw [hlast, length_append] at hlength
          exact eq_nil_of_length_eq_zero (by omega)
        have hstores := h.stores
        rw [← hlast] at hstores
        cases stored with
        | none => cases hat.symm.trans hstores
        | some raw =>
          obtain ⟨c, hc, -⟩ := hstores
          cases hat.symm.trans hc
          simp [hat]
      · rcases h.at?_above hhere hlast with habove | habove
        · cases hat.symm.trans habove
        · cases hat.symm.trans habove
          exact ih hnext (by simp [hat])

theorem look?_eq {q : Place} (hq : q <+: p) : t.look? [] (.ofPlace q) = t.at? q := by
  have hroot : t.at? [] ≠ none := at?_ne_none_of_isFolder isFolder_nil
  have hstretch : t.stretch [] q = if t.at? q = none then .missing else .place q :=
    h.stretch_eq hq hroot
  have hfollow : t.follow maxLinks [] q = if t.at? q = none then .missing else .place q := by
    rw [follow.eq_def, hstretch]
    split <;> split at * <;> simp_all
  rw [look?, find?, start, Path.ofPlace, if_pos rfl, hfollow]
  by_cases hat : t.at? q = none <;> simp [hat]

/-- **What is read** of a page: the text that is stored, with all line ends alike. -/
theorem textAt_eq : Skill.textAt t p = .ok (stored.map Text.universalNewlines) := by
  have hlook := h.look?_eq prefix_rfl
  cases stored with
  | none =>
    rw [show t.at? p = none from h.stores] at hlook
    simp only [Skill.textAt, read, hlook]
    by_cases hways : ((range (Path.ofPlace p).names.length).map
        fun n => (Path.ofPlace p).names.take n).any fun names =>
          t.hasFile [] { Path.ofPlace p with names }
    · rw [if_pos hways]
      rfl
    · rw [if_neg hways]
      rfl
  | some raw =>
    obtain ⟨c, hc, hraw⟩ := h.stores
    rw [hc] at hlook
    simp only [Skill.textAt, read, hlook, Content.read_of_toBytes hraw]
    rfl

/-! ## Writing -/

theorem obstacle?_eq : t.obstacle? [] (Path.ofPlace p).parent = none := by
  have hnone : (((range p.dropLast.length).map fun n => p.dropLast.take (n + 1)).find?
      fun names => t.hasFile [] (.ofPlace names)) = none := by
    rw [find?_eq_none]
    intro names hnames
    obtain ⟨k, -, rfl⟩ := mem_map.1 hnames
    have hq : p.dropLast.take (k + 1) <+: p := (List.take_prefix _ _).trans (List.dropLast_prefix p)
    have hne : p.dropLast.take (k + 1) ≠ p := by
      intro heq
      have hlength := congrArg length heq
      have hpos := length_pos_of_ne_nil h.named
      simp only [length_take, length_dropLast] at hlength
      omega
    rw [hasFile, content?, h.look?_eq hq]
    rcases h.at?_above hq hne with habove | habove <;> simp [habove]
  unfold obstacle?
  simp only [Path.parent, Path.ofPlace] at hnone ⊢
  rw [hnone]

theorem target_eq : t.target [] (.ofPlace p) = p := by
  -- no link is crossed on the way to the folder of the page
  have hcrossing : ∀ base names, base ++ names <+: p → base ++ names ≠ p →
      t.crossing? base names = none ∧ asWritten base names = base ++ names := by
    intro base names
    induction names generalizing base with
    | nil => exact fun _ _ => ⟨rfl, by simp [asWritten]⟩
    | cons name names ih =>
      intro hp hne
      have hnext : base ++ [name] ++ names <+: p := by simpa using hp
      have hhere : base ++ [name] <+: p := (prefix_append _ _).trans hnext
      have hup : name ≠ up := h.ne_up hhere
      have hshort : base ++ [name] ≠ p := by
        rintro rfl
        have : names = [] := by simpa using hnext.length_le
        exact hne (by simp [this])
      obtain ⟨hcrossing, hwritten⟩ := ih _ hnext (by simpa using hne)
      rw [crossing?, if_neg hup, asWritten, foldl_cons, if_neg hup]
      refine ⟨?_, by simpa [asWritten] using hwritten⟩
      rcases h.at?_above hhere hshort with habove | habove <;> simp [habove, hcrossing]
  have hlast := dropLast_concat_getLast h.named
  have hshort : p.dropLast ≠ p := fun heq => by
    have hlength := congrArg length heq
    have hpos := length_pos_of_ne_nil h.named
    rw [length_dropLast] at hlength
    omega
  obtain ⟨hnone, hwritten⟩ := hcrossing [] p.dropLast (List.dropLast_prefix p) hshort
  have hreal : t.real [] (Path.ofPlace p).parent = p.dropLast := by
    rw [real, realFrom.eq_def]
    simp only [start, Path.parent, Path.ofPlace, if_true, hnone]
    simpa using hwritten
  rw [target, hreal, Path.name, Path.ofPlace, getLast?_eq_some_getLast h.named]
  exact hlast

theorem write_eq (text : Text) : t.write [] (.ofPlace p) text = .ok (t.put p (.text text)) := by
  rw [write, h.obstacle?_eq, h.target_eq]

end HasRoom

theorem lookup_remove_self (t : Tree) (p : Place) : (t.remove p).entries.lookup p = none := by
  rw [lookup_eq_none_iff]
  intro e he
  have hout := (mem_filter.1 he).2
  simp only [Bool.not_eq_true', ← Bool.not_eq_true, isPrefixOf_iff_prefix] at hout
  rw [bne_iff_ne]
  rintro rfl
  exact hout prefix_rfl

theorem lookup_remove (t : Tree) {p q : Place} (hq : ¬ p <+: q) :
    (t.remove p).entries.lookup q = t.entries.lookup q := by
  simp only [remove]
  induction t.entries with
  | nil => rfl
  | cons e es ih =>
    obtain ⟨r, entry⟩ := e
    by_cases hr : p <+: r
    · have hqr : (q == r) = false := beq_false_of_ne fun heq => hq (heq ▸ hr)
      rw [filter_cons_of_neg (by simpa using hr), ih, lookup_cons, hqr]
    · have hout : (!p.isPrefixOf r) = true := by
        rwa [Bool.not_eq_true', ← Bool.not_eq_true, isPrefixOf_iff_prefix]
      rw [filter_cons, if_pos hout, lookup_cons, lookup_cons, ih]

theorem lookup_put (t : Tree) (p : Place) (new : Content) {q : Place} (hq : ¬ p <+: q) :
    (t.put p new).entries.lookup q = t.entries.lookup q := by
  have hne : (q == p) = false := beq_false_of_ne fun heq => hq (heq ▸ prefix_rfl)
  simp only [put, lookup_append, lookup_remove t hq]
  rw [lookup_cons, hne, lookup_nil, Option.or_none]

theorem lookup_put_self (t : Tree) (p : Place) (new : Content) :
    (t.put p new).entries.lookup p = some (.file new) := by
  simp only [put, lookup_append, lookup_remove_self]
  simp

namespace HasRoom

/-- **A page that is written** is stored as it is. -/
theorem put (h : t.HasRoom p stored) (text : Text) : (t.put p (.text text)).HasRoom p (some text) where
  named := h.named
  plain := h.plain
  above {q} hq hne := by
    have hnot : ¬ p <+: q := fun hpq => hne (hq.eq_of_length_le hpq.length_le)
    rw [lookup_put t p _ hnot, h.above hq hne]
  stores := by
    refine ⟨.text text, ?_, rfl⟩
    rw [at?, lookup_put_self]

/-- **A page that is written elsewhere** changes nothing here. -/
theorem put_other (h : t.HasRoom p stored) {q : Place} (hpq : ¬ q <+: p) (hqp : ¬ p <+: q)
    (new : Content) : (t.put q new).HasRoom p stored := by
  have hbelow : ∀ {r}, r <+: p → ¬ q <+: r := fun hr hqr => hpq (hqr.trans hr)
  have hat : (t.put q new).at? p = t.at? p := by
    have hfolder : (t.put q new).isFolder p = t.isFolder p := by
      -- neither place lies below the other, so nothing below the one lies below the other
      have hapart : ∀ {r : Place}, p <+: r → ¬ q <+: r := fun hpr hqr => by
        rcases prefix_or_prefix_of_prefix hpr hqr with hle | hle
        · exact hqp hle
        · exact hpq hle
      rw [Bool.eq_iff_iff]
      simp only [isFolder, Tree.put, remove, Bool.or_eq_true, any_eq_true, mem_append,
        mem_filter, mem_singleton, Bool.not_eq_true', ← Bool.not_eq_true,
        isPrefixOf_iff_prefix, Place.isBelow, Bool.and_eq_true]
      constructor
      · rintro ((hnil | ⟨f, ⟨hf, -⟩, hpf⟩) | ⟨e, ⟨he, -⟩ | rfl, hpe⟩)
        · exact .inl (.inl hnil)
        · exact .inl (.inr ⟨f, hf, hpf⟩)
        · exact .inr ⟨e, he, hpe⟩
        · exact absurd hpe.1 hqp
      · rintro ((hnil | ⟨f, hf, hpf⟩) | ⟨e, he, hpe⟩)
        · exact .inl (.inl hnil)
        · exact .inl (.inr ⟨f, ⟨hf, hapart hpf⟩, hpf⟩)
        · exact .inr ⟨e, .inl ⟨he, hapart hpe.1⟩, hpe⟩
    rw [at?, at?, lookup_put t q new (hbelow prefix_rfl), hfolder]
  refine ⟨h.named, h.plain, fun {r} hr hne => ?_, ?_⟩
  · rw [lookup_put t q new (hbelow hr), h.above hr hne]
  · cases stored with
    | none => exact hat.trans h.stores
    | some raw =>
      obtain ⟨c, hc, hraw⟩ := h.stores
      exact ⟨c, hat.trans hc, hraw⟩

end HasRoom

end Tree

end Reflow.Files
