import Reflow.Files.Tree

/-!
Ways through a file tree.

`follow` gives up where something is missing or where there are too many links; `real` never gives
up, and stops at a link that it is still following. Where the first one arrives, so does the second,
at the same place (`Leads.realFrom_eq`): names that lead back to a link, inside its own target,
would have more links on their way than on that same way.
-/

open List

namespace Reflow.Files.Tree

variable {t : Tree} {p : Place}

/-! ## Folders -/

theorem isFolder_nil : t.isFolder [] := rfl

theorem isFolder_of_append {p q : Place} (h : t.isFolder (p ++ q)) : t.isFolder p := by
  simp only [isFolder, Bool.or_eq_true, any_eq_true, List.isEmpty_iff,
    Place.isBelow, Bool.and_eq_true, isPrefixOf_iff_prefix, decide_eq_true_eq] at h ⊢
  obtain (h | ⟨f, hf, h⟩) | ⟨e, he, h, hlength⟩ := h
  · exact .inl (.inl (append_eq_nil_iff.1 h).1)
  · exact .inl (.inr ⟨f, hf, (prefix_append p q).trans h⟩)
  · refine .inr ⟨e, he, (prefix_append p q).trans h, ?_⟩
    rw [length_append] at hlength
    omega

theorem isFolder_dropLast (h : t.isFolder p) : t.isFolder p.dropLast := by
  obtain rfl | hp := eq_nil_or_concat p
  · exact h
  · obtain ⟨q, name, rfl⟩ := hp
    rw [concat_eq_append] at h ⊢
    rw [dropLast_concat]
    exact isFolder_of_append h

theorem isFolder_of_at?_folder (h : t.at? p = some .folder) : t.isFolder p := by
  unfold at? at h
  split at h
  · cases h
  · cases h
  · split at h
    · assumption
    · cases h

theorem isFolder_of_at? {name : Text} {found : Found} (h : t.at? (p ++ [name]) = some found) :
    t.isFolder p := by
  have hentry : ∀ e, t.entries.lookup (p ++ [name]) = some e → t.isFolder p := by
    intro e hlookup
    obtain ⟨before, after, hentries, -⟩ := lookup_eq_some_iff.1 hlookup
    simp only [isFolder, Bool.or_eq_true, any_eq_true]
    exact .inr ⟨(p ++ [name], e), by simp [hentries], by simp [Place.isBelow]⟩
  unfold at? at h
  split at h
  · next hlookup => exact hentry _ hlookup
  · next hlookup => exact hentry _ hlookup
  · split at h
    · next hfolder => exact isFolder_of_append hfolder
    · cases h

/-! ## Ways without links -/

section Stretch

variable {base q : Place} {ns ms : List Text} {c : Crossing}

theorem stretch_append_of_link (h : t.stretch base ns = .link c) :
    t.stretch base (ns ++ ms) = .link { c with rest := c.rest ++ ms } := by
  fun_induction t.stretch base ns with
  | case1 | case3 | case5 | case6 => cases h
  | case2 base ns ih => rw [cons_append, stretch, if_pos rfl, ih h]
  | case4 base name ns hup hat ih => simp only [cons_append, stretch, if_neg hup, hat, ih h]
  | case7 base name ns hup target hat =>
    cases h
    simp only [cons_append, stretch, if_neg hup, hat]

theorem stretch_append_of_place (h : t.stretch base ns = .place q) (hq : t.at? q = some .folder) :
    t.stretch base (ns ++ ms) = t.stretch q ms := by
  fun_induction t.stretch base ns with
  | case1 =>
    cases h
    rfl
  | case2 base ns ih => rw [cons_append, stretch, if_pos rfl, ih h]
  | case3 | case6 | case7 => cases h
  | case4 base name ns hup hat ih => simp only [cons_append, stretch, if_neg hup, hat, ih h]
  | case5 base name ns hup content hat =>
    cases h
    cases hat.symm.trans hq

/-- Names that lead somewhere do so up to each of them. What is gone through is a folder. -/
theorem stretch_cases (ns ms : List Text) (hbase : t.isFolder base)
    (h : t.stretch base (ns ++ ms) ≠ .missing) :
    (∃ q, t.stretch base ns = .place q ∧
      (ms = [] ∨ t.isFolder q ∧ t.stretch base (ns ++ ms) = t.stretch q ms)) ∨
      ∃ c, t.stretch base ns = .link c := by
  fun_induction t.stretch base ns with
  | case1 base => exact .inl ⟨base, rfl, .inr ⟨hbase, rfl⟩⟩
  | case2 base ns ih =>
    exact ih (isFolder_dropLast hbase) h
  | case3 base name ns hup hat => simp [stretch, hup, hat] at h
  | case4 base name ns hup hat ih =>
    simp only [cons_append, stretch, if_neg hup, hat] at h ⊢
    exact ih (isFolder_of_at?_folder hat) h
  | case5 base name ns hup content hat hend =>
    -- nothing comes after a file
    have hms : ms = [] := by
      simp only [cons_append, stretch, if_neg hup, hat] at h
      simp_all
    exact .inl ⟨_, rfl, .inl hms⟩
  | case6 base name ns hup content hat hend =>
    simp only [cons_append, stretch, if_neg hup, hat] at h
    simp_all
  | case7 => exact .inr ⟨_, rfl⟩

theorem length_rest_lt_of_link (h : t.stretch base ns = .link c) : c.rest.length < ns.length := by
  fun_induction t.stretch base ns with
  | case1 | case3 | case5 | case6 => cases h
  | case2 base ns ih => exact Nat.lt_succ_of_lt (ih h)
  | case4 base name ns hup hat ih => exact Nat.lt_succ_of_lt (ih h)
  | case7 =>
    cases h
    exact Nat.lt_succ_self _

theorem at?_of_link (hbase : t.isFolder base) (h : t.stretch base ns = .link c) :
    t.isFolder c.base ∧ t.at? c.here = some (.link c.target) := by
  fun_induction t.stretch base ns with
  | case1 | case3 | case5 | case6 => cases h
  | case2 base ns ih => exact ih (isFolder_dropLast hbase) h
  | case4 base name ns hup hat ih => exact ih (isFolder_of_at?_folder hat) h
  | case7 base name ns hup target hat =>
    cases h
    refine ⟨?_, hat⟩
    unfold Crossing.base
    split
    · exact isFolder_nil
    · exact hbase

theorem asWritten_of_place (h : t.stretch base ns = .place q) :
    t.crossing? base ns = none ∧ asWritten base ns = q := by
  fun_induction t.stretch base ns with
  | case1 =>
    cases h
    exact ⟨rfl, rfl⟩
  | case2 base ns ih => simpa only [crossing?, asWritten, foldl_cons, if_true] using ih h
  | case3 | case6 | case7 => cases h
  | case4 base name ns hup hat ih =>
    simpa only [crossing?, asWritten, foldl_cons, if_neg hup, hat] using ih h
  | case5 base name ns hup content hat hend =>
    cases h
    obtain rfl : ns = [] := by simpa using hend
    simp only [crossing?, asWritten, foldl_cons, foldl_nil, if_neg hup, hat, and_self]

theorem crossing?_of_link (h : t.stretch base ns = .link c) : t.crossing? base ns = some c := by
  fun_induction t.stretch base ns with
  | case1 | case3 | case5 | case6 => cases h
  | case2 base ns ih => simpa only [crossing?, if_true] using ih h
  | case4 base name ns hup hat ih => simpa only [crossing?, if_neg hup, hat] using ih h
  | case7 base name ns hup target hat =>
    cases h
    simp only [crossing?, if_neg hup, hat]

end Stretch

/-! ## Ways with a number of links -/

/-- From a folder, names lead to a place, and meet so many links. -/
inductive Leads (t : Tree) : Nat → Place → List Text → Place → Prop where
  | place {base names q} : t.stretch base names = .place q → Leads t 0 base names q
  | link {n base names q} {c : Crossing} : t.stretch base names = .link c →
      Leads t n c.base c.names q → Leads t (n + 1) base names q

theorem follow_eq_place_iff {links : Nat} {base q : Place} {names : List Text} :
    t.follow links base names = .place q ↔ ∃ n ≤ links, t.Leads n base names q := by
  constructor
  · intro h
    fun_induction t.follow links base names with
    | case1 links base names p hplace =>
      cases h
      exact ⟨0, Nat.zero_le _, .place hplace⟩
    | case2 => cases h
    | case3 => cases h
    | case4 base names c hlink links ih =>
      obtain ⟨n, hn, hleads⟩ := ih h
      exact ⟨n + 1, Nat.succ_le_succ hn, .link hlink hleads⟩
  · rintro ⟨n, hn, hleads⟩
    induction hleads generalizing links with
    | place hplace =>
      unfold follow
      rw [hplace]
    | link hlink _ ih =>
      obtain ⟨links, rfl⟩ : ∃ k, links = k + 1 := ⟨links - 1, by omega⟩
      unfold follow
      rw [hlink]
      exact ih (Nat.le_of_succ_le_succ hn)

namespace Leads

variable {n m : Nat} {base q q' : Place} {names ns ms : List Text}

theorem unique (h : t.Leads n base names q) (h' : t.Leads m base names q') : n = m ∧ q = q' := by
  induction h generalizing m q' with
  | place hplace =>
    cases h' with
    | place hplace' =>
      cases hplace.symm.trans hplace'
      exact ⟨rfl, rfl⟩
    | link hlink' _ => cases hplace.symm.trans hlink'
  | link hlink _ ih =>
    cases h' with
    | place hplace' => cases hlink.symm.trans hplace'
    | link hlink' hleads' =>
      cases hlink.symm.trans hlink'
      obtain ⟨rfl, rfl⟩ := ih hleads'
      exact ⟨rfl, rfl⟩

theorem exists_of_append (hbase : t.isFolder base) (h : t.Leads n base (ns ++ ms) q) :
    ∃ m ≤ n, ∃ q', t.Leads m base ns q' ∧ (ms ≠ [] → t.isFolder q') := by
  generalize hnames : ns ++ ms = names at h
  induction h generalizing ns with
  | place hplace =>
    subst hnames
    obtain ⟨q', hq', hms⟩ | ⟨c, hc⟩ := stretch_cases ns ms hbase (by simp [hplace])
    · exact ⟨0, Nat.le_refl 0, q', .place hq', fun hne => (hms.resolve_left hne).1⟩
    · cases (stretch_append_of_link hc).symm.trans hplace
  | link hlink _ ih =>
    subst hnames
    obtain ⟨q', hq', hms⟩ | ⟨c, hc⟩ := stretch_cases ns ms hbase (by simp [hlink])
    · exact ⟨0, Nat.zero_le _, q', .place hq', fun hne => (hms.resolve_left hne).1⟩
    · cases (stretch_append_of_link hc).symm.trans hlink
      have hnames : c.names ++ ms = c.target.names ++ (c.rest ++ ms) := append_assoc _ _ _
      obtain ⟨m, hm, q', hq', hms⟩ := ih (at?_of_link hbase hc).1 hnames
      exact ⟨m + 1, Nat.succ_le_succ hm, q', .link hc hq', hms⟩

theorem append_file {name : Text} {content : Content} (h : t.Leads n base ns q)
    (hq : t.at? q = some .folder) (hname : name ≠ up)
    (hfile : t.at? (q ++ [name]) = some (.file content)) :
    t.Leads n base (ns ++ [name]) (q ++ [name]) := by
  induction h with
  | place hplace =>
    refine .place ?_
    rw [stretch_append_of_place hplace hq]
    simp [stretch, hname, hfile]
  | link hlink _ ih =>
    refine .link (stretch_append_of_link hlink) ?_
    have hgo := ih hq hfile
    rw [Crossing.names, append_assoc] at hgo
    exact hgo

end Leads

/-! ## Links that are being followed -/

/-- The link of `l` is being followed on a way from `base` with the names `names`, of which `l`
tells how many come after its target. What is left of its target leads where the whole of it does,
and has no more links on the way. -/
def IsPending (t : Tree) (base : Place) (names : List Text) (l : Place × Nat) : Prop :=
  ∃ c : Crossing, c.here = l.1 ∧ t.at? l.1 = some (.link c.target) ∧
    ∃ ns ms, names = ns ++ ms ∧ ms.length = l.2 ∧
      ∀ m q, t.Leads m base ns q → ∃ m' ≥ m, t.Leads m' c.base c.target.names q

section Pending

variable {base : Place} {names : List Text} {l : Place × Nat} {c : Crossing}

/-- A link that is met inside the target of a pending one is met by what is left of that target. -/
theorem exists_link_of_pending {ns ms : List Text} (hbase : t.isFolder base)
    (h : t.stretch base (ns ++ ms) = .link c) (hlength : ms.length ≤ c.rest.length) :
    ∃ c', t.stretch base ns = .link c' ∧ c = { c' with rest := c'.rest ++ ms } := by
  obtain ⟨q, hq, rfl | ⟨-, hgo⟩⟩ | ⟨c', hc'⟩ := stretch_cases ns ms hbase (by simp [h])
  · rw [append_nil] at h
    cases hq.symm.trans h
  · have := length_rest_lt_of_link (hgo.symm.trans h)
    omega
  · refine ⟨c', hc', ?_⟩
    cases (stretch_append_of_link hc').symm.trans h
    rfl

/-- **No way back.** Names that lead somewhere do not meet a link inside its own target. -/
theorem IsPending.ne_here {n : Nat} {q : Place} (h : t.IsPending base names l)
    (hbase : t.isFolder base) (hleads : t.Leads n base names q)
    (hlink : t.stretch base names = .link c) (hlength : l.2 ≤ c.rest.length) : l.1 ≠ c.here := by
  obtain ⟨c₀, hhere₀, hat₀, ns, ms, rfl, hms, hwhole⟩ := h
  obtain ⟨c', hc', rfl⟩ := exists_link_of_pending hbase hlink (by omega)
  intro hsame
  -- the link and the pending one are the same, so they have the same target
  obtain ⟨hfolder', hat'⟩ := at?_of_link hbase hc'
  have hhere : c₀.folder = c'.folder ∧ c₀.name = c'.name := by
    have : c₀.folder ++ [c₀.name] = c'.folder ++ [c'.name] := hhere₀.trans hsame
    simpa using this
  have htarget : c₀.target = c'.target := by
    have hat : t.at? l.1 = some (.link c'.target) := hsame ▸ hat'
    simpa using hat₀.symm.trans hat
  have hbases : c₀.base = c'.base := by rw [Crossing.base, Crossing.base, htarget, hhere.1]
  -- the way through what is left of the target has one link more than the way through the target
  obtain ⟨m, -, q₁, hm, -⟩ := hleads.exists_of_append hbase
  obtain ⟨m', hm', hwhole'⟩ := hwhole m q₁ hm
  rw [hbases, htarget] at hwhole'
  cases hm with
  | place hplace => cases hplace.symm.trans hc'
  | link hlink' hrest =>
    cases hlink'.symm.trans hc'
    obtain ⟨m₂, hm₂, q₂, htarget₂, -⟩ := hrest.exists_of_append hfolder'
    have := (htarget₂.unique hwhole').1
    omega

/-- A pending link stays pending while a link inside its target is followed. -/
theorem IsPending.step (h : t.IsPending base names l) (hbase : t.isFolder base)
    (hlink : t.stretch base names = .link c) (hlength : l.2 ≤ c.rest.length) :
    t.IsPending c.base c.names l := by
  obtain ⟨c₀, hhere₀, hat₀, ns, ms, rfl, hms, hwhole⟩ := h
  obtain ⟨c', hc', rfl⟩ := exists_link_of_pending hbase hlink (by omega)
  refine ⟨c₀, hhere₀, hat₀, c'.names, ms, ?_, hms, ?_⟩
  · simp only [Crossing.names, append_assoc]
  · intro m q hm
    obtain ⟨m', hm', hleads⟩ := hwhole (m + 1) q (.link hc' hm)
    exact ⟨m', by omega, hleads⟩

theorem isPending_self (hbase : t.isFolder base) (hlink : t.stretch base names = .link c) :
    t.IsPending c.base c.names (c.here, c.rest.length) :=
  ⟨c, rfl, (at?_of_link hbase hlink).2, c.target.names, c.rest, rfl, rfl,
    fun m _ hm => ⟨m, Nat.le_refl m, hm⟩⟩

end Pending

/-- **Where names lead, the place they mean lies.** -/
theorem Leads.realFrom_eq {n links : Nat} {pending : List (Place × Nat)} {base q : Place}
    {names : List Text} (h : t.Leads n base names q) (hbase : t.isFolder base)
    (hlinks : n ≤ links) (hpending : ∀ l ∈ pending, t.IsPending base names l) :
    t.realFrom links pending base names = q := by
  induction h generalizing links pending with
  | place hplace =>
    obtain ⟨hcrossing, hwritten⟩ := asWritten_of_place hplace
    unfold realFrom
    rw [hcrossing]
    exact hwritten
  | @link n base names q c hlink hleads ih =>
    have hkept : ∀ l ∈ pending.filter fun l => l.2 ≤ c.rest.length,
        t.IsPending base names l ∧ l.2 ≤ c.rest.length := by
      intro l hl
      obtain ⟨hl, hlength⟩ := mem_filter.1 hl
      exact ⟨hpending l hl, by simpa using hlength⟩
    -- a link that is still pending here would lead to itself
    have hnone : ((pending.filter fun l => l.2 ≤ c.rest.length).any (·.1 = c.here)) = false := by
      rw [any_eq_false]
      intro l hl
      simpa using (hkept l hl).1.ne_here hbase (.link hlink hleads) hlink (hkept l hl).2
    obtain ⟨links, rfl⟩ : ∃ k, links = k + 1 := ⟨links - 1, by omega⟩
    unfold realFrom
    simp only [crossing?_of_link hlink, hnone]
    refine ih (at?_of_link hbase hlink).1 (by omega) ?_
    intro l hl
    rcases mem_cons.1 hl with rfl | hl
    · exact isPending_self hbase hlink
    · exact (hkept l hl).1.step hbase hlink (hkept l hl).2

end Reflow.Files.Tree
