import Reflow.Proofs.Utf8Codes
import Reflow.Proofs.Ways

/-!
Regular files.

A path to a regular file leads to a folder, and its last name is that of a file in the folder: it
is no link. Such a file is read and written at one and the same place (`Regular.write_eq`). Writing
it changes what is at that place, and neither anything else in the tree nor where any path leads.
-/

open List

namespace Reflow.Files.Tree

variable {t : Tree} {cwd : Place}

/-- Nothing lies below a file or a link. -/
def Sound (t : Tree) : Prop := ∀ e ∈ t.entries, t.isFolder e.1 = false

theorem Sound.at?_eq_folder {p : Place} (ht : t.Sound) (h : t.isFolder p) :
    t.at? p = some .folder := by
  cases hlookup : t.entries.lookup p with
  | none => simp [at?, hlookup, h]
  | some e =>
    obtain ⟨before, after, hentries, -⟩ := lookup_eq_some_iff.1 hlookup
    have := ht (p, e) (by simp [hentries])
    rw [h] at this
    cases this

/-! ## Paths to regular files -/

/-- The path leads to a file in a folder, and the file is not reached by a link. -/
structure Regular (t : Tree) (cwd : Place) (p : Path) (folder : Place) (c : Content) : Prop where
  named : p.names ≠ []
  notUp : p.name ≠ up
  found : t.find? cwd p.parent = some folder
  file : t.at? (folder ++ [p.name]) = some (.file c)

namespace Regular

variable {p : Path} {folder : Place} {c : Content}

theorem isFolder_start (hcwd : t.isFolder cwd) (p : Path) : t.isFolder (start cwd p) := by
  unfold start
  split
  · exact isFolder_nil
  · exact hcwd

variable (ht : t.Sound) (hcwd : t.isFolder cwd) (h : t.Regular cwd p folder c)
include h

theorem names_eq : p.names = p.parent.names ++ [p.name] := by
  have hlast := dropLast_concat_getLast h.named
  rw [Path.name, getLast?_eq_some_getLast h.named]
  exact hlast.symm

theorem exists_leads : ∃ n ≤ maxLinks, t.Leads n (start cwd p) p.parent.names folder := by
  have hfound := h.found
  unfold Tree.find? at hfound
  split at hfound
  · next hfollow =>
    cases hfound
    exact follow_eq_place_iff.1 hfollow
  · cases hfound

theorem target_eq (hcwd : t.isFolder cwd) : t.target cwd p = folder ++ [p.name] := by
  obtain ⟨n, hn, hleads⟩ := h.exists_leads
  have hreal : t.real cwd p.parent = folder :=
    hleads.realFrom_eq (isFolder_start hcwd p) hn (by simp)
  rw [target, hreal]

include ht

theorem at?_folder : t.at? folder = some .folder :=
  ht.at?_eq_folder (isFolder_of_at? h.file)

theorem find?_eq : t.find? cwd p = some (folder ++ [p.name]) := by
  obtain ⟨n, hn, hleads⟩ := h.exists_leads
  have hfollow : t.follow maxLinks (start cwd p) p.names = .place (folder ++ [p.name]) := by
    rw [follow_eq_place_iff, h.names_eq]
    exact ⟨n, hn, hleads.append_file (h.at?_folder ht) h.notUp h.file⟩
  rw [Tree.find?, hfollow]

theorem look?_eq : t.look? cwd p = some (.file c) := by
  rw [look?, h.find?_eq ht]
  exact h.file

theorem content?_eq : t.content? cwd p = some c := by
  rw [content?, h.look?_eq ht]

theorem read_eq {raw : Text} (hc : c.toBytes = Utf8.encode raw) :
    t.read cwd p = .ok (Text.universalNewlines raw) := by
  simp only [read, h.look?_eq ht, Content.read_of_toBytes hc]

include hcwd

/-- Each name on the way is that of a folder, or of a link to one. -/
theorem hasFile_take_eq_false (k : Nat) : t.hasFile cwd { p.parent with names := p.parent.names.take k } = false := by
  obtain ⟨n, hn, hleads⟩ := h.exists_leads
  obtain ⟨m, hm, q, hq, hfolder⟩ : ∃ m ≤ n, ∃ q,
      t.Leads m (start cwd p) (p.parent.names.take k) q ∧ t.isFolder q := by
    have happend := hleads
    rw [← take_append_drop k p.parent.names] at happend
    obtain ⟨m, hm, q, hq, hfolder⟩ := happend.exists_of_append (isFolder_start hcwd p)
    refine ⟨m, hm, q, hq, ?_⟩
    -- all names lead to the folder of the file, and fewer of them to a folder on the way
    by_cases hend : p.parent.names.drop k = []
    · have hall : p.parent.names.take k = p.parent.names := by
        simpa [hend] using take_append_drop k p.parent.names
      rw [hall] at hq
      rw [← (hleads.unique hq).2]
      exact isFolder_of_at? h.file
    · exact hfolder hend
  have hfollow : t.follow maxLinks (start cwd p) (p.parent.names.take k) = .place q :=
    follow_eq_place_iff.2 ⟨m, by omega, hq⟩
  have hlook : t.look? cwd { p.parent with names := p.parent.names.take k } = some .folder := by
    have hfind : t.find? cwd { p.parent with names := p.parent.names.take k } = some q := by
      unfold Tree.find?
      rw [show t.follow maxLinks (start cwd { p.parent with names := p.parent.names.take k })
        (p.parent.names.take k) = .place q from hfollow]
    rw [look?, hfind]
    exact ht.at?_eq_folder hfolder
  rw [hasFile, content?, hlook]
  rfl

theorem obstacle?_eq : t.obstacle? cwd p.parent = none := by
  have hnone : (((range p.parent.names.length).map fun n => p.parent.names.take (n + 1)).find?
      fun names => t.hasFile cwd { p.parent with names }) = none := by
    rw [find?_eq_none]
    intro names hnames
    obtain ⟨k, -, rfl⟩ := mem_map.1 hnames
    simp [h.hasFile_take_eq_false ht hcwd (k + 1)]
  simp only [obstacle?, hnone]

/-- **A regular file is written where it is read.** -/
theorem write_eq (text : Text) :
    t.write cwd p text = .ok (t.put (folder ++ [p.name]) (.text text)) := by
  simp only [write, h.obstacle?_eq ht hcwd, h.target_eq hcwd]

end Regular

/-! ## Writing in place of a file -/

theorem lookup_filter_ne {β : Type} (l : List (Place × β)) (p q : Place) :
    (l.filter fun e => e.1 ≠ p).lookup q = if q = p then none else l.lookup q := by
  induction l with
  | nil => simp
  | cons e l ih =>
    obtain ⟨r, b⟩ := e
    by_cases hr : r = p
    · subst hr
      rw [filter_cons_of_neg (by simp), ih]
      split
      · rfl
      · next hq => rw [lookup_cons, beq_false_of_ne hq]
    · rw [filter_cons_of_pos (by simpa using hr), lookup_cons, lookup_cons]
      by_cases hq : q = r
      · subst hq
        rw [beq_self_eq_true, if_neg hr]
      · rw [beq_false_of_ne hq]
        exact ih

section Put

variable {p : Place} {c : Content} (ht : t.Sound) (h : t.at? p = some (.file c))
include h

theorem exists_entry_of_at? : (p, Entry.file c) ∈ t.entries := by
  unfold at? at h
  split at h
  · next hlookup =>
    cases h
    obtain ⟨before, after, hentries, -⟩ := lookup_eq_some_iff.1 hlookup
    simp [hentries]
  · cases h
  · split at h <;> cases h

include ht

theorem put_eq (new : Content) :
    t.put p new = ⟨(t.entries.filter fun e => e.1 ≠ p) ++ [(p, .file new)], t.folders⟩ := by
  -- a file is no folder: there is neither an entry nor a listed folder below it
  have hfile := ht _ (exists_entry_of_at? h)
  simp only [isFolder, Bool.or_eq_false_iff, any_eq_false, Place.isBelow] at hfile
  obtain ⟨⟨-, hfolders⟩, hentries⟩ := hfile
  have hfolders' : (t.folders.filter fun f => !p.isPrefixOf f) = t.folders := by
    rw [filter_eq_self]
    intro f hf
    rw [Bool.not_eq_true', ← Bool.not_eq_true]
    exact hfolders f hf
  have hentries' : (t.entries.filter fun e => !p.isPrefixOf e.1)
      = t.entries.filter fun e => e.1 ≠ p := by
    refine filter_congr fun e he => ?_
    have hbelow := hentries e he
    simp only [Bool.and_eq_true, isPrefixOf_iff_prefix, decide_eq_true_eq, not_and, Nat.not_lt]
      at hbelow
    rw [Bool.eq_iff_iff]
    simp only [Bool.not_eq_true', decide_eq_true_eq, ← Bool.not_eq_true, isPrefixOf_iff_prefix]
    constructor
    · rintro hstart rfl
      exact hstart prefix_rfl
    · intro hne hstart
      exact hne (hstart.eq_of_length_le (hbelow hstart)).symm
  simp only [put, remove, hfolders', hentries']

theorem isFolder_put (new : Content) (q : Place) : (t.put p new).isFolder q = t.isFolder q := by
  have hany : ((t.entries.filter fun e => e.1 ≠ p) ++ [(p, Entry.file new)]).any
      (fun e => e.1.isBelow q) = t.entries.any fun e => e.1.isBelow q := by
    rw [Bool.eq_iff_iff]
    simp only [any_eq_true]
    constructor
    · rintro ⟨e, he, hbelow⟩
      rcases mem_append.1 he with he | he
      · exact ⟨e, (mem_filter.1 he).1, hbelow⟩
      · obtain rfl := mem_singleton.1 he
        exact ⟨_, exists_entry_of_at? h, hbelow⟩
    · rintro ⟨e, he, hbelow⟩
      by_cases hp : e.1 = p
      · exact ⟨_, mem_append_right _ (mem_singleton_self _), hp ▸ hbelow⟩
      · exact ⟨e, mem_append_left _ (mem_filter.2 ⟨he, by simpa using hp⟩), hbelow⟩
  rw [put_eq ht h, isFolder, isFolder, hany]

/-- **Writing changes one place.** -/
theorem at?_put (new : Content) (q : Place) :
    (t.put p new).at? q = if q = p then some (.file new) else t.at? q := by
  have hlookup : (t.put p new).entries.lookup q
      = if q = p then some (.file new) else t.entries.lookup q := by
    rw [put_eq ht h, lookup_append, lookup_filter_ne]
    by_cases hq : q = p
    · rw [hq]
      simp
    · rw [if_neg hq, if_neg hq, lookup_cons, beq_false_of_ne hq]
      simp
  rw [at?, at?, hlookup, isFolder_put ht h]
  by_cases hq : q = p
  · rw [if_pos hq, if_pos hq]
  · rw [if_neg hq, if_neg hq]

theorem Sound.put (new : Content) : (t.put p new).Sound := by
  intro e he
  rw [isFolder_put ht h]
  rcases mem_append.1 he with he | he
  · exact ht e (mem_filter.1 he).1
  · obtain rfl := mem_singleton.1 he
    exact ht (p, .file c) (exists_entry_of_at? h)

theorem stretch_put (new : Content) (base : Place) (names : List Text) :
    (t.put p new).stretch base names = t.stretch base names := by
  induction names generalizing base with
  | nil => rfl
  | cons name names ih =>
    simp only [stretch, at?_put ht h, ih]
    by_cases hp : base ++ [name] = p
    · simp only [hp, h, if_true]
    · simp only [if_neg hp]

theorem follow_put (new : Content) (links : Nat) (base : Place) (names : List Text) :
    (t.put p new).follow links base names = t.follow links base names := by
  induction links generalizing base names with
  | zero =>
    unfold follow
    rw [stretch_put ht h]
  | succ links ih =>
    unfold follow
    simp only [stretch_put ht h, ih]

/-- **Writing leaves all ways.** -/
theorem find?_put (new : Content) (cwd : Place) (path : Path) :
    (t.put p new).find? cwd path = t.find? cwd path := by
  rw [find?, find?, follow_put ht h]

theorem Regular.put {path : Path} {folder : Place} {old : Content}
    (hregular : t.Regular cwd path folder old)
    (hother : folder ++ [path.name] ≠ p) (new : Content) :
    (t.put p new).Regular cwd path folder old where
  named := hregular.named
  notUp := hregular.notUp
  found := by rw [find?_put ht h, hregular.found]
  file := by rw [at?_put ht h, if_neg hother, hregular.file]

end Put

end Reflow.Files.Tree
