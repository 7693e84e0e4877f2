import Reflow.Proofs.IgnorePatterns
import Reflow.Proofs.Searches

/-!
The tree of one empty file.

Every path of proper names leads to the file of a tree that holds nothing else. Nothing is said there
by an ignore file, so a search in such a tree goes by the filter alone.
-/

open List

namespace Reflow.Files

open Text

/-- The tree that holds one empty file. -/
def loneFile (names : List Text) : Tree where
  entries := [(names, .file (.text []))]

namespace Tree

/-! ## Trees without links -/

/-- No place of the tree holds a link. -/
def Linkless (t : Tree) : Prop := ∀ p target, t.at? p ≠ some (.link target)

section Linkless

variable {t : Tree} {base : Place} {way : List Text}

theorem asWritten_eq (hway : up ∉ way) : asWritten base way = base ++ way := by
  induction way generalizing base with
  | nil => simp [asWritten]
  | cons name rest ih =>
    rw [mem_cons, not_or] at hway
    rw [asWritten, foldl_cons, if_neg (Ne.symm hway.1)]
    simpa [asWritten] using @ih (base ++ [name]) hway.2

theorem Linkless.crossing?_eq_none (ht : t.Linkless) : t.crossing? base way = none := by
  induction way generalizing base with
  | nil => rfl
  | cons name rest ih =>
    rw [crossing?]
    split
    · exact ih
    · split
      · next target htarget => exact absurd htarget (ht _ _)
      · exact ih

theorem Linkless.realFrom_eq (ht : t.Linkless) (links : Nat) (pending : List (Place × Nat))
    (hway : up ∉ way) : t.realFrom links pending base way = base ++ way := by
  rw [realFrom, ht.crossing?_eq_none]
  exact asWritten_eq hway

theorem Linkless.stretch_cases (ht : t.Linkless) (hway : up ∉ way) :
    t.stretch base way = .place (base ++ way) ∨ t.stretch base way = .missing := by
  induction way generalizing base with
  | nil => simp [stretch]
  | cons name rest ih =>
    rw [mem_cons, not_or] at hway
    rw [stretch, if_neg (Ne.symm hway.1)]
    split
    · exact .inr rfl
    · simpa using @ih (base ++ [name]) hway.2
    · cases rest <;> simp
    · next target htarget => exact absurd htarget (ht _ _)

theorem Linkless.follow_cases (ht : t.Linkless) (links : Nat) (hway : up ∉ way) :
    t.follow links base way = .place (base ++ way) ∨ t.follow links base way = .missing := by
  rw [follow]
  rcases ht.stretch_cases hway with h | h
  · exact .inl (by rw [h])
  · exact .inr (by rw [h])

end Linkless

end Tree

/-! ## Looking at a lone file -/

section LoneFile

variable {names way rest : List Text}

theorem at?_loneFile (p : Place) :
    (loneFile names).at? p =
      if p = names then some (.file (.text []))
      else if p.isEmpty || Place.isBelow names p then some .folder else none := by
  by_cases hp : p = names
  · simp [Tree.at?, loneFile, hp]
  · have hlookup : (loneFile names).entries.lookup p = none := by
      have hother : (p == names) = false := beq_eq_false_iff_ne.2 hp
      simp [loneFile, lookup_cons, lookup_nil, hother]
    rw [Tree.at?, hlookup, if_neg hp]
    simp [Tree.isFolder, loneFile]

theorem linkless_loneFile : (loneFile names).Linkless := by
  intro p target
  rw [at?_loneFile]
  split
  · simp
  · split <;> simp

theorem at?_loneFile_self : (loneFile names).at? names = some (.file (.text [])) := by
  rw [at?_loneFile, if_pos rfl]

theorem at?_loneFile_above {above rest : List Text} (h : names = above ++ rest) (hrest : rest ≠ []) :
    (loneFile names).at? above = some .folder := by
  have hlength : 0 < rest.length := length_pos_iff.2 hrest
  have hbelow : Place.isBelow names above := by
    rw [Place.isBelow, h, Bool.and_eq_true, isPrefixOf_iff_prefix, decide_eq_true_iff,
      length_append]
    exact ⟨prefix_append above rest, by omega⟩
  have hne : above ≠ names := by
    intro heq
    have hsame := congrArg length (heq.trans h)
    rw [length_append] at hsame
    omega
  rw [at?_loneFile, if_neg hne, hbelow, Bool.or_true, if_pos rfl]

theorem prefix_of_at?_loneFile {p : Place} (h : ((loneFile names).at? p).isSome) : p <+: names := by
  rw [at?_loneFile] at h
  split at h
  · next heq => exact heq ▸ prefix_rfl
  · split at h
    · next hfolder =>
      rw [Bool.or_eq_true, List.isEmpty_iff, Place.isBelow, Bool.and_eq_true,
        isPrefixOf_iff_prefix] at hfolder
      rcases hfolder with rfl | ⟨hbefore, -⟩
      · exact nil_prefix
      · exact hbefore
    · simp at h

theorem stretch_loneFile (hproper : ∀ n ∈ names, ProperName n) {above way rest : List Text}
    (h : names = above ++ way ++ rest) :
    (loneFile names).stretch above way = .place (above ++ way) := by
  induction way generalizing above with
  | nil => simp [Tree.stretch]
  | cons name way ih =>
    have hname : name ≠ up := (hproper name (by simp [h])).ne_up
    rw [Tree.stretch, if_neg hname]
    by_cases hend : way ++ rest = []
    · -- the last name is that of the file
      obtain ⟨rfl, rfl⟩ := append_eq_nil_iff.1 hend
      have hself : above ++ [name] = names := by simp [h]
      rw [hself, at?_loneFile_self]
      simp
    · rw [@at?_loneFile_above names (above ++ [name]) (way ++ rest) (by simp [h]) hend]
      simpa using @ih (above ++ [name]) (by simp [h])

variable (hproper : ∀ n ∈ names, ProperName n)

include hproper

theorem find?_loneFile (fromRoot : Bool) (h : names = way ++ rest) :
    (loneFile names).find? [] ⟨fromRoot, way⟩ = some way := by
  have hstart : Tree.start [] ⟨fromRoot, way⟩ = [] := by
    cases fromRoot <;> rfl
  rw [Tree.find?, hstart, Tree.follow, stretch_loneFile hproper (by simpa using h)]
  rfl

theorem content?_loneFile (fromRoot : Bool) :
    (loneFile names).content? [] ⟨fromRoot, names⟩ = some (.text []) := by
  rw [Tree.content?, Tree.look?, find?_loneFile hproper fromRoot (append_nil names).symm,
    Option.bind_some, at?_loneFile_self]

theorem hasFolder_loneFile (fromRoot : Bool) (h : names = way ++ rest) :
    (loneFile names).hasFolder [] ⟨fromRoot, way⟩ = !rest.isEmpty := by
  rw [Tree.hasFolder, Tree.look?, find?_loneFile hproper fromRoot h, Option.bind_some]
  by_cases hrest : rest = []
  · subst hrest
    rw [append_nil] at h
    rw [← h, at?_loneFile_self]
    rfl
  · rw [at?_loneFile_above h hrest]
    simp [hrest]

theorem real_loneFile (fromRoot : Bool) (h : names = way ++ rest) :
    (loneFile names).real [] ⟨fromRoot, way⟩ = way := by
  have hup : up ∉ way := fun hmem => (hproper up (by simp [h, hmem])).ne_up rfl
  have hstart : Tree.start [] ⟨fromRoot, way⟩ = [] := by
    cases fromRoot <;> rfl
  rw [Tree.real, hstart, linkless_loneFile.realFrom_eq _ _ hup]
  rfl

omit hproper in
theorem prefix_of_look?_loneFile {fromRoot : Bool} {way : List Text} (hup : up ∉ way)
    (h : ((loneFile names).look? [] ⟨fromRoot, way⟩).isSome) : way <+: names := by
  have hstart : Tree.start [] ⟨fromRoot, way⟩ = [] := by
    cases fromRoot <;> rfl
  rw [Tree.look?, Tree.find?, hstart] at h
  rcases linkless_loneFile.follow_cases Tree.maxLinks hup with hplace | hmissing
  · rw [hplace] at h
    exact prefix_of_at?_loneFile (by simpa using h)
  · rw [hmissing] at h
    simp at h

end LoneFile

/-! ## Searching in the tree of a lone file -/

section Search

variable {names : List Text}

theorem read_loneFile {p : Place} {text : Text}
    (h : (loneFile names).read [] (.ofPlace p) = .ok text) : text = [] := by
  unfold Tree.read at h
  split at h
  · next c hlook =>
    obtain ⟨place, -, hat⟩ := Option.bind_eq_some_iff.1 hlook
    rw [at?_loneFile] at hat
    split at hat
    · cases hat
      cases h
      rfl
    · split at hat <;> cases hat
  · cases h
  · dsimp only at h
    split at h <;> cases h

theorem readIgnoreFile_loneFile (p : Place) : readIgnoreFile (loneFile names) p = .ok none := by
  unfold readIgnoreFile
  cases hread : (loneFile names).read [] (.ofPlace p) with
  | error e => rfl
  | ok text =>
    rw [read_loneFile hread]
    rfl

theorem folderIgnore_loneFile (folder : Place) : folderIgnore (loneFile names) folder = .ok none :=
  readIgnoreFile_loneFile _

theorem toolIgnore_loneFile (toolName : Text) (folder : Place) :
    toolIgnore (loneFile names) toolName folder = .ok none := by
  unfold toolIgnore
  dsimp only
  split
  · exact readIgnoreFile_loneFile _
  · rfl

namespace Resolver

variable {r : Resolver}

theorem listsAt_loneFile (root : Place) (above : List Text) :
    r.listsAt (loneFile names) root above = [] := by
  simp [listsAt, gitignoreAt, folderIgnore_loneFile]

theorem toolAt_loneFile (root : Place) : r.toolAt (loneFile names) root = none := by
  rw [toolAt, toolIgnoreAt, toolIgnore_loneFile]

variable (hne : names ≠ []) (hproper : ∀ n ∈ names, ProperName n)
include hproper

theorem isTooLarge_loneFile (hsize : 0 ≤ r.filter.maxSize) (fromRoot : Bool) :
    r.isTooLarge (loneFile names) [] ⟨fromRoot, names⟩ = false := by
  have hempty : (Content.text []).size = 0 := rfl
  rw [isTooLarge, content?_loneFile hproper fromRoot]
  simp [hempty, hsize]

theorem exists_run_loneFile {written : Text}
    (hglob : ∀ e, (loneFile names).glob [] (.ofText written) ≠ .error e)
    (hfound : (loneFile names).hasFolder [] (.ofText written) ∨ written.any isWildcard) :
    ∃ found k, (r.resolve (loneFile names) [] [written]).run {} = .ok (found, k) := by
  rcases @gives_resolve r (loneFile names) [] [written] with hgives | ⟨e, hobstacle, -⟩
  · obtain ⟨k, -, hrun⟩ := hgives {} (Known.faithful_empty _ _)
    exact ⟨_, k, hrun⟩
  · exfalso
    cases hobstacle with
    | folder h =>
      rw [folderIgnore_loneFile] at h
      cases h
    | tool h =>
      rw [toolIgnore_loneFile] at h
      cases h
    | @loop root p hp h =>
      rw [candidates, mem_filter] at hp
      have hself : p = names := by simpa [loneFile] using hp.1
      have hreal : (loneFile names).real [] (.ofPlace names) = names :=
        real_loneFile hproper true (append_nil names).symm
      rw [hself, hreal, Tree.isEndless, decide_eq_true_iff] at h
      have hup : up ∉ names := fun hmem => (hproper up hmem).ne_up rfl
      rcases linkless_loneFile.follow_cases Tree.maxLinks hup with hplace | hmissing
      · exact absurd (hplace.symm.trans h) (by simp)
      · exact absurd (hmissing.symm.trans h) (by simp)
    | glob hmem h =>
      rw [mem_singleton.1 hmem] at h
      exact hglob _ h
    | notFound hmem hfile hfolder hwild =>
      rw [mem_singleton.1 hmem] at hfolder hwild
      rcases hfound with h | h
      · rw [h] at hfolder
        cases hfolder
      · rw [h] at hwild
        cases hwild

include hne

theorem sees_loneFile (hsize : 0 ≤ r.filter.maxSize)
    (hwanted : r.wanted.covers (names.getLast?.getD [])) (hopen : ¬ r.unwanted.StopsFolder names) :
    r.sees (loneFile names) [] names := by
  have hway : r.isOpen (loneFile names) [] [] names.dropLast := by
    rw [isOpen_iff]
    intro way name rest hsplit
    have hnames : names = way ++ name :: (rest ++ [names.getLast hne]) := by
      rw [← cons_append, ← append_assoc, ← hsplit, dropLast_append_getLast]
    rw [listsAt_loneFile, toolAt_loneFile]
    cases hcloses : r.closes [] none ([] ++ way ++ [name]) with
    | false => rfl
    | true =>
      refine absurd ⟨way, name, _, hnames, by simp, ?_⟩ hopen
      simpa [closes] using hcloses
  have hsmall : r.isTooLarge (loneFile names) [] (.ofPlace ([] ++ names)) = false :=
    isTooLarge_loneFile hproper hsize true
  rw [sees, hway, hsmall, listsAt_loneFile, toolAt_loneFile, takesName, hwanted]
  rfl

theorem candidates_loneFile : names ∈ candidates (loneFile names) [] := by
  have hlength : 0 < names.length := length_pos_iff.2 hne
  have hfolder : (loneFile names).hasFolder [] (.ofPlace names) = false :=
    hasFolder_loneFile hproper true (append_nil names).symm
  rw [candidates, mem_filter, hfolder, Place.isBelow]
  simp [loneFile, hlength]

/-! ### Wildcards -/

/-- Everything is in some folder, and is matched there by a pattern that takes its name. -/
theorem mem_select_loneFile {pattern : Pattern} (hpattern : pattern.accepts (names.getLast hne)) :
    (⟨false, names⟩ : Path) ∈
      Step.select (loneFile names) [] [.everyFolder, .matching pattern] ⟨false, []⟩ := by
  have hsplit : names = names.dropLast ++ [names.getLast hne] :=
    (dropLast_append_getLast hne).symm
  have hfolders : names.dropLast ∈ (loneFile names).allFolders := by
    have hself : names.dropLast ∈ Place.ancestors names.dropLast := by
      rw [Place.ancestors, mem_map]
      exact ⟨names.dropLast.length, by simp, take_length⟩
    simpa [Tree.allFolders, loneFile, mem_eraseDups] using hself
  have hchild : names.getLast hne ∈ (loneFile names).children names.dropLast := by
    have hbelow : Place.isBelow names names.dropLast := by
      have hlength : 0 < names.length := length_pos_iff.2 hne
      rw [Place.isBelow, Bool.and_eq_true, isPrefixOf_iff_prefix, decide_eq_true_iff,
        length_dropLast]
      exact ⟨List.dropLast_prefix names, by omega⟩
    simp [Tree.children, loneFile, mem_eraseDups, hbelow, getLast_eq_getElem]
  have htop : (loneFile names).find? [] ⟨false, []⟩ = some [] :=
    find?_loneFile hproper false (nil_append names).symm
  have hfolder : (loneFile names).find? [] ⟨false, names.dropLast⟩ = some names.dropLast :=
    find?_loneFile hproper false hsplit
  -- down to the folder of the file, and from there by the pattern
  simp only [Step.select, htop, mem_flatMap, mem_filter]
  refine ⟨names.dropLast, ⟨hfolders, by simp⟩, ?_⟩
  simp only [Place.relativeTo, length_nil, drop_zero, nil_append, hfolder,
    mem_flatMap]
  refine ⟨names.getLast hne, hchild, ?_⟩
  rw [hpattern]
  simp [Path.child, dropLast_append_getLast hne]

/-- There is a path with wildcards that matches the file and is no name of anything there. -/
theorem exists_glob_loneFile :
    ∃ written steps, written.any isWildcard ∧
      (loneFile names).look? [] (.ofText written) = none ∧
      globParts (.ofText written) = .ok (⟨false, []⟩, steps) ∧
      (⟨false, names⟩ : Path) ∈ Step.select (loneFile names) [] steps ⟨false, []⟩ := by
  have hlook : ∀ {step : Text}, step ≠ up → ¬ [doubleStar, step] <+: names →
      (loneFile names).look? [] ⟨false, [doubleStar, step]⟩ = none := by
    intro step hstep hnot
    cases hlook : (loneFile names).look? [] ⟨false, [doubleStar, step]⟩ with
    | none => rfl
    | some found =>
      refine absurd (prefix_of_look?_loneFile ?_ (by rw [hlook]; rfl)) hnot
      simpa [up, doubleStar, eq_comm] using hstep
  have hparts : ∀ {step : Text} {pattern : Pattern}, Step.ofText step = .ok (.matching pattern) →
      globParts ⟨false, [doubleStar, step]⟩
        = .ok (⟨false, []⟩, [.everyFolder, .matching pattern]) := by
    intro step pattern hstep
    have hfirst : Step.ofText doubleStar = .ok .everyFolder := rfl
    have hstars : doubleStar.any isWildcard := by decide
    simp [globParts, hstars, hfirst, hstep, bind, Except.bind, pure, Except.pure]
  by_cases hstar : [doubleStar, ['*']] <+: names
  · -- the other wildcards for any name are then no name of anything
    have hnot : ¬ [doubleStar, ['?', '*']] <+: names := by
      intro hother
      have hsame := (prefix_of_prefix_length_le hstar hother (by simp)).eq_of_length rfl
      simp at hsame
    have hstep : Step.ofText ['?', '*'] = .ok (.matching [.one .anything, .many .anything]) := by
      simp [Step.ofText, Step.pattern, includes, cut?, isWildcard]
    refine ⟨['*', '*', '/', '?', '*'], _, by decide, hlook (by decide) hnot, hparts hstep,
      mem_select_loneFile hne hproper ?_⟩
    obtain ⟨c, cs, hlast⟩ := exists_cons_of_ne_nil (hproper _ (getLast_mem hne)).ne_nil
    rw [Pattern.accepts_iff_takes, hlast]
    exact ⟨[c], cs, rfl, ⟨c, rfl, rfl⟩, by simp [Pattern.PieceTakes, CharClass.accepts]⟩
  · have hstep : Step.ofText ['*'] = .ok (.matching [.many .anything]) := by
      simp [Step.ofText, Step.pattern, includes, cut?, isWildcard]
    refine ⟨['*', '*', '/', '*'], _, by decide, hlook (by decide) hstar, hparts hstep,
      mem_select_loneFile hne hproper ?_⟩
    rw [Pattern.accepts_iff_takes]
    simp [Pattern.PieceTakes, CharClass.accepts]

end Resolver

end Search

end Reflow.Files
