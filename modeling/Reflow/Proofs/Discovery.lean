import Reflow.Proofs.IgnoreLines
import Reflow.Proofs.LoneFile

/-!
Exclusions, and the files that a search finds.

A file is *excluded* if a list leaves out its path. A walk does not ask that: it asks about the
names one by one, and wildcards ask about no list at all. So a walk keeps to the lists that *go by
names*: of every path that such a list leaves out it leaves out a folder on the way, or a name by
itself.
-/

open List

namespace Reflow.Files

open Text

/-- The path that goes on with names. -/
def Path.below (p : Path) (names : List Text) : Path := { p with names := p.names ++ names }

/-- Everything in the tree has a name that a file system allows. -/
def Tree.Proper (t : Tree) : Prop := ∀ e ∈ t.entries, ∀ n ∈ e.1, ProperName n

instance (t : Tree) : Decidable t.Proper := inferInstanceAs (Decidable (∀ e ∈ t.entries, _))

namespace Resolver

/-! ## Files that are found -/

/-- The input is a folder, and the walk from it finds the file that the names lead to. -/
structure Walks (r : Resolver) (t : Tree) (cwd : Place) (written : Text) (root : Place)
    (names : List Text) : Prop where
  notFile : t.hasFile cwd (.ofText written) = false
  isFolder : t.hasFolder cwd (.ofText written) = true
  root_eq : root = t.real cwd (.ofText written)
  candidate : root ++ names ∈ candidates t root
  seen : r.sees t root names = true

/-- The input is a path with wildcards that matches the file to which the names lead from the folder
before the first wildcard. -/
structure Matches (r : Resolver) (t : Tree) (cwd : Place) (written : Text) (top : Path)
    (names : List Text) : Prop where
  notFile : t.hasFile cwd (.ofText written) = false
  notFolder : t.hasFolder cwd (.ofText written) = false
  parts : ∃ steps, globParts (.ofText written) = .ok (top, steps) ∧ t.hasFolder cwd top = true ∧
    top.below names ∈ Step.select t cwd steps top
  isFile : t.hasFile cwd (top.below names) = true
  wanted : r.wanted.covers (top.below names).name = true
  small : r.isTooLarge t cwd (top.below names) = false

/-- The input is a file, and it is taken. -/
structure Names (r : Resolver) (t : Tree) (cwd : Place) (written : Text) : Prop where
  isFile : t.hasFile cwd (.ofText written) = true
  taken : r.takesOutright t cwd (.ofText written) = true

section Found

variable {r : Resolver} {t : Tree} {cwd : Place}

theorem exists_below_of_mem_select {steps : List Step} {p q : Path}
    (h : q ∈ Step.select t cwd steps p) : ∃ names, q = p.below names := by
  induction steps generalizing p with
  | nil =>
    rw [Step.select, mem_singleton] at h
    exact ⟨[], by simp [h, Path.below]⟩
  | cons step rest ih =>
    -- each step goes on with names, and the steps after it with more
    have hgo : ∀ names, q ∈ Step.select t cwd rest (p.below names) → ∃ ns, q = p.below ns := by
      intro names hq
      obtain ⟨more, rfl⟩ := ih hq
      exact ⟨names ++ more, by simp [Path.below]⟩
    cases step with
    | named name =>
      simp only [Step.select] at h
      generalize (if rest.isEmpty then t.has cwd (p.child name) else t.hasFolder cwd (p.child name))
        = goes at h
      cases goes with
      | false => simp at h
      | true =>
        exact hgo [name] h
    | matching pattern =>
      simp only [Step.select] at h
      split at h
      · simp at h
      · obtain ⟨name, -, hname⟩ := mem_flatMap.1 h
        split at hname
        · exact hgo [name] hname
        · simp at hname
    | everyFolder =>
      simp only [Step.select] at h
      split at h
      · simp at h
      · obtain ⟨folder, -, hfolder⟩ := mem_flatMap.1 h
        exact hgo _ hfolder

theorem mem_foundBy_glob_iff {written : Text} (hfile : t.hasFile cwd (.ofText written) = false)
    (hfolder : t.hasFolder cwd (.ofText written) = false) (f : Place) :
    f ∈ r.foundBy t cwd written ↔
      ∃ top names, r.Matches t cwd written top names ∧ f = t.real cwd (top.below names) := by
  simp only [foundBy, hfile, hfolder, Bool.false_eq_true, if_false, expand, Tree.glob]
  cases hparts : globParts (.ofText written) with
  | error e =>
    simp only [bind, Except.bind, not_mem_nil, false_iff]
    rintro ⟨top, names, hmatch, -⟩
    obtain ⟨steps, hparts', -⟩ := hmatch.parts
    rw [hparts] at hparts'
    cases hparts'
  | ok parts =>
    obtain ⟨top, steps⟩ := parts
    simp only [bind, Except.bind, pure, Except.pure, mem_map, mem_filter,
      Bool.and_eq_true, Bool.not_eq_true']
    constructor
    · rintro ⟨q, ⟨hq, ⟨hisFile, hwanted⟩, hsmall⟩, rfl⟩
      split at hq
      · next htop =>
        obtain ⟨names, rfl⟩ := exists_below_of_mem_select hq
        exact ⟨top, names, ⟨hfile, hfolder, ⟨steps, hparts, htop, hq⟩, hisFile, hwanted, hsmall⟩, rfl⟩
      · simp at hq
    · rintro ⟨top', names, hmatch, rfl⟩
      obtain ⟨steps', hparts', htop, hq⟩ := hmatch.parts
      rw [hparts] at hparts'
      cases hparts'
      exact ⟨_, ⟨by rwa [if_pos htop], ⟨hmatch.isFile, hmatch.wanted⟩, hmatch.small⟩, rfl⟩

theorem exists_names_of_mem_candidates {root p : Place} (h : p ∈ candidates t root) :
    ∃ names, names ≠ [] ∧ p = root ++ names := by
  rw [candidates, mem_filter, Bool.and_eq_true, Place.isBelow, Bool.and_eq_true,
    isPrefixOf_iff_prefix, decide_eq_true_iff] at h
  obtain ⟨-, ⟨⟨names, rfl⟩, hlength⟩, -⟩ := h
  refine ⟨names, ?_, rfl⟩
  rintro rfl
  simp at hlength

theorem mem_foundBy_walk_iff {written : Text} (hfile : t.hasFile cwd (.ofText written) = false)
    (hfolder : t.hasFolder cwd (.ofText written)) (f : Place) :
    f ∈ r.foundBy t cwd written ↔ ∃ root names, r.Walks t cwd written root names ∧
      f = t.real [] (.ofPlace (root ++ names)) := by
  simp only [foundBy, hfile, hfolder, Bool.false_eq_true, if_false, if_true, mem_map,
    mem_filter]
  constructor
  · rintro ⟨p, ⟨hp, hseen⟩, rfl⟩
    obtain ⟨names, -, rfl⟩ := exists_names_of_mem_candidates hp
    refine ⟨_, names, ⟨hfile, hfolder, rfl, hp, ?_⟩, rfl⟩
    simpa [Place.relativeTo] using hseen
  · rintro ⟨root, names, hwalk, rfl⟩
    obtain rfl := hwalk.root_eq
    refine ⟨_, ⟨hwalk.candidate, ?_⟩, rfl⟩
    simpa [Place.relativeTo] using hwalk.seen

/-- **How a file is found**: it is named, or walked to, or matched by a pattern. -/
theorem mem_foundBy_iff (written : Text) (f : Place) :
    f ∈ r.foundBy t cwd written ↔
      (r.Names t cwd written ∧ f = t.real cwd (.ofText written)) ∨
      (∃ root names, r.Walks t cwd written root names ∧ f = t.real [] (.ofPlace (root ++ names))) ∨
      (∃ top names, r.Matches t cwd written top names ∧ f = t.real cwd (top.below names)) := by
  -- an input is a file, a folder or neither, and each kind of finding goes with one of these
  by_cases hfile : t.hasFile cwd (.ofText written)
  · have hwalk : ∀ {root names}, ¬ r.Walks t cwd written root names := by
      intro root names h
      simpa [hfile] using h.notFile
    have hmatch : ∀ {top names}, ¬ r.Matches t cwd written top names := by
      intro top names h
      simpa [hfile] using h.notFile
    have hnames : r.Names t cwd written ↔ r.takesOutright t cwd (.ofText written) :=
      ⟨Names.taken, fun h => ⟨hfile, h⟩⟩
    simp only [foundBy, hfile, if_true, hwalk, hmatch, hnames, false_and, exists_false, or_false]
    split <;> simp_all
  · have hnames : ¬ r.Names t cwd written := fun h => hfile h.isFile
    rw [Bool.not_eq_true] at hfile
    by_cases hfolder : t.hasFolder cwd (.ofText written)
    · have hmatch : ∀ {top names}, ¬ r.Matches t cwd written top names := by
        intro top names h
        simpa [hfolder] using h.notFolder
      simp only [mem_foundBy_walk_iff hfile hfolder, hnames, hmatch, false_and, exists_false,
        or_false, false_or]
    · have hwalk : ∀ {root names}, ¬ r.Walks t cwd written root names :=
        fun h => hfolder h.isFolder
      rw [Bool.not_eq_true] at hfolder
      simp only [mem_foundBy_glob_iff hfile hfolder, hnames, hwalk, false_and, exists_false,
        false_or]

theorem mem_resolve_iff {inputs : List Text} {k k' : Known} {found : List Place}
    (hk : k.Faithful t r.filter.toolName) (h : (r.resolve t cwd inputs).run k = .ok (found, k')) :
    k'.Faithful t r.filter.toolName ∧
      ∀ f, f ∈ found ↔ ∃ written ∈ inputs, f ∈ r.foundBy t cwd written := by
  rcases gives_resolve with hgives | ⟨e, -, hfails⟩
  · obtain ⟨k'', hk'', hrun⟩ := hgives k hk
    rw [h] at hrun
    cases hrun
    exact ⟨hk'', fun f => by simp [mem_mergeSort, mem_eraseDups, mem_foldl_gathered_iff]⟩
  · rw [hfails k hk] at h
    cases h

end Found

/-! ## Files that are excluded -/

/-- The lists leave out what the names lead to from the root of a search: the excluded names and the
list of the tool by the path from the root, an ignore file on the way by the path from its folder. -/
def Excluded (r : Resolver) (t : Tree) (root : Place) (names : List Text) : Prop :=
  r.unwanted.covers (joinWith ['/'] names) = true ∨
  (∃ l, r.toolAt t root = some l ∧ l.covers (joinWith ['/'] names) = true) ∨
  (r.filter.respectGitignore = true ∧ ∃ above rest l, names = above ++ rest ∧ rest ≠ [] ∧
    gitignoreAt t (root ++ above) = some l ∧ l.covers (joinWith ['/'] rest) = true)

/-- The names lead to something that can be there and that carries a wanted name. -/
structure Wants (r : Resolver) (names : List Text) : Prop where
  ne_nil : names ≠ []
  proper : ∀ n ∈ names, ProperName n
  wanted : r.wanted.covers (names.getLast?.getD []) = true

/-- Whatever wanted file the excluded names leave out, they leave out a folder on the way to it. -/
def ExcludesByFolder (r : Resolver) : Prop :=
  ∀ names, r.Wants names → r.unwanted.covers (joinWith ['/'] names) = true →
    r.unwanted.StopsFolder names

/-- The lists that hold for a walk to a file go by names, in the way in which the walk asks them. -/
structure ListsGoByNames (r : Resolver) (t : Tree) (root : Place) (names : List Text) : Prop where
  unwanted : r.ExcludesByFolder
  tool : ∀ l, r.toolAt t root = some l → l.GoesByFoldersOrNames
  lists : r.filter.respectGitignore = true → ∀ above rest l, names = above ++ rest →
    gitignoreAt t (root ++ above) = some l → l.GoesByNames

/-- The lines of the lists are of the kinds that a walk keeps to: those of the excluded names end with
a slash, those of the ignore files on the way are of one name, and those of the tool are of either
kind. -/
structure LinesGoByNames (f : Filter) (t : Tree) (root : Place) (names : List Text) : Prop where
  excludes : ∀ line ∈ f.allExcludes, IgnorePattern.isFolderLine line = true
  tool : ∀ above ∈ root.upward, ∀ text,
    t.read [] (.ofPlace (above ++ [['.'] ++ f.toolName ++ "ignore".toList])) = .ok text →
    ∀ line ∈ activeLines text,
      IgnorePattern.isFolderLine line = true ∨ IgnorePattern.isNameLine line = true
  lists : ∀ above rest text, names = above ++ rest →
    t.read [] (.ofPlace (root ++ above ++ [".gitignore".toList])) = .ok text →
    ∀ line ∈ activeLines text, IgnorePattern.isNameLine line = true

section Seen

variable {r : Resolver} {t : Tree} {root : Place} {names : List Text}

variable {above : List Text} {name : Text} {lists : List IgnoreList} {l : IgnoreList}

theorem closes_eq_false (h : r.sees t root names) {rest : List Text}
    (hsplit : names = above ++ name :: rest) (hrest : rest ≠ []) :
    r.closes (r.listsAt t root above) (r.toolAt t root) (above ++ [name]) = false := by
  rw [sees, Bool.and_eq_true, isOpen_iff] at h
  have hway : names.dropLast = above ++ name :: rest.dropLast := by
    rw [hsplit, dropLast_append_of_ne_nil (by simp), dropLast_cons_of_ne_nil hrest]
  simpa using h.1 above name rest.dropLast hway

theorem takesName_eq_true (h : r.sees t root names) (hsplit : names = above ++ [name]) :
    r.takesName (r.listsAt t root above) (r.toolAt t root) name := by
  rw [sees, Bool.and_eq_true, Bool.and_eq_true] at h
  simpa [hsplit] using h.2.1

theorem closes_of_unwanted {tool : Option IgnoreList}
    (h : r.unwanted.covers (name ++ ['/']) ∨
      r.unwanted.covers (joinWith ['/'] (above ++ [name]) ++ ['/'])) :
    r.closes lists tool (above ++ [name]) := by
  rcases h with h | h <;> simp [closes, h]

theorem closes_of_tool
    (h : l.covers (name ++ ['/']) ∨ l.covers (joinWith ['/'] (above ++ [name]) ++ ['/'])) :
    r.closes lists (some l) (above ++ [name]) := by
  rcases h with h | h <;> simp [closes, h]

theorem closes_of_list {tool : Option IgnoreList} (hl : l ∈ lists) (h : l.covers (name ++ ['/'])) :
    r.closes lists tool (above ++ [name]) := by
  have hany : (lists.any fun l => l.covers (name ++ ['/'])) :=
    any_eq_true.2 ⟨l, hl, h⟩
  simp [closes, hany]

theorem mem_ancestors (above more : List Text) : above ∈ Place.ancestors (above ++ more) := by
  rw [Place.ancestors, mem_map]
  refine ⟨above.length, ?_, by simp⟩
  rw [mem_range, length_append]
  omega

theorem mem_listsAt (hrespect : r.filter.respectGitignore)
    (hl : gitignoreAt t (root ++ above) = some l) (more : List Text) :
    l ∈ r.listsAt t root (above ++ more) := by
  rw [listsAt, if_pos hrespect, mem_filterMap]
  exact ⟨above, mem_ancestors above more, hl⟩

theorem not_stopsFolder_unwanted (h : r.sees t root names) : ¬ r.unwanted.StopsFolder names := by
  rintro ⟨above, name, rest, hsplit, hrest, hcovers⟩
  have hopen := closes_eq_false h hsplit hrest
  rw [closes_of_unwanted hcovers] at hopen
  cases hopen

theorem not_stopsFolder_tool (h : r.sees t root names) (hl : r.toolAt t root = some l) :
    ¬ l.StopsFolder names := by
  rintro ⟨above, name, rest, hsplit, hrest, hcovers⟩
  have hopen := closes_eq_false h hsplit hrest
  rw [hl, closes_of_tool hcovers] at hopen
  cases hopen

theorem not_stopsName_tool (h : r.sees t root names) (hl : r.toolAt t root = some l) :
    ¬ l.StopsName names := by
  rintro ⟨above, name, rest, hsplit, hcovers⟩
  cases rest with
  | nil =>
    have htaken := takesName_eq_true h hsplit
    rw [hl] at htaken
    simp only [isEmpty_nil, if_true] at hcovers
    simp [takesName, hcovers] at htaken
  | cons n rest =>
    exact not_stopsFolder_tool h hl ⟨above, name, n :: rest, hsplit, by simp, .inl hcovers⟩

theorem not_stopsName_list (h : r.sees t root names)
    (hrespect : r.filter.respectGitignore) {rest : List Text}
    (hsplit : names = above ++ rest) (hl : gitignoreAt t (root ++ above) = some l) :
    ¬ l.StopsName rest := by
  rintro ⟨way, name, below, rfl, hcovers⟩
  -- the list is asked in its own folder and in every folder below
  have hmem := mem_listsAt hrespect hl way
  rw [← append_assoc] at hsplit
  cases below with
  | nil =>
    have htaken := takesName_eq_true h hsplit
    have hany : ((r.listsAt t root (above ++ way)).any fun l => l.covers name) :=
      any_eq_true.2 ⟨l, hmem, hcovers⟩
    simp [takesName, hany] at htaken
  | cons n below =>
    have hopen := closes_eq_false h hsplit (by simp)
    rw [closes_of_list hmem hcovers] at hopen
    cases hopen

theorem wants_of_sees (hne : names ≠ []) (hproper : ∀ n ∈ names, ProperName n)
    (h : r.sees t root names) : r.Wants names := by
  refine ⟨hne, hproper, ?_⟩
  rw [sees, Bool.and_eq_true, Bool.and_eq_true, takesName, Bool.and_eq_true, Bool.and_eq_true] at h
  exact h.2.1.1.1

theorem not_excluded_of_sees (hne : names ≠ []) (hproper : ∀ n ∈ names, ProperName n)
    (h : r.sees t root names) (hlists : r.ListsGoByNames t root names) :
    ¬ r.Excluded t root names := by
  rintro (hcovers | ⟨l, hl, hcovers⟩ | ⟨hrespect, above, rest, l, hsplit, hrest, hl, hcovers⟩)
  · exact not_stopsFolder_unwanted h (hlists.unwanted names (wants_of_sees hne hproper h) hcovers)
  · rcases hlists.tool l hl names hne hproper hcovers with hstops | hstops
    · exact not_stopsFolder_tool h hl hstops
    · exact not_stopsName_tool h hl hstops
  · have hproper' : ∀ n ∈ rest, ProperName n := fun n hn => hproper n (by simp [hsplit, hn])
    have hnames : l.GoesByNames := hlists.lists hrespect above rest l hsplit hl
    exact not_stopsName_list h hrespect hsplit hl (hnames rest hrest hproper' hcovers)

theorem ofFilter_cases {f : Filter} (h : ofFilter f = .ok r) :
    r.filter = f ∧ IgnoreList.ofLines f.allExcludes = .ok r.unwanted ∧
      IgnoreList.ofLines f.allIncludes = .ok r.wanted := by
  unfold ofFilter at h
  cases hunwanted : IgnoreList.ofLines f.allExcludes with
  | error e => simp [hunwanted, bind, Except.bind] at h
  | ok unwanted =>
    cases hwanted : IgnoreList.ofLines f.allIncludes with
    | error e => simp [hunwanted, hwanted, bind, Except.bind] at h
    | ok wanted =>
      simp only [hunwanted, hwanted, bind, Except.bind, pure, Except.pure, Except.ok.injEq] at h
      subst h
      exact ⟨rfl, rfl, rfl⟩

theorem listsGoByNames_of_lines {f : Filter} (hr : ofFilter f = .ok r)
    (h : LinesGoByNames f t root names) : r.ListsGoByNames t root names := by
  obtain ⟨rfl, hunwanted, -⟩ := ofFilter_cases hr
  refine ⟨?_, ?_, ?_⟩
  · intro names hwants hcovers
    exact (IgnoreList.goes_of_lines hunwanted).1 h.excludes names hwants.ne_nil hwants.proper hcovers
  · intro l hl
    obtain ⟨above, habove, text, hread, hlines⟩ := lines_of_toolIgnoreAt hl
    exact (IgnoreList.goes_of_lines hlines).2.2 (h.tool above habove text hread)
  · intro _ above rest l hsplit hl
    obtain ⟨text, hread, hlines⟩ := lines_of_gitignoreAt hl
    exact (IgnoreList.goes_of_lines hlines).2.1 (h.lists above rest text hsplit hread)

end Seen

/-! ## Which exclusions hold -/

section Excludes

variable {r : Resolver}

variable {t : Tree} {cwd : Place} {names : List Text}

theorem Walks.names_proper (ht : t.Proper) {root : Place} {written : Text}
    (h : r.Walks t cwd written root names) : names ≠ [] ∧ ∀ n ∈ names, ProperName n := by
  constructor
  · obtain ⟨names', hne, hsame⟩ := exists_names_of_mem_candidates h.candidate
    rwa [append_cancel_left hsame]
  · intro n hn
    have hmem := (mem_filter.1 h.candidate).1
    obtain ⟨e, he, hplace⟩ := mem_map.1 hmem
    apply ht e he
    rw [hplace]
    exact mem_append_right root hn

theorem hasFile_eq_false_of_hasFolder {p : Path} (h : t.hasFolder cwd p) :
    t.hasFile cwd p = false := by
  rw [Tree.hasFolder, beq_iff_eq] at h
  rw [Tree.hasFile, Tree.content?, h]
  rfl

theorem Matches.wants {written : Text} {top : Path} (h : r.Matches t cwd written top names)
    (hproper : ∀ n ∈ names, ProperName n) : r.Wants names := by
  -- the folder before the first wildcard is not a file
  have hne : names ≠ [] := by
    rintro rfl
    obtain ⟨steps, -, htop, -⟩ := h.parts
    have hfile := h.isFile
    rw [show top.below [] = top by simp [Path.below], hasFile_eq_false_of_hasFolder htop] at hfile
    cases hfile
  refine ⟨hne, hproper, ?_⟩
  have hwanted := h.wanted
  rwa [Path.name, Path.below, getLast?_append_of_ne_nil _ hne] at hwanted

theorem proper_loneFile (hproper : ∀ n ∈ names, ProperName n) : (loneFile names).Proper := by
  simpa [Tree.Proper, loneFile] using hproper

/-- The excluded names hold for the walk of the tree of a lone file only if they exclude a folder on
the way. -/
theorem exists_walk_loneFile (hsize : 0 ≤ r.filter.maxSize) (hwants : r.Wants names)
    (hopen : ¬ r.unwanted.StopsFolder names) :
    r.Walks (loneFile names) [] ['.'] [] names ∧
      ∃ found k, (r.resolve (loneFile names) [] [['.']]).run {} = .ok (found, k) := by
  have hhere : Path.ofText ['.'] = ⟨false, []⟩ := by decide
  have hfolder : (loneFile names).hasFolder [] (.ofText ['.']) := by
    rw [hhere, hasFolder_loneFile hwants.proper false (nil_append names).symm]
    simp [hwants.ne_nil]
  constructor
  · refine ⟨hasFile_eq_false_of_hasFolder hfolder, hfolder, ?_, ?_, ?_⟩
    · rw [hhere, real_loneFile hwants.proper false (nil_append names).symm]
    · exact candidates_loneFile hwants.ne_nil hwants.proper
    · exact sees_loneFile hwants.ne_nil hwants.proper hsize hwants.wanted hopen
  · refine exists_run_loneFile hwants.proper ?_ (.inl hfolder)
    simp [hhere, Tree.glob, globParts, bind, Except.bind, pure, Except.pure]

theorem exists_match_loneFile (hsize : 0 ≤ r.filter.maxSize) (hwants : r.Wants names) :
    ∃ written, r.Matches (loneFile names) [] written ⟨false, []⟩ names ∧
      ∃ found k, (r.resolve (loneFile names) [] [written]).run {} = .ok (found, k) := by
  obtain ⟨written, steps, hwild, hlook, hparts, hselect⟩ :=
    exists_glob_loneFile hwants.ne_nil hwants.proper
  have htop : (loneFile names).hasFolder [] ⟨false, []⟩ := by
    rw [hasFolder_loneFile hwants.proper false (nil_append names).symm]
    simp [hwants.ne_nil]
  refine ⟨written, ⟨?_, ?_, ⟨steps, hparts, htop, hselect⟩, ?_, hwants.wanted, ?_⟩, ?_⟩
  · rw [Tree.hasFile, Tree.content?, hlook]
    rfl
  · rw [Tree.hasFolder, hlook]
    rfl
  · exact congrArg Option.isSome (content?_loneFile hwants.proper false)
  · exact isTooLarge_loneFile hwants.proper hsize false
  · refine exists_run_loneFile hwants.proper ?_ (.inr hwild)
    simp [Tree.glob, hparts, bind, Except.bind, pure, Except.pure]

end Excludes

/-- **Which exclusions hold for the files that a search finds.** From every state that holds only what
the tree says, a search gives the files that are named outright, found by a walk or matched by
wildcards, and leaves such a state. A walk finds nothing excluded if the lists go by names, which
lists do that are made of lines that end with a slash and lines of one name. A walk keeps to the
excluded names in every tree if and only if they leave out a folder on the way to every wanted file
that they leave out; wildcards do so if and only if they leave out no wanted file at all. -/
theorem exclusions_of_found_files (r : Resolver) :
    (∀ t cwd inputs k found k', k.Faithful t r.filter.toolName →
      (r.resolve t cwd inputs).run k = .ok (found, k') →
      k'.Faithful t r.filter.toolName ∧ ∀ f, f ∈ found ↔ ∃ written ∈ inputs,
        (r.Names t cwd written ∧ f = t.real cwd (.ofText written)) ∨
        (∃ root names, r.Walks t cwd written root names ∧
          f = t.real [] (.ofPlace (root ++ names))) ∨
        (∃ top names, r.Matches t cwd written top names ∧ f = t.real cwd (top.below names))) ∧
    (∀ t cwd written root names, t.Proper → r.Walks t cwd written root names →
      r.ListsGoByNames t root names → ¬ r.Excluded t root names) ∧
    (∀ f t root names, ofFilter f = .ok r → LinesGoByNames f t root names →
      r.ListsGoByNames t root names) ∧
    (0 ≤ r.filter.maxSize →
      ((∀ t cwd inputs found k, t.Proper → (r.resolve t cwd inputs).run {} = .ok (found, k) →
          ∀ written ∈ inputs, ∀ root names, r.Walks t cwd written root names →
            r.unwanted.covers (joinWith ['/'] names) = false) ↔ r.ExcludesByFolder) ∧
      ((∀ t cwd inputs found k, (r.resolve t cwd inputs).run {} = .ok (found, k) →
          ∀ written ∈ inputs, ∀ top names, r.Matches t cwd written top names →
            (∀ n ∈ names, ProperName n) → r.unwanted.covers (joinWith ['/'] names) = false) ↔
        ∀ names, r.Wants names → r.unwanted.covers (joinWith ['/'] names) = false)) := by
  refine ⟨?_, ?_, fun f t root names => listsGoByNames_of_lines, fun hsize => ⟨⟨?_, ?_⟩, ?_, ?_⟩⟩
  · intro t cwd inputs k found k' hk hrun
    obtain ⟨hk', hmem⟩ := mem_resolve_iff hk hrun
    exact ⟨hk', fun f => by simp only [hmem, mem_foundBy_iff]⟩
  · intro t cwd written root names ht hwalk hlists
    obtain ⟨hne, hproper⟩ := hwalk.names_proper ht
    exact not_excluded_of_sees hne hproper hwalk.seen hlists
  · -- the tree of a lone file shows what the walk does not close
    intro hall names hwants hcovers
    by_contra hopen
    obtain ⟨hwalk, found, k, hrun⟩ := exists_walk_loneFile hsize hwants hopen
    have huncovered := hall _ _ _ found k (proper_loneFile hwants.proper) hrun _ (by simp) _ _ hwalk
    rw [hcovers] at huncovered
    cases huncovered
  · intro hunwanted t cwd inputs found k ht _ written _ root names hwalk
    obtain ⟨hne, hproper⟩ := hwalk.names_proper ht
    cases hcovers : r.unwanted.covers (joinWith ['/'] names) with
    | false => rfl
    | true =>
      have hstops := hunwanted names (wants_of_sees hne hproper hwalk.seen) hcovers
      exact absurd hstops (not_stopsFolder_unwanted hwalk.seen)
  · -- so it does for wildcards, which close nothing
    intro hall names hwants
    obtain ⟨written, hmatch, found, k, hrun⟩ := exists_match_loneFile hsize hwants
    exact hall _ _ _ found k hrun written (by simp) _ _ hmatch hwants.proper
  · intro hall t cwd inputs found k _ written _ top names hmatch hproper
    exact hall names (hmatch.wants hproper)

/-- The resolver of a filter of which all lines can be put to use. -/
def reading (f : Filter) : Resolver where
  filter := f
  wanted := (IgnoreList.ofLines f.allIncludes).toOption.getD []
  unwanted := (IgnoreList.ofLines f.allExcludes).toOption.getD []

theorem ofFilter_eq_reading {f : Filter} (hincludes : (IgnoreList.ofLines f.allIncludes).isOk)
    (hexcludes : (IgnoreList.ofLines f.allExcludes).isOk) : ofFilter f = .ok (reading f) := by
  unfold ofFilter reading
  cases hunwanted : IgnoreList.ofLines f.allExcludes with
  | error e => simp [hunwanted, Except.isOk, Except.toBool] at hexcludes
  | ok unwanted =>
    cases hwanted : IgnoreList.ofLines f.allIncludes with
    | error e => simp [hwanted, Except.isOk, Except.toBool] at hincludes
    | ok wanted => rfl

/-- With excluded names, an ignore file and a list of the tool, a walk finds the one file that nothing
excludes. -/
theorem walk_keeps_to_the_lists :
    let f : Filter := { excludes := some ["build/".toList] }
    let t : Tree := { entries := [
      (["docs".toList, "a.md".toList], .file (.text ['x'])),
      (["docs".toList, "b.draft.md".toList], .file (.text ['x'])),
      (["build".toList, "c.md".toList], .file (.text ['x'])),
      (["old".toList, "d.md".toList], .file (.text ['x'])),
      ([".gitignore".toList], .file (.text "*.draft.md\n".toList)),
      ([".flowmarkignore".toList], .file (.text "/old/\n".toList))] }
    let names := ["docs".toList, "a.md".toList]
    (((reading f).resolve t [] [['.']]).run {}).toOption.map (·.1) = some [names] ∧
      t.Proper ∧ (reading f).Walks t [] ['.'] [] names ∧ LinesGoByNames f t [] names ∧
      ¬ (reading f).Excluded t [] names := by
  intro f t names
  have hproper : t.Proper := by decide +kernel
  have hwalk : (reading f).Walks t [] ['.'] [] names :=
    ⟨by decide +kernel, by decide +kernel, by decide +kernel, by decide +kernel, by decide +kernel⟩
  -- what an ignore file says is read off for each of the folders from which it could be asked
  have hread : ∀ {p : Place} {text : Text}, t.read [] (.ofPlace p) = .ok text →
      (t.read [] (.ofPlace p)).toOption.getD [] = text := by
    intro p text h
    rw [h]
    rfl
  have hlines : LinesGoByNames f t [] names := by
    refine ⟨by decide +kernel, ?_, ?_⟩
    · intro above habove text htext
      rw [← hread htext]
      have hall : ∀ above ∈ Place.upward [], ∀ line ∈ activeLines ((t.read [] (.ofPlace
          (above ++ [['.'] ++ f.toolName ++ "ignore".toList]))).toOption.getD []),
          IgnorePattern.isFolderLine line = true ∨ IgnorePattern.isNameLine line = true := by
        decide +kernel
      exact hall above habove
    · intro above rest text hsplit htext
      rw [← hread htext]
      have hall : ∀ above ∈ Place.ancestors names, ∀ line ∈ activeLines ((t.read [] (.ofPlace
          ([] ++ above ++ [".gitignore".toList]))).toOption.getD []),
          IgnorePattern.isNameLine line = true := by
        decide +kernel
      exact hall above (hsplit ▸ mem_ancestors above rest)
  have hreading : ofFilter f = .ok (reading f) :=
    ofFilter_eq_reading (by decide +kernel) (by decide +kernel)
  have hall := exclusions_of_found_files (reading f)
  refine ⟨by decide +kernel, hproper, hwalk, hlines, ?_⟩
  exact hall.2.1 t _ _ _ names hproper hwalk (hall.2.2.1 f t [] names hreading hlines)

/-- Wildcards match a file in a folder that is excluded by default and that a walk does not enter. -/
theorem excluded_file_matched :
    let r := reading {}
    let names := ["build".toList, "a.md".toList]
    r.Excluded (loneFile names) [] names ∧
      ((r.resolve (loneFile names) [] ["**/*.md".toList]).run {}).toOption.map (·.1)
        = some [names] ∧
      ((r.resolve (loneFile names) [] [['.']]).run {}).toOption.map (·.1) = some [] := by
  exact ⟨.inl (by decide +kernel), by decide +kernel, by decide +kernel⟩

end Resolver

end Reflow.Files
