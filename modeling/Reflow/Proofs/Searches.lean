import Reflow.Files.Resolver

/-!
What a search finds, whatever ignore files were read before it.

A resolver keeps the ignore files that it has read. `Gives` says that a search has one outcome from
every state that holds nothing but what the tree says, and that it leaves such a state: so what is
kept changes no answer, and the answer can be written down without the state. A search can also
fail, and `Obstacle` lists what it fails on.
-/

open List

namespace Reflow.Files

variable {l : IgnoreList} {t : Tree}

/-! ## Searches and their answers -/

/-- What the ignore file of a folder says; one that cannot be put to use says nothing. -/
def gitignoreAt (t : Tree) (folder : Place) : Option IgnoreList :=
  match folderIgnore t folder with
  | .ok l => l
  | .error _ => none

/-- What the ignore file of a tool says for a folder. -/
def toolIgnoreAt (t : Tree) (toolName : Text) (folder : Place) : Option IgnoreList :=
  match toolIgnore t toolName folder with
  | .ok l => l
  | .error _ => none

theorem lines_of_readIgnoreFile {p : Place} (h : readIgnoreFile t p = .ok (some l)) :
    ∃ text, t.read [] (.ofPlace p) = .ok text ∧ IgnoreList.ofLines (activeLines text) = .ok l := by
  unfold readIgnoreFile at h
  split at h
  · cases h
  · next text hread =>
    refine ⟨text, hread, ?_⟩
    split at h
    · cases h
    · split at h
      · next hlines =>
        cases h
        exact hlines
      · cases h

theorem lines_of_gitignoreAt {folder : Place} (h : gitignoreAt t folder = some l) :
    ∃ text, t.read [] (.ofPlace (folder ++ [".gitignore".toList])) = .ok text ∧
      IgnoreList.ofLines (activeLines text) = .ok l := by
  unfold gitignoreAt at h
  split at h
  · next hread =>
    rw [h] at hread
    exact lines_of_readIgnoreFile hread
  · cases h

theorem lines_of_toolIgnoreAt {toolName : Text} {folder : Place}
    (h : toolIgnoreAt t toolName folder = some l) :
    ∃ above ∈ folder.upward, ∃ text,
      t.read [] (.ofPlace (above ++ [['.'] ++ toolName ++ "ignore".toList])) = .ok text ∧
      IgnoreList.ofLines (activeLines text) = .ok l := by
  unfold toolIgnoreAt at h
  split at h
  · next hread =>
    rw [h] at hread
    unfold toolIgnore at hread
    dsimp only at hread
    split at hread
    · next above hfound =>
      exact ⟨above, mem_of_find?_eq_some hfound, lines_of_readIgnoreFile hread⟩
    · cases hread
  · cases h

/-- All that was kept is what the tree says. -/
structure Known.Faithful (k : Known) (t : Tree) (toolName : Text) : Prop where
  folders : ∀ {folder l}, k.folders.lookup folder = some l → folderIgnore t folder = .ok l
  tools : ∀ {folder l}, k.tools.lookup folder = some l → toolIgnore t toolName folder = .ok l

theorem Known.faithful_empty (t : Tree) (toolName : Text) : Known.Faithful {} t toolName :=
  ⟨fun h => by simp at h, fun h => by simp at h⟩

/-- What a search from a working folder for some inputs can fail on. -/
inductive Obstacle (t : Tree) (toolName : Text) (cwd : Place) (inputs : List Text) :
    ResolveError → Prop
  | folder {place : Place} {e : ResolveError} :
    folderIgnore t place = .error e → Obstacle t toolName cwd inputs e
  | tool {place : Place} {e : ResolveError} :
    toolIgnore t toolName place = .error e → Obstacle t toolName cwd inputs e
  | loop {root p : Place} : p ∈ Resolver.candidates t root →
    t.isEndless [] (.ofPlace (t.real [] (.ofPlace p))) = true →
    Obstacle t toolName cwd inputs (.loop (t.real [] (.ofPlace p)).toText)
  | glob {written : Text} {e : GlobError} : written ∈ inputs →
    t.glob cwd (.ofText written) = .error e → Obstacle t toolName cwd inputs (.glob e)
  | notFound {written : Text} : written ∈ inputs → t.hasFile cwd (.ofText written) = false →
    t.hasFolder cwd (.ofText written) = false → written.any isWildcard = false →
    Obstacle t toolName cwd inputs (.notFound written)

namespace Search

/-- From every faithful state the search gives the value, and leaves a faithful state. -/
def Succeeds (t : Tree) (toolName : Text) {α : Type} (m : Search α) (a : α) : Prop :=
  ∀ k : Known, k.Faithful t toolName → ∃ k', k'.Faithful t toolName ∧ m.run k = .ok (a, k')

/-- From every faithful state the search fails in the same way. -/
def Fails (t : Tree) (toolName : Text) {α : Type} (m : Search α) (e : ResolveError) : Prop :=
  ∀ k : Known, k.Faithful t toolName → m.run k = .error e

/-- The search gives the value or meets an obstacle, whatever faithful state it starts from. -/
def Gives (t : Tree) (toolName : Text) (cwd : Place) (inputs : List Text) {α : Type}
    (m : Search α) (a : α) : Prop :=
  Succeeds t toolName m a ∨ ∃ e, Obstacle t toolName cwd inputs e ∧ Fails t toolName m e

section Rules

variable {t : Tree} {toolName : Text} {cwd : Place} {inputs : List Text} {α β : Type}

theorem succeeds_pure (a : α) : Succeeds t toolName (pure a) a := fun k hk => ⟨k, hk, rfl⟩

variable {m : Search α} {f : α → Search β} {a : α} {e : ResolveError} {xs : List α}

theorem Succeeds.bind {b : β} (hm : Succeeds t toolName m a) (hf : Succeeds t toolName (f a) b) :
    Succeeds t toolName (m >>= f) b := by
  intro k hk
  obtain ⟨k', hk', hrun⟩ := hm k hk
  rw [StateT.run_bind, hrun]
  exact hf k' hk'

theorem Succeeds.bind_fails (hm : Succeeds t toolName m a) (hf : Fails t toolName (f a) e) :
    Fails t toolName (m >>= f) e := by
  intro k hk
  obtain ⟨k', hk', hrun⟩ := hm k hk
  rw [StateT.run_bind, hrun]
  exact hf k' hk'

theorem Fails.bind (hm : Fails t toolName m e) (f : α → Search β) :
    Fails t toolName (m >>= f) e := by
  intro k hk
  rw [StateT.run_bind, hm k hk]
  rfl

theorem gives_pure (a : α) : Gives t toolName cwd inputs (pure a) a := .inl (succeeds_pure a)

theorem gives_throw (h : Obstacle t toolName cwd inputs e) (a : α) :
    Gives t toolName cwd inputs (throw e) a :=
  .inr ⟨e, h, fun _ _ => rfl⟩

theorem Gives.bind {b : β} (hm : Gives t toolName cwd inputs m a)
    (hf : Gives t toolName cwd inputs (f a) b) : Gives t toolName cwd inputs (m >>= f) b := by
  rcases hm with hm | ⟨e, he, hm⟩
  · rcases hf with hf | ⟨e, he, hf⟩
    · exact .inl (hm.bind hf)
    · exact .inr ⟨e, he, hm.bind_fails hf⟩
  · exact .inr ⟨e, he, hm.bind f⟩

theorem gives_mapM {g : α → β} (h : ∀ x ∈ xs, Gives t toolName cwd inputs (f x) (g x)) :
    Gives t toolName cwd inputs (xs.mapM f) (xs.map g) := by
  induction xs with
  | nil => exact gives_pure []
  | cons x xs ih =>
    rw [mapM_cons]
    apply (h x (by simp)).bind
    apply (ih fun y hy => h y (by simp [hy])).bind
    exact gives_pure _

theorem gives_foldlM {f : β → α → Search β} {g : β → α → β}
    (h : ∀ b, ∀ x ∈ xs, Gives t toolName cwd inputs (f b x) (g b x)) (b : β) :
    Gives t toolName cwd inputs (xs.foldlM f b) (xs.foldl g b) := by
  induction xs generalizing b with
  | nil => exact gives_pure b
  | cons x xs ih =>
    apply (h b x (by simp)).bind
    exact ih (fun c y hy => h c y (by simp [hy])) (g b x)

theorem gives_filterM {f : α → Search Bool} {p : α → Bool}
    (h : ∀ x ∈ xs, Gives t toolName cwd inputs (f x) (p x)) :
    Gives t toolName cwd inputs (xs.filterM f) (xs.filter p) := by
  -- what was kept so far is carried in reverse
  have haux : ∀ acc, Gives t toolName cwd inputs (filterAuxM f xs acc)
      ((xs.filter p).reverse ++ acc) := by
    induction xs with
    | nil => exact fun acc => gives_pure acc
    | cons x xs ih =>
      intro acc
      have hstep := ih (fun y hy => h y (by simp [hy])) (bif p x then x :: acc else acc)
      apply (h x (by simp)).bind
      cases hx : p x <;> simpa [hx] using hstep
  apply (haux []).bind
  simpa using gives_pure (xs.filter p)

/-- A list that is kept, or what is read now, which is kept then. -/
def keptRead (k : Known) (kept : Option (Option IgnoreList))
    (read : Except ResolveError (Option IgnoreList)) (keep : Option IgnoreList → Known) :
    Except ResolveError (Option IgnoreList × Known) :=
  match kept, read with
  | some l, _ => .ok (l, k)
  | none, .ok l => .ok (l, keep l)
  | none, .error e => .error e

theorem run_folderIgnore (t : Tree) (folder : Place) (k : Known) :
    (Search.folderIgnore t folder).run k =
      keptRead k (k.folders.lookup folder) (Files.folderIgnore t folder)
        fun l => { k with folders := (folder, l) :: k.folders } := by
  simp only [Search.folderIgnore, StateT.run_bind, StateT.run_get, pure_bind]
  cases k.folders.lookup folder with
  | some l => rfl
  | none => cases Files.folderIgnore t folder <;> rfl

theorem run_toolIgnore (t : Tree) (toolName : Text) (folder : Place) (k : Known) :
    (Search.toolIgnore t toolName folder).run k =
      keptRead k (k.tools.lookup folder) (Files.toolIgnore t toolName folder)
        fun l => { k with tools := (folder, l) :: k.tools } := by
  simp only [Search.toolIgnore, StateT.run_bind, StateT.run_get, pure_bind]
  cases k.tools.lookup folder with
  | some l => rfl
  | none => cases Files.toolIgnore t toolName folder <;> rfl

/-- What is kept was read from the tree, and what is read now is kept: so it does not matter which of
the two it is. -/
theorem succeeds_or_fails_of_keptRead (toolName : Text) {m : Search (Option IgnoreList)}
    {kept : Known → Option (Option IgnoreList)} {read : Except ResolveError (Option IgnoreList)}
    {keep : Known → Option IgnoreList → Known}
    (hrun : ∀ k, m.run k = keptRead k (kept k) read (keep k))
    (hkept : ∀ {k l}, k.Faithful t toolName → kept k = some l → read = .ok l)
    (hkeep : ∀ {k l}, k.Faithful t toolName → read = .ok l → (keep k l).Faithful t toolName) :
    (∀ {l}, read = .ok l → Succeeds t toolName m l) ∧
    ∀ {e}, read = .error e → Fails t toolName m e := by
  constructor
  · intro l hread k hk
    rw [hrun]
    cases hl : kept k with
    | some l' =>
      obtain rfl : l' = l := Except.ok.inj ((hkept hk hl).symm.trans hread)
      exact ⟨k, hk, rfl⟩
    | none => exact ⟨keep k l, hkeep hk hread, by rw [hread]; rfl⟩
  · intro e hread k hk
    rw [hrun]
    cases hl : kept k with
    | some l => exact absurd (hread.symm.trans (hkept hk hl)) (by simp)
    | none => rw [hread]; rfl

theorem lookup_cons_read {read : Place → Except ResolveError (Option IgnoreList)}
    {kept : List (Place × Option IgnoreList)}
    (h : ∀ {p l}, kept.lookup p = some l → read p = .ok l) {folder : Place}
    {l : Option IgnoreList} (hread : read folder = .ok l) {p : Place} {l' : Option IgnoreList}
    (hp : ((folder, l) :: kept).lookup p = some l') : read p = .ok l' := by
  rw [lookup_cons] at hp
  by_cases heq : p = folder
  · rw [heq, beq_self_eq_true] at hp
    have hsame : some l = some l' := hp
    rw [heq, hread, Option.some.inj hsame]
  · rw [beq_eq_false_iff_ne.2 heq] at hp
    exact h (by simpa using hp)

theorem gives_folderIgnore (folder : Place) :
    Gives t toolName cwd inputs (Search.folderIgnore t folder) (gitignoreAt t folder) := by
  obtain ⟨hok, herror⟩ := succeeds_or_fails_of_keptRead toolName
    (run_folderIgnore t folder) (fun hk => hk.folders)
    fun hk hread => ⟨lookup_cons_read hk.folders hread, hk.tools⟩
  unfold gitignoreAt
  cases hread : Files.folderIgnore t folder with
  | ok l => exact .inl (hok hread)
  | error e => exact .inr ⟨e, .folder hread, herror hread⟩

theorem succeeds_or_fails_toolIgnore (folder : Place) :
    (∀ {l}, Files.toolIgnore t toolName folder = .ok l →
      Succeeds t toolName (Search.toolIgnore t toolName folder) l) ∧
    ∀ {e}, Files.toolIgnore t toolName folder = .error e →
      Fails t toolName (Search.toolIgnore t toolName folder) e :=
  succeeds_or_fails_of_keptRead toolName (run_toolIgnore t toolName folder) (fun hk => hk.tools)
    fun hk hread => ⟨hk.folders, lookup_cons_read hk.tools hread⟩

theorem gives_toolIgnore (folder : Place) :
    Gives t toolName cwd inputs (Search.toolIgnore t toolName folder)
      (toolIgnoreAt t toolName folder) := by
  unfold toolIgnoreAt
  cases hread : Files.toolIgnore t toolName folder with
  | ok l => exact .inl ((succeeds_or_fails_toolIgnore folder).1 hread)
  | error e => exact .inr ⟨e, .tool hread, (succeeds_or_fails_toolIgnore folder).2 hread⟩

end Rules

end Search

/-! ## What a resolver finds -/

namespace Resolver

open Search

variable {r : Resolver} {t : Tree}

/-- The ignore lists that hold for what lies in a folder of a walk. -/
def listsAt (r : Resolver) (t : Tree) (root : Place) (names : List Text) : List IgnoreList :=
  if r.filter.respectGitignore then
    (Place.ancestors names).filterMap fun ns => gitignoreAt t (root ++ ns)
  else []

/-- The ignore list of the tool that holds for a walk. -/
def toolAt (r : Resolver) (t : Tree) (root : Place) : Option IgnoreList :=
  toolIgnoreAt t r.filter.toolName root

/-- No folder on the way is closed. -/
def isOpen (r : Resolver) (t : Tree) (root : Place) : (above names : List Text) → Bool
  | _, [] => true
  | above, name :: rest =>
    !r.closes (r.listsAt t root above) (r.toolAt t root) (above ++ [name])
      && r.isOpen t root (above ++ [name]) rest

/-- The walk of a folder finds what the names lead to. -/
def sees (r : Resolver) (t : Tree) (root : Place) (names : List Text) : Bool :=
  r.isOpen t root [] names.dropLast &&
    (r.takesName (r.listsAt t root names.dropLast) (r.toolAt t root) (names.getLast?.getD []) &&
      !r.isTooLarge t [] (.ofPlace (root ++ names)))

/-- A file that is named outright is taken. -/
def takesOutright (r : Resolver) (t : Tree) (cwd : Place) (p : Path) : Bool :=
  (!r.filter.forceExclude || !coversNamed r.unwanted t cwd p &&
    !((r.toolAt t (t.real cwd p.parent)).any fun l => coversNamed l t cwd p)) &&
    !r.isTooLarge t cwd p

/-- The files that one input stands for. -/
def foundBy (r : Resolver) (t : Tree) (cwd : Place) (written : Text) : List Place :=
  let p := Path.ofText written
  if t.hasFile cwd p then (if r.takesOutright t cwd p then [t.real cwd p] else [])
  else if t.hasFolder cwd p then
    let root := t.real cwd p
    ((candidates t root).filter fun q => r.sees t root (q.relativeTo root)).map
      fun q => t.real [] (.ofPlace q)
  else
    match r.expand t cwd p with
    | .ok found => found
    | .error _ => []

/-- The files that were found before, and those that one input stands for. -/
def gathered (r : Resolver) (t : Tree) (cwd : Place) (found : List Place) (written : Text) :
    List Place :=
  if t.hasFile cwd (.ofText written) && found.contains (t.real cwd (.ofText written)) then found
  else found ++ r.foundBy t cwd written

theorem mem_gathered_iff {cwd f : Place} {found : List Place} {written : Text} :
    f ∈ r.gathered t cwd found written ↔ f ∈ found ∨ f ∈ r.foundBy t cwd written := by
  unfold gathered
  split
  · next hseen =>
    rw [Bool.and_eq_true, contains_iff_mem] at hseen
    obtain ⟨hfile, hseen⟩ := hseen
    have hself : f ∈ r.foundBy t cwd written → f = t.real cwd (.ofText written) := by
      simp only [foundBy, hfile, if_true]
      split <;> simp
    exact ⟨.inl, fun h => h.elim id fun h => hself h ▸ hseen⟩
  · exact mem_append

theorem mem_foldl_gathered_iff {cwd f : Place} {inputs : List Text} {found : List Place} :
    f ∈ inputs.foldl (r.gathered t cwd) found ↔
      f ∈ found ∨ ∃ written ∈ inputs, f ∈ r.foundBy t cwd written := by
  induction inputs generalizing found with
  | nil => simp
  | cons written inputs ih => simp [ih, mem_gathered_iff, or_assoc]

theorem isOpen_iff {root : Place} {above names : List Text} :
    r.isOpen t root above names ↔ ∀ way name rest, names = way ++ name :: rest →
      r.closes (r.listsAt t root (above ++ way)) (r.toolAt t root) (above ++ way ++ [name])
        = false := by
  induction names generalizing above with
  | nil => simp [isOpen]
  | cons n ns ih =>
    rw [isOpen, Bool.and_eq_true, ih]
    constructor
    · rintro ⟨hfirst, hrest⟩ way name rest hsplit
      cases way with
      | nil =>
        obtain ⟨rfl, -⟩ := cons_eq_cons.1 hsplit
        simpa using hfirst
      | cons m way =>
        obtain ⟨rfl, hns⟩ := cons_eq_cons.1 hsplit
        simpa using hrest way name rest hns
    · intro h
      refine ⟨by simpa using h [] n ns rfl, ?_⟩
      intro way name rest hsplit
      simpa using h (n :: way) name rest (by simp [hsplit])

section Runs

variable {r : Resolver} {t : Tree} {cwd : Place} {inputs : List Text}

theorem gives_listsOnTheWay (root : Place) (names : List Text) :
    Gives t r.filter.toolName cwd inputs (r.listsOnTheWay t root names)
      (r.listsAt t root names) := by
  unfold listsOnTheWay listsAt
  split
  · apply (gives_mapM fun ns _ => gives_folderIgnore (root ++ ns)).bind
    rw [filterMap_map]
    exact gives_pure _
  · exact gives_pure []

theorem gives_reaches (root : Place) (above names : List Text) :
    Gives t r.filter.toolName cwd inputs (r.reaches t root (r.toolAt t root) above names)
      (r.isOpen t root above names) := by
  induction names generalizing above with
  | nil => exact gives_pure true
  | cons name rest ih =>
    rw [isOpen]
    apply (gives_listsOnTheWay root above).bind
    cases r.closes (r.listsAt t root above) (r.toolAt t root) (above ++ [name]) with
    | true => exact gives_pure false
    | false => simpa using ih (above ++ [name])

theorem gives_finds {root p : Place} (hp : p.isBelow root) :
    Gives t r.filter.toolName cwd inputs (r.finds t root (r.toolAt t root) p)
      (r.sees t root (p.relativeTo root)) := by
  have hplace : root ++ p.relativeTo root = p := by
    rw [Place.isBelow, Bool.and_eq_true, isPrefixOf_iff_prefix] at hp
    obtain ⟨names, rfl⟩ := hp.1
    simp [Place.relativeTo]
  unfold finds sees
  rw [hplace]
  apply (gives_reaches root [] _).bind
  cases r.isOpen t root [] (p.relativeTo root).dropLast with
  | false => exact gives_pure false
  | true =>
    apply (gives_listsOnTheWay root _).bind
    exact gives_pure _

theorem gives_walk (root : Place) :
    Gives t r.filter.toolName cwd inputs (r.walk t root)
      (((candidates t root).filter fun q => r.sees t root (q.relativeTo root)).map
        fun q => t.real [] (.ofPlace q)) := by
  apply (gives_toolIgnore root).bind
  -- the candidates are asked one by one, and those that are left can be links to follow
  apply (gives_filterM fun p hp => ?_).bind
  · apply gives_mapM
    intro p hp
    unfold target
    dsimp only
    split
    · next hloop => exact gives_throw (.loop (mem_filter.1 hp).1 hloop) _
    · exact gives_pure _
  · rw [candidates, mem_filter, Bool.and_eq_true] at hp
    exact gives_finds hp.2.1

/-- Asking about a file that is named outright fails only where exclusion is forced, on the ignore
file of the tool. -/
theorem takesNamed_cases (p : Path) :
    Succeeds t r.filter.toolName (r.takesNamed t cwd p) (r.takesOutright t cwd p) ∨
    ∃ e, Fails t r.filter.toolName (r.takesNamed t cwd p) e ∧ r.filter.forceExclude ∧
      toolIgnore t r.filter.toolName (t.real cwd p.parent) = .error e := by
  unfold takesNamed takesOutright
  cases r.filter.forceExclude with
  | false => exact .inl (by simpa using succeeds_pure (!r.isTooLarge t cwd p))
  | true =>
    cases coversNamed r.unwanted t cwd p with
    | true => exact .inl (by simpa using succeeds_pure false)
    | false =>
      simp only [if_true, Bool.false_eq_true, if_false]
      cases htool : toolIgnore t r.filter.toolName (t.real cwd p.parent) with
      | error e =>
        have hfails := (succeeds_or_fails_toolIgnore _).2 htool
        exact .inr ⟨e, hfails.bind _, trivial, rfl⟩
      | ok l =>
        refine .inl (((succeeds_or_fails_toolIgnore _).1 htool).bind ?_)
        rw [toolAt, toolIgnoreAt, htool]
        cases l with
        | none => simpa using succeeds_pure (!r.isTooLarge t cwd p)
        | some l =>
          dsimp only [Option.any]
          cases coversNamed l t cwd p with
          | true => simpa using succeeds_pure false
          | false => simpa using succeeds_pure (!r.isTooLarge t cwd p)

theorem gives_takesNamed (p : Path) :
    Gives t r.filter.toolName cwd inputs (r.takesNamed t cwd p) (r.takesOutright t cwd p) := by
  rcases takesNamed_cases p with h | ⟨e, h, -, htool⟩
  · exact .inl h
  · exact .inr ⟨e, .tool htool, h⟩

theorem glob_eq_error {p : Path} {e : GlobError} (h : r.expand t cwd p = .error e) :
    t.glob cwd p = .error e := by
  cases hglob : t.glob cwd p with
  | ok found => simp [expand, hglob, bind, Except.bind, pure, Except.pure] at h
  | error e' =>
    have hexpand : r.expand t cwd p = .error e' := by
      rw [expand, hglob]
      rfl
    exact congrArg Except.error (Except.error.inj (hexpand.symm.trans h))

theorem gives_resolveOne {written : Text} (hwritten : written ∈ inputs) :
    Gives t r.filter.toolName cwd inputs (r.resolveOne t cwd written) (r.foundBy t cwd written) := by
  unfold resolveOne foundBy
  dsimp only
  split
  · apply (gives_takesNamed _).bind
    exact gives_pure _
  · split
    · exact gives_walk _
    · next hfile hfolder =>
      split
      · cases hexpand : r.expand t cwd (.ofText written) with
        | ok found => exact gives_pure found
        | error e =>
          exact gives_throw (.glob hwritten (glob_eq_error hexpand)) _
      · next hwild =>
        refine gives_throw (.notFound hwritten ?_ ?_ ?_) _
        · simpa using hfile
        · simpa using hfolder
        · simpa using hwild

theorem gives_gather {written : Text} (hwritten : written ∈ inputs) (found : List Place) :
    Gives t r.filter.toolName cwd inputs (r.gather t cwd found written)
      (r.gathered t cwd found written) := by
  unfold gather gathered
  dsimp only
  split
  · exact gives_pure found
  · apply (gives_resolveOne hwritten).bind
    exact gives_pure _

/-- **The answer does not depend on what was read before.** -/
theorem gives_resolve :
    Gives t r.filter.toolName cwd inputs (r.resolve t cwd inputs)
      ((inputs.foldl (r.gathered t cwd) []).eraseDups.mergeSort Place.le) := by
  apply (gives_foldlM (fun found written h => gives_gather h found) []).bind
  exact gives_pure _

end Runs

end Resolver

end Reflow.Files
