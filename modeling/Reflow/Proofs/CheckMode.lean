import Mathlib.Data.List.Nodup
import Reflow.Proofs.CarriageReturns
import Reflow.Proofs.Formatting
import Reflow.Proofs.RegularFiles
import Reflow.Reformat

/-!
Checking and writing.

A check reads each file, formats what it reads, and lists the file if the two texts differ. A run
in place writes the formatted text over each file. What is read has all line ends alike, and what
is written is stored as it is; so a file with carriage returns changes in its bytes even if its
text does not, and the check does not list it. Where a file has none, or its text changes too, the
check is right.
-/

open List

namespace Reflow

namespace Reformat

open Files (Tree Place Path Content)

/-! ## Formats that have all they need -/

/-- The width is a number, and there is a reader if one is needed. -/
structure Format.IsAble (f : Format) : Prop where
  width : f.notWidth = none
  reader : f.plaintext = true ∨ f.reader.isSome = true

/-- The text that a text is formatted to. -/
def Format.result (f : Format) (t : Text) : Text := (f.apply t).toOption.getD []

theorem Format.IsAble.apply_eq {f : Format} (h : f.IsAble) (t : Text) :
    f.apply t = .ok (f.result t) := by
  have hexists : ∃ r, f.apply t = .ok r := by
    unfold Format.apply
    split
    · rw [h.width]
      exact ⟨_, rfl⟩
    · next hplain =>
      obtain ⟨read, hread⟩ := Option.isSome_iff_exists.1 (h.reader.resolve_left hplain)
      obtain ⟨written, -, hformat⟩ :=
        Document.Style.exists_formatWith f.style f.style.wrapper read t
      have hresult : f.style.format read t = .ok ((FrontMatter.split t).block ++ written) := hformat
      simp only [hread, hresult, h.width]
      exact ⟨_, rfl⟩
  obtain ⟨r, hr⟩ := hexists
  rw [Format.result, hr]
  rfl

/-! ## One input -/

section Steps

variable {α β : Type} {f : Format} {m : Mode} {d d' : Desk} {path text result : Text}

theorem run_bind_of_ok {w : Work α} {next : α → Work β} {a : α} (h : w.run d = (.ok a, d')) :
    (w >>= next).run d = (next a).run d' := by
  rw [ExceptT.run_bind]
  change (StateT.bind w.run _) d = _
  simp only [StateT.bind, h]
  rfl

theorem run_readInput (hpath : path ≠ dash)
    (hread : d.tree.read d.cwd (Path.ofText path) = .ok text) :
    (readInput path).run d = (.ok text, d) := by
  have hget : (get : Work Desk).run d = (.ok d, d) := rfl
  rw [readInput, run_bind_of_ok hget, if_neg hpath, hread]
  rfl

theorem run_writeFile {t : Tree} (hwrite : d.tree.write d.cwd (Path.ofText path) text = .ok t) :
    (writeFile path text false).run d = (.ok (), { d with tree := t }) := by
  have hget : (get : Work Desk).run d = (.ok d, d) := rfl
  rw [writeFile, run_bind_of_ok hget]
  simp only [Bool.false_eq_true, if_false, hwrite]
  rfl

/-- What is done with the result for a text. -/
def deliver (m : Mode) (path text result : Text) : Work Bool := do
  if m.check then return decide (result ≠ text)
  if m.inplace then writeFile path result (!m.noBackup)
  else if m.toStdout then modify fun d => { d with output := d.output ++ result }
  else writeFile (m.output.getD []) result false
  return decide (result ≠ text)

theorem run_reformatOne (hpath : path ≠ dash)
    (hread : d.tree.read d.cwd (Path.ofText path) = .ok text) (happly : f.apply text = .ok result) :
    (reformatOne f m path).run d
      = (deliver m path text result).run { d with sources := d.sources ++ f.sources text } := by
  have hguard : (m.inplace && decide (path = dash) && !m.check) = false := by simp [hpath]
  have hsources : (modify fun d : Desk => { d with sources := d.sources ++ f.sources text } :
      Work Unit).run d = (.ok (), { d with sources := d.sources ++ f.sources text }) := rfl
  have hlift : (reformatOne.liftExcept (f.apply text)).run
      { d with sources := d.sources ++ f.sources text }
        = (.ok result, { d with sources := d.sources ++ f.sources text }) := by
    rw [happly]
    rfl
  simp only [reformatOne, hguard, Bool.false_eq_true, if_false]
  rw [run_bind_of_ok (run_readInput hpath hread), run_bind_of_ok hsources, run_bind_of_ok hlift]
  rfl

theorem run_deliver_check (hm : m.check) :
    (deliver m path text result).run d = (.ok (decide (result ≠ text)), d) := by
  rw [deliver, if_pos hm]
  rfl

theorem run_deliver_inPlace {t : Tree} (hcheck : m.check = false) (hinplace : m.inplace)
    (hbackup : m.noBackup) (hwrite : d.tree.write d.cwd (Path.ofText path) result = .ok t) :
    (deliver m path text result).run d = (.ok (decide (result ≠ text)), { d with tree := t }) := by
  simp only [deliver, hcheck, hinplace, hbackup, Bool.false_eq_true, if_false, if_true,
    Bool.not_true]
  rw [run_bind_of_ok (run_writeFile hwrite)]
  rfl

end Steps

/-! ## Runs over text files -/

/-- A regular file that holds a text in UTF-8. -/
structure TextFile (t : Tree) (cwd : Place) where
  path : Text
  notDash : path ≠ dash
  folder : Place
  content : Content
  regular : t.Regular cwd (Path.ofText path) folder content
  /-- The text with the line ends that are stored. -/
  raw : Text
  isText : content.toBytes = Utf8.encode raw

namespace TextFile

variable {t : Tree} {cwd : Place}

def place (x : TextFile t cwd) : Place := x.folder ++ [(Path.ofText x.path).name]

def text (x : TextFile t cwd) : Text := Text.universalNewlines x.raw

/-- The text that is read changes when it is formatted. -/
def changes (f : Format) (x : TextFile t cwd) : Bool := f.result x.text ≠ x.text

theorem changes_iff {f : Format} {x : TextFile t cwd} : x.changes f ↔ f.result x.text ≠ x.text :=
  decide_eq_true_iff

theorem place_eq_of_path_eq {x y : TextFile t cwd} (h : x.path = y.path) : x.place = y.place := by
  have hfolder : some x.folder = some y.folder := by
    rw [← x.regular.found, ← y.regular.found, h]
  rw [place, place, Option.some.inj hfolder, h]

end TextFile

section Runs

variable {t : Tree} {cwd : Place} {f : Format} {m : Mode} {d : Desk}

theorem run_reformatEach_cons {d d' d'' : Desk} {path : Text} {paths more : List Text}
    {changes : Bool} (hone : (reformatOne f m path).run d = (.ok changes, d'))
    (hmore : (reformatEach f m paths).run d' = (.ok more, d'')) :
    (reformatEach f m (path :: paths)).run d
      = (.ok (if changes then path :: more else more), d'') := by
  rw [reformatEach, run_bind_of_ok hone, run_bind_of_ok hmore]
  rfl

theorem map_path_filter_cons (p : TextFile t cwd → Bool) (x : TextFile t cwd)
    (files : List (TextFile t cwd)) :
    ((x :: files).filter p).map TextFile.path
      = if p x then x.path :: (files.filter p).map TextFile.path
        else (files.filter p).map TextFile.path := by
  cases h : p x <;> simp [h]

theorem exists_run_check (ht : t.Sound) (hf : f.IsAble) (hm : m.check)
    (files : List (TextFile t cwd)) (htree : d.tree = t) (hcwd : d.cwd = cwd) :
    ∃ d', (reformatEach f m (files.map TextFile.path)).run d
        = (.ok ((files.filter (TextFile.changes f)).map TextFile.path), d') ∧ d'.tree = t := by
  induction files generalizing d with
  | nil => exact ⟨d, rfl, htree⟩
  | cons x files ih =>
    have hread : d.tree.read d.cwd (Path.ofText x.path) = .ok x.text := by
      rw [htree, hcwd]
      exact x.regular.read_eq ht x.isText
    have hone := (run_reformatOne x.notDash hread (hf.apply_eq x.text)).trans
      (run_deliver_check hm)
    obtain ⟨d', hmore, hd'⟩ :=
      ih (d := { d with sources := d.sources ++ f.sources x.text }) htree hcwd
    refine ⟨d', ?_, hd'⟩
    rw [map_cons, run_reformatEach_cons hone hmore, map_path_filter_cons]
    rfl

/-- The tree with the formatted text in each of the files. -/
def rewritten (f : Format) (now : Tree) (files : List (TextFile t cwd)) : Tree :=
  files.foldl (fun now x => now.put x.place (.text (f.result x.text))) now

/-- A run in place lists the same files as a check, and rewrites all of them. The tree `now` is the
one that the run has come to; the files still hold in it what they held at the start. -/
theorem exists_run_inPlace (hf : f.IsAble) (hcheck : m.check = false) (hinplace : m.inplace)
    (hbackup : m.noBackup) (files : List (TextFile t cwd)) (hcwd : d.cwd = cwd)
    (hsound : d.tree.Sound) (hfolder : d.tree.isFolder cwd)
    (hregular : ∀ x ∈ files, d.tree.Regular cwd (Path.ofText x.path) x.folder x.content)
    (hplaces : (files.map TextFile.place).Nodup) :
    ∃ d', (reformatEach f m (files.map TextFile.path)).run d
        = (.ok ((files.filter (TextFile.changes f)).map TextFile.path), d') ∧
      d'.cwd = cwd ∧ d'.tree = rewritten f d.tree files := by
  induction files generalizing d with
  | nil => exact ⟨d, rfl, hcwd, rfl⟩
  | cons x files ih =>
    obtain ⟨hx, hplaces⟩ := nodup_cons.1 hplaces
    have hxregular := hregular x (by simp)
    have hfile : d.tree.at? x.place = some (.file x.content) := hxregular.file
    have hread : d.tree.read d.cwd (Path.ofText x.path) = .ok x.text := by
      rw [hcwd]
      exact hxregular.read_eq hsound x.isText
    have hwrite : d.tree.write d.cwd (Path.ofText x.path) (f.result x.text)
        = .ok (d.tree.put x.place (.text (f.result x.text))) := by
      rw [hcwd]
      exact hxregular.write_eq hsound hfolder _
    have hone := (run_reformatOne x.notDash hread (hf.apply_eq x.text)).trans
      (run_deliver_inPlace hcheck hinplace hbackup
        (d := { d with sources := d.sources ++ f.sources x.text }) hwrite)
    -- the other files lie elsewhere, so they are still what they were at the start
    have hothers : ∀ y ∈ files, (d.tree.put x.place (.text (f.result x.text))).Regular cwd
        (Path.ofText y.path) y.folder y.content := by
      intro y hy
      have hne : y.place ≠ x.place := fun h => hx (h ▸ mem_map_of_mem hy)
      exact (hregular y (by simp [hy])).put hsound hfile hne _
    obtain ⟨d', hmore, hd'⟩ := ih
      (d := { d with tree := d.tree.put x.place (.text (f.result x.text))
                     sources := d.sources ++ f.sources x.text })
      hcwd (hsound.put hfile _) ((Tree.isFolder_put hsound hfile _ cwd).trans hfolder) hothers
      hplaces
    refine ⟨d', ?_, hd'⟩
    rw [map_cons, run_reformatEach_cons hone hmore, map_path_filter_cons]
    rfl

/-- The files that are rewritten hold their results, and all else is as it was. -/
theorem rewritten_spec {now : Tree} {files : List (TextFile t cwd)} (hsound : now.Sound)
    (hfiles : ∀ x ∈ files, ∃ c, now.at? x.place = some (.file c))
    (hplaces : (files.map TextFile.place).Nodup) :
    (∀ cwd path, (rewritten f now files).find? cwd path = now.find? cwd path) ∧
      (∀ x ∈ files, (rewritten f now files).at? x.place = some (.file (.text (f.result x.text)))) ∧
      ∀ q, q ∉ files.map TextFile.place → (rewritten f now files).at? q = now.at? q := by
  induction files generalizing now with
  | nil => exact ⟨fun _ _ => rfl, by simp, fun _ _ => rfl⟩
  | cons x files ih =>
    obtain ⟨hx, hplaces⟩ := nodup_cons.1 hplaces
    obtain ⟨c, hc⟩ := hfiles x (by simp)
    have hat := Tree.at?_put hsound hc (.text (f.result x.text))
    have hothers : ∀ y ∈ files, ∃ c, (now.put x.place (.text (f.result x.text))).at? y.place
        = some (.file c) := by
      intro y hy
      have hne : y.place ≠ x.place := fun h => hx (h ▸ mem_map_of_mem hy)
      rw [hat, if_neg hne]
      exact hfiles y (by simp [hy])
    obtain ⟨hfind, hwritten, hrest⟩ := ih (hsound.put hc _) hothers hplaces
    refine ⟨?_, ?_, ?_⟩
    · intro cwd path
      exact (hfind cwd path).trans (Tree.find?_put hsound hc _ cwd path)
    · intro y hy
      rcases mem_cons.1 hy with rfl | hy
      · exact (hrest _ hx).trans ((hat _).trans (if_pos rfl))
      · exact hwritten y hy
    · intro q hq
      rw [map_cons, mem_cons, not_or] at hq
      exact (hrest q hq.2).trans ((hat q).trans (if_neg hq.1))

theorem run_reformatAll {paths : List Text} (hpaths : dash ∉ paths) (hm : m.check ∨ m.inplace) :
    (reformatAll f m paths).run d = (reformatEach f { m with output := none } paths).run d := by
  have hdash : paths ≠ [dash] := by
    rintro rfl
    simp at hpaths
  have hguard : (!m.inplace && !m.check && !m.toStdout) = false := by
    rcases hm with hm | hm <;> simp [hm]
  rw [reformatAll, if_neg hdash]
  simp only [hguard, Bool.false_eq_true, if_false]

theorem dash_not_mem_map_path (files : List (TextFile t cwd)) : dash ∉ files.map TextFile.path := by
  intro h
  obtain ⟨x, -, hx⟩ := mem_map.1 h
  exact x.notDash hx

end Runs

/-! ## What a check predicts -/

/-- The bytes of the file that a path leads to. -/
def Desk.bytes? (d : Desk) (path : Text) : Option (List UInt8) :=
  (d.tree.content? d.cwd (Path.ofText path)).map Content.toBytes

theorem map_path_filter_eq_iff {t : Tree} {cwd : Place} {files : List (TextFile t cwd)}
    (hplaces : (files.map TextFile.place).Nodup) (p q : TextFile t cwd → Bool) :
    (files.filter p).map TextFile.path = (files.filter q).map TextFile.path ↔
      ∀ x ∈ files, p x = q x := by
  have hmem : ∀ (p : TextFile t cwd → Bool), ∀ x ∈ files,
      (x.path ∈ (files.filter p).map TextFile.path ↔ p x) := by
    intro p x hx
    simp only [mem_map, mem_filter]
    constructor
    · rintro ⟨y, ⟨hy, hpy⟩, hpath⟩
      rwa [← inj_on_of_nodup_map hplaces hy hx (TextFile.place_eq_of_path_eq hpath)]
    · intro hpx
      exact ⟨x, ⟨hx, hpx⟩, rfl⟩
  constructor
  · intro h x hx
    rw [Bool.eq_iff_iff, ← hmem p x hx, ← hmem q x hx, h]
  · intro h
    rw [filter_congr h]

/-- A result is as new to a text as to the same text with all line ends alike if there are no
carriage returns, or if it is new to both. -/
theorem new_iff_new_iff (raw result : Text) :
    (result ≠ Text.universalNewlines raw ↔ result ≠ raw) ↔
      '\r' ∉ raw ∨ (result ≠ raw ∧ result ≠ Text.universalNewlines raw) := by
  by_cases hraw : '\r' ∈ raw
  · have hne : Text.universalNewlines raw ≠ raw :=
      fun h => Text.universalNewlines_eq_self_iff.1 h hraw
    constructor
    · intro h
      refine .inr ⟨?_, ?_⟩
      · rintro rfl
        exact h.1 hne.symm rfl
      · rintro rfl
        exact h.2 hne rfl
    · rintro (h | ⟨hnew, hnew'⟩)
      · exact absurd hraw h
      · exact iff_of_true hnew' hnew
  · rw [Text.universalNewlines_eq_self hraw]
    exact iff_of_true Iff.rfl (.inl hraw)

/-- **What a check predicts.** For regular text files in different places, a check and a run in
place both go through and name the same files: those whose text changes. The check leaves the tree,
and the run stores the formatted text in each file and leaves all else. The files that are named
are those with other bytes after the run if and only if each file has no carriage return, or has
neither its own bytes nor its own text as the result. -/
theorem check_names_changed_bytes_iff {d : Desk} {f : Format} {m : Mode} (hsound : d.tree.Sound)
    (hcwd : d.tree.isFolder d.cwd = true) (hf : f.IsAble) (hm : m.check = true)
    (files : List (TextFile d.tree d.cwd)) (hplaces : (files.map TextFile.place).Nodup) :
    ∃ named checked after,
      (reformatAll f m (files.map TextFile.path)).run d = (.ok named, checked) ∧
      checked.tree = d.tree ∧
      (reformatAll f { m with inplace := true, noBackup := true, check := false }
        (files.map TextFile.path)).run d = (.ok named, after) ∧
      named = (files.filter (TextFile.changes f)).map TextFile.path ∧
      (∀ x ∈ files, d.bytes? x.path = some (Utf8.encode x.raw) ∧
        after.bytes? x.path = some (Utf8.encode (f.result x.text))) ∧
      (∀ q, q ∉ files.map TextFile.place → after.tree.at? q = d.tree.at? q) ∧
      (named = ((files.map TextFile.path).filter fun p => after.bytes? p ≠ d.bytes? p) ↔
        ∀ x ∈ files, '\r' ∉ x.raw ∨ (f.result x.text ≠ x.raw ∧ f.result x.text ≠ x.text)) := by
  obtain ⟨checked, hcheck, hchecked⟩ :=
    exists_run_check (m := { m with output := none }) hsound hf hm files rfl rfl
  obtain ⟨after, hrun, haftercwd, hafter⟩ :=
    exists_run_inPlace
      (m := { m with inplace := true, noBackup := true, check := false, output := none }) hf rfl rfl rfl
      files rfl hsound hcwd (fun x _ => x.regular) hplaces
  obtain ⟨hfind, hwritten, hrest⟩ :=
    rewritten_spec (f := f) hsound (fun x _ => ⟨x.content, x.regular.file⟩) hplaces
  have hbytes : ∀ x ∈ files, d.bytes? x.path = some (Utf8.encode x.raw) ∧
      after.bytes? x.path = some (Utf8.encode (f.result x.text)) := by
    intro x hx
    constructor
    · rw [Desk.bytes?, x.regular.content?_eq hsound, Option.map_some, x.isText]
    · have hlook : after.tree.look? d.cwd (Path.ofText x.path)
          = some (.file (.text (f.result x.text))) := by
        rw [Tree.look?, hafter, hfind, x.regular.find?_eq hsound]
        exact hwritten x hx
      rw [Desk.bytes?, haftercwd, Tree.content?, hlook]
      rfl
  refine ⟨_, checked, after, ?_, hchecked, ?_, rfl, hbytes, ?_, ?_⟩
  · rw [run_reformatAll (dash_not_mem_map_path files) (.inl hm), hcheck]
  · rw [run_reformatAll (dash_not_mem_map_path files) (.inr rfl), hrun]
  · intro q hq
    rw [hafter, hrest q hq]
  · rw [filter_map, map_path_filter_eq_iff hplaces]
    refine forall₂_congr fun x hx => ?_
    obtain ⟨hbefore, hnow⟩ := hbytes x hx
    -- bytes are equal if and only if the texts that are encoded are
    refine Iff.trans ?_ (new_iff_new_iff x.raw (f.result x.text))
    rw [Bool.eq_iff_iff, TextFile.changes_iff, Function.comp_apply, decide_eq_true_iff, hbefore,
      hnow, ne_eq (some _), Option.some.injEq, Utf8.encode_inj]
    rfl

/-- A folder with a file, and a link to it. -/
def linkedFolder : Tree where
  entries := [(["sub".toList, "b.txt".toList], .file (.text "a  b".toList)),
    (["l".toList], .link (.ofText "sub".toList)),
    (["a.txt".toList], .file (.bytes [0x61, 0x0A, 0x0A, 0x62]))]

/-- A file without carriage returns that stays as it is, and one behind a link that changes. -/
theorem check_names_changed_file :
    ∃ named checked after,
      (reformatAll { plaintext := true } { check := true } ["a.txt".toList, "l/b.txt".toList]).run
        { tree := linkedFolder } = (.ok named, checked) ∧
      (reformatAll { plaintext := true } { inplace := true, noBackup := true }
        ["a.txt".toList, "l/b.txt".toList]).run { tree := linkedFolder } = (.ok named, after) ∧
      named = (["a.txt".toList, "l/b.txt".toList].filter fun p =>
        after.bytes? p ≠ Desk.bytes? { tree := linkedFolder } p) := by
  have hsound : linkedFolder.Sound := by
    unfold Tree.Sound
    decide +kernel
  have ha : linkedFolder.Regular [] (Path.ofText "a.txt".toList) []
      (.bytes [0x61, 0x0A, 0x0A, 0x62]) :=
    ⟨by decide +kernel, by decide +kernel, by decide +kernel, by decide +kernel⟩
  have hb : linkedFolder.Regular [] (Path.ofText "l/b.txt".toList) ["sub".toList]
      (.text "a  b".toList) :=
    ⟨by decide +kernel, by decide +kernel, by decide +kernel, by decide +kernel⟩
  obtain ⟨named, checked, after, hcheck, -, hrun, -, -, -, hnamed⟩ :=
    check_names_changed_bytes_iff (d := { tree := linkedFolder }) (f := { plaintext := true })
      (m := { check := true }) hsound rfl ⟨rfl, .inl rfl⟩ rfl
      [⟨"a.txt".toList, by decide +kernel, [], _, ha, "a\n\nb".toList, by decide +kernel⟩,
        ⟨"l/b.txt".toList, by decide +kernel, _, _, hb, "a  b".toList, rfl⟩]
      (by simp only [map, TextFile.place]; decide +kernel)
  refine ⟨named, checked, after, hcheck, hrun, hnamed.2 ?_⟩
  intro x hx
  simp only [mem_cons, not_mem_nil, or_false] at hx
  rcases hx with rfl | rfl
  · exact .inl (show '\r' ∉ "a\n\nb".toList by decide)
  · exact .inl (show '\r' ∉ "a  b".toList by decide)

/-- Two lines with carriage returns at their ends, and an empty one between them. -/
def carriageReturns : Tree where
  entries := [(["a.txt".toList], .file (.bytes [0x61, 0x0D, 0x0A, 0x0D, 0x0A, 0x62]))]

/-- A file that a check does not name, and that a run changes. -/
theorem carriageReturns_changed_unnamed :
    ((reformatAll { plaintext := true } { check := true } ["a.txt".toList]).run
      { tree := carriageReturns }).1.toOption = some [] ∧
    (((reformatAll { plaintext := true } { inplace := true, noBackup := true } ["a.txt".toList]).run
      { tree := carriageReturns }).2.bytes? "a.txt".toList)
        ≠ Desk.bytes? { tree := carriageReturns } "a.txt".toList := by
  decide +kernel

end Reformat

end Reflow
