import Reflow.Files.Resolver
import Reflow.Proofs.IgnorePatterns

/-!
Lines of ignore files that go by folders or by names.

A line that ends with a slash asks for something below a folder, whatever stands before the slash
(`isFolder_of_isFolderLine`). A line of one name is matched by that name alone, at any depth or at the
top (`isName_of_isNameLine`); a bracket that takes a slash makes it more than a name. The lists of
such lines go by folders and by names (`goes_of_lines`).
-/

open List hiding splitOn splitOn_ne_nil find?

namespace Reflow.Files

open Text

namespace IgnorePattern

/-! ## Reading a line -/

/-- What a line says without the exclamation mark, and whether it has one. -/
def signed (trimmed : Text) : Bool × Text :=
  match trimmed with
  | '!' :: rest => (true, rest)
  | _ => (false, trimmed)

/-- The names of a line, as it is put to use. -/
def namesOf (line : Text) : List Text := mergeStars (splitOn '/' (signed (trim line)).2)

variable {line name : Text} {p : IgnorePattern} {names : List Text} {first : Bool}

theorem ofLine_cases (h : ofLine line = .ok (some p)) :
    trim line ≠ ['/'] ∧ p.negated = (signed (trim line)).1 ∧
      (namesOf line = [doubleStar, []] ∧ p.pattern = someText ++ slash :: anyText ∨
        patternOf true false (normalise (namesOf line)) = some p.pattern) := by
  unfold ofLine at h
  simp only [pure, Except.pure] at h
  split at h
  · simp at h
  next hline =>
  simp only [Bool.or_eq_true, beq_iff_eq, not_or] at hline
  change (if isAnyFolder (namesOf line) = true then
      Except.ok (some (IgnorePattern.mk (signed (trim line)).1 (someText ++ slash :: anyText)))
    else _) = _ at h
  refine ⟨hline.2, ?_⟩
  split at h
  · next hany =>
    cases h
    exact ⟨rfl, .inl ⟨by simpa [isAnyFolder] using hany, rfl⟩⟩
  · -- what is left of a match is the one case that gives a pattern
    split at h
    · cases h
    · split at h
      · cases h
      · cases h
      · next hpattern _ =>
        cases h
        exact ⟨rfl, .inr hpattern⟩

/-! ## Lines of folders -/

/-- The line ends with a slash, and says more than that everything is taken back in. -/
def isFolderLine (line : Text) : Bool :=
  endsWith (trim line) ['/'] && trim line != ['!', '/']

theorem mergeStars_ne_nil (h : names ≠ []) : mergeStars names ≠ [] := by
  fun_induction mergeStars names with
  | case1 a b rest hstars ih => exact ih (by simp)
  | case2 a b rest hstars ih => simp
  | case3 names hshort => exact h

theorem mergeStars_concat (h : names ≠ []) :
    mergeStars (names ++ [[]]) = mergeStars names ++ [[]] := by
  fun_induction mergeStars names with
  | case1 a b rest hstars ih =>
    rw [cons_append, cons_append, mergeStars, if_pos hstars]
    exact ih (by simp)
  | case2 a b rest hstars ih =>
    rw [cons_append, cons_append, mergeStars, if_neg hstars]
    exact congrArg _ (ih (by simp))
  | case3 names hshort =>
    cases names with
    | nil => exact absurd rfl h
    | cons a rest =>
      cases rest with
      | nil => simp [mergeStars, doubleStar]
      | cons b rest => exact absurd rfl (hshort a b rest)

theorem mergeStars_eq_singleton_nil (h : mergeStars names = [[]]) : names = [[]] := by
  fun_induction mergeStars names with
  | case1 a b rest hstars ih =>
    rw [Bool.and_eq_true] at hstars
    rw [(cons_eq_cons.1 (ih h)).1] at hstars
    cases hstars.2
  | case2 a b rest hstars ih => exact absurd (cons_eq_cons.1 h).2 (mergeStars_ne_nil (by simp))
  | case3 names hshort => exact h

/-- The names of a line from the folder down, an empty one at the end left as it is. -/
def anchored : List Text → List Text
  | [] :: rest => rest
  | [a] => if a = doubleStar then [a] else [doubleStar, a]
  | [a, []] => if a = doubleStar then [a, []] else [doubleStar, a, []]
  | names => names

/-- An empty name at the end asks for anything below. -/
def opened (names : List Text) : List Text :=
  match names.getLast? with
  | some [] => if names.length > 1 then names.dropLast ++ [doubleStar] else names
  | _ => names

theorem normalise_eq {folder : List Text} (h : anchored names = folder ++ [[]])
    (hne : folder ≠ []) : normalise names = folder ++ [doubleStar] := by
  have hlength : 0 < folder.length := length_pos_iff.2 hne
  have hopened : normalise names = opened (anchored names) := rfl
  simp [hopened, opened, h, hlength]

theorem normalise_concat (hne : names ≠ []) (hroot : names ≠ [[]]) :
    ∃ folder, folder ≠ [] ∧ normalise (names ++ [[]]) = folder ++ [doubleStar] := by
  match names, hne, hroot with
  | [] :: b :: rest, _, _ => exact ⟨b :: rest, by simp, normalise_eq rfl (by simp)⟩
  | [c :: cs], _, _ =>
    by_cases hstar : c :: cs = doubleStar
    · exact ⟨[c :: cs], by simp, normalise_eq (if_pos hstar) (by simp)⟩
    · exact ⟨[doubleStar, c :: cs], by simp, normalise_eq (if_neg hstar) (by simp)⟩
  | (c :: cs) :: b :: rest, _, _ =>
    refine ⟨(c :: cs) :: b :: rest, by simp, normalise_eq ?_ (by simp)⟩
    cases b <;> cases rest <;> rfl

/-- The pattern of one name of a line. -/
def ownPattern (name : Text) : Option Pattern :=
  if name = ['*'] then some [.one .notSlash, .many .notSlash] else namePattern name

theorem patternOf_cons {slashed : Bool} {rest : List Text} (h : name ≠ doubleStar) :
    patternOf first slashed (name :: rest) = (ownPattern name).bind fun own =>
      (patternOf false true rest).map fun after =>
        (if slashed then [slash] else []) ++ own ++ (if rest.isEmpty then [orBelow] else []) ++ after := by
  simp only [patternOf, if_neg h, ownPattern, Option.map_eq_bind]
  by_cases hall : name = ['*']
  · rw [if_pos hall, if_pos hall]
    rfl
  · rw [if_neg hall, if_neg hall]
    rfl

theorem patternOf_concat {folder : List Text} {slashed : Bool} {pattern : Pattern}
    (hfirst : folder ≠ [] ∨ first = false)
    (h : patternOf first slashed (folder ++ [doubleStar]) = some pattern) :
    ∃ body, pattern = body ++ slash :: anyText := by
  induction folder generalizing first slashed pattern with
  | nil =>
    have hfirst : first = false := by simpa using hfirst
    subst hfirst
    refine ⟨[], ?_⟩
    simpa [patternOf] using h.symm
  | cons name folder ih =>
    rw [cons_append] at h
    by_cases hstar : name = doubleStar
    · have hmore : (folder ++ [doubleStar]).isEmpty = false := by simp
      rw [patternOf, if_pos hstar, hmore, if_neg Bool.false_ne_true] at h
      split at h
      all_goals
        obtain ⟨after, hafter, rfl⟩ := Option.map_eq_some_iff.1 h
        obtain ⟨body, rfl⟩ := ih (.inr rfl) hafter
        exact ⟨_ :: body, rfl⟩
    · rw [patternOf_cons hstar] at h
      obtain ⟨own, -, h⟩ := Option.bind_eq_some_iff.1 h
      obtain ⟨after, hafter, rfl⟩ := Option.map_eq_some_iff.1 h
      obtain ⟨body, rfl⟩ := ih (.inr rfl) hafter
      exact ⟨_ ++ body, (append_assoc _ _ _).symm⟩

theorem isFolder_of_isFolderLine (hline : isFolderLine line)
    (h : ofLine line = .ok (some p)) : p.IsFolder := by
  obtain ⟨hslash, -, ⟨-, hany⟩ | hpattern⟩ := ofLine_cases h
  · exact ⟨someText, hany⟩
  · rw [isFolderLine, Bool.and_eq_true, bne_iff_ne, endsWith, isSuffixOf_iff_suffix] at hline
    obtain ⟨⟨before, hbefore⟩, hback⟩ := hline
    -- the exclamation mark is not all that stands before the slash
    obtain ⟨body, hbody, hne⟩ : ∃ body, (signed (trim line)).2 = body ++ ['/'] ∧ body ≠ [] := by
      rw [← hbefore] at hslash hback ⊢
      unfold signed
      split
      · next rest heq =>
        cases before with
        | nil => cases heq
        | cons c cs =>
          obtain ⟨rfl, rfl⟩ := cons_eq_cons.1 heq
          exact ⟨cs, rfl, by rintro rfl; exact hback rfl⟩
      · exact ⟨before, rfl, by rintro rfl; exact hslash rfl⟩
    have hnames : namesOf line = mergeStars (splitOn '/' body) ++ [[]] := by
      rw [namesOf, hbody, splitOn_append, splitOn, mergeStars_concat (splitOn_ne_nil '/' body)]
    -- a line that is more than a slash names something before it
    have hroot : mergeStars (splitOn '/' body) ≠ [[]] := by
      intro heq
      have hjoin := joinWith_splitOn '/' body
      rw [mergeStars_eq_singleton_nil heq] at hjoin
      exact hne hjoin.symm
    obtain ⟨folder, hfolder, hnormal⟩ :=
      normalise_concat (mergeStars_ne_nil (splitOn_ne_nil '/' body)) hroot
    rw [hnames, hnormal] at hpattern
    exact patternOf_concat (.inl hfolder) hpattern

example : defaultExcludes.all isFolderLine = true := by decide +kernel

/-! ## Lines of one name -/

/-- The name stands for names: no piece of its pattern takes a slash, and it takes no empty text. -/
def isPlainName (name : Text) : Bool :=
  name != doubleStar &&
    (ownPattern name).any fun own => own.all Piece.isInName && own.any Piece.isOne

/-- The line is of one name, which is meant at any depth unless the line leaves out. -/
def isNameLine (line : Text) : Bool :=
  match normalise (namesOf line) with
  | [a] => !(signed (trim line)).1 && isPlainName a
  | [a, b] =>
    a == doubleStar && isPlainName b || b == doubleStar && !(signed (trim line)).1 && isPlainName a
  | [a, b, c] => a == doubleStar && c == doubleStar && isPlainName b
  | _ => false

theorem exists_nameForm (h : isPlainName name) (anywhere folder : Bool) :
    ∃ f : NameForm, name ≠ doubleStar ∧ ownPattern name = some f.own ∧ f.anywhere = anywhere ∧
      f.folder = folder := by
  rw [isPlainName, Bool.and_eq_true, bne_iff_ne, Option.any_eq_true] at h
  obtain ⟨hname, own, hown, hplain⟩ := h
  rw [Bool.and_eq_true] at hplain
  exact ⟨⟨anywhere, own, folder, hplain.1, hplain.2⟩, hname, hown, rfl, rfl⟩

/-- The names of a line of one name: a double star before it says that it is meant at any depth, and
one after it that it is the name of a folder. -/
theorem isNameLine_cases (h : isNameLine line) :
    ∃ (f : NameForm) (name : Text), name ≠ doubleStar ∧ ownPattern name = some f.own ∧
      ((signed (trim line)).1 → f.anywhere) ∧
      normalise (namesOf line) = (if f.anywhere then [doubleStar] else []) ++
        name :: (if f.folder then [doubleStar] else []) := by
  unfold isNameLine at h
  split at h
  · next a hnames =>
    rw [Bool.and_eq_true, Bool.not_eq_true'] at h
    obtain ⟨f, hname, hown, hanywhere, hfolder⟩ := exists_nameForm h.2 false false
    exact ⟨f, a, hname, hown, by simp [h.1], by simp [hnames, hanywhere, hfolder]⟩
  · next a b hnames =>
    rw [Bool.or_eq_true, Bool.and_eq_true, Bool.and_eq_true, Bool.and_eq_true, beq_iff_eq,
      beq_iff_eq, Bool.not_eq_true'] at h
    rcases h with ⟨rfl, hplain⟩ | ⟨⟨rfl, hsign⟩, hplain⟩
    · obtain ⟨f, hname, hown, hanywhere, hfolder⟩ := exists_nameForm hplain true false
      exact ⟨f, b, hname, hown, fun _ => hanywhere, by simp [hnames, hanywhere, hfolder]⟩
    · obtain ⟨f, hname, hown, hanywhere, hfolder⟩ := exists_nameForm hplain false true
      exact ⟨f, a, hname, hown, by simp [hsign], by simp [hnames, hanywhere, hfolder]⟩
  · next a b c hnames =>
    rw [Bool.and_eq_true, Bool.and_eq_true, beq_iff_eq, beq_iff_eq] at h
    obtain ⟨⟨rfl, rfl⟩, hplain⟩ := h
    obtain ⟨f, hname, hown, hanywhere, hfolder⟩ := exists_nameForm hplain true true
    exact ⟨f, b, hname, hown, fun _ => hanywhere, by simp [hnames, hanywhere, hfolder]⟩
  · cases h

theorem patternOf_name {own : List Piece} (folder : Bool) (hname : name ≠ doubleStar)
    (hown : ownPattern name = some own) :
    patternOf first false (name :: (if folder then [doubleStar] else []))
      = some (own ++ (if folder then slash :: anyText else [orBelow])) := by
  rw [patternOf_cons hname, hown]
  cases folder with
  | false => simp [patternOf]
  | true => simp [patternOf]

theorem isName_of_isNameLine (hline : isNameLine line) (h : ofLine line = .ok (some p)) :
    ∃ f : NameForm, p.IsName f ∧ (p.negated → f.anywhere) := by
  obtain ⟨f, name, hname, hown, hsign, hnames⟩ := isNameLine_cases hline
  obtain ⟨-, hnegated, ⟨hany, -⟩ | hpattern⟩ := ofLine_cases h
  · -- the line of any folder has no name
    rw [hany, show normalise [doubleStar, []] = [doubleStar, doubleStar] from rfl] at hnames
    cases hanywhere : f.anywhere <;> simp [hanywhere, Ne.symm hname] at hnames
  · refine ⟨f, ?_, fun hneg => hsign (hnegated ▸ hneg)⟩
    rw [hnames] at hpattern
    rw [IsName, NameForm.pattern]
    cases hanywhere : f.anywhere with
    | false =>
      simp only [hanywhere, Bool.false_eq_true, if_false, nil_append] at hpattern ⊢
      rw [patternOf_name f.folder hname hown] at hpattern
      exact (Option.some.inj hpattern).symm
    | true =>
      simp only [hanywhere, if_true, singleton_append] at hpattern ⊢
      rw [patternOf, if_pos rfl, isEmpty_cons, if_neg Bool.false_ne_true, if_pos rfl,
        patternOf_name f.folder hname hown] at hpattern
      exact (Option.some.inj hpattern).symm

end IgnorePattern

/-! ## Lists of lines -/

namespace IgnoreList

theorem mem_ofLines {lines : List Text} {l : IgnoreList} (h : ofLines lines = .ok l)
    {p : IgnorePattern} (hp : p ∈ l) :
    ∃ line ∈ lines, IgnorePattern.ofLine line = .ok (some p) := by
  have hread : ∀ {lines : List Text} {ps : List (Option IgnorePattern)},
      lines.mapM IgnorePattern.ofLine = .ok ps → some p ∈ ps →
        ∃ line ∈ lines, IgnorePattern.ofLine line = .ok (some p) := by
    intro lines
    induction lines with
    | nil =>
      intro ps hps hmem
      cases hps
      cases hmem
    | cons line lines ih =>
      intro ps hps hmem
      rw [mapM_cons] at hps
      cases hline : IgnorePattern.ofLine line with
      | error e => simp [hline, bind, Except.bind] at hps
      | ok q =>
        cases hlines : lines.mapM IgnorePattern.ofLine with
        | error e => simp [hline, hlines, bind, Except.bind] at hps
        | ok qs =>
          simp only [hline, hlines, bind, Except.bind, pure, Except.pure, Except.ok.injEq] at hps
          subst hps
          rcases mem_cons.1 hmem with rfl | hmem
          · exact ⟨line, by simp, hline⟩
          · obtain ⟨other, hother, hread⟩ := ih hlines hmem
            exact ⟨other, by simp [hother], hread⟩
  unfold ofLines at h
  cases hlines : lines.mapM IgnorePattern.ofLine with
  | error e => simp [hlines, bind, Except.bind] at h
  | ok ps =>
    simp only [hlines, bind, Except.bind, pure, Except.pure, Except.ok.injEq] at h
    subst h
    exact hread hlines (by simpa using hp)

/-- Which lists go by folders and names, by their lines: those that end with a slash, and those of
one name. -/
theorem goes_of_lines {lines : List Text} {l : IgnoreList} (h : ofLines lines = .ok l) :
    ((∀ line ∈ lines, IgnorePattern.isFolderLine line) → l.GoesByFolders) ∧
    ((∀ line ∈ lines, IgnorePattern.isNameLine line) → l.GoesByNames) ∧
    ((∀ line ∈ lines, IgnorePattern.isFolderLine line ∨
      IgnorePattern.isNameLine line) → l.GoesByFoldersOrNames) := by
  refine ⟨?_, ?_, ?_⟩
  · intro hlines
    apply goesByFolders_of_isFolder
    intro p hp
    obtain ⟨line, hline, hread⟩ := mem_ofLines h hp
    exact IgnorePattern.isFolder_of_isFolderLine (hlines line hline) hread
  · intro hlines
    apply goesByNames_of_isName
    intro p hp
    obtain ⟨line, hline, hread⟩ := mem_ofLines h hp
    exact IgnorePattern.isName_of_isNameLine (hlines line hline) hread
  · intro hlines
    apply goesByFoldersOrNames_of_isFolder_or_isName
    intro p hp
    obtain ⟨line, hline, hread⟩ := mem_ofLines h hp
    rcases hlines line hline with hfolder | hname
    · exact .inl (IgnorePattern.isFolder_of_isFolderLine hfolder hread)
    · exact .inr (IgnorePattern.isName_of_isNameLine hname hread)

end IgnoreList

end Reflow.Files
