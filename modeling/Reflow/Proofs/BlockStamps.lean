import Reflow.Proofs.StoredPages

/-!
Stamps of later formats.

A stamp is read off a text as it is read off the stored text, whatever its line ends are
(`readings_universalNewlines`). The update of a project's page looks at the first stamp that a marker
has. It fails there if that stamp has too many digits, stops if it is of a later format, and otherwise
never looks at another one. So blocks of a later format are left alone exactly if the first stamped
block is one of them.
-/

open List

namespace Reflow.Skill

open Reflow.Text
open Files (Tree Place)

/-! ## Reading stamps -/

/-- All that is read off the places of a text, from left to right. -/
def readings (here? : Text → Option Text) : Text → List Text
  | [] => []
  | c :: cs => (here? (c :: cs)).toList ++ readings here? cs

theorem stamp?_eq_head? (t : Text) : stamp? t = (readings stampHere? t).head? := by
  induction t with
  | nil => rfl
  | cons c t ih =>
    rw [stamp?, readings, ih]
    cases stampHere? (c :: t) <;> rfl

theorem blockStamp?_eq_head? (t : Text) : blockStamp? t = (readings blockStampHere? t).head? := by
  induction t with
  | nil => rfl
  | cons c t ih =>
    rw [blockStamp?, readings, ih]
    cases blockStampHere? (c :: t) <;> rfl

/-- What has no line end at its start and is read alike where line ends are made alike. -/
theorem readings_universalNewlines {here? : Text → Option Text}
    (hsame : ∀ t, here? (universalNewlines t) = here? t)
    (hnone : ∀ c t, c = '\r' ∨ c = '\n' → here? (c :: t) = none) (t : Text) :
    readings here? (universalNewlines t) = readings here? t := by
  induction t using lineEndInduction with
  | nil => rfl
  | kept c t hc ih =>
    have hhere := hsame (c :: t)
    rw [universalNewlines_cons_of_ne hc] at hhere ⊢
    rw [readings, readings, hhere, ih]
  | pair t ih => simpa [universalNewlines, readings, hnone] using ih
  | alone t ht ih => simpa [universalNewlines_return ht, readings, hnone] using ih

theorem stampHere?_universalNewlines (t : Text) : stampHere? (universalNewlines t) = stampHere? t := by
  have hreturn : '\r' ∉ stampMark := by decide
  rw [stampHere?, stampHere?, isPrefixOf_universalNewlines hreturn (by decide)]
  split
  · next hprefix =>
    obtain ⟨r, rfl⟩ := isPrefixOf_iff_prefix.1 hprefix
    rw [universalNewlines_append_left hreturn, drop_left, drop_left,
      takeWhile_universalNewlines (by decide) (by decide)]
  · rfl

theorem drop_length_takeWhile (p : Char → Bool) (t : Text) :
    t.drop (t.takeWhile p).length = t.dropWhile p := by
  conv_lhs => rw [← takeWhile_append_dropWhile (p := p) (l := t)]
  exact drop_left' (by simp)

theorem blockStampHere?_universalNewlines (t : Text) :
    blockStampHere? (universalNewlines t) = blockStampHere? t := by
  have hreturn : '\r' ∉ beginMark := by decide
  have hempty : ∀ r : Text, ((universalNewlines r).takeWhile isBlank).isEmpty
      = (r.takeWhile isBlank).isEmpty := by
    intro r
    induction r using lineEndInduction with
    | nil => rfl
    | kept c r hc =>
      rw [universalNewlines_cons_of_ne hc, takeWhile_cons, takeWhile_cons]
      split <;> rfl
    | pair r => rfl
    | alone r hr => rw [universalNewlines_return hr]; rfl
  rw [blockStampHere?, blockStampHere?, isPrefixOf_universalNewlines hreturn (by decide)]
  split
  · next hprefix =>
    obtain ⟨r, rfl⟩ := isPrefixOf_iff_prefix.1 hprefix
    dsimp only
    rw [universalNewlines_append_left hreturn, drop_left, drop_left, hempty,
      drop_length_takeWhile, drop_length_takeWhile,
      dropWhile_universalNewlines (by decide) (by decide),
      stampHere?_universalNewlines]
  · rfl

/-- The stamps of all markers at which a block begins, from left to right. -/
def blockStamps (t : Text) : List Text := readings blockStampHere? t

theorem blockStamp?_universalNewlines (t : Text) :
    blockStamp? (universalNewlines t) = blockStamp? t := by
  rw [blockStamp?_eq_head?, blockStamp?_eq_head?,
    readings_universalNewlines blockStampHere?_universalNewlines]
  intro c t hc
  rcases hc with rfl | rfl <;> rfl

theorem stamp?_universalNewlines (t : Text) : stamp? (universalNewlines t) = stamp? t := by
  rw [stamp?_eq_head?, stamp?_eq_head?, readings_universalNewlines stampHere?_universalNewlines]
  intro c t hc
  rcases hc with rfl | rfl <;> rfl

/-- Stamps are compared by their numbers, as long as these have no more digits than they may. -/
theorem isLater_some (s : Text) : isLater (some s) =
    if s.length ≤ maxDigits then .ok (decide (formatNumber < digitsValue s))
    else .error ⟨s.length⟩ := by
  rw [isLater, formatOfStamp]
  split <;> rfl

/-! ## Updating a page that is stored -/

/-- The report about the page of a project. -/
def pageReport (p : Place) (a : Action) : Report := ⟨Surface.agentsPage.title.toList, p, a⟩

/-- **What the first stamp decides**: the update fails, stops or goes on. -/
theorem updatePage_eq (found : Option Text) (version : Text) :
    updatePage found version = (isLater (found.bind blockStamp?)).map fun later =>
      if later then (.blockedNewer, found)
      else (if found = some (withBlock found (block version)) then .unchanged
          else if found.isSome then .updated else .installed,
        some (withBlock found (block version))) := by
  unfold updatePage
  cases isLater (found.bind blockStamp?) with
  | error e => rfl
  | ok later =>
    cases later with
    | true => rfl
    | false =>
      by_cases hsame : found = some (withBlock found (block version))
      · simp [bind, Except.bind, pure, Except.pure, Except.map, ← hsame]
      · simp [bind, Except.bind, pure, Except.pure, Except.map, hsame]

theorem bind_universalNewlines {read? : Text → Option Text}
    (hread : ∀ t, read? (universalNewlines t) = read? t) (stored : Option Text) :
    (stored.map universalNewlines).bind read? = stored.bind read? := by
  cases stored with
  | none => rfl
  | some raw => exact hread raw

section Update

variable {t : Tree} {p : Place} {stored : Option Text} (h : t.HasRoom p stored) (version : Text)

include h

/-- An update stops at a stamp of a later format. -/
theorem updatePageAt_of_later (hlater : isLater (stored.bind blockStamp?) = .ok true) :
    updatePageAt t p version = .ok (t, pageReport p .blockedNewer) := by
  simp only [updatePageAt, h.textAt_eq, bind, Except.bind, updatePage_eq,
    bind_universalNewlines blockStamp?_universalNewlines, hlater]
  cases stored with
  | none => rfl
  | some raw => exact if_pos rfl

/-- An update fails at a stamp of too many digits, before anything is written. -/
theorem updatePageAt_of_long {e : LongStamp} (hlong : isLater (stored.bind blockStamp?) = .error e) :
    updatePageAt t p version = .error (.stamp e) := by
  simp only [updatePageAt, h.textAt_eq, bind, Except.bind, updatePage_eq,
    bind_universalNewlines blockStamp?_universalNewlines, hlong]
  rfl

/-- **An update that goes on.** The page is found with all line ends alike, and is written only if that
changes what was found. -/
theorem exists_updatePageAt {found : Option Text} {new : Text}
    (hstamp : isLater (stored.bind blockStamp?) = .ok false)
    (hfound : stored.map universalNewlines = found)
    (hnew : withBlock found (block version) = new) :
    ∃ t' a, updatePageAt t p version = .ok (t', pageReport p a) ∧
      (found = some new ∧ t' = t ∧ a = .unchanged ∨
        found ≠ some new ∧ t'.HasRoom p (some new) ∧ (a = .updated ∨ a = .installed)) := by
  rw [← bind_universalNewlines blockStamp?_universalNewlines, hfound] at hstamp
  have hupdate := updatePage_eq found version
  rw [hnew, hstamp] at hupdate
  simp only [updatePageAt, h.textAt_eq, hfound, bind, Except.bind, hupdate, Except.map,
    Except.mapError, Bool.false_eq_true, if_false]
  by_cases hsame : found = some new
  · simp only [if_pos hsame, if_pos hsame.symm]
    exact ⟨t, .unchanged, rfl, .inl ⟨hsame, rfl, rfl⟩⟩
  · simp only [if_neg hsame, if_neg (Ne.symm hsame), h.write_eq]
    refine ⟨_, _, rfl, .inr ⟨hsame, h.put new, ?_⟩⟩
    cases found.isSome <;> simp

end Update

/-! ## Blocks of a later format -/

/-- **Which blocks of a later format are left alone.** Take a page on which some marker has the stamp of
a later format. The update stops and leaves the tree as it is if and only if the first of all stamps is
of a later format and a number. With too many digits it makes the update fail, and otherwise the update
goes on as if there were no such marker. -/
theorem later_block_kept_iff {t : Tree} {p : Place} {raw : Text} (h : t.HasRoom p (some raw))
    (hlater : ∃ s ∈ blockStamps raw, formatNumber < digitsValue s) (version : Text) :
    (updatePageAt t p version = .ok (t, pageReport p .blockedNewer) ↔
      ∃ s rest, blockStamps raw = s :: rest ∧ s.length ≤ maxDigits ∧
        formatNumber < digitsValue s) ∧
    (∀ s rest, blockStamps raw = s :: rest → maxDigits < s.length →
      updatePageAt t p version = .error (.stamp ⟨s.length⟩)) ∧
    (∀ s rest, blockStamps raw = s :: rest → s.length ≤ maxDigits → digitsValue s ≤ formatNumber →
      ∃ t' a, updatePageAt t p version = .ok (t', pageReport p a) ∧ a ≠ .blockedNewer ∧
        (t' = t ∨ t'.HasRoom p (withBlock (some (universalNewlines raw)) (block version)))) := by
  have hfirst : ∀ s rest, blockStamps raw = s :: rest → (some raw).bind blockStamp? = some s := by
    intro s rest hstamps
    rw [Option.bind_some, blockStamp?_eq_head?]
    exact congrArg List.head? hstamps
  have hlong : ∀ s rest, blockStamps raw = s :: rest → maxDigits < s.length →
      updatePageAt t p version = .error (.stamp ⟨s.length⟩) := by
    intro s rest hstamps hlength
    refine updatePageAt_of_long h version ?_
    rw [hfirst s rest hstamps, isLater_some, if_neg (by omega)]
  have hgo : ∀ s rest, blockStamps raw = s :: rest → s.length ≤ maxDigits →
      digitsValue s ≤ formatNumber → ∃ t' a, updatePageAt t p version = .ok (t', pageReport p a) ∧
      a ≠ .blockedNewer ∧
      (t' = t ∨ t'.HasRoom p (withBlock (some (universalNewlines raw)) (block version))) := by
    intro s rest hstamps hlength hle
    have hcurrent : isLater ((some raw).bind blockStamp?) = .ok false := by
      rw [hfirst s rest hstamps, isLater_some, if_pos hlength, decide_eq_false (by omega)]
    obtain ⟨t', a, hupdate, hcases⟩ := exists_updatePageAt h version hcurrent rfl rfl
    refine ⟨t', a, hupdate, ?_⟩
    rcases hcases with ⟨-, rfl, rfl⟩ | ⟨-, hroom, rfl | rfl⟩
    · exact ⟨by decide, .inl rfl⟩
    · exact ⟨by decide, .inr hroom⟩
    · exact ⟨by decide, .inr hroom⟩
  refine ⟨⟨fun hblocked => ?_, ?_⟩, hlong, hgo⟩
  · obtain ⟨first, rest, hstamps⟩ : ∃ first rest, blockStamps raw = first :: rest := by
      obtain ⟨s, hs, -⟩ := hlater
      exact exists_cons_of_ne_nil (ne_nil_of_mem hs)
    refine ⟨first, rest, hstamps, ?_⟩
    by_contra hnot
    rcases Nat.lt_or_ge maxDigits first.length with hlength | hlength
    · cases hblocked.symm.trans (hlong first rest hstamps hlength)
    · obtain ⟨t', a, hupdate, hne, -⟩ := hgo first rest hstamps hlength (by omega)
      rw [hblocked] at hupdate
      cases hupdate
      exact hne rfl
  · rintro ⟨s, rest, hstamps, hlength, hn⟩
    refine updatePageAt_of_later h version ?_
    rw [hfirst s rest hstamps, isLater_some, if_pos hlength, decide_eq_true hn]

/-- A tree with the page of a project and nothing else. -/
def pageTree (page : Text) : Tree where
  entries := [(["AGENTS.md".toList], .file (.text page))]

theorem hasRoom_pageTree (page : Text) : (pageTree page).HasRoom ["AGENTS.md".toList] (some page) := by
  refine .of_take (by decide) (by decide) (fun k hk => ?_) ⟨.text page, ?_, rfl⟩
  · obtain rfl : k = 0 := by simpa using hk
    rfl
  · simp [Tree.at?, pageTree]

/-- The marker of a block with the given stamp, and the end of the block. -/
def stampedBlock (stamp : String) : Text :=
  beginMark ++ " format=".toList ++ stamp.toList ++ " -->\n".toList ++ endMark ++ ['\n']

/-- A block of a later format that comes first. -/
theorem first_later_block_kept :
    let page := stampedBlock "f99" ++ stampedBlock "f03"
    let p : Place := ["AGENTS.md".toList]
    (∃ s ∈ blockStamps page, formatNumber < digitsValue s) ∧
      updatePageAt (pageTree page) p "1.0".toList = .ok (pageTree page, pageReport p .blockedNewer) := by
  intro page p
  have hstamps : blockStamps page = ["99".toList, "03".toList] := by decide
  have hlater : ∃ s ∈ blockStamps page, formatNumber < digitsValue s :=
    ⟨"99".toList, by simp [hstamps], by decide⟩
  refine ⟨hlater, (later_block_kept_iff (hasRoom_pageTree page) hlater _).1.2 ?_⟩
  exact ⟨_, _, hstamps, by decide, by decide⟩

/-- A block of a later format after one of this format is gone when the page has been updated. -/
theorem second_later_block_lost :
    let page := stampedBlock "f03" ++ stampedBlock "f99"
    let p : Place := ["AGENTS.md".toList]
    blockStamps page = ["03".toList, "99".toList] ∧
    (updatePageAt (pageTree page) p "1.0".toList).toOption.map (fun r =>
        (r.2.action, ((textAt r.1 p).toOption.join.map blockStamps)))
      = some (.updated, some ["03".toList]) := by
  decide +kernel

end Reflow.Skill
