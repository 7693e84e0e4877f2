import Reflow.Proofs.BlockStamps

/-!
Installing the two pages of a folder.

The pages are looked at before anything is written: if one of them is of a later format, or its stamp
has too many digits, nothing happens. Otherwise each page that does not read as it is wanted is written,
and a second installation finds both as they are wanted (`exists_installPages`). A stored page can read
as it is wanted and still have carriage returns; it is then taken for the wanted one and left.
-/

namespace Reflow.Skill

open Reflow.Text
open Files (Tree Place)

theorem isNewer_universalNewlines (stored : Option Text) :
    isNewer (stored.map universalNewlines) = isNewer stored := by
  rw [isNewer, isNewer, bind_universalNewlines stamp?_universalNewlines]

theorem usagePlace_not_isPrefix (folder : Place) : ¬ usagePlace folder <+: setupPlace folder := by
  rw [usagePlace, setupPlace, List.prefix_append_right_inj]
  decide

theorem setupPlace_not_isPrefix (folder : Place) : ¬ setupPlace folder <+: usagePlace folder := by
  rw [usagePlace, setupPlace, List.prefix_append_right_inj]
  decide

theorem FoundPages.action_cases (f : FoundPages) (wanted : Pages) (occupied : Bool) :
    f.action wanted occupied = .unchanged ∧ f.usage = some wanted.usage ∧ f.setup = some wanted.setup ∨
      (f.action wanted occupied = .updated ∨ f.action wanted occupied = .installed) ∧
        ¬ (f.usage = some wanted.usage ∧ f.setup = some wanted.setup) := by
  rw [action]
  by_cases hsame : f.usage = some wanted.usage ∧ f.setup = some wanted.setup
  · exact .inl ⟨if_pos (by simpa using hsame), hsame⟩
  · rw [if_neg (by simpa using hsame)]
    refine .inr ⟨?_, hsame⟩
    split <;> simp

section Install

variable {t : Tree} {folder : Place} {usage setup : Option Text}
  (husage : t.HasRoom (usagePlace folder) usage) (hsetup : t.HasRoom (setupPlace folder) setup)
  (title : Text) (wanted : Pages)

include husage hsetup

theorem exists_installPages_of_newer
    (h : isNewer usage = .ok true ∨ isNewer usage = .ok false ∧ isNewer setup = .ok true) :
    ∃ p, installPages t folder title wanted = .ok (t, ⟨title, p, .blockedNewer⟩) := by
  simp only [installPages, husage.textAt_eq, hsetup.textAt_eq, bind, Except.bind,
    isNewer_universalNewlines]
  rcases h with hnewer | ⟨hold, hnewer⟩
  · rw [hnewer]
    exact ⟨_, rfl⟩
  · rw [hold, hnewer]
    exact ⟨_, rfl⟩

/-- A stamp of too many digits makes the installation fail before anything is written. -/
theorem installPages_of_error {e : Fault}
    (h : isNewer usage = .error e ∨ isNewer usage = .ok false ∧ isNewer setup = .error e) :
    installPages t folder title wanted = .error e := by
  simp only [installPages, husage.textAt_eq, hsetup.textAt_eq, bind, Except.bind,
    isNewer_universalNewlines]
  rcases h with hlong | ⟨hold, hlong⟩
  · rw [hlong]
  · rw [hold, hlong]
    rfl

/-- **An installation that goes on.** A page is written unless it reads as it is wanted. -/
theorem exists_installPages (holdUsage : isNewer usage = .ok false)
    (holdSetup : isNewer setup = .ok false) :
    ∃ t' a, installPages t folder title wanted = .ok (t', ⟨title, usagePlace folder, a⟩) ∧
      t'.HasRoom (usagePlace folder)
        (if usage.map universalNewlines = some wanted.usage then usage else some wanted.usage) ∧
      t'.HasRoom (setupPlace folder)
        (if setup.map universalNewlines = some wanted.setup then setup else some wanted.setup) ∧
      (a = .unchanged ∧ t' = t ∧ usage.map universalNewlines = some wanted.usage ∧
          setup.map universalNewlines = some wanted.setup ∨
        (a = .updated ∨ a = .installed) ∧ ¬ (usage.map universalNewlines = some wanted.usage ∧
          setup.map universalNewlines = some wanted.setup)) := by
  simp only [installPages, husage.textAt_eq, hsetup.textAt_eq, bind, Except.bind,
    isNewer_universalNewlines, holdUsage, holdSetup, Bool.false_eq_true, if_false,
    husage.obstacle?_eq]
  generalize (t.has [] _ || t.has [] _) = occupied
  have haction := FoundPages.action_cases
    ⟨usage.map universalNewlines, setup.map universalNewlines⟩ wanted occupied
  dsimp only at haction
  generalize FoundPages.action _ _ _ = a at haction
  -- each page is written or left, and writing the one leaves room for the other
  by_cases hu : usage.map universalNewlines = some wanted.usage
  · by_cases hs : setup.map universalNewlines = some wanted.setup
    · simp only [hu, hs, ne_eq, not_true, if_true, if_false] at haction ⊢
      exact ⟨t, a, rfl, husage, hsetup, haction.imp_left fun h => ⟨h.1, rfl, h.2⟩⟩
    · simp only [hu, hs, ne_eq, not_true, if_true, if_false, hsetup.write_eq] at haction ⊢
      refine ⟨_, a, rfl, husage.put_other (setupPlace_not_isPrefix _) (usagePlace_not_isPrefix _) _,
        hsetup.put _, haction.imp_left fun h => absurd h.2.2 (by simp)⟩
  · by_cases hs : setup.map universalNewlines = some wanted.setup
    · simp only [hu, hs, ne_eq, not_false_eq_true, if_true, if_false, husage.write_eq] at haction ⊢
      refine ⟨_, a, rfl, husage.put _, hsetup.put_other (usagePlace_not_isPrefix _)
        (setupPlace_not_isPrefix _) _, haction.imp_left fun h => absurd h.2.1 (by simp)⟩
    · have husage' := husage.put_other (setupPlace_not_isPrefix folder) (usagePlace_not_isPrefix folder)
        (.text wanted.setup)
      simp only [hu, hs, ne_eq, not_false_eq_true, if_true, if_false, hsetup.write_eq,
        Except.mapError, husage'.write_eq] at haction ⊢
      refine ⟨_, a, rfl, husage'.put _, (hsetup.put _).put_other (usagePlace_not_isPrefix _)
        (setupPlace_not_isPrefix _) _, haction.imp_left fun h => absurd h.2.1 (by simp)⟩

end Install

/-- A page is as it is wanted after the installation, and reads so, unless carriage returns come in
between. -/
theorem page_settled_iff {stored : Option Text} {wanted : Text} :
    (if stored.map universalNewlines = some wanted then stored else some wanted) = some wanted ∧
        universalNewlines wanted = wanted ↔
      '\r' ∉ wanted ∧ (stored.map universalNewlines = some wanted → stored = some wanted) := by
  rw [universalNewlines_eq_self_iff, and_comm]
  by_cases hread : stored.map universalNewlines = some wanted <;> simp [hread]

/-- **When an installation is all-or-nothing.** It is given up before anything is written if a page of
a later format is there, and it fails if a stamp that it looks at has too many digits. Otherwise the
pages are as wanted afterwards, nothing was done exactly if they were so before, and nothing is done a
second time, if and only if no carriage return is wanted and no stored page differs from the wanted one
by its line ends alone. -/
theorem pages_installed_iff {t : Tree} {folder : Place} {usage setup : Option Text}
    (husage : t.HasRoom (usagePlace folder) usage) (hsetup : t.HasRoom (setupPlace folder) setup)
    (title : Text) (wanted : Pages) (hu : isNewer (some wanted.usage) = .ok false)
    (hs : isNewer (some wanted.setup) = .ok false) :
    (isNewer usage = .ok true ∨ isNewer usage = .ok false ∧ isNewer setup = .ok true →
      ∃ p, installPages t folder title wanted = .ok (t, ⟨title, p, .blockedNewer⟩)) ∧
    (∀ e, isNewer usage = .error e ∨ isNewer usage = .ok false ∧ isNewer setup = .error e →
      installPages t folder title wanted = .error e) ∧
    (isNewer usage = .ok false → isNewer setup = .ok false →
      ∃ t' a, installPages t folder title wanted = .ok (t', ⟨title, usagePlace folder, a⟩) ∧
        a ≠ .blockedNewer ∧
        (t'.HasRoom (usagePlace folder) (some wanted.usage) ∧
            t'.HasRoom (setupPlace folder) (some wanted.setup) ∧
            (a = .unchanged ↔ usage = some wanted.usage ∧ setup = some wanted.setup) ∧
            installPages t' folder title wanted = .ok (t', ⟨title, usagePlace folder, .unchanged⟩) ↔
          ('\r' ∉ wanted.usage ∧
            (usage.map universalNewlines = some wanted.usage → usage = some wanted.usage)) ∧
          '\r' ∉ wanted.setup ∧
            (setup.map universalNewlines = some wanted.setup → setup = some wanted.setup))) := by
  refine ⟨exists_installPages_of_newer husage hsetup title wanted,
    fun _ => installPages_of_error husage hsetup title wanted, fun holdUsage holdSetup => ?_⟩
  obtain ⟨t', a, hinstall, husage', hsetup', hcases⟩ :=
    exists_installPages husage hsetup title wanted holdUsage holdSetup
  refine ⟨t', a, hinstall, ?_, ?_⟩
  · rcases hcases with ⟨rfl, -⟩ | ⟨rfl | rfl, -⟩ <;> simp
  rw [← page_settled_iff, ← page_settled_iff]
  constructor
  · rintro ⟨hgivenUsage, hgivenSetup, -, hagain⟩
    obtain ⟨_, _, hagain', -, -, hread⟩ :=
      exists_installPages hgivenUsage hgivenSetup title wanted hu hs
    rw [hagain] at hagain'
    cases hagain'
    rcases hread with ⟨-, -, hreadUsage, hreadSetup⟩ | ⟨hne | hne, -⟩
    · exact ⟨⟨husage'.stores.unique hgivenUsage.stores, Option.some.inj hreadUsage⟩,
        hsetup'.stores.unique hgivenSetup.stores, Option.some.inj hreadSetup⟩
    · cases hne
    · cases hne
  · rintro ⟨⟨hsameUsage, hreadUsage⟩, hsameSetup, hreadSetup⟩
    rw [hsameUsage] at husage'
    rw [hsameSetup] at hsetup'
    refine ⟨husage', hsetup', ?_, ?_⟩
    · have hstored : ∀ {stored : Option Text} {page : Text},
          (if stored.map universalNewlines = some page then stored else some page) = some page →
          universalNewlines page = page → (stored.map universalNewlines = some page ↔ stored = some page) := by
        intro stored page hsame hread
        refine ⟨(page_settled_iff.1 ⟨hsame, hread⟩).2, ?_⟩
        rintro rfl
        exact congrArg some hread
      rw [hstored hsameUsage hreadUsage, hstored hsameSetup hreadSetup] at hcases
      rcases hcases with ⟨rfl, -, hboth⟩ | ⟨rfl | rfl, hnot⟩
      · exact iff_of_true rfl hboth
      · exact iff_of_false nofun hnot
      · exact iff_of_false nofun hnot
    · obtain ⟨_, _, hagain, -, -, hread⟩ := exists_installPages husage' hsetup' title wanted hu hs
      rcases hread with ⟨rfl, rfl, -⟩ | ⟨-, hnot⟩
      · exact hagain
      · exact absurd ⟨congrArg some hreadUsage, congrArg some hreadSetup⟩ hnot

/-- A tree with the two pages and nothing else. -/
def pagesTree (pages : Pages) : Tree where
  entries := [(usagePlace [], .file (.text pages.usage)), (setupPlace [], .file (.text pages.setup))]

/-- Pages that are nothing but their stamps. -/
def stampedPages (stamp : String) : Pages := ⟨stamp.toList, stamp.toList⟩

theorem hasRoom_usagePlace (pages : Pages) :
    (pagesTree pages).HasRoom (usagePlace []) (some pages.usage) := by
  refine .of_take (by decide) (by decide) (fun k hk => ?_) ⟨.text pages.usage, ?_, rfl⟩
  · obtain rfl : k = 0 := by simpa [usagePlace] using hk
    rfl
  · simp [Tree.at?, pagesTree]

theorem hasRoom_setupPlace (pages : Pages) :
    (pagesTree pages).HasRoom (setupPlace []) (some pages.setup) := by
  have hne : (setupPlace [] == usagePlace []) = false := by decide
  refine .of_take (by decide) (by decide) (fun k hk => ?_) ⟨.text pages.setup, ?_, rfl⟩
  · have habove : ∀ k < 2, ((setupPlace []).take k == usagePlace []) = false ∧
        ((setupPlace []).take k == setupPlace []) = false := by decide
    simp [pagesTree, List.lookup_cons, habove k hk]
  · simp [Tree.at?, pagesTree, List.lookup_cons, hne]

/-- Pages of an earlier format are replaced. -/
theorem earlier_pages_replaced :
    ∃ t' a, installPages (pagesTree (stampedPages "format=f02\n")) [] [] (stampedPages "format=f03\n")
        = .ok (t', ⟨[], usagePlace [], a⟩) ∧
      t'.HasRoom (usagePlace []) (some "format=f03\n".toList) ∧
      t'.HasRoom (setupPlace []) (some "format=f03\n".toList) := by
  obtain ⟨t', a, hinstall, -, hiff⟩ :=
    (pages_installed_iff (hasRoom_usagePlace (stampedPages "format=f02\n")) (hasRoom_setupPlace _) []
      (stampedPages "format=f03\n") rfl rfl).2.2 rfl rfl
  obtain ⟨husage, hsetup, -⟩ := hiff.2 (by decide)
  exact ⟨t', a, hinstall, husage, hsetup⟩

/-- Pages that differ from the wanted ones by their line ends are taken for them. -/
theorem pages_with_returns_left :
    let t := pagesTree (stampedPages "format=f03\r\n")
    installPages t [] [] (stampedPages "format=f03\n") = .ok (t, ⟨[], usagePlace [], .unchanged⟩) ∧
      t.read [] (.ofPlace (usagePlace [])) = .ok "format=f03\n".toList ∧
      t.HasRoom (usagePlace []) (some "format=f03\r\n".toList) := by
  intro t
  refine ⟨?_, by decide, hasRoom_usagePlace _⟩
  obtain ⟨t', a, hinstall, -, -, hcases⟩ := exists_installPages (hasRoom_usagePlace _)
    (hasRoom_setupPlace (stampedPages "format=f03\r\n")) [] (stampedPages "format=f03\n") rfl rfl
  rcases hcases with ⟨rfl, rfl, -⟩ | ⟨-, hnot⟩
  · exact hinstall
  · exact absurd (by decide) hnot

end Reflow.Skill
