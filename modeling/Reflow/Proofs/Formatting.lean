import Reflow.Document.Format
import Reflow.Proofs.InlineRuns
import Reflow.Proofs.Requoting

/-!
Formatting a text always gives a text.

One transform can fail: changing the text of a paragraph as one run gives up if the change does not
keep the length of the run. Curling quotes does keep it, as it changes quotes in place
(`length_curlQuotes`). So the transforms of every style go through, whatever the document, and
formatting has a result.
-/

namespace Reflow

/-! ## Transforms that go through -/

namespace Document

section Scopes

variable {f : Text → Text}

mutual

/-- A change that keeps the length of texts goes through in every document, and keeps all of it but
its raw text. -/
theorem exists_mapScopes_emptied (hf : ∀ t, (f t).length = t.length) (n : Node) :
    ∃ m, mapScopes f n = .ok m ∧ m.emptied = n.emptied := by
  cases n with
  | leaf h => exact ⟨.leaf h, by rw [mapScopes], rfl⟩
  | text h t => exact ⟨.text h t, by rw [mapScopes], rfl⟩
  | branch h cs =>
    obtain ⟨cs', hrun, hcs⟩ :
        ∃ cs', (if h.kind.isInlineScope then mapRun f cs else .ok cs) = .ok cs' ∧
          Node.emptiedAll cs' = Node.emptiedAll cs := by
      split
      · refine ⟨_, mapRun_eq hf cs, ?_⟩
        split
        · rfl
        · exact emptiedAll_writeBackAll _ cs
      · exact ⟨cs, rfl, rfl⟩
    obtain ⟨ds, hds, hemptied⟩ := exists_mapScopesAll_emptied hf cs'
    rw [mapScopes_branch hrun, hds]
    split
    · exact ⟨.branch h ds, rfl, by simp only [Node.emptied, hemptied, hcs]⟩
    · exact ⟨.branch h cs', rfl, by simp only [Node.emptied, hcs]⟩
termination_by (n.size, 0)
decreasing_by
  -- writing a run back keeps the size of the children
  have hsize : Node.sizeAll cs' = Node.sizeAll cs := by
    split at hrun
    · exact sizeAll_mapRun hrun
    · cases hrun; rfl
  simp only [Node.size, hsize]
  exact Prod.Lex.left _ _ (Nat.lt_succ_self _)

theorem exists_mapScopesAll_emptied (hf : ∀ t, (f t).length = t.length) (ns : List Node) :
    ∃ ms, mapScopesAll f ns = .ok ms ∧ Node.emptiedAll ms = Node.emptiedAll ns := by
  cases ns with
  | nil => exact ⟨[], by rw [mapScopesAll], rfl⟩
  | cons n ns =>
    obtain ⟨m, hm, hemptied⟩ := exists_mapScopes_emptied hf n
    obtain ⟨ms, hms, hrest⟩ := exists_mapScopesAll_emptied hf ns
    exact ⟨m :: ms, mapScopesAll_cons hm hms, by simp only [Node.emptiedAll, hemptied, hrest]⟩
termination_by (Node.sizeAll ns, 1)
decreasing_by
  · simp only [Node.sizeAll]
    rcases Nat.eq_zero_or_pos (Node.sizeAll ns) with h | h
    · rw [h]; exact Prod.Lex.right _ Nat.zero_lt_one
    · exact Prod.Lex.left _ _ (by omega)
  · simp only [Node.sizeAll]
    have : 0 < n.size := by cases n <;> simp [Node.size]
    exact Prod.Lex.left _ _ (by omega)

end

theorem exists_mapScopes (hf : ∀ t, (f t).length = t.length) (n : Node) :
    ∃ m, mapScopes f n = .ok m :=
  (exists_mapScopes_emptied hf n).imp fun _ h => h.1

end Scopes

namespace Style

theorem exists_apply_of_mem_transforms {s : Style} {t : Transform} (ht : t ∈ s.transforms)
    (n : Node) : ∃ m, t.apply n = .ok m := by
  cases t with
  | quotes => exact exists_mapScopes Typography.length_curlQuotes (coalesce n)
  | ellipsesAcross => simp [transforms] at ht
  | _ => exact ⟨_, rfl⟩

theorem exists_applyAll (s : Style) (n : Node) : ∃ m, applyAll s.transforms n = .ok m := by
  suffices ∀ ts : List Transform, (∀ t ∈ ts, t ∈ s.transforms) →
      ∀ n, ∃ m, applyAll ts n = .ok m from
    this _ (fun _ h => h) n
  intro ts hts
  induction ts with
  | nil => exact fun n => ⟨n, rfl⟩
  | cons t ts ih =>
    intro n
    obtain ⟨m, hm⟩ := exists_apply_of_mem_transforms (hts t (by simp)) n
    obtain ⟨k, hk⟩ := ih (fun u hu => hts u (by simp [hu])) m
    refine ⟨k, ?_⟩
    rw [applyAll, List.foldlM_cons, hm]
    exact hk

theorem exists_writeWith (s : Style) (wrap : Wrap.LineWrapper) (n : Node) :
    ∃ written, s.writeWith wrap n = .ok written := by
  obtain ⟨m, hm⟩ := s.exists_applyAll n
  exact ⟨_, by rw [writeWith, hm]; rfl⟩

/-- **Formatting has a result**: the front matter, and the document as it is written. -/
theorem exists_formatWith (s : Style) (wrap : Wrap.LineWrapper) (read : Text → Node) (t : Text) :
    ∃ written, s.writeWith wrap (read (s.source t)) = .ok written ∧
      s.formatWith wrap read t = .ok ((FrontMatter.split t).block ++ written) := by
  obtain ⟨written, hwritten⟩ := s.exists_writeWith wrap (read (s.source t))
  exact ⟨written, hwritten, by rw [formatWith, hwritten]; rfl⟩

end Style

end Document

end Reflow
