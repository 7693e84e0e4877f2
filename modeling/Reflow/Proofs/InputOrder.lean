import Mathlib.Data.List.Nodup
import Reflow.Proofs.Discovery

/-!
The order of the inputs of a search.

The answer of a search is a list in strict order, so it is determined by the files in it
(`IsOrder.sorted_eq`). If each input by itself can be resolved, the answer is the union of their
answers. An input that cannot be resolved by itself can still be passed over: a file that is named
outright is not asked about again if it was found already.
-/

open List

namespace Reflow

/-! ## Lists in order -/

theorem nodup_eraseDups {α : Type} [BEq α] [LawfulBEq α] (l : List α) : l.eraseDups.Nodup := by
  induction hn : l.length using Nat.strongRecOn generalizing l with
  | ind n ih =>
    cases l with
    | nil => simp
    | cons a l =>
      have hlength : (l.filter fun b => !b == a).length ≤ l.length := length_filter_le _ l
      rw [eraseDups_cons, nodup_cons, mem_eraseDups]
      exact ⟨by simp, ih _ (by simp at hn; omega) _ rfl⟩

/-- A test that puts all values in one order. -/
structure IsOrder {α : Type} (le : α → α → Bool) : Prop where
  total : ∀ a b, (le a b || le b a) = true
  antisymm : ∀ {a b}, le a b = true → le b a = true → a = b
  trans : ∀ {a b c}, le a b = true → le b c = true → le a c = true

namespace IsOrder

variable {α : Type} {le : α → α → Bool}

/-- Lists are ordered by an order of their elements. -/
theorem lexicographic [DecidableEq α] (h : IsOrder le) {lex : List α → List α → Bool}
    (hnil : ∀ l, lex [] l = true) (hcons_nil : ∀ a l, lex (a :: l) [] = false)
    (hcons : ∀ a b l m, lex (a :: l) (b :: m) = if a = b then lex l m else le a b) : IsOrder lex where
  total l := by
    induction l with
    | nil => simp [hnil]
    | cons a l ih =>
      intro m
      cases m with
      | nil => simp [hnil]
      | cons b m =>
        rw [hcons, hcons]
        by_cases hab : a = b
        · simpa [hab] using ih m
        · simpa [hab, Ne.symm hab] using h.total a b
  antisymm {l m} := by
    induction l generalizing m with
    | nil => cases m <;> simp [hcons_nil]
    | cons a l ih =>
      cases m with
      | nil => simp [hcons_nil]
      | cons b m =>
        rw [hcons, hcons]
        by_cases hab : a = b
        · simpa [hab] using ih
        · intro hle hge
          rw [if_neg hab] at hle
          rw [if_neg (Ne.symm hab)] at hge
          exact absurd (h.antisymm hle hge) hab
  trans {l m k} := by
    induction l generalizing m k with
    | nil => simp [hnil]
    | cons a l ih =>
      cases m with
      | nil => simp [hcons_nil]
      | cons b m =>
        cases k with
        | nil => simp [hcons_nil]
        | cons c k =>
          rw [hcons, hcons, hcons]
          by_cases hab : a = b <;> by_cases hbc : b = c
          · simpa [hab, hbc] using ih
          · simp [hab, hbc]
          · subst hbc
            simp only [hab, if_false, if_true]
            exact fun hle _ => hle
          · intro hle hle'
            rw [if_neg hab] at hle
            rw [if_neg hbc] at hle'
            have hac : a ≠ c := by
              rintro rfl
              exact hab (h.antisymm hle hle')
            rw [if_neg hac]
            exact h.trans hle hle'

theorem pairwise_mergeSort (h : IsOrder le) (l : List α) :
    (l.mergeSort le).Pairwise fun a b => le a b = true :=
  List.pairwise_mergeSort (fun a b c => h.trans (a := a) (b := b) (c := c)) h.total l

theorem pairwise_sorted [BEq α] [LawfulBEq α] (h : IsOrder le) (l : List α) :
    (l.eraseDups.mergeSort le).Pairwise fun a b => le a b = true ∧ a ≠ b := by
  have hne : (l.eraseDups.mergeSort le).Nodup :=
    (mergeSort_perm _ le).nodup_iff.2 (nodup_eraseDups l)
  exact (h.pairwise_mergeSort l.eraseDups).and hne

theorem sorted_eq [BEq α] [LawfulBEq α] (h : IsOrder le) {l m : List α} (hmem : ∀ a, a ∈ l ↔ a ∈ m) :
    l.eraseDups.mergeSort le = m.eraseDups.mergeSort le := by
  have hperm : l.eraseDups.Perm m.eraseDups := by
    rw [perm_ext_iff_of_nodup (nodup_eraseDups l) (nodup_eraseDups m)]
    simpa [mem_eraseDups] using hmem
  refine Perm.eq_of_pairwise (fun _ _ _ _ => h.antisymm) (h.pairwise_mergeSort _)
    (h.pairwise_mergeSort _) ?_
  exact (mergeSort_perm _ le).trans (hperm.trans (mergeSort_perm _ le).symm)

end IsOrder

theorem Text.isOrder_le : IsOrder Text.le := by
  have hchars : IsOrder fun c d : Char => decide (c.toNat ≤ d.toNat) := by
    refine ⟨fun c d => ?_, fun {c d} h h' => ?_, fun {c d e} h h' => ?_⟩
    · simpa using Nat.le_total c.toNat d.toNat
    · exact Char.toNat_inj.1 (Nat.le_antisymm (of_decide_eq_true h) (of_decide_eq_true h'))
    · exact decide_eq_true (Nat.le_trans (of_decide_eq_true h) (of_decide_eq_true h'))
  refine hchars.lexicographic (fun _ => rfl) (fun _ _ => rfl) fun c d s t => ?_
  rw [Text.le]
  by_cases hcd : c = d
  · simp [hcd]
  · have hne : c.toNat ≠ d.toNat := fun h => hcd (Char.toNat_inj.1 h)
    simp only [hcd, if_false, decide_eq_decide]
    omega

namespace Files

theorem Place.isOrder_le : IsOrder Place.le :=
  Text.isOrder_le.lexicographic (fun _ => rfl) (fun _ _ => rfl) fun _ _ _ _ => rfl

namespace Resolver

open Search

variable {r : Resolver} {t : Tree} {cwd : Place} {inputs : List Text} {found : List Place}
  {w : Text} {k : Known}

/-! ## Answers -/

/-- What a resolver answers that knows some ignore files already. -/
def answer (r : Resolver) (t : Tree) (cwd : Place) (k : Known) (inputs : List Text) :
    Except ResolveError (List Place) :=
  ((r.resolve t cwd inputs).run k).map Prod.fst

/-- The input can be resolved by itself. -/
def GoesThrough (r : Resolver) (t : Tree) (cwd : Place) (written : Text) : Prop :=
  Succeeds t r.filter.toolName (r.resolveOne t cwd written) (r.foundBy t cwd written)

/-- The answer if all inputs can be resolved. -/
def union (r : Resolver) (t : Tree) (cwd : Place) (inputs : List Text) : List Place :=
  (inputs.flatMap (r.foundBy t cwd)).eraseDups.mergeSort Place.le

theorem mem_union_iff {f : Place} :
    f ∈ r.union t cwd inputs ↔ ∃ w ∈ inputs, f ∈ r.foundBy t cwd w := by
  rw [union, mem_mergeSort, mem_eraseDups, mem_flatMap]

theorem union_eq {ws : List Text} (h : ∀ w, w ∈ ws ↔ w ∈ inputs) :
    r.union t cwd ws = r.union t cwd inputs :=
  Place.isOrder_le.sorted_eq fun f => by simp [mem_flatMap, h]

/-- **Files are gathered once**, so the inputs count and not their order. -/
theorem sorted_foldl_gathered (r : Resolver) (t : Tree) (cwd : Place) (inputs : List Text) :
    (inputs.foldl (r.gathered t cwd) []).eraseDups.mergeSort Place.le = r.union t cwd inputs :=
  Place.isOrder_le.sorted_eq fun f => by simp [mem_foldl_gathered_iff, mem_flatMap]

theorem resolve_cases (r : Resolver) (t : Tree) (cwd : Place) (inputs : List Text) :
    Succeeds t r.filter.toolName (r.resolve t cwd inputs) (r.union t cwd inputs) ∨
    ∃ e, Fails t r.filter.toolName (r.resolve t cwd inputs) e := by
  rw [← sorted_foldl_gathered]
  rcases gives_resolve with h | ⟨e, -, h⟩
  · exact .inl h
  · exact .inr ⟨e, h⟩

theorem answer_eq_ok (hk : k.Faithful t r.filter.toolName)
    (h : Succeeds t r.filter.toolName (r.resolve t cwd inputs) (r.union t cwd inputs)) :
    r.answer t cwd k inputs = .ok (r.union t cwd inputs) := by
  obtain ⟨k', -, hrun⟩ := h k hk
  rw [answer, hrun]
  rfl

theorem answer_eq_error (hk : k.Faithful t r.filter.toolName) {e : ResolveError}
    (h : Fails t r.filter.toolName (r.resolve t cwd inputs) e) :
    r.answer t cwd k inputs = .error e := by
  rw [answer, h k hk]
  rfl

theorem answer_eq_ok_iff (hk : k.Faithful t r.filter.toolName) :
    r.answer t cwd k inputs = .ok found ↔ found = r.union t cwd inputs ∧
      Succeeds t r.filter.toolName (r.resolve t cwd inputs) (r.union t cwd inputs) := by
  rcases resolve_cases r t cwd inputs with h | ⟨e, h⟩
  · rw [answer_eq_ok hk h, Except.ok.injEq, eq_comm]
    exact (and_iff_left h).symm
  · have herror := answer_eq_error hk h
    constructor
    · intro hok
      cases herror.symm.trans hok
    · rintro ⟨-, hok⟩
      cases herror.symm.trans (answer_eq_ok hk hok)

/-! ## One input after the other -/

theorem succeeds_gather {written : Text} (h : r.GoesThrough t cwd written) (found : List Place) :
    Succeeds t r.filter.toolName (r.gather t cwd found written) (r.gathered t cwd found written) := by
  unfold gather gathered
  dsimp only
  split
  · exact succeeds_pure found
  · exact h.bind (succeeds_pure _)

theorem succeeds_resolve (h : ∀ w ∈ inputs, r.GoesThrough t cwd w) :
    Succeeds t r.filter.toolName (r.resolve t cwd inputs) (r.union t cwd inputs) := by
  have hgather : ∀ found, Succeeds t r.filter.toolName (inputs.foldlM (r.gather t cwd) found)
      (inputs.foldl (r.gathered t cwd) found) := by
    induction inputs with
    | nil => exact fun found => succeeds_pure found
    | cons w ws ih =>
      intro found
      exact (succeeds_gather (h w (by simp)) found).bind (ih (fun v hv => h v (by simp [hv])) _)
  rw [← sorted_foldl_gathered]
  exact (hgather []).bind (succeeds_pure _)

theorem goesThrough_or_fails (r : Resolver) (t : Tree) (cwd : Place) (w : Text) :
    r.GoesThrough t cwd w ∨ ∃ e, Fails t r.filter.toolName (r.resolveOne t cwd w) e := by
  have hgives : Gives t r.filter.toolName cwd [w] (r.resolveOne t cwd w) (r.foundBy t cwd w) :=
    gives_resolveOne (mem_singleton_self w)
  rcases hgives with h | ⟨e, -, h⟩
  · exact .inl h
  · exact .inr ⟨e, h⟩

/-- A file that is named outright and cannot be resolved by itself: exclusion is forced, and the
ignore file of the tool for its folder cannot be put to use. -/
theorem goesThrough_or_toolIgnore (hfile : t.hasFile cwd (.ofText w)) :
    r.GoesThrough t cwd w ∨ r.filter.forceExclude ∧
      ∃ e, toolIgnore t r.filter.toolName (t.real cwd (Path.ofText w).parent) = .error e := by
  rcases @takesNamed_cases r t cwd (.ofText w) with h | ⟨e, -, hforce, htool⟩
  · refine .inl ?_
    rw [GoesThrough, resolveOne, foundBy]
    simp only [hfile, if_true]
    exact h.bind (succeeds_pure _)
  · exact .inr ⟨hforce, e, htool⟩

/-- **What is passed over.** If gathering does not fail, an input that cannot be resolved by itself is
a file that was found before, in a folder for which the ignore file of the tool cannot be put to
use. -/
theorem goesThrough_or_passedOver
    (h : ∀ e, ¬ Fails t r.filter.toolName (inputs.foldlM (r.gather t cwd) found) e)
    (hw : w ∈ inputs) :
    r.GoesThrough t cwd w ∨ t.hasFile cwd (.ofText w) ∧ r.filter.forceExclude ∧
      (∃ e, toolIgnore t r.filter.toolName (t.real cwd (Path.ofText w).parent) = .error e) ∧
      t.real cwd (.ofText w) ∈ inputs.foldl (r.gathered t cwd) found := by
  induction inputs generalizing found with
  | nil => cases hw
  | cons v ws ih =>
    have hgather : ∀ e, ¬ Fails t r.filter.toolName (r.gather t cwd found v) e :=
      fun e hfails => h e (hfails.bind _)
    rcases mem_cons.1 hw with rfl | hw
    · rcases goesThrough_or_fails r t cwd w with hone | ⟨e, hone⟩
      · exact .inl hone
      · -- the input is not asked about, or gathering would fail with it
        by_cases hseen : t.hasFile cwd (.ofText w) && found.contains (t.real cwd (.ofText w))
        · rw [Bool.and_eq_true, contains_iff_mem] at hseen
          rcases goesThrough_or_toolIgnore (r := r) hseen.1 with hone | ⟨hforce, htool⟩
          · exact .inl hone
          · exact .inr ⟨hseen.1, hforce, htool, mem_foldl_gathered_iff.2 (.inl hseen.2)⟩
        · refine absurd ?_ (hgather e)
          rw [gather, if_neg hseen]
          exact hone.bind _
    · have hgives : Gives t r.filter.toolName cwd [v] (r.gather t cwd found v)
          (r.gathered t cwd found v) := gives_gather (mem_singleton_self v) found
      rcases hgives with hstep | ⟨e, -, hfails⟩
      · exact ih (fun e hfails => h e (hstep.bind_fails hfails)) hw
      · exact absurd hfails (hgather e)

/-- An input that comes first is resolved as if it were alone, since nothing was found before it. -/
theorem goesThrough_of_answer {ws : List Text} (h : r.answer t cwd {} (w :: ws) = .ok found) :
    r.GoesThrough t cwd w := by
  rcases goesThrough_or_fails r t cwd w with hone | ⟨e, hone⟩
  · exact hone
  · have hgather : Fails t r.filter.toolName (r.gather t cwd [] w) e := by
      rw [gather, if_neg (by simp)]
      exact hone.bind _
    have hfails : Fails t r.filter.toolName (r.resolve t cwd (w :: ws)) e :=
      (hgather.bind _).bind _
    cases (answer_eq_error (Known.faithful_empty _ _) hfails).symm.trans h

theorem exists_answer_singleton_iff :
    (∃ own, r.answer t cwd {} [w] = .ok own) ↔ r.GoesThrough t cwd w := by
  constructor
  · rintro ⟨own, hown⟩
    exact goesThrough_of_answer hown
  · intro h
    refine ⟨_, answer_eq_ok (Known.faithful_empty _ _) (succeeds_resolve ?_)⟩
    simpa using h

/-- **The order of the inputs.** What was read before changes no answer, and answers are in strict
order. All orders of the inputs have the same answer if and only if each input has an answer by
itself. The answer is then the union of these, whatever else the order and however often inputs are
repeated. In a search that goes through, an input without an answer by itself is a file that another
one stands for too: exclusion is forced, and the ignore file of the tool for the folder of the file
cannot be put to use. -/
theorem search_order_iff (r : Resolver) (t : Tree) (cwd : Place) (inputs : List Text) :
    (∀ k : Known, k.Faithful t r.filter.toolName → ∀ ws,
      r.answer t cwd k ws = r.answer t cwd {} ws ∧
      ∀ found k', (r.resolve t cwd ws).run k = .ok (found, k') → k'.Faithful t r.filter.toolName) ∧
    (∀ ws found, r.answer t cwd {} ws = .ok found →
      found.Pairwise fun p q => Place.le p q = true ∧ p ≠ q) ∧
    ((∃ found, ∀ ws, ws.Perm inputs → r.answer t cwd {} ws = .ok found) ↔
      ∀ w ∈ inputs, ∃ own, r.answer t cwd {} [w] = .ok own) ∧
    ((∀ w ∈ inputs, ∃ own, r.answer t cwd {} [w] = .ok own) → ∃ found,
      (∀ f, f ∈ found ↔ ∃ w ∈ inputs, ∃ own, r.answer t cwd {} [w] = .ok own ∧ f ∈ own) ∧
      ∀ ws, (∀ w, w ∈ ws ↔ w ∈ inputs) → r.answer t cwd {} ws = .ok found) ∧
    (∀ found, r.answer t cwd {} inputs = .ok found → ∀ w ∈ inputs,
      (∃ own, r.answer t cwd {} [w] = .ok own) ∨
      t.hasFile cwd (.ofText w) = true ∧ t.real cwd (.ofText w) ∈ found ∧
        r.filter.forceExclude = true ∧
        ∃ e, toolIgnore t r.filter.toolName (t.real cwd (Path.ofText w).parent) = .error e) := by
  have hempty := Known.faithful_empty t r.filter.toolName
  have hunion : (∀ w ∈ inputs, ∃ own, r.answer t cwd {} [w] = .ok own) →
      ∀ ws, (∀ w, w ∈ ws ↔ w ∈ inputs) → r.answer t cwd {} ws = .ok (r.union t cwd inputs) := by
    intro halone ws hws
    rw [← union_eq hws]
    refine answer_eq_ok hempty (succeeds_resolve fun w hw => ?_)
    exact exists_answer_singleton_iff.1 (halone w ((hws w).1 hw))
  refine ⟨fun k hk ws => ⟨?_, fun found k' hrun => ?_⟩, fun ws found hfound => ?_, ⟨?_, ?_⟩, ?_, ?_⟩
  · rcases resolve_cases r t cwd ws with h | ⟨e, h⟩
    · rw [answer_eq_ok hk h, answer_eq_ok hempty h]
    · rw [answer_eq_error hk h, answer_eq_error hempty h]
  · rcases resolve_cases r t cwd ws with h | ⟨e, h⟩
    · obtain ⟨k'', hk'', hrun'⟩ := h k hk
      rw [hrun] at hrun'
      cases hrun'
      exact hk''
    · rw [h k hk] at hrun
      cases hrun
  · rw [((answer_eq_ok_iff hempty).1 hfound).1]
    exact Place.isOrder_le.pairwise_sorted _
  · -- every input comes first in one of the orders
    rintro ⟨found, hfound⟩ w hw
    exact exists_answer_singleton_iff.2
      (goesThrough_of_answer (hfound _ (perm_cons_erase hw).symm))
  · exact fun halone => ⟨_, fun ws hws => hunion halone ws fun w => hws.mem_iff⟩
  · intro halone
    refine ⟨_, fun f => ?_, hunion halone⟩
    rw [mem_union_iff]
    refine exists_congr fun w => and_congr_right fun hw => ?_
    obtain ⟨own, hown⟩ := halone w hw
    have hself : ∀ f, f ∈ own ↔ f ∈ r.foundBy t cwd w := by
      intro f
      rw [((answer_eq_ok_iff hempty).1 hown).1, mem_union_iff]
      simp
    simp [hown, hself]
  · intro found hfound w hw
    obtain ⟨rfl, hresolve⟩ := (answer_eq_ok_iff hempty).1 hfound
    have hnot : ∀ e, ¬ Fails t r.filter.toolName (inputs.foldlM (r.gather t cwd) []) e := by
      intro e hfails
      have hfails : Fails t r.filter.toolName (r.resolve t cwd inputs) e := hfails.bind _
      cases (answer_eq_error hempty hfails).symm.trans (answer_eq_ok hempty hresolve)
    rw [exists_answer_singleton_iff]
    rcases goesThrough_or_passedOver hnot hw with hone | ⟨hfile, hforce, htool, hmem⟩
    · exact .inl hone
    · refine .inr ⟨hfile, ?_, hforce, htool⟩
      rw [← sorted_foldl_gathered, mem_mergeSort, mem_eraseDups]
      exact hmem

/-- A folder with a file in it, beside a line that cannot be put to use. -/
def invalidIgnore : Tree where
  entries := [(["d".toList, "sub".toList, "a.md".toList], .file (.text ['x'])),
    (["d".toList, "sub".toList, ".flowmarkignore".toList], .file (.text ['!', '\n']))]

/-- The folder and then the file can be resolved, the file and then the folder cannot. -/
theorem search_fails_in_other_order :
    let r := reading { forceExclude := true }
    let file := "d/sub/a.md".toList
    (r.answer invalidIgnore [] {} [['d'], file]).toOption
      = some [["d".toList, "sub".toList, "a.md".toList]] ∧
    r.answer invalidIgnore [] {} [file, ['d']] = .error (.line (.empty ['!'])) := by
  decide +kernel

end Resolver

end Files

end Reflow
