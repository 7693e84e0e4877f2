import Reflow.Proofs.LineStarts
import Reflow.Proofs.RelaidWords

/-!
Words as a filled paragraph shows them.

A paragraph is filled from a collapsed text, in which every run of blanks is a space. Its words are
joined by spaces again, and the first word of a line may get a backslash (`Shown`). Cells record
both: a text and its collapsed form (`exists_squeezed`), and words and the words as they are shown
(`exists_cells`), joined by spaces (`joinCells`).
-/

open List

namespace Reflow.Relaid

open Text Wrap

/-! ## Collapsed texts -/

theorem length_collapse_le (t : Text) : (collapse t).length ≤ t.length := by
  fun_induction collapse t with
  | case1 => simp
  | case2 => simp
  | case3 c hc d ds hd ih => exact Nat.le_succ_of_le ih
  | case4 c hc d ds hd ih => simpa using ih
  | case5 c cs hc ih => simpa using ih

theorem collapse_cons_of_visible {c : Char} (hc : isBlank c = false) (t : Text) :
    collapse (c :: t) = c :: collapse t := by
  rw [collapse.eq_def]
  simp [hc]

variable {w t : Text} {constructs : List Construct} {ws xs ys : List Text} {zs : List Cell}
  {free : Bool} {cs : List (List Cell)}

theorem collapse_of_visible (h : ∀ c ∈ w, isBlank c = false) : collapse w = w := by
  induction w with
  | nil => rfl
  | cons c w ih =>
    rw [collapse_cons_of_visible (h c (by simp)), ih fun d hd => h d (by simp [hd])]

theorem isBlank_head_joinWith {sep : Text} {ts : List Text} (h : ∀ t ∈ ts, Solid t) :
    ∀ c ∈ (joinWith sep ts).head?, isBlank c = false := by
  fun_cases joinWith sep ts with
  | case1 => simp
  | case2 t => exact (h t (by simp)).isBlank_head
  | case3 t us _ =>
    obtain ⟨d, v, rfl, hd⟩ := (h t (by simp)).first
    simpa using hd

theorem collapse_collapse (t : Text) : collapse (collapse t) = collapse t := by
  fun_induction collapse t with
  | case1 => rfl
  | case2 => rfl
  | case3 c hc d ds hd ih => exact ih
  | case4 c hc d ds hd ih =>
    have hd : isBlank d = false := by simpa using hd
    rw [collapse_cons_of_visible hd] at ih ⊢
    rw [collapse.eq_def]
    simp only [isBlank_space, hd, if_true, Bool.false_eq_true, if_false]
    rw [ih]
  | case5 c cs hc ih => rw [collapse_cons_of_visible (by simpa using hc), ih]

theorem collapse_joinWith {sep : Text} (hsep : BlankRun sep) {ts : List Text}
    (h : ∀ t ∈ ts, Solid t) : collapse (joinWith sep ts) = unwords (ts.map collapse) := by
  fun_induction joinWith sep ts with
  | case1 => rfl
  | case2 t => rfl
  | case3 t us hne ih =>
    have hus : ∀ u ∈ us, Solid u := fun u hu => h u (by simp [hu])
    rw [collapse_append_blanks (h t (by simp)).isBlank_getLast hsep.2 hsep.1
      (isBlank_head_joinWith hus), ih hus, map_cons, unwords_cons (by simpa using hne)]

theorem Cut.eq_unwords (h : Cut constructs t ws) (ht : collapse t = t) :
    t = unwords ws ∧ ∀ w ∈ ws, collapse w = w := by
  induction h with
  | last _ _ => exact ⟨rfl, by simpa using ht⟩
  | @cons w g t ws hw _ hapart hcut ih =>
    have hsplit := collapse_append_blanks hw.isBlank_getLast hapart.blank.2 hapart.blank.1
      hcut.solid.isBlank_head
    rw [ht, append_assoc] at hsplit
    -- no part gets longer, so none gets shorter
    have hlen := congrArg length hsplit
    have hw' := length_collapse_le w
    have ht' := length_collapse_le t
    have hg := length_pos_iff.2 hapart.blank.1
    simp only [length_append, length_cons] at hlen
    obtain ⟨hword, hrest⟩ := append_inj hsplit (by omega)
    have hgap : g.length = [' '].length := by
      simp only [length_singleton]
      omega
    obtain ⟨rfl, htail⟩ := append_inj hrest hgap
    obtain ⟨heq, hall⟩ := ih htail.symm
    refine ⟨?_, ?_⟩
    · rw [unwords_cons hcut.ne_nil, ← heq]
      simp
    · intro v hv
      rcases mem_cons.1 hv with rfl | hv
      · exact hword.symm
      · exact hall v hv

/-! ## Runs of words -/

theorem unwords_append (hxs : xs ≠ []) (hys : ys ≠ []) :
    unwords (xs ++ ys) = unwords xs ++ [' '] ++ unwords ys := joinWith_append hxs hys

theorem space_append_inj {s g t u : Text} (ht : Solid t) (hu : Solid u) (hg : ∀ c ∈ g, isBlank c)
    (h : s ++ ' ' :: t = s ++ g ++ u) : [' '] = g ∧ t = u := by
  rw [append_assoc] at h
  exact blank_append_inj (by simp) hg ht.isBlank_head hu.isBlank_head (append_cancel_left h)

theorem Cut.uncons (hne : ws ≠ []) (h : Cut constructs (unwords (w :: ws)) (w :: ws)) :
    Solid w ∧ Uncut constructs w ∧ Apart constructs w [' '] (unwords ws) ∧
      Cut constructs (unwords ws) ws := by
  rw [unwords_cons hne] at h
  generalize htext : w ++ ' ' :: unwords ws = text at h
  cases h with
  | last _ _ => exact absurd rfl hne
  | @cons _ g t _ hw huncut hapart hcut =>
    obtain ⟨rfl, rfl⟩ := space_append_inj (solid_unwords hne hcut.solid_words) hcut.solid
      hapart.blank.2 htext
    exact ⟨hw, huncut, hapart, hcut⟩

/-- **Words on either side.** The words of a text are cut where the text is cut between them. -/
theorem Cut.split (hxs : xs ≠ []) (hys : ys ≠ [])
    (h : Cut constructs (unwords (xs ++ ys)) (xs ++ ys)) :
    Cut constructs (unwords xs) xs ∧ Apart constructs (unwords xs) [' '] (unwords ys) ∧
      Cut constructs (unwords ys) ys := by
  induction xs with
  | nil => exact absurd rfl hxs
  | cons x xs ih =>
    rw [cons_append] at h
    obtain ⟨hx, huncut, hapart, hcut⟩ := h.uncons (by simp [hys])
    by_cases hnil : xs = []
    · subst hnil
      exact ⟨.last hx huncut, hapart, hcut⟩
    · obtain ⟨hcut', hapart', hrest⟩ := ih hnil hcut
      rw [unwords_append hnil hys] at hapart
      obtain ⟨hx', hxs'⟩ := hapart.assoc hapart'
      have htext : unwords (x :: xs) = x ++ [' '] ++ unwords xs := by simp [unwords_cons hnil]
      rw [htext]
      exact ⟨.cons hx huncut hx' hcut', hxs', hrest⟩

theorem Cut.run {zs : List Text} (hys : ys ≠ [])
    (h : Cut constructs (unwords (xs ++ ys ++ zs)) (xs ++ ys ++ zs)) :
    Cut constructs (unwords ys) ys := by
  have hfrom : Cut constructs (unwords (ys ++ zs)) (ys ++ zs) := by
    by_cases hxs : xs = []
    · simpa [hxs] using h
    · rw [append_assoc] at h
      exact (h.split hxs (by simp [hys])).2.2
  by_cases hzs : zs = []
  · simpa [hzs] using hfrom
  · exact (hfrom.split hys hzs).1

/-! ## Cells that collapse -/

/-- The cell keeps a character, or makes a space of a run of blanks. -/
def Cell.Squeezes : Cell → Prop
  | .char _ => True
  | .gap _ h => h = [' ']
  | .mark => False

theorem exists_squeezed (t : Text) : ∃ zs, Fit false zs ∧ (∀ z ∈ zs, z.Squeezes) ∧ src zs = t := by
  induction t with
  | nil => exact ⟨[], trivial, by simp, rfl⟩
  | cons c t ih =>
    obtain ⟨zs, hfit, hall, rfl⟩ := ih
    by_cases hc : isBlank c
    · by_cases hz : ∀ z ∈ zs.head?, z.isGap = false
      · refine ⟨.gap [c] [' '] :: zs, ?_, by simpa [Cell.Squeezes] using hall, rfl⟩
        exact ⟨⟨by simp, by simpa using hc⟩, ⟨by simp, by simp⟩, hz, hfit.to_true⟩
      · -- the blank joins the run that follows it
        cases zs with
        | nil => simp at hz
        | cons z zs =>
          cases z with
          | char d => simp [Cell.isGap] at hz
          | mark => simp [Cell.isGap] at hz
          | gap g h =>
            refine ⟨.gap (c :: g) h :: zs, ⟨⟨by simp, ?_⟩, hfit.2⟩, ?_, rfl⟩
            · intro d hd
              rcases mem_cons.1 hd with rfl | hd
              · exact hc
              · exact hfit.1.2 d hd
            · simpa [Cell.Squeezes] using hall
    · have hc : isBlank c = false := by simpa using hc
      exact ⟨.char c :: zs, ⟨hc, hfit⟩, by simpa [Cell.Squeezes] using hall, rfl⟩

theorem out_eq_collapse (hfit : Fit free zs) (h : ∀ z ∈ zs, z.Squeezes) :
    out zs = collapse (src zs) := by
  induction zs generalizing free with
  | nil => rfl
  | cons z zs ih =>
    have hzs : ∀ z ∈ zs, z.Squeezes := fun y hy => h y (by simp [hy])
    cases z with
    | char c =>
      rw [out_char, collapse.eq_def, ih hfit.2 hzs]
      simp [hfit.1]
    | gap g g' =>
      obtain ⟨hg, _, hnext, hrest⟩ := hfit
      have hspace : g' = [' '] := h (.gap g g') (by simp)
      have hsplit := collapse_append_blanks (a := []) (by simp) hg.2 hg.1
        (hrest.isBlank_head hnext).1
      rw [out_gap, hspace, ih hrest hzs]
      exact hsplit.symm
    | mark => exact absurd (h .mark (by simp)) id

theorem solid_collapse (ht : Solid t) : Solid (collapse t) := by
  obtain ⟨zs, hfit, hall, rfl⟩ := exists_squeezed t
  rw [← out_eq_collapse hfit hall]
  exact hfit.solid ht

theorem exists_respaced {u : Text}
    (h : Forall₂ (fun c d => c = d ∨ isBlank c ∧ isBlank d) t u) :
    ∃ zs, Fit false zs ∧ src zs = t ∧ out zs = u := by
  induction h with
  | nil => exact ⟨[], trivial, rfl, rfl⟩
  | @cons c d t u hcd _ ih =>
    obtain ⟨zs, hfit, rfl, rfl⟩ := ih
    by_cases hc : isBlank c
    · have hd : isBlank d := by
        rcases hcd with rfl | ⟨_, hd⟩
        · exact hc
        · exact hd
      by_cases hz : ∀ z ∈ zs.head?, z.isGap = false
      · refine ⟨.gap [c] [d] :: zs, ?_, rfl, rfl⟩
        exact ⟨⟨by simp, by simpa using hc⟩, ⟨by simp, by simpa using hd⟩, hz, hfit.to_true⟩
      · -- the blank joins the run that follows it
        cases zs with
        | nil => simp at hz
        | cons z zs =>
          cases z with
          | char e => simp [Cell.isGap] at hz
          | mark => simp [Cell.isGap] at hz
          | gap g g' =>
            obtain ⟨hg, hg', hnext, hrest⟩ := hfit
            refine ⟨.gap (c :: g) (d :: g') :: zs, ⟨⟨by simp, ?_⟩, ⟨by simp, ?_⟩, hnext, hrest⟩,
              rfl, rfl⟩
            · simpa [hc] using hg.2
            · simpa [hd] using hg'.2
    · have hc : isBlank c = false := by simpa using hc
      obtain rfl : c = d := by
        rcases hcd with rfl | ⟨hblank, _⟩
        · rfl
        · rw [hc] at hblank
          exact absurd hblank (by simp)
      exact ⟨.char c :: zs, ⟨hc, hfit⟩, rfl, rfl⟩

/-! ## Layouts of a text -/

/-- The second text is a layout of the first: blanks at the ends are dropped, and what is left is laid
out any number of times. -/
inductive Relays : Text → Text → Prop
  | refl (t : Text) : Relays t t
  | trim {g t g' u : Text} (hg : ∀ c ∈ g, isBlank c = true) (hg' : ∀ c ∈ g', isBlank c = true)
      (h : Relays t u) : Relays (g ++ t ++ g') u
  | step {free : Bool} {zs : List Cell} {u : Text} (hfit : Fit free zs) (h : Relays (out zs) u) :
      Relays (src zs) u

theorem Relays.trans {s u : Text} (h : Relays s t) (h' : Relays t u) : Relays s u := by
  induction h with
  | refl t => exact h'
  | trim hg hg' _ ih => exact .trim hg hg' (ih h')
  | step hfit _ ih => exact .step hfit (ih h')

theorem relays_nil (ht : ∀ c ∈ t, isBlank c) : Relays t [] := by
  have htrim : Relays (t ++ [] ++ []) [] := .trim ht (by simp) (.refl [])
  simpa using htrim

theorem relays_collapse (t : Text) : Relays t (collapse t) := by
  obtain ⟨zs, hfit, hall, rfl⟩ := exists_squeezed t
  rw [← out_eq_collapse hfit hall]
  exact .step hfit (.refl _)

theorem relays_flat (t : Text) : Relays t (flat t) ∧ Relays (flat t) t := by
  have hflat : Forall₂ (fun c d => c = d ∨ isBlank c ∧ isBlank d) t (flat t) := by
    rw [flat, forall₂_map_right_iff]
    refine forall₂_same.2 fun c _ => ?_
    by_cases hc : c = '\n'
    · exact .inr (by simp [hc])
    · exact .inl (by simp [hc])
  have hback : Forall₂ (fun c d => c = d ∨ isBlank c ∧ isBlank d) (flat t) t :=
    hflat.flip.imp fun _ _ hcd => hcd.imp Eq.symm And.symm
  constructor
  · obtain ⟨zs, hfit, hsrc, hout⟩ := exists_respaced hflat
    rw [← hout, ← hsrc]
    exact .step hfit (.refl _)
  · obtain ⟨zs, hfit, hsrc, hout⟩ := exists_respaced hback
    rw [← hsrc]
    exact .step hfit (hout ▸ .refl _)

theorem flat_unlines {ls : List Text} (h : ∀ l ∈ ls, '\n' ∉ l) : flat (unlines ls) = unwords ls := by
  induction ls with
  | nil => rfl
  | cons l ls ih =>
    have hl : flat l = l := flat_of_no_newline (h l (by simp))
    by_cases hnil : ls = []
    · subst hnil
      exact hl
    · rw [unlines_cons hnil, unwords_cons hnil, ← ih fun m hm => h m (by simp [hm])]
      rw [flat] at hl
      rw [flat, map_append, hl]
      rfl

theorem relays_unlines {ls : List Text} (h : ∀ l ∈ ls, '\n' ∉ l) :
    Relays (unwords ls) (unlines ls) := by
  rw [← flat_unlines h]
  exact (relays_flat _).2

/-! ## Words joined by spaces -/

/-- Groups of cells with single spaces between them. -/
def joinCells : List (List Cell) → List Cell
  | [] => []
  | [c] => c
  | c :: cs => c ++ .gap [' '] [' '] :: joinCells cs

theorem joinCells_cons (h : cs ≠ []) (c : List Cell) :
    joinCells (c :: cs) = c ++ .gap [' '] [' '] :: joinCells cs := by
  cases cs with
  | nil => exact absurd rfl h
  | cons d cs => rfl

theorem src_joinCells (cs : List (List Cell)) : src (joinCells cs) = unwords (cs.map src) := by
  fun_induction joinCells cs with
  | case1 => rfl
  | case2 c => rfl
  | case3 c cs hne ih =>
    rw [map_cons, unwords_cons (by simpa using hne), ← ih]
    simp

theorem out_joinCells (cs : List (List Cell)) : out (joinCells cs) = unwords (cs.map out) := by
  fun_induction joinCells cs with
  | case1 => rfl
  | case2 c => rfl
  | case3 c cs hne ih =>
    rw [map_cons, unwords_cons (by simpa using hne), ← ih]
    simp

theorem joined_joinCells (h : cs ≠ []) : Joined (joinCells cs) cs := by
  fun_induction joinCells cs with
  | case1 => exact absurd rfl h
  | case2 c => exact .last c
  | case3 c cs hne ih => exact .cons c [' '] [' '] (ih hne)

theorem Fit.append_gap {xs ys : List Cell} {g g' : Text} (hxs : Fit free xs)
    (hlast : ∀ z ∈ xs.getLast?, z.isGap = false) (hg : BlankRun g) (hg' : BlankRun g')
    (hys : Fit true ys) (hnext : ∀ z ∈ ys.head?, z.isGap = false) :
    Fit free (xs ++ .gap g g' :: ys) := by
  induction xs generalizing free with
  | nil => exact ⟨hg, hg', hnext, hys⟩
  | cons x xs ih =>
    have hlast' : ∀ z ∈ xs.getLast?, z.isGap = false := by
      intro z hz
      cases xs with
      | nil => simp at hz
      | cons y xs => exact hlast z (by rwa [getLast?_cons_cons])
    cases x with
    | char c => exact ⟨hxs.1, ih hxs.2 hlast'⟩
    | gap k k' =>
      refine ⟨hxs.1, hxs.2.1, ?_, ih hxs.2.2.2 hlast'⟩
      cases xs with
      | nil => exact absurd (hlast (.gap k k') (by simp)) (by simp [Cell.isGap])
      | cons y xs => exact hxs.2.2.1
    | mark =>
      obtain ⟨hfree, ⟨c, rest, rfl, hc⟩, hrest⟩ := hxs
      exact ⟨hfree, ⟨c, rest ++ .gap g g' :: ys, rfl, hc⟩, ih hrest hlast'⟩

theorem Fit.isGap_edges (h : Fit free zs) (hsolid : Solid (src zs)) :
    (∀ z ∈ zs.head?, z.isGap = false) ∧ ∀ z ∈ zs.getLast?, z.isGap = false := by
  obtain ⟨xs, c, hxs, _⟩ := h.exists_concat hsolid
  refine ⟨?_, by simp [hxs, Cell.isGap]⟩
  intro z hz
  obtain ⟨ys, rfl⟩ := head?_eq_some_iff.1 hz
  cases z with
  | char d => rfl
  | mark => rfl
  | gap g g' =>
    obtain ⟨d, g, rfl⟩ := exists_cons_of_ne_nil h.1.1
    have hblank := h.1.2 d (by simp)
    rw [hsolid.isBlank_head d (by simp)] at hblank
    exact absurd hblank (by simp)

theorem fit_joinCells (hfit : ∀ c ∈ cs, Fit true c) (hsolid : ∀ c ∈ cs, Solid (src c)) :
    Fit true (joinCells cs) := by
  induction cs with
  | nil => trivial
  | cons c cs ih =>
    have hcs : ∀ d ∈ cs, Solid (src d) := fun d hd => hsolid d (by simp [hd])
    by_cases hnil : cs = []
    · subst hnil
      exact hfit c (by simp)
    · have hrest := ih (fun d hd => hfit d (by simp [hd])) hcs
      have hsolid' : Solid (src (joinCells cs)) := by
        rw [src_joinCells]
        exact solid_unwords (by simpa using hnil) (by simpa using hcs)
      rw [joinCells_cons hnil]
      exact (hfit c (by simp)).append_gap ((hfit c (by simp)).isGap_edges (hsolid c (by simp))).2
        ⟨by simp, by simp⟩ ⟨by simp, by simp⟩ hrest (hrest.isGap_edges hsolid').1

/-! ## Words as they are shown -/

/-- How a word may stand in a filled paragraph. -/
def Shown (w v : Text) : Prop := v = w ∨ v = escapeWord w

theorem fit_map_char {s : Text} (h : ∀ c ∈ s, isBlank c = false) : Fit free (s.map Cell.char) := by
  refine Fit.of_false ?_
  induction s with
  | nil => trivial
  | cons c s ih => exact ⟨h c (by simp), ih fun d hd => h d (by simp [hd])⟩

theorem fit_digits_append {ds : Text} (h : ∀ d ∈ ds, isAsciiDigit d) (hzs : Fit true zs) :
    Fit true (ds.map Cell.char ++ zs) := by
  induction ds with
  | nil => exact hzs
  | cons d ds ih =>
    have hd : isAsciiDigit d := h d (by simp)
    refine ⟨isBlank_of_isAsciiDigit hd, ?_⟩
    rw [hd]
    exact ih fun e he => h e (by simp [he])

/-- Escaping a word puts marks in it and changes nothing else. -/
theorem exists_cells_escapeWord (hw : Solid w) (hcollapse : collapse w = w) :
    ∃ zs, Fit true zs ∧ src zs = w ∧ out zs = escapeWord w := by
  unfold escapeWord
  rw [dropFinalNewline_of_solid hw]
  dsimp only
  split
  · next h =>
    obtain ⟨ds, e, rfl, _, hds, he⟩ := exists_of_isNumberMarker h
    have hmark : isBlank e = false ∧ e ∈ markable := by
      rcases he with rfl | rfl <;> decide
    refine ⟨ds.map Cell.char ++ [.mark, .char e], ?_, by simp, by simp⟩
    exact fit_digits_append hds ⟨rfl, ⟨e, [], rfl, hmark.2⟩, hmark.1, trivial⟩
  · split
    · next h =>
      obtain ⟨c, rest, rfl⟩ := exists_cons_of_ne_nil hw.ne_nil
      have hmarkers : (∀ d ∈ ['-', '*', '+', '>', '#'], isBlank d = false) ∧
          ['-', '*', '+', '>', '#'] ⊆ markable := ⟨isBlank_of_all (by decide), by decide⟩
      have hmem : ∀ d ∈ c :: rest, d ∈ ['-', '*', '+', '>', '#'] := by
        intro d hd
        rcases exists_of_isBareMarker h with ⟨e, he, heq⟩ | ⟨_, hall⟩
        · obtain rfl : d = e := by simpa [heq] using hd
          exact mem_append_left ['#'] he
        · simp [hall d hd]
      have hvisible : ∀ d ∈ c :: rest, isBlank d = false := fun d hd => hmarkers.1 d (hmem d hd)
      have hc : c ∈ markable := hmarkers.2 (hmem c (by simp))
      exact ⟨.mark :: (c :: rest).map Cell.char,
        ⟨rfl, ⟨c, rest.map Cell.char, rfl, hc⟩, fit_map_char hvisible⟩, by simp, by simp⟩
    · obtain ⟨zs, hfit, hall, hsrc⟩ := exists_squeezed w
      exact ⟨zs, hfit.to_true, hsrc, by rw [out_eq_collapse hfit hall, hsrc, hcollapse]⟩

theorem exists_cells_of_shown {v : Text} (h : Shown w v) (hw : Solid w)
    (hcollapse : collapse w = w) : ∃ zs, Fit true zs ∧ src zs = w ∧ out zs = v := by
  rcases h with rfl | rfl
  · obtain ⟨zs, hfit, hall, hsrc⟩ := exists_squeezed v
    exact ⟨zs, hfit.to_true, hsrc, by rw [out_eq_collapse hfit hall, hsrc, hcollapse]⟩
  · exact exists_cells_escapeWord hw hcollapse

theorem exists_cells {vs : List Text} (h : Forall₂ Shown ws vs)
    (hws : ∀ w ∈ ws, Solid w ∧ collapse w = w) :
    ∃ cs : List (List Cell), cs.map src = ws ∧ cs.map out = vs ∧ ∀ c ∈ cs, Fit true c := by
  induction h with
  | nil => exact ⟨[], rfl, rfl, by simp⟩
  | @cons w v ws vs hwv _ ih =>
    obtain ⟨cs, rfl, rfl, hall⟩ := ih fun u hu => hws u (by simp [hu])
    obtain ⟨c, hc, rfl, rfl⟩ := exists_cells_of_shown hwv (hws w (by simp)).1 (hws w (by simp)).2
    exact ⟨c :: cs, rfl, rfl, by simpa using ⟨hc, hall⟩⟩

theorem Shown.solid_collapse {v : Text} (h : Shown w v) (hw : Solid w ∧ collapse w = w) :
    Solid v ∧ collapse v = v := by
  rcases h with rfl | rfl
  · exact hw
  · refine ⟨solid_escapeWord hw.1, ?_⟩
    rcases escapeWord_cases hw.1 with heq | ⟨hvisible, a, b, rfl, _, heq⟩
    · rw [heq, hw.2]
    · rw [heq]
      refine collapse_of_visible fun c hc => ?_
      rcases mem_append.1 hc with hc | hc
      · exact hvisible c (by simp [hc])
      · rcases mem_cons.1 hc with rfl | hc
        · exact isBlank_backslash
        · exact hvisible c (by simp [hc])

theorem forall_of_shown {vs : List Text} (h : Forall₂ Shown ws vs)
    (hws : ∀ w ∈ ws, Solid w ∧ collapse w = w) : ∀ v ∈ vs, Solid v ∧ collapse v = v := by
  induction h with
  | nil => simp
  | @cons w v ws vs hwv _ ih =>
    intro u hu
    rcases mem_cons.1 hu with rfl | hu
    · exact hwv.solid_collapse (hws w (by simp))
    · exact ih (fun x hx => hws x (by simp [hx])) u hu

end Reflow.Relaid
