import Mathlib.Data.List.Induction
import Reflow.Files.Ignore
import Reflow.Files.Path
import Reflow.Proofs.Gaps

/-!
What ignore patterns leave out, name by name.

A pattern is read through the texts that it takes (`Takes`), which is what its matcher computes
(`mem_rests`). A list leaves out a path by one line (`Decides`), and from the form of that line and
of the lines that take back in it follows what else the list leaves out: a folder on the way
(`GoesByFolders`), or one of the names by itself (`GoesByNames`).
-/

open List hiding splitOn splitOn_ne_nil find?

namespace Reflow.Files

open Text

/-- The piece takes no slash. -/
def Piece.isInName : Piece → Bool
  | .one k => !k.accepts '/'
  | .many k => !k.accepts '/'
  | .optional _ => false

/-- The piece takes a character in any case. -/
def Piece.isOne : Piece → Bool
  | .one _ => true
  | _ => false

namespace Pattern

variable {u : Text}

/-! ## The texts that a pattern takes -/

mutual

/-- The texts that a piece of a pattern takes. -/
def PieceTakes : Piece → Text → Prop
  | .one k, u => ∃ c, k.accepts c = true ∧ u = [c]
  | .many k, u => ∀ c ∈ u, k.accepts c = true
  | .optional inner, u => u = [] ∨ Takes inner u

/-- The texts that a pattern takes: a text for each of its pieces, one after the other. -/
def Takes : List Piece → Text → Prop
  | [], u => u = []
  | p :: ps, u => ∃ a b, u = a ++ b ∧ PieceTakes p a ∧ Takes ps b

end

theorem mem_restsOfMany {k : CharClass} {t r : Text} :
    r ∈ restsOfMany k t ↔ ∃ u, t = u ++ r ∧ ∀ c ∈ u, k.accepts c := by
  induction t with
  | nil =>
    simp only [restsOfMany, mem_singleton]
    constructor
    · rintro rfl
      exact ⟨[], rfl, by simp⟩
    · rintro ⟨u, hu, -⟩
      exact (append_eq_nil_iff.1 hu.symm).2
  | cons c cs ih =>
    rw [restsOfMany, mem_cons]
    constructor
    · rintro (rfl | h)
      · exact ⟨[], rfl, by simp⟩
      · cases hc : k.accepts c with
        | false => simp [hc] at h
        | true =>
          rw [hc] at h
          obtain ⟨u, rfl, hu⟩ := ih.1 h
          exact ⟨c :: u, rfl, by simpa [hc] using hu⟩
    · rintro ⟨u, hu, hall⟩
      -- nothing is taken, or the first character is
      cases u with
      | nil => exact .inl hu.symm
      | cons d u =>
        obtain ⟨rfl, hcs⟩ := cons_eq_cons.1 hu
        refine .inr ?_
        rw [if_pos (hall c (by simp))]
        exact ih.2 ⟨u, hcs, fun d hd => hall d (by simp [hd])⟩

mutual

theorem mem_restsOfPiece {p : Piece} {t r : Text} :
    r ∈ restsOfPiece p t ↔ ∃ u, t = u ++ r ∧ PieceTakes p u := by
  cases p with
  | one k =>
    cases t with
    | nil => simp [restsOfPiece, PieceTakes]
    | cons c cs =>
      by_cases hc : k.accepts c
      · simp only [restsOfPiece, hc, if_true, mem_singleton, PieceTakes]
        constructor
        · rintro rfl
          exact ⟨[c], rfl, c, hc, rfl⟩
        · rintro ⟨_, hu, d, -, rfl⟩
          exact (cons_eq_cons.1 hu).2.symm
      · simp only [restsOfPiece, hc, Bool.false_eq_true, if_false, not_mem_nil, PieceTakes,
          false_iff]
        rintro ⟨_, hu, d, hd, rfl⟩
        rw [(cons_eq_cons.1 hu).1] at hc
        exact hc hd
  | many k => simpa only [restsOfPiece, PieceTakes] using mem_restsOfMany
  | optional inner =>
    simp only [restsOfPiece, mem_cons, mem_rests (p := inner), PieceTakes]
    constructor
    · rintro (rfl | ⟨u, rfl, hu⟩)
      · exact ⟨[], rfl, .inl rfl⟩
      · exact ⟨u, rfl, .inr hu⟩
    · rintro ⟨u, rfl, rfl | hu⟩
      · exact .inl rfl
      · exact .inr ⟨u, rfl, hu⟩

/-- What can be left of a text after a pattern is what comes after a text that the pattern takes. -/
theorem mem_rests {p : List Piece} {t r : Text} : r ∈ rests p t ↔ ∃ u, t = u ++ r ∧ Takes p u := by
  cases p with
  | nil =>
    simp only [rests, mem_singleton, Takes]
    constructor
    · rintro rfl
      exact ⟨[], rfl, rfl⟩
    · rintro ⟨_, rfl, rfl⟩
      rfl
  | cons p ps =>
    simp only [rests, mem_flatMap, mem_restsOfPiece (p := p), mem_rests (p := ps), Takes]
    constructor
    · rintro ⟨_, ⟨a, rfl, ha⟩, b, rfl, hb⟩
      exact ⟨a ++ b, by simp, a, b, rfl, ha, hb⟩
    · rintro ⟨_, rfl, a, b, rfl, ha, hb⟩
      exact ⟨b ++ r, ⟨a, by simp, ha⟩, b, rfl, hb⟩

end

theorem takes_append {p q : List Piece} :
    Takes (p ++ q) u ↔ ∃ a b, u = a ++ b ∧ Takes p a ∧ Takes q b := by
  induction p generalizing u with
  | nil => simp [Takes]
  | cons piece p ih =>
    simp only [cons_append, Takes, ih]
    constructor
    · rintro ⟨a, _, rfl, ha, b, c, rfl, hb, hc⟩
      exact ⟨a ++ b, c, by simp, ⟨a, b, rfl, ha, hb⟩, hc⟩
    · rintro ⟨_, c, rfl, ⟨a, b, rfl, ha, hb⟩, hc⟩
      exact ⟨a, b ++ c, by simp, ha, b, c, rfl, hb, hc⟩

@[simp] theorem takes_singleton {p : Piece} : Takes [p] u ↔ PieceTakes p u := by
  simp [Takes]

theorem accepts_iff_takes {p : Pattern} {t : Text} : p.accepts t ↔ Takes p t := by
  simp only [accepts, List.any_eq_true, List.isEmpty_iff]
  constructor
  · rintro ⟨_, hrest, rfl⟩
    obtain ⟨u, rfl, hu⟩ := mem_rests.1 hrest
    simpa using hu
  · intro h
    exact ⟨[], mem_rests.2 ⟨t, by simp, h⟩, rfl⟩

theorem slash_not_mem_of_takes {p : List Piece} (hp : p.all Piece.isInName) (h : Takes p u) :
    '/' ∉ u := by
  induction p generalizing u with
  | nil => simp [show u = [] from h]
  | cons piece p ih =>
    rw [all_cons, Bool.and_eq_true] at hp
    obtain ⟨a, b, rfl, ha, hb⟩ := h
    have hslash : '/' ∉ a := by
      intro hmem
      cases piece with
      | one k =>
        obtain ⟨c, hc, rfl⟩ := ha
        rw [← mem_singleton.1 hmem] at hc
        simp [Piece.isInName, hc] at hp
      | many k => simp [Piece.isInName, ha _ hmem] at hp
      | optional inner => simp [Piece.isInName] at hp
    simp [hslash, ih hp.2 hb]

theorem ne_nil_of_takes {p : List Piece} (hp : p.any Piece.isOne) (h : Takes p u) : u ≠ [] := by
  induction p generalizing u with
  | nil => simp at hp
  | cons piece p ih =>
    obtain ⟨a, b, rfl, ha, hb⟩ := h
    rw [any_cons, Bool.or_eq_true] at hp
    rcases hp with hp | hp
    · cases piece with
      | one k =>
        obtain ⟨c, -, rfl⟩ := ha
        simp
      | many k => simp [Piece.isOne] at hp
      | optional inner => simp [Piece.isOne] at hp
    · simp [ih hp hb]

end Pattern

open Pattern

namespace IgnorePattern

variable {p : IgnorePattern} {path : Text}

/-! ## What a line accepts -/

/-- The path is the text, or has one line feed more at its end. -/
def UpToNewline (path u : Text) : Prop := path = u ∨ path = u ++ ['\n']

/-- The text has no line feed before its end. -/
def OneLine (t : Text) : Prop := ∃ u, UpToNewline t u ∧ '\n' ∉ u

theorem oneLine_nil : OneLine [] := ⟨[], .inl rfl, by simp⟩

theorem OneLine.append {s t : Text} (hs : '\n' ∉ s) (ht : OneLine t) : OneLine (s ++ t) := by
  obtain ⟨u, rfl | rfl, hu⟩ := ht
  · exact ⟨s ++ t, .inl rfl, by simp [hs, hu]⟩
  · exact ⟨s ++ u, .inr (by simp), by simp [hs, hu]⟩

theorem OneLine.not_mem {t : Text} (h : OneLine t) (hend : t.getLast? ≠ some '\n') : '\n' ∉ t := by
  obtain ⟨u, rfl | rfl, hu⟩ := h
  · exact hu
  · simp at hend

theorem accepts_iff : p.accepts path ↔ ∃ u, UpToNewline path u ∧ Takes p.pattern u := by
  simp only [accepts, any_eq_true, Bool.or_eq_true, beq_iff_eq, mem_rests]
  constructor
  · rintro ⟨_, ⟨u, rfl, hu⟩, rfl | rfl⟩
    · exact ⟨u, .inl (by simp), hu⟩
    · exact ⟨u, .inr rfl, hu⟩
  · rintro ⟨u, rfl | rfl, hu⟩
    · exact ⟨[], ⟨path, by simp, hu⟩, .inl rfl⟩
    · exact ⟨['\n'], ⟨u, rfl, hu⟩, .inr rfl⟩

/-- A pattern in two parts takes a path in two parts; the line feed counts for the second. -/
theorem accepts_append_iff {body tail : List Piece} (hp : p.pattern = body ++ tail) :
    p.accepts path ↔ ∃ s b, path = s ++ b ∧ Takes body s ∧ ∃ v, UpToNewline b v ∧ Takes tail v := by
  simp only [accepts_iff, hp, takes_append]
  constructor
  · rintro ⟨_, rfl | rfl, s, v, rfl, hs, hv⟩
    · exact ⟨s, v, rfl, hs, v, .inl rfl, hv⟩
    · exact ⟨s, v ++ ['\n'], by simp, hs, v, .inr rfl, hv⟩
  · rintro ⟨s, _, rfl, hs, v, rfl | rfl, hv⟩
    · exact ⟨_, .inl rfl, s, _, rfl, hs, hv⟩
    · exact ⟨s ++ v, .inr (by simp), s, v, rfl, hs, hv⟩

theorem takes_anyText {u : Text} : Takes anyText u ↔ '\n' ∉ u := by
  simp only [anyText, takes_singleton, PieceTakes, CharClass.accepts, bne_iff_ne]
  constructor
  · intro h hmem
    exact h _ hmem rfl
  · rintro h c hc rfl
    exact h hc

theorem takes_slash_cons {p : List Piece} {u : Text} :
    Takes (slash :: p) u ↔ ∃ v, u = '/' :: v ∧ Takes p v := by
  simp only [slash, Takes, PieceTakes, CharClass.accepts, beq_iff_eq]
  constructor
  · rintro ⟨_, v, rfl, ⟨_, rfl, rfl⟩, hv⟩
    exact ⟨v, rfl, hv⟩
  · rintro ⟨v, rfl, hv⟩
    exact ⟨['/'], v, rfl, ⟨'/', rfl, rfl⟩, hv⟩

theorem exists_takes_below {b : Text} :
    (∃ v, UpToNewline b v ∧ Takes (slash :: anyText) v) ↔ ∃ rest, b = '/' :: rest ∧ OneLine rest := by
  simp only [takes_slash_cons, takes_anyText]
  constructor
  · rintro ⟨_, rfl | rfl, v, rfl, hv⟩
    · exact ⟨v, rfl, v, .inl rfl, hv⟩
    · exact ⟨v ++ ['\n'], rfl, v, .inr rfl, hv⟩
  · rintro ⟨_, rfl, v, rfl | rfl, hv⟩
    · exact ⟨_, .inl rfl, _, rfl, hv⟩
    · exact ⟨'/' :: v, .inr rfl, v, rfl, hv⟩

/-- The line asks for something below a folder. -/
def IsFolder (p : IgnorePattern) : Prop := ∃ body, p.pattern = body ++ slash :: anyText

theorem accepts_folder_iff {body : List Piece} (hp : p.pattern = body ++ slash :: anyText) :
    p.accepts path ↔ ∃ s rest, path = s ++ '/' :: rest ∧ Takes body s ∧ OneLine rest := by
  simp only [accepts_append_iff hp, exists_takes_below]
  constructor
  · rintro ⟨s, _, rfl, hs, rest, rfl, hrest⟩
    exact ⟨s, rest, rfl, hs, hrest⟩
  · rintro ⟨s, rest, rfl, hs, hrest⟩
    exact ⟨s, _, rfl, hs, rest, rfl, hrest⟩

/-- What comes after a slash in a text that ends with a slash has no line feed at its end. -/
theorem getLast?_ne_newline {folder s below : Text} (h : folder ++ ['/'] = s ++ '/' :: below) :
    below.getLast? ≠ some '\n' := by
  intro hlast
  have hends := congrArg getLast? h
  simp [getLast?_append, getLast?_cons, hlast] at hends

/-- The line accepts what lies below a folder that it accepts. -/
def TakesBelow (p : IgnorePattern) : Prop :=
  ∀ {folder rest : Text}, p.accepts (folder ++ ['/']) = true → OneLine rest →
    p.accepts (folder ++ '/' :: rest) = true

theorem IsFolder.takesBelow (hp : p.IsFolder) : p.TakesBelow := by
  intro folder rest h hrest
  obtain ⟨body, hbody⟩ := hp
  obtain ⟨s, below, hcut, hs, hbelow⟩ := (accepts_folder_iff hbody).1 h
  -- the line feed that may be left over would stand after the slash, and there is nothing there
  have hnone : '\n' ∉ below := hbelow.not_mem (getLast?_ne_newline hcut)
  refine (accepts_folder_iff hbody).2 ⟨s, below ++ rest, ?_, hs, hrest.append hnone⟩
  have hmore := congrArg (· ++ rest) hcut
  simpa using hmore

/-! ## Lines of one name -/

/-- What a line of one name stands for. -/
structure NameForm where
  /-- The name is meant at any depth. -/
  anywhere : Bool
  own : List Piece
  /-- The name is that of a folder. -/
  folder : Bool
  inName : own.all Piece.isInName = true
  solid : own.any Piece.isOne = true

namespace NameForm

variable {f : NameForm}

/-- The pattern of a line of one name. -/
def pattern (f : NameForm) : Pattern :=
  (if f.anywhere then [.optional (someText ++ [slash])] else []) ++ f.own
    ++ (if f.folder then slash :: anyText else [orBelow])

/-- What may stand before the name. -/
def Leads (f : NameForm) (a : Text) : Prop :=
  a = [] ∨ (f.anywhere = true ∧ ∃ s, a = s ++ ['/'] ∧ s ≠ [] ∧ '\n' ∉ s)

/-- What may stand after the name. -/
def Follows (f : NameForm) (b : Text) : Prop :=
  (∃ rest, b = '/' :: rest ∧ OneLine rest) ∨ (f.folder = false ∧ (b = [] ∨ b = ['\n']))

theorem Leads.slash_at_end {a : Text} (h : f.Leads a) : a = [] ∨ ∃ s, a = s ++ ['/'] :=
  h.imp_right fun ⟨_, s, hs, _⟩ => ⟨s, hs⟩

theorem takes_lead {a : Text} :
    Takes (if f.anywhere then [.optional (someText ++ [slash])] else []) a ↔ f.Leads a := by
  cases h : f.anywhere with
  | false => simp [Leads, h, Takes]
  | true =>
    have hsome : ∀ s, Takes someText s ↔ s ≠ [] ∧ '\n' ∉ s := by
      intro s
      simp only [someText, Takes, takes_anyText, PieceTakes, CharClass.accepts, bne_iff_ne]
      constructor
      · rintro ⟨_, b, rfl, ⟨c, hc, rfl⟩, hb⟩
        simp [hb, Ne.symm hc]
      · rintro ⟨hne, hs⟩
        obtain ⟨c, b, rfl⟩ := exists_cons_of_ne_nil hne
        rw [mem_cons, not_or] at hs
        exact ⟨[c], b, rfl, ⟨c, Ne.symm hs.1, rfl⟩, hs.2⟩
    simp only [if_true, takes_singleton, PieceTakes, takes_append, hsome, Leads, h, true_and]
    refine or_congr_right ?_
    constructor
    · rintro ⟨s, _, rfl, ⟨hne, hs⟩, c, hc, rfl⟩
      rw [show c = '/' from by simpa [CharClass.accepts] using hc]
      exact ⟨s, rfl, hne, hs⟩
    · rintro ⟨s, rfl, hne, hs⟩
      exact ⟨s, ['/'], rfl, ⟨hne, hs⟩, '/', rfl, rfl⟩

theorem exists_takes_follow {b : Text} :
    (∃ v, UpToNewline b v ∧ Takes (if f.folder then slash :: anyText else [orBelow]) v) ↔
      f.Follows b := by
  cases h : f.folder with
  | true => simp [Follows, h, exists_takes_below]
  | false =>
    simp only [Bool.false_eq_true, if_false, Follows, h, true_and, takes_singleton, orBelow,
      PieceTakes, ← exists_takes_below]
    constructor
    · rintro ⟨v, hv, rfl | hbelow⟩
      · exact .inr (by simpa [UpToNewline] using hv)
      · exact .inl ⟨v, hv, hbelow⟩
    · rintro (⟨v, hv, hbelow⟩ | hb)
      · exact ⟨v, hv, .inr hbelow⟩
      · exact ⟨[], by simpa [UpToNewline] using hb, .inl rfl⟩

end NameForm

/-- The line is of one name. -/
def IsName (p : IgnorePattern) (f : NameForm) : Prop := p.pattern = f.pattern

theorem IsName.accepts_iff {f : NameForm} (hp : p.IsName f) :
    p.accepts path ↔ ∃ a w b, path = a ++ w ++ b ∧ f.Leads a ∧ Takes f.own w ∧ f.Follows b := by
  simp only [accepts_append_iff hp, takes_append, NameForm.takes_lead,
    NameForm.exists_takes_follow]
  constructor
  · rintro ⟨_, b, rfl, ⟨a, w, rfl, ha, hw⟩, hb⟩
    exact ⟨a, w, b, rfl, ha, hw, hb⟩
  · rintro ⟨a, w, b, rfl, ha, hw, hb⟩
    exact ⟨a ++ w, b, rfl, ⟨a, w, rfl, ha, hw⟩, hb⟩

theorem IsName.takesBelow {f : NameForm} (hp : p.IsName f) : p.TakesBelow := by
  intro folder rest h hrest
  obtain ⟨a, w, b, hcut, ha, hw, hb⟩ := hp.accepts_iff.1 h
  have hends := congrArg getLast? hcut
  rcases hb with ⟨below, rfl, hbelow⟩ | ⟨-, rfl | rfl⟩
  · have hnone : '\n' ∉ below := hbelow.not_mem (getLast?_ne_newline hcut)
    refine hp.accepts_iff.2 ⟨a, w, '/' :: (below ++ rest), ?_, ha, hw, .inl ⟨_, rfl, ?_⟩⟩
    · have hmore := congrArg (· ++ rest) hcut
      simpa using hmore
    · exact hrest.append hnone
  · -- the name would end with the slash
    have hlast : w.getLast? = some '/' := by
      cases hw' : w.getLast? with
      | none => exact absurd (getLast?_eq_none_iff.1 hw') (ne_nil_of_takes f.solid hw)
      | some c => simpa [hw'] using hends.symm
    exact absurd (mem_of_getLast? hlast) (slash_not_mem_of_takes f.inName hw)
  · simp [getLast?_append] at hends

end IgnorePattern

/-! ## Paths of names -/

/-- A name that something in a folder can have. -/
structure ProperName (n : Text) : Prop where
  ne_nil : n ≠ []
  slash_not_mem : '/' ∉ n
  ne_dot : n ≠ ['.']
  ne_up : n ≠ up

instance : DecidablePred ProperName := fun n =>
  decidable_of_iff (n ≠ [] ∧ '/' ∉ n ∧ n ≠ ['.'] ∧ n ≠ up)
    ⟨fun h => ⟨h.1, h.2.1, h.2.2.1, h.2.2.2⟩, fun h => ⟨h.1, h.2, h.3, h.4⟩⟩

namespace IgnoreList

variable {names : List Text}

theorem normalisePath_eq_self {n : Text} (hn : ProperName n) (rest : Text) :
    normalisePath (n ++ rest) = n ++ rest := by
  obtain ⟨c, cs, rfl⟩ := exists_cons_of_ne_nil hn.ne_nil
  have hc : c ≠ '/' := fun h => hn.slash_not_mem (by simp [h])
  unfold normalisePath
  split
  · next heq => exact absurd (cons_eq_cons.1 heq).1 hc
  · next heq =>
    -- a dot and a slash: the slash is not in the name, so the name is the dot
    obtain ⟨rfl, hcs⟩ := cons_eq_cons.1 heq
    cases cs with
    | nil => exact absurd rfl hn.ne_dot
    | cons d ds =>
      obtain ⟨rfl, -⟩ := cons_eq_cons.1 hcs
      exact absurd (by simp) hn.slash_not_mem
  · rfl

theorem normalisePath_joinWith (hne : names ≠ []) (hnames : ∀ n ∈ names, ProperName n) (rest : Text) :
    normalisePath (joinWith ['/'] names ++ rest) = joinWith ['/'] names ++ rest := by
  obtain ⟨n, ns, rfl⟩ := exists_cons_of_ne_nil hne
  have hn : ProperName n := hnames n (by simp)
  by_cases hns : ns = []
  · subst hns
    exact normalisePath_eq_self hn rest
  · rw [joinWith_cons hns, append_assoc, append_assoc]
    exact normalisePath_eq_self hn _

theorem normalisePath_joinWith_self (hne : names ≠ []) (hnames : ∀ n ∈ names, ProperName n) :
    normalisePath (joinWith ['/'] names) = joinWith ['/'] names := by
  simpa using normalisePath_joinWith hne hnames []

theorem exists_folder (hne : names ≠ []) (hnames : ∀ n ∈ names, '/' ∉ n) {s rest : Text}
    (h : joinWith ['/'] names = s ++ '/' :: rest) :
    ∃ above name below, names = above ++ name :: below ∧ below ≠ [] ∧
      s = joinWith ['/'] (above ++ [name]) := by
  have hcut : names = splitOn '/' s ++ splitOn '/' rest := by
    rw [← splitOn_append, ← h, splitOn_joinWith hne hnames]
  obtain ⟨above, name, hs⟩ :=
    (eq_nil_or_concat' (splitOn '/' s)).resolve_left (splitOn_ne_nil '/' s)
  refine ⟨above, name, splitOn '/' rest, ?_, splitOn_ne_nil '/' rest, ?_⟩
  · rw [hcut, hs]
    simp
  · rw [← hs, joinWith_splitOn]

theorem exists_name (hne : names ≠ []) (hnames : ∀ n ∈ names, '/' ∉ n) {a w b : Text}
    (h : joinWith ['/'] names = a ++ w ++ b) (ha : a = [] ∨ ∃ s, a = s ++ ['/']) (hw : '/' ∉ w)
    (hb : b = [] ∨ ∃ rest, b = '/' :: rest) :
    ∃ above below, names = above ++ w :: below ∧ (below = [] ↔ b = []) := by
  have hsplit : names = splitOn '/' (a ++ (w ++ b)) := by
    rw [← append_assoc, ← h, splitOn_joinWith hne hnames]
  have hword : splitOn '/' (joinWith ['/'] [w]) = [w] :=
    splitOn_joinWith (by simp) (by simpa using hw)
  rw [joinWith] at hword
  have hrest : ∃ below, splitOn '/' (w ++ b) = w :: below ∧ (below = [] ↔ b = []) := by
    rcases hb with rfl | ⟨rest, rfl⟩
    · exact ⟨[], by simpa using hword, by simp⟩
    · exact ⟨splitOn '/' rest, by simp [splitOn_append, hword], by simp [splitOn_ne_nil]⟩
  obtain ⟨below, hbelow, hiff⟩ := hrest
  rcases ha with rfl | ⟨s, rfl⟩
  · exact ⟨[], below, by rw [hsplit, nil_append, hbelow]; rfl, hiff⟩
  · refine ⟨splitOn '/' s, below, ?_, hiff⟩
    rw [hsplit, append_assoc, singleton_append, splitOn_append, hbelow]

/-! ## The line that decides -/

/-- The line is the one by which the list leaves out the path. Another path that it accepts is left out
too, if every line that takes that one back in would have taken back in the first. -/
structure Decides (l : IgnoreList) (p : IgnorePattern) (path : Text) : Prop where
  mem : p ∈ l
  accepts : p.accepts path = true
  covers : ∀ other, p.accepts (normalisePath other) = true →
    (∀ q ∈ l, q.negated = true → q.accepts (normalisePath other) = true → q.accepts path = true) →
    l.covers other = true

theorem exists_decides {l : IgnoreList} {path : Text} (h : l.covers path) :
    ∃ p, l.Decides p (normalisePath path) := by
  unfold covers at h
  -- from the end of the list: the last line that accepts the path
  induction l using reverseRecOn with
  | nil => simp at h
  | append_singleton l p ih =>
    rw [foldl_append, foldl_cons, foldl_nil] at h
    cases haccepts : p.accepts (normalisePath path) with
    | true =>
      rw [haccepts, if_pos rfl] at h
      refine ⟨p, by simp, haccepts, ?_⟩
      intro other hother _
      rw [covers, foldl_append, foldl_cons, foldl_nil, hother, if_pos rfl, h]
    | false =>
      rw [haccepts] at h
      obtain ⟨q, hq⟩ := ih h
      refine ⟨q, by simp [hq.mem], hq.accepts, ?_⟩
      intro other hother hback
      have hbefore := hq.covers other hother fun r hr => hback r (by simp [hr])
      rw [covers] at hbefore
      rw [covers, foldl_append, foldl_cons, hbefore]
      cases hlast : p.accepts (normalisePath other) with
      | false => simp
      | true =>
        cases hn : p.negated with
        | false => simp
        | true =>
          rw [hback p (by simp) hn hlast] at haccepts
          cases haccepts

/-! ## Lists that go by folders or by names -/

/-- The list leaves out a folder on the way, by its name or by the names that lead to it. -/
def StopsFolder (l : IgnoreList) (names : List Text) : Prop :=
  ∃ above name rest, names = above ++ name :: rest ∧ rest ≠ [] ∧
    (l.covers (name ++ ['/']) = true ∨ l.covers (joinWith ['/'] (above ++ [name]) ++ ['/']) = true)

/-- The list leaves out one of the names by itself: that of the file, or that of a folder on the
way. -/
def StopsName (l : IgnoreList) (names : List Text) : Prop :=
  ∃ above name rest, names = above ++ name :: rest ∧
    l.covers (if rest.isEmpty then name else name ++ ['/']) = true

/-- Of every path that the list leaves out, it leaves out a folder on the way. -/
def GoesByFolders (l : IgnoreList) : Prop :=
  ∀ names, names ≠ [] → (∀ n ∈ names, ProperName n) →
    l.covers (joinWith ['/'] names) = true → l.StopsFolder names

/-- Of every path that the list leaves out, it leaves out one of the names by itself. -/
def GoesByNames (l : IgnoreList) : Prop :=
  ∀ names, names ≠ [] → (∀ n ∈ names, ProperName n) →
    l.covers (joinWith ['/'] names) = true → l.StopsName names

/-- Of every path that the list leaves out, it leaves out a folder on the way or one of the names by
itself. -/
def GoesByFoldersOrNames (l : IgnoreList) : Prop :=
  ∀ names, names ≠ [] → (∀ n ∈ names, ProperName n) →
    l.covers (joinWith ['/'] names) = true → l.StopsFolder names ∨ l.StopsName names

section Lines

variable {l : IgnoreList} {names : List Text} {p : IgnorePattern}

open IgnorePattern

/-- A list stops at a folder on the way if its line accepts that folder, and if its lines accept
what lies below the folders that they accept. -/
theorem Decides.stopsFolder (hp : l.Decides p (joinWith ['/'] names))
    (hl : ∀ q ∈ l, q.TakesBelow) {s rest : Text} (hcut : joinWith ['/'] names = s ++ '/' :: rest)
    (hrest : OneLine rest) (haccepts : p.accepts (s ++ ['/'])) (hne : names ≠ [])
    (hnames : ∀ n ∈ names, ProperName n) : l.StopsFolder names := by
  obtain ⟨above, name, below, hsplit, hbelow, rfl⟩ :=
    exists_folder hne (fun n hn => (hnames n hn).slash_not_mem) hcut
  have hself : normalisePath (joinWith ['/'] (above ++ [name]) ++ ['/'])
      = joinWith ['/'] (above ++ [name]) ++ ['/'] := by
    apply normalisePath_joinWith (by simp)
    intro n hn
    apply hnames
    rw [hsplit]
    simp only [mem_append, mem_cons, not_mem_nil, or_false] at hn ⊢
    exact hn.imp_right .inl
  refine ⟨above, name, below, hsplit, hbelow, .inr (hp.covers _ (by rwa [hself]) ?_)⟩
  intro q hq _ hq'
  rw [hself] at hq'
  rw [hcut]
  exact hl q hq hq' hrest

/-- A list stops at the name of the file if that is the name of its line: a line that takes this name
back in takes back in the path. -/
theorem Decides.stopsName (hp : l.Decides p (joinWith ['/'] names)) {f : NameForm} (hf : p.IsName f)
    {a w b : Text} (hcut : joinWith ['/'] names = a ++ w ++ b) (ha : f.Leads a)
    (hw : Takes f.own w) (hfolder : f.folder = false) (hb : b = [] ∨ b = ['\n'])
    (hback : ∀ q ∈ l, q.negated → q.IsFolder ∨ ∃ g : NameForm, q.IsName g ∧ g.anywhere)
    (hne : names ≠ []) (hnames : ∀ n ∈ names, ProperName n) : l.StopsName names := by
  have hslash : '/' ∉ w ++ b := by
    have hw' := slash_not_mem_of_takes f.inName hw
    rcases hb with rfl | rfl <;> simp [hw']
  obtain ⟨above, below, hsplit, hlast⟩ : ∃ above below, names = above ++ (w ++ b) :: below ∧
      (below = [] ↔ ([] : Text) = []) := by
    apply exists_name hne (fun n hn => (hnames n hn).slash_not_mem) _ ha.slash_at_end hslash
      (.inl rfl)
    simpa using hcut
  have hbelow : below = [] := hlast.2 rfl
  have hself : normalisePath (w ++ b) = w ++ b := by
    have hproper : ProperName (w ++ b) := hnames _ (by simp [hsplit])
    simpa using normalisePath_eq_self hproper []
  refine ⟨above, w ++ b, below, hsplit, ?_⟩
  rw [hbelow, isEmpty_nil, if_pos rfl]
  apply hp.covers
  · rw [hself]
    exact hf.accepts_iff.2 ⟨[], w, b, rfl, .inl rfl, hw, .inr ⟨hfolder, hb⟩⟩
  · intro q hq hneg haccepts
    rw [hself] at haccepts
    rcases hback q hq hneg with ⟨body, hbody⟩ | ⟨g, hg, hanywhere⟩
    · -- a line of a folder takes no text without a slash
      obtain ⟨s, rest, hs, -⟩ := (accepts_folder_iff hbody).1 haccepts
      exact absurd (by rw [hs]; simp) hslash
    · -- a line of one name takes it as it stands, and so at the end of any path
      obtain ⟨a', w', b', hcut', ha', hw', hb'⟩ := hg.accepts_iff.1 haccepts
      have hnil : a' = [] := by
        rcases ha' with rfl | ⟨-, s, rfl, -⟩
        · rfl
        · exact absurd (by rw [hcut']; simp) hslash
      refine hg.accepts_iff.2 ⟨a, w', b', ?_, ?_, hw', hb'⟩
      · rw [hcut, append_assoc, hcut', hnil]
        simp
      · exact ha.imp_right fun h => ⟨hanywhere, h.2⟩

/-- A name with a slash after it is the only name in that text. -/
theorem takes_of_accepts_slash {q : IgnorePattern} {g : NameForm} (hg : q.IsName g) {w : Text}
    (hslash : '/' ∉ w) (h : q.accepts (w ++ ['/'])) : Takes g.own w := by
  obtain ⟨a, v, b, hcut, ha, hv, hb⟩ := hg.accepts_iff.1 h
  have hv' : v ≠ [] := ne_nil_of_takes g.solid hv
  obtain ⟨above, below, hsplit, -⟩ : ∃ above below, [w, []] = above ++ v :: below ∧
      (below = [] ↔ b = []) := by
    apply exists_name (by simp) (by simpa using hslash) (by simpa [joinWith] using hcut)
      ha.slash_at_end (slash_not_mem_of_takes g.inName hv)
    rcases hb with ⟨r, rfl, -⟩ | ⟨-, rfl | rfl⟩
    · exact .inr ⟨r, rfl⟩
    · exact .inl rfl
    · simpa using congrArg getLast? hcut
  have hmem : v ∈ [w, []] := by
    rw [hsplit]
    simp
  have hsame : v = w := by simpa [hv'] using hmem
  rwa [← hsame]

theorem goesByFolders_of_isFolder (hl : ∀ p ∈ l, p.IsFolder) : l.GoesByFolders := by
  intro names hne hnames h
  obtain ⟨p, hp⟩ := exists_decides h
  rw [normalisePath_joinWith_self hne hnames] at hp
  obtain ⟨body, hbody⟩ := hl p hp.mem
  obtain ⟨s, rest, hcut, hs, hrest⟩ := (accepts_folder_iff hbody).1 hp.accepts
  apply hp.stopsFolder (fun q hq => (hl q hq).takesBelow) hcut hrest _ hne hnames
  exact (accepts_folder_iff hbody).2 ⟨s, [], rfl, hs, oneLine_nil⟩

/-- Lines of folders and lines of one name leave out a folder on the way or the name of the file,
unless a line that takes back in is meant for the top only. -/
theorem goesByFoldersOrNames_of_isFolder_or_isName (hl : ∀ p ∈ l, p.IsFolder ∨
      ∃ f : NameForm, p.IsName f ∧ (p.negated → f.anywhere)) : l.GoesByFoldersOrNames := by
  intro names hne hnames h
  obtain ⟨p, hp⟩ := exists_decides h
  rw [normalisePath_joinWith_self hne hnames] at hp
  have hdown : ∀ q ∈ l, q.TakesBelow := by
    intro q hq
    rcases hl q hq with hfolder | ⟨f, hf, -⟩
    · exact hfolder.takesBelow
    · exact hf.takesBelow
  rcases hl p hp.mem with ⟨body, hbody⟩ | ⟨f, hf, -⟩
  · obtain ⟨s, rest, hcut, hs, hrest⟩ := (accepts_folder_iff hbody).1 hp.accepts
    left
    apply hp.stopsFolder hdown hcut hrest _ hne hnames
    exact (accepts_folder_iff hbody).2 ⟨s, [], rfl, hs, oneLine_nil⟩
  · obtain ⟨a, w, b, hcut, ha, hw, ⟨rest, rfl, hrest⟩ | ⟨hfolder, hb⟩⟩ :=
      hf.accepts_iff.1 hp.accepts
    · left
      apply hp.stopsFolder hdown hcut hrest _ hne hnames
      exact hf.accepts_iff.2 ⟨a, w, ['/'], rfl, ha, hw, .inl ⟨[], rfl, oneLine_nil⟩⟩
    · right
      apply hp.stopsName hf hcut ha hw hfolder hb _ hne hnames
      intro q hq hneg
      exact (hl q hq).imp_right fun ⟨g, hg, hanywhere⟩ => ⟨g, hg, hanywhere hneg⟩

/-- Lines of one name leave out a name on the way or the name of the file, unless a line that takes
back in is meant for the top only. -/
theorem goesByNames_of_isName (hl : ∀ p ∈ l, ∃ f : NameForm, p.IsName f ∧
      (p.negated → f.anywhere)) : l.GoesByNames := by
  intro names hne hnames h
  obtain ⟨p, hp⟩ := exists_decides h
  rw [normalisePath_joinWith_self hne hnames] at hp
  obtain ⟨f, hf, -⟩ := hl p hp.mem
  obtain ⟨a, w, b, hcut, ha, hw, ⟨rest, rfl, hrest⟩ | ⟨hfolder, hb⟩⟩ := hf.accepts_iff.1 hp.accepts
  · -- the name is that of a folder on the way
    have hslash : '/' ∉ w := slash_not_mem_of_takes f.inName hw
    obtain ⟨above, below, hsplit, hlast⟩ := exists_name hne
      (fun n hn => (hnames n hn).slash_not_mem) hcut ha.slash_at_end hslash (.inr ⟨rest, rfl⟩)
    have hself : normalisePath (w ++ ['/']) = w ++ ['/'] :=
      normalisePath_eq_self (hnames w (by simp [hsplit])) ['/']
    have hbelow : below.isEmpty = false := by simpa using hlast
    refine ⟨above, w, below, hsplit, ?_⟩
    rw [hbelow, if_neg Bool.false_ne_true]
    apply hp.covers
    · rw [hself]
      exact hf.accepts_iff.2 ⟨[], w, ['/'], rfl, .inl rfl, hw, .inl ⟨[], rfl, oneLine_nil⟩⟩
    · -- a line that takes the folder back in is meant at any depth, so also where the path has it
      intro q hq hneg haccepts
      rw [hself] at haccepts
      obtain ⟨g, hg, hanywhere⟩ := hl q hq
      have hown : Takes g.own w := takes_of_accepts_slash hg hslash haccepts
      rw [hcut]
      refine hg.accepts_iff.2 ⟨a, w, '/' :: rest, rfl, ?_, hown, .inl ⟨rest, rfl, hrest⟩⟩
      exact ha.imp_right fun h => ⟨hanywhere hneg, h.2⟩
  · apply hp.stopsName hf hcut ha hw hfolder hb _ hne hnames
    intro q hq hneg
    obtain ⟨g, hg, hanywhere⟩ := hl q hq
    exact .inr ⟨g, hg, hanywhere hneg⟩

end Lines

end IgnoreList

end Reflow.Files
