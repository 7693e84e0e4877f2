import Mathlib.Data.List.Induction
import Reflow.Document.Render
import Reflow.Proofs.Gaps

/-!
Fenced code, written and read back.

A fence is chosen longer than every run of its character that a line of the code starts with. The
reader asks of each line whether it is a run that contains the opening fence. `not_closesFence` is
the point at which the two agree: a line that closed the fence would start with a run at least as
long as the fence, and the choice has counted that run.
-/

open List hiding splitOn splitOn_ne_nil find?

namespace Reflow.Document

open Text

variable {t : Text} {char : Char} {n : Nat}

/-! ## The lines of a text, with their ends -/

theorem linesWithEnds_append_newline {a : Text} (ha : '\n' ∉ a) (b : Text) :
    linesWithEnds (a ++ '\n' :: b) = (a ++ ['\n']) :: linesWithEnds b := by
  induction a with
  | nil => simp [linesWithEnds]
  | cons c a ih =>
    have hc : c ≠ '\n' := by
      rintro rfl
      simp at ha
    rw [cons_append, linesWithEnds, if_neg hc, ih fun h => ha (by simp [h])]
    rfl

/-- Up to a line feed, the lines with their ends are the lines, each with a line feed after it. -/
theorem linesWithEnds_append (a b : Text) :
    linesWithEnds (a ++ '\n' :: b) = (lines a).map (· ++ ['\n']) ++ linesWithEnds b := by
  have key : ∀ ls : List Text, ls ≠ [] → (∀ l ∈ ls, '\n' ∉ l) →
      linesWithEnds (unlines ls ++ '\n' :: b) = ls.map (· ++ ['\n']) ++ linesWithEnds b := by
    intro ls hne hls
    induction ls with
    | nil => exact absurd rfl hne
    | cons l ls ih =>
      have hl : '\n' ∉ l := hls l (by simp)
      by_cases hnil : ls = []
      · subst hnil
        exact linesWithEnds_append_newline hl b
      · rw [unlines_cons hnil, append_assoc, cons_append,
          linesWithEnds_append_newline hl, ih hnil fun m hm => hls m (by simp [hm])]
        rfl
  have h := key (lines a) (splitOn_ne_nil _ _) fun l hl => newline_not_mem_lines hl
  rwa [unlines_lines] at h

theorem flatten_map_lines (t : Text) : ((lines t).map (· ++ ['\n'])).flatten = t ++ ['\n'] := by
  have key : ∀ ls : List Text, ls ≠ [] → (ls.map (· ++ ['\n'])).flatten = unlines ls ++ ['\n'] := by
    intro ls hne
    induction ls with
    | nil => exact absurd rfl hne
    | cons l ls ih =>
      by_cases hnil : ls = []
      · subst hnil
        simp [unlines, joinWith]
      · rw [map_cons, flatten_cons, ih hnil, unlines_cons hnil]
        simp
  rw [key (lines t) (splitOn_ne_nil _ _), unlines_lines]

/-! ## Line ends -/

/-- The text with a carriage return before a line feed left out, as the reader sees it. -/
def unixEnds (t : Text) : Text := replaceAll ['\r', '\n'] ['\n'] t

theorem unixEnds_nil : unixEnds [] = [] := by
  simp [unixEnds, replaceAll]

theorem unixEnds_pair (t : Text) : unixEnds ('\r' :: '\n' :: t) = '\n' :: unixEnds t := by
  rw [unixEnds, replaceAll]
  simp [unixEnds]

theorem unixEnds_cons {c : Char} (h : ¬ ['\r', '\n'] <+: c :: t) :
    unixEnds (c :: t) = c :: unixEnds t := by
  have hpre : isPrefixOf ['\r', '\n'] (c :: t) = false := by
    rw [← Bool.not_eq_true, isPrefixOf_iff_prefix]
    exact h
  rw [unixEnds, replaceAll, hpre]
  rfl

/-- **A line feed cuts the work in two.** No pair reaches over it. -/
theorem unixEnds_append_newline (a b : Text) :
    unixEnds (a ++ '\n' :: b) = unixEnds (a ++ ['\n']) ++ unixEnds b := by
  have hnewline : ∀ t, unixEnds ('\n' :: t) = '\n' :: unixEnds t := fun t =>
    unixEnds_cons (by simp)
  -- a pair is two characters long, so the induction is on the length
  generalize hlen : a.length = len
  induction len using Nat.strong_induction_on generalizing a with
  | _ len ih =>
    subst hlen
    cases a with
    | nil => simp [hnewline, unixEnds_nil]
    | cons c a =>
      by_cases hpair : ['\r', '\n'] <+: c :: (a ++ ['\n'])
      · obtain ⟨rfl, hrest⟩ : '\r' = c ∧ ['\n'] <+: a ++ ['\n'] := cons_prefix_cons.1 hpair
        cases a with
        | nil => simp [unixEnds_pair, unixEnds_nil]
        | cons d a =>
          obtain ⟨rfl, _⟩ : '\n' = d ∧ [] <+: a ++ ['\n'] := cons_prefix_cons.1 hrest
          simp only [cons_append, unixEnds_pair]
          rw [ih a.length (by simp only [length_cons]; omega) a rfl]
      · have hpair' : ¬ ['\r', '\n'] <+: c :: (a ++ '\n' :: b) := by
          intro h
          obtain ⟨rfl, hrest⟩ : '\r' = c ∧ ['\n'] <+: a ++ '\n' :: b := cons_prefix_cons.1 h
          refine hpair (cons_prefix_cons.2 ⟨rfl, ?_⟩)
          cases a with
          | nil => simp
          | cons d a => simpa using hrest
        rw [cons_append, cons_append, unixEnds_cons hpair, unixEnds_cons hpair',
          ih a.length (by simp) a rfl]
        rfl

theorem unixEnds_of_no_pair (h : ¬ ['\r', '\n'] <:+: t) : unixEnds t = t := by
  induction t with
  | nil => exact unixEnds_nil
  | cons c t ih =>
    rw [unixEnds_cons fun hpre => h hpre.isInfix, ih fun hin => h (infix_cons hin)]

theorem exists_unixEnds_line {l : Text} (hl : '\n' ∉ l) :
    ∃ l', '\n' ∉ l' ∧ unixEnds (l ++ ['\n']) = l' ++ ['\n'] := by
  induction l with
  | nil => exact ⟨[], by simp, unixEnds_of_no_pair (by decide)⟩
  | cons c l ih =>
    have hc : '\n' ≠ c := by
      rintro rfl
      simp at hl
    obtain ⟨l', hl', heq⟩ := ih fun h => hl (by simp [h])
    by_cases hpair : ['\r', '\n'] <+: c :: (l ++ ['\n'])
    · -- the pair is the end of the line
      obtain ⟨rfl, hrest⟩ : '\r' = c ∧ ['\n'] <+: l ++ ['\n'] := cons_prefix_cons.1 hpair
      have hnil : l = [] := by
        cases l with
        | nil => rfl
        | cons d l =>
          obtain ⟨rfl, _⟩ : '\n' = d ∧ [] <+: l ++ ['\n'] := cons_prefix_cons.1 hrest
          exact absurd (by simp) hl
      subst hnil
      exact ⟨[], by simp, (unixEnds_pair []).trans (by rw [unixEnds_nil]; rfl)⟩
    · refine ⟨c :: l', by simp [hc, hl'], ?_⟩
      rw [cons_append, unixEnds_cons hpair, heq]
      rfl

theorem not_pair_append_newline (h : ¬ ['\r', '\n'] <:+: t) (hend : t.getLast? ≠ some '\r') :
    ¬ ['\r', '\n'] <:+: t ++ ['\n'] := by
  rintro ⟨a, b, hab⟩
  rcases eq_nil_or_concat' b with rfl | ⟨b, d, rfl⟩
  · have ht : a ++ ['\r'] = t := by
      have heq : (a ++ ['\r']) ++ ['\n'] = t ++ ['\n'] := by simpa using hab
      exact append_cancel_right heq
    rw [← ht] at hend
    simp at hend
  · have ht : a ++ ['\r', '\n'] ++ b = t := by
      rw [← append_assoc] at hab
      exact (append_inj' hab rfl).1
    exact h ⟨a, b, ht⟩

/-! ## Which lines close a fence -/

/-- The line closes the fence: it is a run, and the fence is part of that run. -/
def closesFence (fence line : Text) : Bool := (fenceOfLine? line).any fun run => includes run fence

theorem isInfix_of_includes {t s : Text} (h : includes t s) : s <:+: t := by
  obtain ⟨⟨before, after⟩, hcut⟩ := Option.isSome_iff_exists.1 h
  exact ⟨before, after, (cut?_eq_append hcut).symm⟩

theorem includes_self {s : Text} : includes s s := by
  cases s with
  | nil => rfl
  | cons c s => simp [includes, cut?, isPrefixOf_iff_prefix]

theorem dropSpaces_append_newline (n : Nat) (l : Text) :
    dropSpaces n (l ++ ['\n']) = dropSpaces n l ++ ['\n'] := by
  fun_induction dropSpaces n l with
  | case1 n cs ih => exact ih
  | case2 n t h =>
    unfold dropSpaces
    split
    · next n cs heq =>
      cases t with
      | nil => simp at heq
      | cons c t =>
        obtain ⟨rfl, _⟩ := cons.inj heq
        exact absurd rfl (h n t rfl)
    · rfl

theorem length_le_fenceRun {l : Text} (hn : 0 < n) (hchar : char ≠ '\n')
    (h : closesFence (repeated n char) (l ++ ['\n'])) : n ≤ fenceRun char l := by
  unfold closesFence fenceOfLine? at h
  rw [dropSpaces_append_newline] at h
  unfold fenceRun
  cases hl : dropSpaces 3 l with
  | nil => rw [hl] at h; simp at h
  | cons c cs =>
    rw [hl] at h
    simp only [cons_append] at h
    split at h
    · next hc =>
      -- whatever follows the run, the answer is the run or none
      have hrun : includes ((c :: (cs ++ ['\n'])).takeWhile (· == c)) (repeated n char) := by
        split at h
        · simpa using h
        · split at h
          · simpa using h
          · simp at h
      have hin := isInfix_of_includes hrun
      obtain rfl : char = c := by
        have hmem : char ∈ repeated n char := mem_replicate.2 ⟨by omega, rfl⟩
        have := mem_takeWhile_imp (hin.subset hmem)
        simpa using this
      have hlen := hin.length_le
      have hstop : ∀ u : Text,
          (u ++ ['\n']).takeWhile (· == char) = u.takeWhile (· == char) := by
        intro u
        induction u with
        | nil => simp [Ne.symm hchar]
        | cons d u ih => rw [cons_append, takeWhile_cons, takeWhile_cons, ih]
      rw [← cons_append, hstop, repeated, length_replicate] at hlen
      exact hlen
    · simp at h

theorem fenceRun_le_longestFence {code l : Text} (hl : l ∈ lines code)
    (hmin : minFence ≤ fenceRun char l) : fenceRun char l ≤ longestFence char code := by
  -- the longest run so far never gets shorter
  have hstep : ∀ (ns : List Nat) (m : Nat),
      m ≤ ns.foldl (fun m n => if minFence ≤ n then max m n else m) m := by
    intro ns
    induction ns with
    | nil => exact fun m => Nat.le_refl m
    | cons n ns ih =>
      intro m
      refine Nat.le_trans ?_ (ih _)
      dsimp only
      split
      · exact Nat.le_max_left m n
      · exact Nat.le_refl m
  have hrun : ∀ (ns : List Nat) (m n : Nat), n ∈ ns → minFence ≤ n →
      n ≤ ns.foldl (fun m n => if minFence ≤ n then max m n else m) m := by
    intro ns
    induction ns with
    | nil => simp
    | cons k ns ih =>
      intro m n hn hle
      rcases mem_cons.1 hn with rfl | hn
      · refine Nat.le_trans ?_ (hstep ns _)
        dsimp only
        rw [if_pos hle]
        exact Nat.le_max_right m n
      · exact ih _ n hn hle
  exact hrun _ 0 _ (mem_map_of_mem hl) hmin

/-- **No line of the code closes a fence that is long enough.** The run that would close it has been
counted in the least length. -/
theorem not_closesFence (hchar : char ≠ '\n') {code l : Text} (hl : l ∈ lines code)
    (hn : minFenceLength char code ≤ n) : closesFence (repeated n char) (l ++ ['\n']) = false := by
  rw [← Bool.not_eq_true]
  intro hcloses
  have hmin : minFence ≤ n := Nat.le_trans (Nat.le_max_left ..) hn
  have hlonger : longestFence char code + 1 ≤ n := Nat.le_trans (Nat.le_max_right ..) hn
  have hpos : 0 < n := Nat.lt_of_lt_of_le (by decide) hmin
  have hle : n ≤ fenceRun char l := length_le_fenceRun hpos hchar hcloses
  have hcounted := fenceRun_le_longestFence hl (Nat.le_trans hmin hle)
  omega

theorem closesFence_self (hchar : char = '`' ∨ char = '~') (hn : 0 < n) :
    closesFence (repeated n char) (repeated n char ++ ['\n']) := by
  have hspace : char ≠ ' ' := by rcases hchar with rfl | rfl <;> decide
  have hnewline : ('\n' == char) = false := by rcases hchar with rfl | rfl <;> decide
  have hrun : ∀ k : Nat, (replicate k char ++ ['\n']).takeWhile (· == char)
      = replicate k char ∧
      (replicate k char ++ ['\n']).dropWhile (· == char) = ['\n'] := by
    intro k
    induction k with
    | zero => simp [hnewline]
    | succ k ih => simpa [replicate_succ] using ih
  obtain ⟨k, rfl⟩ : ∃ k, n = k + 1 := ⟨n - 1, by omega⟩
  have hfence : fenceOfLine? (repeated (k + 1) char ++ ['\n']) = some (repeated (k + 1) char) := by
    have hdrop : dropSpaces 3 (repeated (k + 1) char ++ ['\n']) = repeated (k + 1) char ++ ['\n'] := by
      unfold dropSpaces
      split
      · next cs heq =>
        obtain ⟨rfl, _⟩ : char = ' ' ∧ _ := by simpa [repeated, replicate_succ] using heq
        exact absurd rfl hspace
      · rfl
    obtain ⟨htake, hafter⟩ := hrun (k + 1)
    have hguard : (char == '~' || char == '`') := by rcases hchar with rfl | rfl <;> decide
    unfold fenceOfLine?
    rw [hdrop]
    simp only [repeated, replicate_succ, cons_append] at htake hafter ⊢
    simp [hguard, htake, hafter]
  rw [closesFence, hfence]
  exact includes_self

/-! ## Reading -/

theorem removeIndent_nil (line : Text) : removeIndent [] line = line := by
  simp [removeIndent, startsWith, charactersOfWidth, range_succ_eq_map]

/-- **Reading lines of code.** Lines that do not close the fence are code; the first one that does
ends it, and is read too. -/
theorem codeLines_append {fence closing : Text} {ls : List Text}
    (hls : ∀ l ∈ ls, closesFence fence l = false) (hclosing : closesFence fence closing)
    (rest : List Text) :
    codeLines [] fence (ls ++ closing :: rest) = (ls, (ls ++ [closing]).flatten.length) := by
  unfold closesFence at hls hclosing
  induction ls with
  | nil =>
    rw [nil_append, codeLines, if_pos hclosing]
    simp
  | cons l ls ih =>
    have hl := hls l (by simp)
    rw [cons_append, codeLines, if_neg (by simp [hl]), ih fun m hm => hls m (by simp [hm]),
      removeIndent_nil]
    simp

/-! ## Writing -/

/-- The fence that is written around code. -/
def chosenFence (fence : Fence) (code : Text) : Text :=
  repeated (max fence.length (minFenceLength fence.char (dropEndNewlines code))) fence.char

/-- The lines that are written between the fences. -/
def writtenLines (indent code : Text) : List Text :=
  (splitLines (dropEndNewlines code)).map (codeLine indent)

/-- A block of code as it is written: opening fence, lines of code, closing fence. -/
def fencedText (info : FenceInfo) (mark lead indent : Text) (body : List Text) : Text :=
  unlines ((lead ++ mark ++ infoLine info) :: body ++ [indent ++ mark]) ++ ['\n']

theorem writeCode_eq (info : FenceInfo) (fence : Fence) (code : Text) (s : WriterState) :
    (writeCode info fence code s).1
      = fencedText info (chosenFence fence code) s.lead s.indent (writtenLines s.indent code) := rfl

/-- The source of a fenced block: its opening line, the code, and the closing fence on a line of its
own. -/
def blockSource (opening code fence : Text) : Text :=
  opening ++ '\n' :: (code ++ '\n' :: (fence ++ ['\n']))

section Block

variable {char : Char} (hchar : char = '`' ∨ char = '~') {opening code : Text}
  (hopening : '\n' ∉ opening) (hpair : ¬ ['\r', '\n'] <:+: code)
  (hend : code.getLast? ≠ some '\r')
include hchar hopening hpair hend

/-- The line feeds of a block cut its source in opening line, code and closing fence; of these only
the opening line may lose a carriage return. -/
theorem unixEnds_blockSource (n : Nat) :
    ∃ first, '\n' ∉ first ∧ ∀ after, unixEnds (blockSource opening code (repeated n char) ++ after)
      = first ++ '\n' :: (code ++ '\n' :: (repeated n char ++ '\n' :: unixEnds after)) := by
  obtain ⟨first, hfirst, hline⟩ := exists_unixEnds_line hopening
  refine ⟨first, hfirst, fun after => ?_⟩
  have hcode : unixEnds (code ++ ['\n']) = code ++ ['\n'] :=
    unixEnds_of_no_pair (not_pair_append_newline hpair hend)
  have hmark : unixEnds (repeated n char ++ ['\n']) = repeated n char ++ ['\n'] := by
    refine unixEnds_of_no_pair fun h => ?_
    have hmem : '\r' ∈ repeated n char ++ ['\n'] := h.subset (by simp)
    rcases mem_append.1 hmem with hmem | hmem
    · rw [← (mem_replicate.1 hmem).2] at hchar
      simp at hchar
    · simp at hmem
  have hsource : blockSource opening code (repeated n char) ++ after
      = opening ++ '\n' :: (code ++ '\n' :: (repeated n char ++ '\n' :: after)) := by
    simp [blockSource]
  rw [hsource, unixEnds_append_newline opening, unixEnds_append_newline code,
    unixEnds_append_newline (repeated n char), hline, hcode, hmark]
  simp

/-- **Reading a block.** The code is what stands before the first line that closes the fence, and
that is the closing fence itself. -/
theorem read_blockSource {n : Nat} (hn : minFenceLength char code ≤ n) (info : FenceInfo)
    (rest : Text) :
    FenceOpening.read ⟨[], repeated n char, info⟩
        (blockSource opening code (repeated n char) ++ rest)
      = ⟨code ++ ['\n'], (unixEnds (blockSource opening code (repeated n char))).length⟩ := by
  have hnewline : char ≠ '\n' := by rcases hchar with rfl | rfl <;> decide
  have hpos : 0 < n := Nat.lt_of_lt_of_le (by decide) (Nat.le_trans (Nat.le_max_left ..) hn)
  have hfence : '\n' ∉ repeated n char := fun h => hnewline (mem_replicate.1 h).2.symm
  have hbody : ∀ l ∈ (lines code).map (· ++ ['\n']), closesFence (repeated n char) l = false := by
    intro l hl
    obtain ⟨u, hu, rfl⟩ := mem_map.1 hl
    exact not_closesFence hnewline hu hn
  obtain ⟨first, hfirst, hblock⟩ := unixEnds_blockSource hchar hopening hpair hend n
  -- where reading stops: the opening line, the code with its line feed, and the closing fence
  have hlength : (unixEnds (blockSource opening code (repeated n char))).length
      = first.length + 1 + ((code ++ ['\n']).length + (n + 1)) := by
    have h := congrArg length (hblock [])
    rw [append_nil, unixEnds_nil] at h
    rw [h]
    simp only [repeated, length_append, length_cons, length_replicate,
      length_nil]
    omega
  unfold FenceOpening.read
  rw [← unixEnds, hblock rest, linesWithEnds_append_newline hfirst, linesWithEnds_append,
    linesWithEnds_append_newline hfence]
  dsimp only
  rw [codeLines_append hbody (closesFence_self hchar hpos), flatten_append, flatten_map_lines,
    hlength]
  simp only [repeated, flatten_singleton, length_append, length_cons,
    length_nil, length_replicate]

end Block

/-- **A written fence is read back whole.** Code without a carriage return before a line feed or at
its end, in a fence of backticks or tildes that has the least length or more, is read back exactly,
and reading stops right after the closing fence, whatever follows. So no line of the code closes the
fence that is written around it, however long the fence was before. -/
theorem written_fence_read_back {char : Char} (hchar : char = '`' ∨ char = '~') {code : Text}
    (hpair : ¬ ['\r', '\n'] <:+: code) (hend : code.getLast? ≠ some '\r') {n : Nat}
    (hn : minFenceLength char code ≤ n) (info : FenceInfo) {opening : Text}
    (hopening : '\n' ∉ opening) (rest : Text) :
    FenceOpening.read ⟨[], repeated n char, info⟩
          (blockSource opening code (repeated n char) ++ rest)
        = ⟨code ++ ['\n'], (unixEnds (blockSource opening code (repeated n char))).length⟩ ∧
      unixEnds (blockSource opening code (repeated n char) ++ rest)
        = unixEnds (blockSource opening code (repeated n char)) ++ unixEnds rest ∧
      ∀ (length : Nat) (s : WriterState),
        (writeCode info ⟨char, length⟩ code s).1
            = fencedText info (chosenFence ⟨char, length⟩ code) s.lead s.indent
              (writtenLines s.indent code) ∧
          ∀ line ∈ lines (dropEndNewlines code),
            closesFence (chosenFence ⟨char, length⟩ code) (line ++ ['\n']) = false := by
  have hnewline : char ≠ '\n' := by rcases hchar with rfl | rfl <;> decide
  refine ⟨read_blockSource hchar hopening hpair hend hn info rest, ?_,
    fun length s => ⟨writeCode_eq info _ code s, fun line hl => ?_⟩⟩
  · obtain ⟨first, _, hblock⟩ := unixEnds_blockSource hchar hopening hpair hend n
    have hwhole := hblock []
    rw [append_nil, unixEnds_nil] at hwhole
    rw [hblock rest, hwhole]
    simp
  · exact not_closesFence hnewline hl (Nat.le_max_right ..)

/-- Code that is itself a fence of three backticks needs one of four, and is read back from it. -/
theorem fence_in_fence_read_back :
    minFenceLength '`' ['`', '`', '`'] ≤ 4 ∧
      FenceOpening.read ⟨[], repeated 4 '`', ⟨[], []⟩⟩
          (blockSource ['`', '`', '`', '`'] ['`', '`', '`'] (repeated 4 '`') ++ ['a'])
        = ⟨['`', '`', '`', '\n'], 14⟩ := by
  refine ⟨by decide, ?_⟩
  have h := (@written_fence_read_back '`' (.inl rfl) ['`', '`', '`'] (by decide) (by decide) 4
    (by decide) ⟨[], []⟩ ['`', '`', '`', '`'] (by decide) ['a']).1
  rw [h, unixEnds_of_no_pair (by decide)]
  rfl

/-! ## Code between the fences -/

/-- The lines of code with nothing changed but that each starts as the lines of the block do. -/
def verbatimLines (indent code : Text) : List Text :=
  if dropEndNewlines code = [] then []
  else (lines (dropEndNewlines code)).map (codeLine indent)

/-- The kinds of node that hold code, with what stands on the opening line and the fence they were
written with. -/
def codeFence? : Kind → Option (FenceInfo × Fence)
  | .indentedCode => some (⟨[], []⟩, defaultFence)
  | .fencedCode info => some (info, defaultFence)
  | .fencedBlock info fence => some (info, fence)
  | _ => none

theorem write_code (w : Writer) {h : Head} {info : FenceInfo} {fence : Fence}
    (hkind : codeFence? h.kind = some (info, fence)) (children : List Node) (s : WriterState) :
    write w (.branch h children) s = writeCode info fence (codeOf children) s := by
  rw [write]
  cases hk : h.kind <;> rw [hk] at hkind <;> simp_all [codeFence?]

theorem codeLine_injective (indent : Text) : Function.Injective (codeLine indent) := by
  have hlonger : ∀ l : Text, l ≠ [] → stripRight indent ≠ indent ++ l := by
    intro l hl heq
    obtain ⟨g, _, hg⟩ := exists_stripRight indent
    have h₁ := congrArg length heq
    have h₂ := congrArg length hg
    have h₃ := length_pos_iff.2 hl
    rw [length_append] at h₁ h₂
    omega
  intro l m heq
  unfold codeLine at heq
  by_cases hl : l = [] <;> by_cases hm : m = []
  · rw [hl, hm]
  · simp only [hl, isEmpty_nil, if_true] at heq
    rw [if_neg (by simpa using hm)] at heq
    exact absurd heq (hlonger m hm)
  · simp only [hm, isEmpty_nil, if_true] at heq
    rw [if_neg (by simpa using hl)] at heq
    exact absurd heq.symm (hlonger l hl)
  · rw [if_neg (by simpa using hl), if_neg (by simpa using hm)] at heq
    exact append_cancel_left heq

theorem not_isLineBreak_of_mem_splitLines {t l : Text} (hl : l ∈ splitLines t) :
    ∀ c ∈ l, isLineBreak c = false := by
  fun_induction splitLines t generalizing l with
  | case1 => simp at hl
  | case2 cs ih =>
    rcases mem_cons.1 hl with rfl | hl
    · simp
    · exact ih hl
  | case3 c cs _ hc ih =>
    rcases mem_cons.1 hl with rfl | hl
    · simp
    · exact ih hl
  | case4 c cs _ hc hnil ih =>
    obtain rfl : l = [c] := by simpa using hl
    simpa using hc
  | case5 c cs _ hc line rest hcons ih =>
    rcases mem_cons.1 hl with rfl | hl
    · intro d hd
      rcases mem_cons.1 hd with rfl | hd
      · simpa using hc
      · exact ih (l := line) (by rw [hcons]; simp) d hd
    · exact ih (by rw [hcons]; simp [hl])

/-- Where the line feed is the only line break, and not the last character, cutting at line breaks
is cutting at line feeds. -/
theorem splitLines_eq_lines (hbreaks : ∀ c ∈ t, isLineBreak c → c = '\n') (hne : t ≠ [])
    (hend : t.getLast? ≠ some '\n') : splitLines t = lines t := by
  have hplain : ∀ c : Char, ¬ isLineBreak c → c ≠ '\n' := by
    rintro c hc rfl
    exact hc (by decide)
  unfold lines
  fun_induction splitLines t with
  | case1 => exact absurd rfl hne
  | case2 cs ih => exact absurd (hbreaks '\r' (by simp) (by decide)) (by decide)
  | case3 c cs _ hc ih =>
    obtain rfl : c = '\n' := hbreaks c (by simp) hc
    have hcs : cs ≠ [] := by
      rintro rfl
      simp at hend
    rw [splitOn, if_pos rfl, ih (fun d hd => hbreaks d (by simp [hd])) hcs]
    rwa [getLast?_cons_of_ne_nil hcs] at hend
  | case4 c cs _ hc hnil ih =>
    have hcs : cs = [] := by
      by_contra hcs
      rw [getLast?_cons_of_ne_nil hcs] at hend
      have := ih (fun d hd => hbreaks d (by simp [hd])) hcs hend
      rw [hnil] at this
      exact splitOn_ne_nil _ _ this.symm
    subst hcs
    simp [splitOn, hplain c hc]
  | case5 c cs _ hc line rest hcons ih =>
    have hcs : cs ≠ [] := by
      rintro rfl
      simp [splitLines] at hcons
    rw [getLast?_cons_of_ne_nil hcs] at hend
    rw [splitOn, if_neg (hplain c hc), ← ih (fun d hd => hbreaks d (by simp [hd])) hcs hend, hcons]

theorem getLast?_dropEndWhile (p : Char → Bool) (t : Text) :
    ∀ c ∈ (dropEndWhile p t).getLast?, p c = false := by
  induction t using reverseRecOn with
  | nil => simp [dropEndWhile]
  | append_singleton t d ih =>
    by_cases hd : p d
    · rwa [dropEndWhile_append (by simpa using hd)]
    · have hd : p d = false := by simpa using hd
      rw [dropEndWhile_concat hd]
      simpa using hd

/-- **What is written between the fences.** The lines of code are written as they are if and only if
the code, without the line feeds at its end, has no line break but the line feed. -/
theorem writtenLines_eq_iff (indent code : Text) :
    writtenLines indent code = verbatimLines indent code ↔
      ∀ c ∈ dropEndNewlines code, isLineBreak c → c = '\n' := by
  have hend : (dropEndNewlines code).getLast? ≠ some '\n' := by
    intro h
    have := getLast?_dropEndWhile (· == '\n') code '\n' h
    simp at this
  unfold writtenLines verbatimLines
  by_cases hbody : dropEndNewlines code = []
  · simp [hbody, splitLines]
  rw [if_neg hbody, (map_injective_iff.2 (codeLine_injective indent)).eq_iff]
  constructor
  · intro heq c hc hbreak
    -- a character of the code is a line feed or stands in a line, where no line break stands
    rw [← unlines_lines (dropEndNewlines code)] at hc
    rcases mem_joinWith hc with hc | ⟨l, hl, hcl⟩
    · simpa using hc
    · rw [← heq] at hl
      rw [not_isLineBreak_of_mem_splitLines hl c hcl] at hbreak
      simp at hbreak
  · intro hbreaks
    exact splitLines_eq_lines hbreaks hbody hend

theorem splitLines_ne_nil (ht : t ≠ []) : splitLines t ≠ [] := by
  fun_cases splitLines t <;> simp_all

theorem newline_not_mem_codeLine {indent l : Text} (hindent : '\n' ∉ indent) (hl : '\n' ∉ l) :
    '\n' ∉ codeLine indent l := by
  unfold codeLine
  split
  · obtain ⟨g, _, hg⟩ := exists_stripRight indent
    exact fun h => hindent (hg ▸ mem_append_left g h)
  · simp [hindent, hl]

theorem fencedText_inj {info : FenceInfo} {mark lead indent : Text} {body body' : List Text}
    (hbody : ∀ l ∈ body, '\n' ∉ l) (hbody' : ∀ l ∈ body', '\n' ∉ l)
    (hnil : body = [] ↔ body' = []) :
    fencedText info mark lead indent body = fencedText info mark lead indent body' ↔
      body = body' := by
  constructor
  · intro heq
    by_cases hne : body = []
    · rw [hne, hnil.1 hne]
    have hne' : body' ≠ [] := fun h => hne (hnil.2 h)
    have hparts : ∀ b : List Text, b ≠ [] → fencedText info mark lead indent b
        = (lead ++ mark ++ infoLine info) ++ '\n' :: (unlines b ++ '\n' :: (indent ++ mark) ++ ['\n']) := by
      intro b hb
      rw [fencedText, cons_append, unlines_cons (by simp), unlines,
        joinWith_append hb (by simp), ← unlines]
      simp [joinWith]
    rw [hparts body hne, hparts body' hne'] at heq
    have hlines : unlines body = unlines body' := by simpa using heq
    rw [← lines_unlines hne hbody, ← lines_unlines hne' hbody', hlines]
  · rintro rfl
    rfl

/-- **Code is written as it is exactly when the line feed is its only line break.** For every node
that holds code, every writer and every state, the lines between the fences are those of the code,
each with the start of line that holds there, if and only if the code has no line break but the line
feed; and where that start has no line feed in it, the same goes for the whole text of the block. -/
theorem code_written_verbatim_iff (w : Writer) {h : Head} {info : FenceInfo} {fence : Fence}
    (hkind : codeFence? h.kind = some (info, fence)) (children : List Node) (s : WriterState) :
    (write w (.branch h children) s).1
        = fencedText info (chosenFence fence (codeOf children)) s.lead s.indent
          (writtenLines s.indent (codeOf children)) ∧
      (writtenLines s.indent (codeOf children) = verbatimLines s.indent (codeOf children) ↔
        ∀ c ∈ dropEndNewlines (codeOf children), isLineBreak c = true → c = '\n') ∧
      ('\n' ∉ s.indent →
        ((write w (.branch h children) s).1
            = fencedText info (chosenFence fence (codeOf children)) s.lead s.indent
              (verbatimLines s.indent (codeOf children)) ↔
          ∀ c ∈ dropEndNewlines (codeOf children), isLineBreak c = true → c = '\n')) := by
  have hwrite : (write w (.branch h children) s).1
      = fencedText info (chosenFence fence (codeOf children)) s.lead s.indent
        (writtenLines s.indent (codeOf children)) := by
    rw [write_code w hkind]
    exact writeCode_eq info fence _ s
  refine ⟨hwrite, writtenLines_eq_iff _ _, fun hindent => ?_⟩
  rw [hwrite, fencedText_inj ?_ ?_ ?_, writtenLines_eq_iff]
  · intro l hl
    obtain ⟨u, hu, rfl⟩ := mem_map.1 hl
    refine newline_not_mem_codeLine hindent fun hmem => ?_
    have := not_isLineBreak_of_mem_splitLines hu _ hmem
    exact absurd this (by decide)
  · intro l hl
    unfold verbatimLines at hl
    split at hl
    · simp at hl
    · obtain ⟨u, hu, rfl⟩ := mem_map.1 hl
      exact newline_not_mem_codeLine hindent (newline_not_mem_lines hu)
  · unfold writtenLines verbatimLines
    by_cases hbody : dropEndNewlines (codeOf children) = []
    · simp [hbody, splitLines]
    · simp [hbody, splitLines_ne_nil hbody, lines, splitOn_ne_nil]

/-- Indented code of two lines, inside a quote. -/
theorem quoted_code_written_verbatim :
    codeFence? .indentedCode = some (⟨[], []⟩, defaultFence) ∧
      (write { wrap := fun t _ => t } (.branch ⟨.indentedCode, none⟩
          [.text ⟨.rawText, none⟩ ['a', '\n', '\n', 'b', '\n']])
          { lead := ['>', ' '], indent := ['>', ' '] }).1
        = fencedText ⟨[], []⟩ ['`', '`', '`'] ['>', ' '] ['>', ' ']
          [['>', ' ', 'a'], ['>'], ['>', ' ', 'b']] :=
  ⟨rfl, ((code_written_verbatim_iff { wrap := fun t _ => t } (h := ⟨.indentedCode, none⟩) rfl
    [.text ⟨.rawText, none⟩ ['a', '\n', '\n', 'b', '\n']]
    { lead := ['>', ' '], indent := ['>', ' '] }).2.2 (by decide)).2 fun c hc => by
      have hall : (['a', '\n', '\n', 'b'].all fun c => !isLineBreak c || c == '\n') = true := by decide
      simpa [imp_iff_not_or] using all_eq_true.1 hall c hc⟩

/-- A form feed in code becomes the end of a line. -/
theorem form_feed_in_code_lost :
    (write { wrap := fun t _ => t } (.branch ⟨.indentedCode, none⟩
        [.text ⟨.rawText, none⟩ ['a', '\x0c', 'b', '\n']]) {}).1
      = ['`', '`', '`', '\n', 'a', '\n', 'b', '\n', '`', '`', '`', '\n'] ∧
    fencedText ⟨[], []⟩ ['`', '`', '`'] [] [] (verbatimLines [] ['a', '\x0c', 'b', '\n'])
      = ['`', '`', '`', '\n', 'a', '\x0c', 'b', '\n', '`', '`', '`', '\n'] := by
  decide +kernel

end Reflow.Document
