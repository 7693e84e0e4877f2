import Mathlib.Data.List.Forall2
import Reflow.Arguments

/-!
Reading arguments with a grammar and with a part of it.

What a reading takes from an argument is a row of options: the one that the argument starts with,
and those that are joined to it. A *part* of a grammar knows some of its options, maybe takes more
values for them, and lets everything else pass. Where both readings go through, the part takes the
same rows as the grammar, without those that start with an option it does not know (`Part.keys_eq`).
-/

open List

namespace Reflow.Arguments

variable {κ : Type}

theorem exists_of_bind {ε α β : Type} {x : Except ε α} {f : α → Except ε β} {b : β}
    (h : x >>= f = .ok b) : ∃ a, x = .ok a ∧ f a = .ok b := by
  cases x with
  | error e => cases h
  | ok a => exact ⟨a, rfl, h⟩

theorem Parsed.has_iff [BEq κ] [LawfulBEq κ] (p : Parsed κ) (k : κ) :
    p.has k ↔ k ∈ p.given.map Prod.fst := by
  simp [has, all]

/-! ## Rows of options -/

/-- The options that one argument gives, with the value after it if the last one waits for it. -/
structure Row (κ : Type) where
  /-- The option that the argument starts with. -/
  first : Spec κ
  options : List (Spec κ × Option Text)

/-- What the options of a row are known as inside. -/
def Row.keys (r : Row κ) : List κ := r.options.map fun o => o.1.key

namespace Grammar

/-- The rows that are read out of tokens. Words and strangers give none. -/
inductive Reads (g : Grammar κ) : List (Token κ) → List (Row κ) → Prop where
  | nil : Reads g [] []
  | word {ts rs} (t : Text) : Reads g ts rs → Reads g (.word t :: ts) rs
  | dashes {ts rs} : Reads g ts rs → Reads g (.dashes :: ts) rs
  | stranger {ts rs} (t : Text) : Reads g ts rs → Reads g (.stranger t :: ts) rs
  | complete {ts rs s name attached b} : g.readOption s name attached = .ok b → b.waiting = none →
      Reads g ts rs → Reads g (.option s name attached :: ts) (⟨s, b.complete⟩ :: rs)
  | waiting {ts rs s name attached b last} (v : Text) : g.readOption s name attached = .ok b →
      b.waiting = some last → Reads g ts rs →
      Reads g (.option s name attached :: .word v :: ts) (⟨s, b.complete ++ [(last, some v)]⟩ :: rs)

variable {g : Grammar κ} {ts : List (Token κ)} {rs : List (Row κ)} {s : Spec κ} {v n a name : Text}
  {attached : Option Text}

theorem Reads.of_drop (h : g.Reads (ts.drop (leadingWords ts).length) rs) : g.Reads ts rs := by
  induction ts with
  | nil => exact h
  | cons t ts ih =>
    cases t with
    | word w => exact .word w (ih h)
    | dashes => exact .dashes (ih h)
    | option s name attached => exact h
    | stranger w => exact h

section Take

variable [BEq κ] {g : Grammar κ}

theorem note_given {s : Spec κ} {v : Given} {p q : Parsed κ} (h : g.note s v p = .ok q) :
    q.given = p.given ++ [(s.key, v)] := by
  simp only [note] at h
  split at h
  · cases h
  · cases h; rfl

theorem noteAll_given {options : List (Spec κ × Option Text)} {p q : Parsed κ}
    (h : g.noteAll p options = .ok q) :
    q.given.map Prod.fst = p.given.map Prod.fst ++ options.map fun o => o.1.key := by
  induction options generalizing p with
  | nil => cases h; simp
  | cons o options ih =>
    obtain ⟨v, -, h⟩ := exists_of_bind h
    obtain ⟨p', hnote, h⟩ := exists_of_bind h
    rw [ih h, note_given hnote]
    simp

theorem take_option {isFirst : Bool} {s : Spec κ} {name : Text} {attached : Option Text}
    {ts : List (Token κ)} {p q : Parsed κ}
    (h : g.take isFirst p (.option s name attached :: ts) = .ok q) :
    ∃ b, g.readOption s name attached = .ok b ∧
      ((b.waiting = none ∧ ∃ p', g.noteAll p b.complete = .ok p' ∧ g.take isFirst p' ts = .ok q) ∨
        ∃ last v rest p', b.waiting = some last ∧ ts = .word v :: rest ∧
          g.noteAll p (b.complete ++ [(last, some v)]) = .ok p' ∧
          g.take isFirst p' rest = .ok q) := by
  rw [take] at h
  obtain ⟨b, hb, hrun⟩ := exists_of_bind h
  refine ⟨b, hb, ?_⟩
  split at hrun
  · next hwaiting =>
    obtain ⟨p', hp', htake⟩ := exists_of_bind hrun
    exact .inl ⟨hwaiting, p', hp', htake⟩
  · next last hwaiting =>
    split at hrun
    · next v rest =>
      obtain ⟨p', hp', htake⟩ := exists_of_bind hrun
      exact .inr ⟨last, v, rest, p', hwaiting, rfl, hp', htake⟩
    · cases hrun

omit [BEq κ] in
theorem addWords_given (isFirst : Bool) (ws : List Text) (p : Parsed κ) :
    (g.addWords isFirst ws p).given = p.given := by
  unfold addWords
  split <;> rfl

theorem exists_reads {isFirst : Bool} {ts : List (Token κ)} {p q : Parsed κ}
    (h : g.take isFirst p ts = .ok q) :
    ∃ rs, g.Reads ts rs ∧ q.given.map Prod.fst = p.given.map Prod.fst ++ rs.flatMap Row.keys := by
  -- the recursion is that of `take`: words go with all words right after them, and an option may take
  -- the next token as its value
  match ts with
  | [] =>
    rw [take] at h
    cases h
    exact ⟨[], .nil, by simp⟩
  | .stranger t :: ts =>
    rw [take] at h
    obtain ⟨rs, hrs, hgiven⟩ := exists_reads h
    exact ⟨rs, .stranger t hrs, hgiven⟩
  | .word t :: ts =>
    rw [take] at h
    obtain ⟨rs, hrs, hgiven⟩ := exists_reads h
    exact ⟨rs, .word t hrs.of_drop, by rw [hgiven, addWords_given]⟩
  | .dashes :: ts =>
    rw [take] at h
    obtain ⟨rs, hrs, hgiven⟩ := exists_reads h
    exact ⟨rs, .dashes hrs.of_drop, by rw [hgiven, addWords_given]⟩
  | .option s name attached :: ts =>
    obtain ⟨b, hb, ⟨hwaiting, p', hp', htake⟩ | ⟨last, v, rest, p', hwaiting, hts, hp', htake⟩⟩ :=
      take_option h
    · obtain ⟨rs, hrs, hgiven⟩ := exists_reads htake
      refine ⟨_, .complete hb hwaiting hrs, ?_⟩
      rw [hgiven, noteAll_given hp', flatMap_cons, append_assoc, Row.keys]
    · subst hts
      obtain ⟨rs, hrs, hgiven⟩ := exists_reads htake
      refine ⟨_, .waiting v hb hwaiting hrs, ?_⟩
      rw [hgiven, noteAll_given hp', flatMap_cons, append_assoc, Row.keys]
termination_by ts.length
decreasing_by all_goals (subst_vars; simp; try omega)

theorem exists_reads_of_parseKnown {arguments : List Text} {p : Parsed κ}
    (h : g.parseKnown arguments = .ok p) :
    ∃ ts rs, g.tokens arguments = .ok ts ∧ g.Reads ts rs ∧
      p.given.map Prod.fst = rs.flatMap Row.keys := by
  obtain ⟨ts, hts, htake⟩ := exists_of_bind h
  obtain ⟨rs, hrs, hgiven⟩ := exists_reads htake
  exact ⟨ts, rs, hts, hrs, hgiven⟩

theorem parseKnown_of_parse {arguments : List Text} {p : Parsed κ} (h : g.parse arguments = .ok p) :
    g.parseKnown arguments = .ok p := by
  obtain ⟨q, hq, hrest⟩ := exists_of_bind h
  split at hrest
  · cases hrest
    exact hq
  · cases hrest

end Take

theorem bare_of_value (h : s.kind ≠ .flag) : bare s = { waiting := some s } := by
  unfold bare
  split
  · next hflag => exact absurd hflag h
  · rfl

theorem unbundle_of_value (h : s.kind ≠ .flag) (isShort : Bool) (v : Text) :
    g.unbundle s isShort v = .ok { complete := [(s, some v)] } := by
  cases v with
  | nil =>
    unfold unbundle
    split
    · next hflag => exact absurd hflag h
    · rfl
  | cons c rest =>
    unfold unbundle
    split
    · next hflag => exact absurd hflag h
    · rfl

/-- What is attached to a flag is read from its first letter on, if the flag has a short name. -/
theorem unbundle_of_flag (h : s.kind = .flag) {isShort : Bool} {b : Bundle κ}
    (hb : g.unbundle s isShort v = .ok b) :
    ∃ c rest next inner, v = c :: rest ∧ isShort ∧ g.find? ['-', c] = some next ∧
      (if rest.isEmpty then .ok (bare next) else g.unbundle next true rest) = .ok inner ∧
      b = { inner with complete := (s, none) :: inner.complete } := by
  cases v with
  | nil => simp [unbundle, h] at hb
  | cons c rest =>
    unfold unbundle at hb
    simp only [h] at hb
    split at hb
    · cases hb
    · next next hnext =>
      cases isShort with
      | false => simp at hnext
      | true =>
        cases hinner : if rest.isEmpty then .ok (bare next) else g.unbundle next true rest with
        | error e =>
          rw [hinner] at hb
          cases hb
        | ok inner =>
          simp only [hinner, Except.map, Except.ok.injEq] at hb
          exact ⟨c, rest, next, inner, rfl, rfl, hnext, hinner, hb.symm⟩

/-! ## Parts of a grammar -/

/-- The grammar `g'` knows those options of `g` that `keep` picks, each under the same names. What
it takes for them is up to `loosen`, but it takes a value for one if and only if `g` does. -/
structure Part (g g' : Grammar κ) (keep : κ → Bool) (loosen : Spec κ → Spec κ) : Prop where
  options : g'.options = (g.options.filter fun s => keep s.key).map loosen
  key : ∀ s, (loosen s).key = s.key
  names : ∀ s, (loosen s).names = s.names
  flag : ∀ s, (loosen s).kind = .flag ↔ s.kind = .flag
  /-- No name belongs to two options. -/
  unique : ∀ s ∈ g.options, ∀ s' ∈ g.options, ∀ n ∈ s.names, n ∈ s'.names → s.key = s'.key
  /-- A name of an option that is not kept is no short form of a name that is. -/
  apart : ∀ s ∈ g.options, keep s.key = false → ∀ n ∈ s.names,
    2 ≤ n.length ∧ '=' ∉ n ∧ g'.candidates n = []

/-- How a part of a grammar sees a token: options that it does not know are words or strangers. -/
inductive Seen (keep : κ → Bool) (loosen : Spec κ → Spec κ) : Token κ → Token κ → Prop where
  | word (t : Text) : Seen keep loosen (.word t) (.word t)
  | dashes : Seen keep loosen .dashes .dashes
  | stranger (t : Text) : Seen keep loosen (.stranger t) (.stranger t)
  | kept {s : Spec κ} (name : Text) (attached : Option Text) : keep s.key = true →
      Seen keep loosen (.option s name attached) (.option (loosen s) name attached)
  | asWord {s : Spec κ} (name : Text) (attached : Option Text) (t : Text) : keep s.key = false →
      Seen keep loosen (.option s name attached) (.word t)
  | asStranger {s : Spec κ} (name : Text) (attached : Option Text) (t : Text) : keep s.key = false →
      Seen keep loosen (.option s name attached) (.stranger t)

theorem mem_names_of_find? (h : g.find? n = some s) : s ∈ g.options ∧ n ∈ s.names :=
  ⟨mem_of_find?_eq_some h, by simpa using find?_some h⟩

theorem atEquals_of_not_mem (h : '=' ∉ a) : atEquals a = (a, none) := by
  unfold atEquals
  split
  · next before after hcut =>
    rw [Text.cut?_eq_append hcut] at h
    simp at h
  · rfl

theorem atEquals_eq_some (h : atEquals a = (name, some v)) : a = name ++ ['='] ++ v := by
  unfold atEquals at h
  split at h
  · next before after hcut =>
    obtain ⟨rfl, rfl⟩ : before = name ∧ after = v := by simpa using h
    exact Text.cut?_eq_append hcut
  · simp at h

/-- If all that satisfy `p` agree on `q`, the first that satisfies both is the first that satisfies
`p`. -/
theorem find?_and_of_unique {α : Type} {p q : α → Bool} {l : List α}
    (h : ∀ a ∈ l, ∀ b ∈ l, p a → p b → q a = q b) :
    (l.find? fun a => q a && p a) = (l.find? p).filter q := by
  induction l with
  | nil => rfl
  | cons a l ih =>
    cases ha : p a with
    | false =>
      rw [find?_cons_of_neg (by simp [ha]), find?_cons_of_neg (by simp [ha])]
      exact ih fun b hb c hc => h b (by simp [hb]) c (by simp [hc])
    | true =>
      rw [find?_cons_of_pos (p := p) ha]
      cases hq : q a with
      | true => rw [find?_cons_of_pos (by simp [ha, hq]), Option.filter_some, if_pos hq]
      | false =>
        rw [Option.filter_some, if_neg (by simp [hq]), find?_eq_none]
        intro b hb hboth
        obtain ⟨hqb, hpb⟩ : q b ∧ p b := by simpa using hboth
        rw [← h a (by simp) b hb ha hpb, hq] at hqb
        cases hqb

/-- The argument is no name, with or without a value, and no short form of one. -/
structure Foreign (g : Grammar κ) (a : Text) : Prop where
  find? : g.find? a = none
  equals : ∀ name v, atEquals a = (name, some v) → g.find? name = none
  candidates : g.candidates a = []

/-- What an argument is where it means no option. -/
def leftOver (a : Text) : Token κ :=
  if a.head? ≠ some '-' || a.length = 1 || isNegativeNumber a || a.contains ' ' then .word a
  else .stranger a

theorem seen_leftOver (keep : κ → Bool) (loosen : Spec κ → Spec κ) (a : Text) :
    Seen keep loosen (leftOver a) (leftOver a) := by
  unfold leftOver
  split
  · exact .word a
  · exact .stranger a

theorem Foreign.classify_eq (h : g.Foreign a) : g.classify a = .ok (leftOver a) := by
  unfold classify leftOver
  by_cases hhead : a.head? ≠ some '-'
  · simp [hhead]
  · by_cases hlength : a.length = 1
    · simp [hhead, h.find?, hlength]
    · simp only [if_neg hhead, h.find?, if_neg hlength]
      split
      · next v s hattached hname =>
        rw [h.equals _ v (Prod.ext rfl hattached)] at hname
        cases hname
      · have hdash : (decide (a.head? ≠ some '-') || decide (a.length = 1)) = false := by
          simp_all
        simp only [h.candidates, hdash, Bool.false_or]
        by_cases hword : (isNegativeNumber a || a.contains ' ')
        · rw [if_pos hword, if_pos hword]
        · rw [if_neg hword, if_neg hword]

theorem classify_of_candidate (hhead : ¬ a.head? ≠ some '-') (hlength : ¬ a.length = 1)
    (hfind : g.find? a = none)
    (hequals : ∀ name v, atEquals a = (name, some v) → g.find? name = none)
    (hcandidates : g.candidates a = [(s, n, attached)]) :
    g.classify a = .ok (.option s n attached) := by
  unfold classify
  simp only [if_neg hhead, hfind, if_neg hlength]
  split
  · next v s' hattached hname =>
    rw [hequals _ v (Prod.ext rfl hattached)] at hname
    cases hname
  · simp only [hcandidates]

/-- A value after an equals sign does not make a name a short form of another. -/
theorem candidates_equals (hat : atEquals a = (name, some v)) (hlength : 2 ≤ name.length)
    (hequals : '=' ∉ name) (hname : g.candidates name = []) : g.candidates a = [] := by
  have ha := atEquals_eq_some hat
  subst ha
  obtain ⟨c, d, rest, rfl⟩ : ∃ c d rest, name = c :: d :: rest := by
    match name, hlength with
    | c :: d :: rest, _ => exact ⟨c, d, rest, rfl⟩
  unfold candidates at hname ⊢
  have hdashes : ['-', '-'].isPrefixOf ((c :: d :: rest) ++ ['='] ++ v)
      = ['-', '-'].isPrefixOf (c :: d :: rest) := by
    simp [isPrefixOf]
  rw [hdashes]
  split at hname
  · next hlong =>
    rw [if_pos hlong]
    simp only [atEquals_of_not_mem hequals, map_eq_nil_iff] at hname
    simp only [hat, hname, map_nil]
  · next hshort =>
    rw [if_neg hshort]
    rw [filterMap_eq_nil_iff] at hname ⊢
    rintro ⟨s, n⟩ hn
    have hnone := hname (s, n) hn
    simp only at hnone ⊢
    split at hnone
    · cases hnone
    · next htake =>
      split at hnone
      · cases hnone
      · next hprefix =>
        rw [if_neg (by simpa using htake), if_neg]
        -- a name that starts with the whole argument starts with what is before the equals sign
        intro hlonger
        refine hprefix (List.isPrefixOf_iff_prefix.2 (IsPrefix.trans ?_
          (List.isPrefixOf_iff_prefix.1 hlonger)))
        rw [append_assoc]
        exact prefix_append _ _

/-! ## Joined options -/

theorem mem_names_of_mem_allNames (h : (s, n) ∈ g.allNames) : s ∈ g.options ∧ n ∈ s.names := by
  obtain ⟨s', hs, hn⟩ := mem_flatMap.1 h
  obtain ⟨n', hn', heq⟩ := mem_map.1 hn
  cases heq
  exact ⟨hs, hn'⟩

/-- Two dashes in front of an equals sign stand in front of every name that starts like that. -/
theorem second_eq_dash {start : Text} (hlong : ['-', '-'].isPrefixOf (start ++ ['='] ++ v))
    (h : start <+: name) : name[1]? = some '-' := by
  obtain ⟨rest, rfl⟩ := h
  match start with
  | [] => simp [isPrefixOf] at hlong
  | [c] => simp [isPrefixOf] at hlong
  | c :: d :: start =>
    obtain ⟨-, rfl⟩ : '-' = c ∧ '-' = d := by simpa [isPrefixOf] using hlong
    rfl

/-- An argument with something attached starts with a name of its option, unless that name is a long
one that is cut short. -/
theorem classify_attached (h : g.classify a = .ok (.option s name (some v)))
    (hname : name[1]? ≠ some '-') :
    (s ∈ g.options ∧ name ∈ s.names) ∧ (a = name ++ v ∨ a = name ++ ['='] ++ v) := by
  unfold classify at h
  split at h
  · cases h
  split at h
  · cases h
  rcases hat : atEquals a with ⟨start, attached⟩
  simp only [hat] at h
  split at h
  · cases h
  split at h
  · next w t hfind =>
    cases h
    exact ⟨mem_names_of_find? hfind, .inr (atEquals_eq_some hat)⟩
  split at h
  · next hcandidates =>
    cases h
    have hmem : (s, name, some v) ∈ g.candidates a := by simp [hcandidates]
    unfold candidates at hmem
    split at hmem
    · next hlong =>
      simp only [hat] at hmem
      obtain ⟨⟨s', n⟩, hn, heq⟩ := mem_map.1 hmem
      cases heq
      -- a long name that is cut short has a dash in the second place
      have hstart : start <+: n := isPrefixOf_iff_prefix.1 (mem_filter.1 hn).2
      rw [atEquals_eq_some hat] at hlong
      exact absurd (second_eq_dash hlong hstart) hname
    · obtain ⟨⟨s', n⟩, hn, hsome⟩ := mem_filterMap.1 hmem
      simp only at hsome
      split at hsome
      · next htake =>
        cases hsome
        refine ⟨mem_names_of_mem_allNames hn, .inl ?_⟩
        rw [htake, take_append_drop]
      · split at hsome <;> cases hsome
  · split at h <;> cases h
  · cases h

theorem exists_argument {arguments : List Text} (hts : g.tokens arguments = .ok ts)
    (hmem : Token.option s name attached ∈ ts) :
    ∃ a ∈ arguments, g.classify a = .ok (.option s name attached) := by
  induction arguments generalizing ts with
  | nil =>
    cases hts
    cases hmem
  | cons a rest ih =>
    unfold tokens at hts
    split at hts
    · cases hts
      simp at hmem
    · obtain ⟨t, ht, hts⟩ := exists_of_bind hts
      obtain ⟨us, hus, hts⟩ := exists_of_bind hts
      cases hts
      rcases mem_cons.1 hmem with rfl | hmem
      · exact ⟨a, by simp, ht⟩
      · obtain ⟨b, hb, hclassify⟩ := ih hus hmem
        exact ⟨b, by simp [hb], hclassify⟩

/-- What the options of a bundle are known as inside; the one that waits for its value is the last.
-/
def Bundle.keys (b : Bundle κ) : List κ :=
  (b.complete.map fun o => o.1.key) ++ b.waiting.toList.map fun s => s.key

theorem exists_of_more {b : Bundle κ} (hb : g.readOption s name attached = .ok b)
    (hmore : b.keys ≠ [s.key]) :
    ∃ v, attached = some v ∧ v ≠ [] ∧ s.kind = .flag ∧ name[1]? ≠ some '-' := by
  cases attached with
  | none =>
    cases hb
    by_cases hflag : s.kind = .flag
    · simp [bare, hflag, Bundle.keys] at hmore
    · simp [bare_of_value hflag, Bundle.keys] at hmore
  | some v =>
    by_cases hflag : s.kind = .flag
    · obtain ⟨c, rest, next, inner, rfl, hshort, -⟩ := unbundle_of_flag hflag hb
      exact ⟨c :: rest, rfl, by simp, hflag, by simpa using hshort⟩
    · cases (unbundle_of_value hflag _ v).symm.trans hb
      simp [Bundle.keys] at hmore

/-- A row comes from an option among the tokens. If it is not that option alone, the option is a
flag with a short name, and more is attached to it. -/
theorem Reads.exists_attached {r : Row κ} (h : g.Reads ts rs) (hr : r ∈ rs)
    (hmore : r.keys ≠ [r.first.key]) :
    ∃ name v, v ≠ [] ∧ Token.option r.first name (some v) ∈ ts ∧ r.first.kind = .flag ∧
      name[1]? ≠ some '-' := by
  induction h with
  | nil => cases hr
  | word t _ ih | dashes _ ih | stranger t _ ih =>
    obtain ⟨name, v, hv, hmem, hrest⟩ := ih hr
    exact ⟨name, v, hv, mem_cons_of_mem _ hmem, hrest⟩
  | @complete ts rs s name attached b hb hwaiting _ ih =>
    rcases mem_cons.1 hr with rfl | hr
    · obtain ⟨v, rfl, hv, hflag, hshort⟩ := exists_of_more hb
        (by simpa [Bundle.keys, Row.keys, hwaiting] using hmore)
      exact ⟨name, v, hv, by simp, hflag, hshort⟩
    · obtain ⟨name, v, hv, hmem, hrest⟩ := ih hr
      exact ⟨name, v, hv, mem_cons_of_mem _ hmem, hrest⟩
  | @waiting ts rs s name attached b last w hb hwaiting _ ih =>
    rcases mem_cons.1 hr with rfl | hr
    · obtain ⟨v, rfl, hv, hflag, hshort⟩ := exists_of_more hb
        (by simpa [Bundle.keys, Row.keys, hwaiting] using hmore)
      exact ⟨name, v, hv, by simp, hflag, hshort⟩
    · obtain ⟨name, v, hv, hmem, hrest⟩ := ih hr
      exact ⟨name, v, hv, by simp [hmem], hrest⟩

/-- **Joined options.** A row of more than one option comes from an argument that starts with a
short name of a flag and goes on. -/
theorem Reads.exists_joined {arguments : List Text} {r : Row κ} (hts : g.tokens arguments = .ok ts)
    (h : g.Reads ts rs) (hr : r ∈ rs) (hmore : r.keys ≠ [r.first.key]) :
    r.first ∈ g.options ∧ r.first.kind = .flag ∧ ∃ name ∈ r.first.names, name[1]? ≠ some '-' ∧
      ∃ more, more ≠ [] ∧ name ++ more ∈ arguments := by
  obtain ⟨name, v, hv, hmem, hflag, hshort⟩ := h.exists_attached hr hmore
  obtain ⟨a, ha, hclassify⟩ := exists_argument hts hmem
  obtain ⟨⟨hs, hname⟩, heq⟩ := classify_attached hclassify hshort
  refine ⟨hs, hflag, name, hname, hshort, ?_⟩
  obtain rfl | rfl := heq
  · exact ⟨v, hv, ha⟩
  · exact ⟨['='] ++ v, by simp, by simpa using ha⟩

namespace Part

variable {g g' : Grammar κ} {keep : κ → Bool} {loosen : Spec κ → Spec κ}
  (h : Part g g' keep loosen)
include h

theorem find?_eq (n : Text) : g'.find? n = ((g.find? n).filter fun s => keep s.key).map loosen := by
  have hpart : g'.find? n
      = (g.options.find? fun s => keep s.key && s.names.contains n).map loosen := by
    rw [find?, h.options, find?_map, find?_filter]
    simp only [Function.comp_def, h.names, Bool.decide_and, Bool.decide_eq_true]
  rw [hpart, find?, find?_and_of_unique]
  intro s hs s' hs' hn hn'
  rw [h.unique s hs s' hs' n (contains_iff_mem.1 hn) (contains_iff_mem.1 hn')]

section Find

variable {n : Text} {s : Spec κ}

theorem find?_kept (hfind : g.find? n = some s) (hkeep : keep s.key) :
    g'.find? n = some (loosen s) := by
  rw [h.find?_eq, hfind, Option.filter_some, if_pos hkeep, Option.map_some]

theorem find?_dropped (hfind : g.find? n = some s) (hkeep : keep s.key = false) :
    g'.find? n = none := by
  rw [h.find?_eq, hfind, Option.filter_some, if_neg (by simp [hkeep]), Option.map_none]

theorem find?_unknown (hfind : g.find? n = none) : g'.find? n = none := by
  rw [h.find?_eq, hfind, Option.filter_none, Option.map_none]

end Find

theorem allNames_eq :
    g'.allNames = (g.allNames.filter fun c => keep c.1.key).map fun c => (loosen c.1, c.2) := by
  rw [allNames, allNames, h.options]
  induction g.options with
  | nil => rfl
  | cons s options ih =>
    have hown : ((s.names.map fun n => (s, n)).filter fun c => keep c.1.key)
        = if keep s.key then s.names.map fun n => (s, n) else [] := by
      split <;> simp_all [filter_eq_nil_iff, filter_eq_self]
    rw [flatMap_cons, filter_append, hown, map_append, ← ih, filter_cons]
    split <;> simp [h.names]

theorem candidates_eq (a : Text) :
    g'.candidates a
      = ((g.candidates a).filter fun c => keep c.1.key).map fun c => (loosen c.1, c.2) := by
  unfold candidates
  rw [h.allNames_eq]
  split
  · simp only [filter_map, map_map, filter_filter, Function.comp_def]
    congr 1
    exact filter_congr fun c _ => Bool.and_comm _ _
  · simp only [filterMap_map, filterMap_filter, filter_filterMap, map_filterMap,
      Function.comp_def]
    congr 1
    funext c
    by_cases htake : c.2 = a.take 2 <;> by_cases hstart : a.isPrefixOf c.2 = true <;>
      simp [htake, hstart, Option.filter_some, apply_ite]

theorem foreign {a : Text} (ha : g.Foreign a) : g'.Foreign a where
  find? := h.find?_unknown ha.find?
  equals name v hat := h.find?_unknown (ha.equals name v hat)
  candidates := by rw [h.candidates_eq, ha.candidates]; rfl

section Classify

variable {a : Text} {s : Spec κ}

omit h in
theorem exists_seen_of_foreign (name : Text) (attached : Option Text) (hkeep : keep s.key = false)
    (hforeign : g'.Foreign a) :
    ∃ t', g'.classify a = .ok t' ∧ Seen keep loosen (.option s name attached) t' := by
  refine ⟨_, hforeign.classify_eq, ?_⟩
  unfold leftOver
  split
  · exact .asWord name attached a hkeep
  · exact .asStranger name attached a hkeep

theorem exists_seen_of_name (hhead : ¬ a.head? ≠ some '-') (hfind : g.find? a = some s) :
    ∃ t', g'.classify a = .ok t' ∧ Seen keep loosen (.option s a none) t' := by
  cases hkeep : keep s.key with
  | true =>
    exact ⟨_, by rw [classify, if_neg hhead, h.find?_kept hfind hkeep], .kept a none hkeep⟩
  | false =>
    obtain ⟨hs, hn⟩ := mem_names_of_find? hfind
    obtain ⟨-, hequals, hcandidates⟩ := h.apart s hs hkeep a hn
    refine exists_seen_of_foreign a none hkeep ⟨h.find?_dropped hfind hkeep, ?_, hcandidates⟩
    intro name v hat
    rw [atEquals_of_not_mem hequals] at hat
    cases hat

theorem exists_seen_of_equals (hhead : ¬ a.head? ≠ some '-') (hlength : ¬ a.length = 1)
    (hfind : g.find? a = none) {name v : Text} (hat : atEquals a = (name, some v))
    (hname : g.find? name = some s) :
    ∃ t', g'.classify a = .ok t' ∧ Seen keep loosen (.option s name (some v)) t' := by
  have hfind' : g'.find? a = none := h.find?_unknown hfind
  cases hkeep : keep s.key with
  | true =>
    refine ⟨_, ?_, .kept name (some v) hkeep⟩
    simp only [classify, if_neg hhead, hfind', if_neg hlength, hat, h.find?_kept hname hkeep]
  | false =>
    obtain ⟨hs, hn⟩ := mem_names_of_find? hname
    obtain ⟨hlong, hequals, hcandidates⟩ := h.apart s hs hkeep name hn
    refine exists_seen_of_foreign name (some v) hkeep ⟨hfind', ?_, ?_⟩
    · intro name' v' hat'
      cases hat.symm.trans hat'
      exact h.find?_dropped hname hkeep
    · exact candidates_equals hat hlong hequals hcandidates

theorem exists_seen_of_candidate (hhead : ¬ a.head? ≠ some '-') (hlength : ¬ a.length = 1)
    (hfind : g.find? a = none)
    (hequals : ∀ name v, atEquals a = (name, some v) → g.find? name = none) {n : Text}
    {attached : Option Text} (hcandidates : g.candidates a = [(s, n, attached)]) :
    ∃ t', g'.classify a = .ok t' ∧ Seen keep loosen (.option s n attached) t' := by
  have hfind' : g'.find? a = none := h.find?_unknown hfind
  have hequals' : ∀ name v, atEquals a = (name, some v) → g'.find? name = none :=
    fun name v hat => h.find?_unknown (hequals name v hat)
  cases hkeep : keep s.key with
  | true =>
    refine ⟨_, ?_, .kept n attached hkeep⟩
    exact classify_of_candidate hhead hlength hfind' hequals'
      (by simp [h.candidates_eq, hcandidates, hkeep])
  | false =>
    exact exists_seen_of_foreign n attached hkeep
      ⟨hfind', hequals', by simp [h.candidates_eq, hcandidates, hkeep]⟩

end Classify

/-- **One argument.** A part of the grammar makes the same of an argument as the grammar does,
except that an option it does not know is a word or a stranger to it. -/
theorem exists_classify {a : Text} {t : Token κ} (hclassify : g.classify a = .ok t) :
    ∃ t', g'.classify a = .ok t' ∧ Seen keep loosen t t' := by
  have ht := hclassify
  unfold classify at ht
  split at ht
  · next hhead =>
    cases ht
    exact ⟨_, by rw [classify, if_pos hhead], .word a⟩
  next hhead =>
  split at ht
  · next s hfind =>
    cases ht
    exact h.exists_seen_of_name hhead hfind
  next hfind =>
  rcases hat : atEquals a with ⟨name, attached⟩
  simp only [hat] at ht
  split at ht
  · next hlength =>
    cases ht
    exact ⟨_, by rw [classify, if_neg hhead, h.find?_unknown hfind, if_pos hlength], .word a⟩
  next hlength =>
  split at ht
  · next v s hname =>
    cases ht
    exact h.exists_seen_of_equals hhead hlength hfind hat hname
  next hother =>
  have hequals : ∀ name v, atEquals a = (name, some v) → g.find? name = none := by
    intro name' v' hat'
    cases hat.symm.trans hat'
    cases hname : g.find? name with
    | none => rfl
    | some s => exact absurd hname (hother v' s rfl)
  split at ht
  · next s n attached' hcandidates =>
    cases ht
    exact h.exists_seen_of_candidate hhead hlength hfind hequals hcandidates
  · next hcandidates =>
    have hforeign : g.Foreign a := ⟨hfind, hequals, hcandidates⟩
    cases hclassify.symm.trans hforeign.classify_eq
    exact ⟨_, (h.foreign hforeign).classify_eq, seen_leftOver keep loosen a⟩
  · cases ht

/-- **All arguments.** If the grammar can tell the arguments apart, so can the part. -/
theorem exists_tokens {arguments : List Text} {ts : List (Token κ)}
    (hts : g.tokens arguments = .ok ts) :
    ∃ ts', g'.tokens arguments = .ok ts' ∧ Forall₂ (Seen keep loosen) ts ts' := by
  induction arguments generalizing ts with
  | nil =>
    cases hts
    exact ⟨[], rfl, .nil⟩
  | cons a rest ih =>
    unfold tokens at hts ⊢
    split at hts
    · next hdashes =>
      cases hts
      refine ⟨_, if_pos hdashes, .cons .dashes ?_⟩
      exact forall₂_same.2 fun t ht => by
        obtain ⟨w, -, rfl⟩ := mem_map.1 ht
        exact .word w
    · next hdashes =>
      obtain ⟨t, ht, hts⟩ := exists_of_bind hts
      obtain ⟨us, hus, hts⟩ := exists_of_bind hts
      cases hts
      obtain ⟨t', ht', hseen⟩ := h.exists_classify ht
      obtain ⟨us', hus', hall⟩ := ih hus
      exact ⟨t' :: us', by rw [if_neg hdashes, ht', hus']; rfl, .cons hseen hall⟩

/-- Two bundles of options that go by the same keys. -/
structure SameKeys (b b' : Bundle κ) : Prop where
  complete : (b'.complete.map fun o => o.1.key) = b.complete.map fun o => o.1.key
  waiting : (b'.waiting.map fun s => s.key) = b.waiting.map fun s => s.key

theorem sameKeys_bare (s : Spec κ) : SameKeys (bare s) (bare (loosen s)) := by
  by_cases hflag : s.kind = .flag
  · simp only [bare, hflag, (h.flag s).2 hflag]
    exact ⟨by simp [h.key], rfl⟩
  · rw [bare_of_value hflag, bare_of_value (mt (h.flag s).1 hflag)]
    exact ⟨rfl, by simp [h.key]⟩

variable {s : Spec κ} {b b' : Bundle κ}

theorem sameKeys_of_value (hs : s.kind ≠ .flag) {isShort : Bool} {v : Text}
    (hb : g.unbundle s isShort v = .ok b) (hb' : g'.unbundle (loosen s) isShort v = .ok b') :
    SameKeys b b' := by
  rw [unbundle_of_value hs] at hb
  rw [unbundle_of_value (mt (h.flag s).1 hs)] at hb'
  cases hb
  cases hb'
  exact ⟨by simp [h.key], rfl⟩

theorem sameKeys_unbundle {isShort : Bool} {v : Text} (hb : g.unbundle s isShort v = .ok b)
    (hb' : g'.unbundle (loosen s) isShort v = .ok b') : SameKeys b b' := by
  induction v generalizing s isShort b b' with
  | nil =>
    refine h.sameKeys_of_value (fun hflag => ?_) hb hb'
    obtain ⟨c, rest, next, inner, hv, -⟩ := unbundle_of_flag hflag hb
    cases hv
  | cons c rest ih =>
    by_cases hflag : s.kind = .flag
    · obtain ⟨d, tail, next, inner, hv, -, hnext, hinner, rfl⟩ := unbundle_of_flag hflag hb
      obtain ⟨d', tail', next', inner', hv', -, hnext', hinner', rfl⟩ :=
        unbundle_of_flag ((h.flag s).2 hflag) hb'
      cases hv
      cases hv'
      -- the part knows the next letter, or it would not have gone through
      have hloosen : next' = loosen next := by
        rw [h.find?_eq, hnext, Option.filter_some] at hnext'
        split at hnext'
        · simpa using hnext'.symm
        · cases hnext'
      subst hloosen
      have hinside : SameKeys inner inner' := by
        split at hinner
        · next hend =>
          rw [if_pos hend] at hinner'
          cases hinner
          cases hinner'
          exact h.sameKeys_bare next
        · next hend =>
          rw [if_neg hend] at hinner'
          exact ih hinner hinner'
      exact ⟨by simp [hinside.complete, h.key], hinside.waiting⟩
    · exact h.sameKeys_of_value hflag hb hb'

theorem sameKeys_readOption {name : Text} {attached : Option Text}
    (hb : g.readOption s name attached = .ok b)
    (hb' : g'.readOption (loosen s) name attached = .ok b') : SameKeys b b' := by
  cases attached with
  | none =>
    cases hb
    cases hb'
    exact h.sameKeys_bare s
  | some v => exact h.sameKeys_unbundle hb hb'

section Reads

variable {s : Spec κ} {name : Text} {attached : Option Text} {b : Bundle κ}
  {ts' : List (Token κ)} {rs' : List (Row κ)}

omit h in
theorem reads_of_dropped {t' : Token κ} (hseen : Seen keep loosen (.option s name attached) t')
    (hkeep : keep s.key = false) (hrs' : g'.Reads (t' :: ts') rs') : g'.Reads ts' rs' := by
  cases hseen with
  | kept _ _ hkeep' =>
    rw [hkeep] at hkeep'
    cases hkeep'
  | asWord =>
    cases hrs' with
    | word _ hrs' => exact hrs'
  | asStranger =>
    cases hrs' with
    | stranger _ hrs' => exact hrs'

omit h in
theorem eq_of_seen_kept {t' : Token κ} (hseen : Seen keep loosen (.option s name attached) t')
    (hkeep : keep s.key) : t' = .option (loosen s) name attached := by
  cases hseen with
  | kept => rfl
  | asWord _ _ _ hkeep' | asStranger _ _ _ hkeep' =>
    rw [hkeep] at hkeep'
    cases hkeep'

theorem exists_row_of_complete (hb : g.readOption s name attached = .ok b)
    (hwaiting : b.waiting = none) (hrs' : g'.Reads (.option (loosen s) name attached :: ts') rs') :
    ∃ r' us', rs' = r' :: us' ∧ r'.keys = Row.keys ⟨s, b.complete⟩ ∧ g'.Reads ts' us' := by
  cases hrs' with
  | complete hb' _ hus' =>
    exact ⟨_, _, rfl, (h.sameKeys_readOption hb hb').complete, hus'⟩
  | waiting v hb' hwaiting' _ =>
    have hlast := (h.sameKeys_readOption hb hb').waiting
    simp [hwaiting, hwaiting'] at hlast

theorem exists_row_of_waiting {last : Spec κ} {v : Text} (hb : g.readOption s name attached = .ok b)
    (hwaiting : b.waiting = some last)
    (hrs' : g'.Reads (.option (loosen s) name attached :: .word v :: ts') rs') :
    ∃ r' us', rs' = r' :: us' ∧ r'.keys = Row.keys ⟨s, b.complete ++ [(last, some v)]⟩ ∧
      g'.Reads ts' us' := by
  cases hrs' with
  | complete hb' hwaiting' _ =>
    have hlast := (h.sameKeys_readOption hb hb').waiting
    simp [hwaiting, hwaiting'] at hlast
  | waiting _ hb' hwaiting' hus' =>
    have hsame := h.sameKeys_readOption hb hb'
    have hlast := hsame.waiting
    rw [hwaiting, hwaiting', Option.map_some, Option.map_some, Option.some.injEq] at hlast
    refine ⟨_, _, rfl, ?_, hus'⟩
    simp only [Row.keys, map_append, hsame.complete, map_cons, hlast, map_nil]

end Reads

/-- **The rows of a part.** Where both readings go through, the part reads the rows of the grammar
that start with an option which it knows, and no others. -/
theorem keys_eq {ts ts' : List (Token κ)} {rs rs' : List (Row κ)}
    (hseen : Forall₂ (Seen keep loosen) ts ts') (hrs : g.Reads ts rs)
    (hrs' : g'.Reads ts' rs') :
    rs'.map Row.keys = (rs.filter fun r => keep r.first.key).map Row.keys := by
  -- on the reading of the grammar: the part sees each of its tokens, and may read a row from it
  induction hrs generalizing ts' rs' with
  | nil =>
    cases hseen
    cases hrs'
    rfl
  | word t hrs ih =>
    obtain _ | ⟨⟨⟩, htail⟩ := hseen
    cases hrs' with
    | word _ hrs' => exact ih htail hrs'
  | dashes hrs ih =>
    obtain _ | ⟨⟨⟩, htail⟩ := hseen
    cases hrs' with
    | dashes hrs' => exact ih htail hrs'
  | stranger t hrs ih =>
    obtain _ | ⟨⟨⟩, htail⟩ := hseen
    cases hrs' with
    | stranger _ hrs' => exact ih htail hrs'
  | @complete _ _ s _ _ _ hb hwaiting hrs ih =>
    obtain _ | ⟨hhead, htail⟩ := hseen
    cases hkeep : keep s.key with
    | true =>
      rw [eq_of_seen_kept hhead hkeep] at hrs'
      obtain ⟨r', us', rfl, hkeys, hus'⟩ := h.exists_row_of_complete hb hwaiting hrs'
      rw [filter_cons_of_pos (by simpa using hkeep), map_cons, map_cons, hkeys,
        ih htail hus']
    | false =>
      rw [filter_cons_of_neg (by simp [hkeep]), ih htail (reads_of_dropped hhead hkeep hrs')]
  | @waiting _ _ s _ _ _ _ v hb hwaiting hrs ih =>
    obtain _ | ⟨hhead, _ | ⟨⟨⟩, htail⟩⟩ := hseen
    cases hkeep : keep s.key with
    | true =>
      rw [eq_of_seen_kept hhead hkeep] at hrs'
      obtain ⟨r', us', rfl, hkeys, hus'⟩ := h.exists_row_of_waiting hb hwaiting hrs'
      rw [filter_cons_of_pos (by simpa using hkeep), map_cons, map_cons, hkeys,
        ih htail hus']
    | false =>
      -- the value of an option that is not known is a word like any other
      cases reads_of_dropped hhead hkeep hrs' with
      | word _ hus' => rw [filter_cons_of_neg (by simp [hkeep]), ih htail hus']

end Part

end Grammar

end Reflow.Arguments
