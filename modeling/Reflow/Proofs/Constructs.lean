import Reflow.Atomic.Span
import Reflow.Proofs.Gaps
import Reflow.Proofs.Recognisers

/-!
Laws of the inline constructs.

Every construct begins and ends with a visible character. For the constructs that line wrapping
keeps whole there is more: if the text goes on, a construct is still found at the same place (it may
be a longer one), and a construct that ends within a part of the text is found in that part alone.
So a text can be cut into sentences first and each sentence into words on its own.
-/

open List

namespace Reflow.Construct

open Recogniser Text

/-- The accepted part begins with one of the characters `cs`. -/
def StartsIn (cs : List Char) (r : Recogniser) : Prop :=
  ∀ t n, r t = some n → ∃ c u, t = c :: u ∧ c ∈ cs

variable {cs : List Char} {k n : Nat} {t u : Text}

theorem startsIn_exactly {c : Char} (hc : c ∈ cs) (w : Text) : StartsIn cs (exactly (c :: w)) := by
  intro t n h
  obtain ⟨rest, rfl, _⟩ := exactly_eq_some.1 h
  exact ⟨c, w ++ rest, rfl, hc⟩

theorem StartsIn.andThen {r : Recogniser} (hr : StartsIn cs r) (s : Recogniser) :
    StartsIn cs (Recogniser.andThen r s) := by
  intro t n h
  obtain ⟨i, _, hi, _, _⟩ := andThen_eq_some.1 h
  exact hr t i hi

theorem StartsIn.orElse {r s : Recogniser} (hr : StartsIn cs r) (hs : StartsIn cs s) :
    StartsIn cs (Recogniser.orElse r s) := by
  intro t n h
  rcases Option.or_eq_some_iff.1 h with h | ⟨_, h⟩
  · exact hr t n h
  · exact hs t n h

/-! ## Code spans -/

theorem codeSpanOf_eq_some :
    codeSpanOf k t = some n ↔ ∃ body after, cut? (repeated k '`') (t.drop k) = some (body, after) ∧
      body ≠ [] ∧ n = k + body.length + k := by
  unfold codeSpanOf
  constructor
  · intro h
    split at h
    · next body after hcut =>
      simp only [List.isEmpty_iff, Option.ite_none_left_eq_some, Option.some.injEq] at h
      exact ⟨body, after, hcut, h.1, h.2.symm⟩
    · simp at h
  · rintro ⟨body, after, hcut, hne, rfl⟩
    rw [hcut]
    simp [hne]

theorem le_length_of_codeSpanOf (h : codeSpanOf k t = some n) : k ≤ t.length := by
  obtain ⟨body, after, hcut, hne, _⟩ := codeSpanOf_eq_some.1 h
  have hlen := congrArg length (cut?_eq_append hcut)
  rw [length_drop] at hlen
  have hpos : 0 < body.length := length_pos_iff.2 hne
  simp only [length_append] at hlen
  omega

theorem stable_codeSpanOf (k : Nat) : Stable (codeSpanOf k) := by
  intro u v n h
  have hk := le_length_of_codeSpanOf h
  obtain ⟨body, after, hcut, hne, rfl⟩ := codeSpanOf_eq_some.1 h
  refine codeSpanOf_eq_some.2 ⟨body, after ++ v, ?_, hne, rfl⟩
  rw [drop_append_of_le_length hk]
  exact cut?_append hcut v

theorem local_codeSpanOf (k : Nat) : Local (codeSpanOf k) := by
  intro u v n h hle
  obtain ⟨body, after, hcut, hne, rfl⟩ := codeSpanOf_eq_some.1 h
  rw [drop_append_of_le_length (by omega)] at hcut
  have hfit : body.length + (repeated k '`').length ≤ (u.drop k).length := by
    rw [repeated, length_replicate, length_drop]
    omega
  obtain ⟨after', hcut'⟩ := cut?_of_append hcut hfit
  exact codeSpanOf_eq_some.2 ⟨body, after', hcut', hne, rfl⟩

/-- A run of backticks and nothing else holds no code span: the first backticks that could close it
follow at once. -/
theorem codeSpanOf_ticks (hu : ∀ c ∈ u, c = '`') : codeSpanOf k u = none := by
  cases h : codeSpanOf k u with
  | none => rfl
  | some n =>
    obtain ⟨body, after, hcut, hne, _⟩ := codeSpanOf_eq_some.1 h
    have hsplit := cut?_eq_append hcut
    have hticks : u.drop k = replicate (u.drop k).length '`' :=
      eq_replicate_of_mem fun c hc => hu c (mem_of_mem_drop hc)
    have hpre : repeated k '`' <+: u.drop k := by
      have hlen : k ≤ (u.drop k).length := by
        rw [hsplit]
        simp only [repeated, length_append, length_replicate]
        omega
      rw [hticks, repeated]
      refine ⟨replicate ((u.drop k).length - k) '`', ?_⟩
      rw [replicate_append_replicate, Nat.add_sub_of_le hlen]
    -- so the first occurrence is at the start, and the body is empty
    obtain ⟨b, bs, rfl⟩ := exists_cons_of_ne_nil hne
    rw [hsplit] at hcut hpre
    rw [cons_append, cons_append, cut?,
      if_pos (List.isPrefixOf_iff_prefix.2 (by simpa using hpre))] at hcut
    simp at hcut

theorem codeSpanUpTo_eq_some {m : Nat} (h : codeSpanUpTo m t = some n) :
    ∃ k, 0 < k ∧ k ≤ m ∧ codeSpanOf k t = some n := by
  induction m with
  | zero => simp [codeSpanUpTo] at h
  | succ m ih =>
    rcases Option.or_eq_some_iff.1 h with h | ⟨_, h⟩
    · exact ⟨m + 1, by omega, Nat.le_refl _, h⟩
    · obtain ⟨k, h0, hk, h⟩ := ih h
      exact ⟨k, h0, by omega, h⟩

theorem persists_codeSpanUpTo (m : Nat) : Persists (codeSpanUpTo m) := by
  induction m with
  | zero => simp [Persists, codeSpanUpTo]
  | succ m ih => exact Persists.orElse (stable_codeSpanOf (m + 1)).persists ih

theorem local_codeSpanUpTo (m : Nat) : Local (codeSpanUpTo m) := by
  induction m with
  | zero => simp [Local, codeSpanUpTo]
  | succ m ih =>
    exact Local.orElse (stable_codeSpanOf (m + 1)).persists (local_codeSpanOf (m + 1)) ih

/-- More text after a text that is not all backticks does not lengthen its opening run. -/
theorem codeSpanLength_append (hu : ¬ ∀ c ∈ u, c = '`') (v : Text) :
    codeSpanLength (u ++ v) = codeSpanUpTo (u.takeWhile (· == '`')).length (u ++ v) := by
  rw [codeSpanLength, takeWhile_append, if_neg]
  intro heq
  have hall : u.takeWhile (· == '`') = u := (List.takeWhile_prefix _).eq_of_length heq
  refine hu fun c hc => ?_
  rw [← hall] at hc
  simpa using mem_takeWhile_imp hc

theorem persists_codeSpanLength : Persists codeSpanLength := by
  intro u v h
  by_cases hu : ∀ c ∈ u, c = '`'
  · obtain ⟨n, hn⟩ := Option.isSome_iff_exists.1 h
    obtain ⟨k, _, _, hk⟩ := codeSpanUpTo_eq_some hn
    rw [codeSpanOf_ticks hu] at hk
    simp at hk
  · rw [codeSpanLength_append hu]
    exact persists_codeSpanUpTo _ u v h

theorem local_codeSpanLength : Local codeSpanLength := by
  intro u v n h hle
  by_cases hu : ∀ c ∈ u, c = '`'
  · obtain ⟨k, _, _, hk⟩ := codeSpanUpTo_eq_some h
    have hku := local_codeSpanOf k u v n hk hle
    rw [codeSpanOf_ticks hu] at hku
    simp at hku
  · rw [codeSpanLength_append hu] at h
    exact local_codeSpanUpTo _ u v n h hle

theorem startsIn_codeSpanLength : StartsIn ['`'] codeSpanLength := by
  intro t n h
  obtain ⟨k, h0, hk, _⟩ := codeSpanUpTo_eq_some h
  cases t with
  | nil => simp at hk; omega
  | cons c t =>
    rcases Bool.eq_false_or_eq_true (c == '`') with hc | hc
    · simpa using hc
    · simp only [takeWhile_cons, hc, Bool.false_eq_true, if_false, length_nil] at hk
      omega

theorem endsVisible_codeSpanLength : EndsVisible codeSpanLength := by
  intro t n h
  obtain ⟨k, h0, _, hk⟩ := codeSpanUpTo_eq_some h
  have hle := le_length_of_codeSpanOf hk
  obtain ⟨body, after, hcut, _, rfl⟩ := codeSpanOf_eq_some.1 hk
  obtain ⟨j, rfl⟩ : ∃ j, k = j + 1 := ⟨k - 1, by omega⟩
  refine ⟨t.take (j + 1) ++ body ++ replicate j '`', '`', after, ?_, by decide, ?_⟩
  · have hsplit := cut?_eq_append hcut
    rw [repeated, replicate_succ'] at hsplit
    calc t = t.take (j + 1) ++ t.drop (j + 1) := (take_append_drop _ _).symm
      _ = _ := by rw [hsplit]; simp
  · simp only [length_append, length_take, length_replicate]
    omega

/-! ## Links -/

theorem contained_bracketed : Contained bracketed :=
  .cons (steady_exactly _) (.singleton (contained_through (w := []) (by decide)))

theorem contained_parenthesised : Contained parenthesised :=
  .cons (steady_exactly _) (.singleton (contained_through (w := []) (by decide)))

theorem persists_linkLength : Persists linkLength :=
  Stable.andThen_optional contained_bracketed.stable

theorem local_linkLength : Local linkLength :=
  .andThen contained_bracketed.isLocal
    (.optional (.orElse contained_parenthesised.stable.persists contained_bracketed.stable.persists)
      (.orElse contained_parenthesised.stable.persists contained_parenthesised.isLocal
        contained_bracketed.isLocal))

theorem endsVisible_linkLength : EndsVisible linkLength :=
  .andThen_optional contained_bracketed.endsVisible
    (.orElse contained_parenthesised.endsVisible contained_bracketed.endsVisible)

/-! ## Tags -/

theorem exists_closing_eq (k : TagKind) : ∃ w d, k.closing = w ++ [d] ∧ isBlank d = false := by
  cases k
  · exact ⟨['%'], '}', rfl, by decide⟩
  · exact ⟨['#'], '}', rfl, by decide⟩
  · exact ⟨['}'], '}', rfl, by decide⟩
  · exact ⟨['-', '-'], '>', rfl, by decide⟩

theorem exists_opening_eq (k : TagKind) : ∃ c w, k.opening = c :: w ∧ c ∈ ['{', '<'] := by
  cases k
  · exact ⟨'{', ['%'], rfl, by decide⟩
  · exact ⟨'{', ['#'], rfl, by decide⟩
  · exact ⟨'{', ['{'], rfl, by decide⟩
  · exact ⟨'<', ['!', '-', '-'], rfl, by decide⟩

theorem startsIn_opening (k : TagKind) (rs : List Recogniser) :
    StartsIn ['{', '<'] (sequence (exactly k.opening :: rs)) := by
  obtain ⟨c, w, hk, hc⟩ := exists_opening_eq k
  rw [hk]
  exact (startsIn_exactly hc w).andThen _

theorem contained_tagLength (k : TagKind) : Contained (tagLength k) := by
  obtain ⟨w, d, hk, hd⟩ := exists_closing_eq k
  refine .cons (steady_exactly _) (.singleton ?_)
  rw [hk]
  exact contained_through hd

/-! ## Pairs of tags -/

theorem contained_slash : Contained slash :=
  .many_cons (.singleton (contained_exactly (w := []) (by decide))) rfl

/-- The body of an HTML comment in a pair runs through the next two dashes, and a closing angle
bracket must follow these. -/
theorem pairBody_htmlComment_eq_some :
    pairBody .htmlComment t = some n ↔
      ∃ body after, cut? ['-', '-'] t = some (body, '>' :: after) ∧ n = body.length + 3 := by
  simp only [pairBody]
  constructor
  · intro h
    split at h
    · next body after hcut =>
      split at h
      · next hp =>
        obtain ⟨rest, hrest⟩ := isPrefixOf_iff_prefix.1 hp
        exact ⟨body, rest, by rw [hcut, ← hrest]; rfl, (Option.some.inj h).symm⟩
      · simp at h
    · simp at h
  · rintro ⟨body, after, hcut, rfl⟩
    rw [hcut]
    simp [startsWith]

theorem contained_pairBody_htmlComment : Contained (pairBody .htmlComment) := by
  refine .of_laws (fun u v n h => ?_) (fun u v n h hle => ?_) fun t n h => ?_
  · obtain ⟨body, after, hcut, rfl⟩ := pairBody_htmlComment_eq_some.1 h
    exact pairBody_htmlComment_eq_some.2 ⟨body, after ++ v, cut?_append hcut v, rfl⟩
  · obtain ⟨body, after, hcut, rfl⟩ := pairBody_htmlComment_eq_some.1 h
    obtain ⟨after', hcut'⟩ := cut?_of_append hcut (by simp; omega)
    -- the angle bracket is still within `u`
    have hsame := cut?_append hcut' v
    rw [hcut] at hsame
    have hafter : '>' :: after = after' ++ v := by simpa using hsame
    have hlen := congrArg length (cut?_eq_append hcut')
    cases after' with
    | nil => simp at hlen; omega
    | cons c after' =>
      obtain ⟨rfl, _⟩ : '>' = c ∧ after = after' ++ v := by simpa using hafter
      exact pairBody_htmlComment_eq_some.2 ⟨body, after', hcut', rfl⟩
  · obtain ⟨body, after, hcut, rfl⟩ := pairBody_htmlComment_eq_some.1 h
    refine ⟨body ++ ['-', '-'], '>', after, ?_, by decide, by simp⟩
    rw [cut?_eq_append hcut]

theorem contained_pairBody (k : TagKind) : Contained (pairBody k) := by
  have hseq : ∀ k : TagKind,
      Contained (sequence [many (fun c => k.closing.head? != some c), exactly k.closing]) := by
    intro k
    obtain ⟨w, d, hk, hd⟩ := exists_closing_eq k
    refine .many_cons (.singleton ?_) (by cases k <;> rfl)
    rw [hk]
    exact contained_exactly hd
  cases k with
  | htmlComment => exact contained_pairBody_htmlComment
  | statement => exact hseq .statement
  | comment => exact hseq .comment
  | expression => exact hseq .expression

theorem stable_absent_slash {s : Recogniser} (hs : Stable s) (hv : EndsVisible s) :
    Stable (andThen (absent slash) s) := by
  intro u v n h
  obtain ⟨i, j, hi, hj, rfl⟩ := andThen_eq_some.1 h
  simp only [absent, Option.ite_none_left_eq_some, Option.some.injEq] at hi
  obtain ⟨hno, rfl⟩ := hi
  rw [drop_zero] at hj
  obtain ⟨a, d, b, hab, hd, _⟩ := hv _ _ hj
  have hno' : ¬ (slash (u ++ v)).isSome := by
    intro hsome
    obtain ⟨m, hm⟩ := Option.isSome_iff_exists.1 hsome
    obtain ⟨x, y, hx, hy, rfl⟩ := andThen_eq_some.1 hm
    -- the blanks at the start end before the visible character `d`
    have hlt : (u.takeWhile isBlank).length < u.length := by
      refine Nat.lt_of_le_of_ne (List.takeWhile_prefix _).length_le fun heq => ?_
      have hall := (List.takeWhile_prefix isBlank).eq_of_length heq
      have hmem : d ∈ u.takeWhile isBlank := by rw [hall, hab]; simp
      have := mem_takeWhile_imp hmem
      rw [hd] at this
      simp at this
    simp only [many, Option.some.injEq, takeWhile_append, if_neg (Nat.ne_of_lt hlt)] at hx
    refine hno (Option.isSome_iff_exists.2 ⟨_, andThen_eq_some.2 ⟨x, y, by rw [many, hx], ?_, rfl⟩⟩)
    rw [drop_append_of_le_length (by omega)] at hy
    refine (Local.andThen (local_exactly _) local_sequence_nil) _ v y hy ?_
    obtain ⟨p, q, hp, hq, rfl⟩ := andThen_eq_some.1 hy
    simp only [exactly, Option.ite_none_right_eq_some, Option.some.injEq] at hp
    obtain rfl : 0 = q := by simpa [Recogniser.sequence] using hq
    rw [length_drop, ← hp.2]
    simp only [length_singleton]
    omega
  refine andThen_eq_some.2 ⟨0, j, ?_, by simpa using hs u v j hj, rfl⟩
  simp only [absent, if_neg hno']

theorem contained_absent_slash {s : Recogniser} (hs : Contained s) :
    Contained (andThen (absent slash) s) :=
  .of_laws (stable_absent_slash hs.stable hs.endsVisible)
    (.andThen (.absent contained_slash.stable.persists) hs.isLocal)
    (.andThen (within_absent _) hs.endsVisible)

theorem contained_tagPairLength (k : TagKind) : Contained (tagPairLength k) := by
  have hbody := contained_pairBody k
  have hclosing : Contained (sequence [exactly k.opening, slash, pairBody k]) :=
    .cons (steady_exactly _) (.cons contained_slash.toSteady (.singleton hbody))
  have htail : Contained (sequence [many isBlank, exactly k.opening, slash, pairBody k]) :=
    .many_cons hclosing (by cases k <;> rfl)
  exact .cons (steady_exactly _) (contained_absent_slash (.cons hbody.toSteady htail))

/-! ## HTML tags -/

theorem contained_htmlTag (w : Text) :
    Contained (sequence [exactly w, one isAsciiLetter, through ['>']]) :=
  .cons (steady_exactly _) (.cons (steady_one _)
    (.singleton (contained_through (w := []) (by decide))))

/-! ## Addresses -/

theorem contained_addressEnd : Contained (sequence [many isAddressChar, exactly ['>']]) :=
  .many_cons (.singleton (contained_exactly (w := []) (by decide))) rfl

theorem contained_schemeAutolink : Contained schemeAutolink :=
  .cons (steady_exactly _) (.cons (steady_one _)
    (.many_cons (.cons (steady_exactly _) contained_addressEnd) rfl))

theorem contained_mailAutolink : Contained mailAutolink :=
  .cons (steady_exactly _) (.cons (steady_one _)
    (.many_cons (.cons (steady_exactly _) (.cons (steady_one _) contained_addressEnd)) rfl))

/-- What is left of a bare address ends in a character of the address, which is not blank. -/
theorem endsVisible_urlRest : EndsVisible urlRest := by
  intro t n h
  obtain ⟨g, _, hsplit⟩ := exists_dropEndWhile isUrlTrailing (t.takeWhile isAddressChar)
  unfold urlRest at h
  split at h
  · simp at h
  · next hne =>
    obtain ⟨a, d, hkept⟩ := (eq_nil_or_concat
      (dropEndWhile isUrlTrailing (t.takeWhile isAddressChar))).resolve_left fun h0 => hne h0
    have hmem : d ∈ t.takeWhile isAddressChar := by rw [hsplit, hkept]; simp
    have hd : isBlank d = false := by
      have haddr := mem_takeWhile_imp hmem
      simp only [isAddressChar, Bool.and_eq_true, Bool.not_eq_true'] at haddr
      exact haddr.1.1
    refine ⟨a, d, g ++ t.dropWhile isAddressChar, ?_, hd, ?_⟩
    · calc t = t.takeWhile isAddressChar ++ t.dropWhile isAddressChar :=
          takeWhile_append_dropWhile.symm
        _ = _ := by rw [hsplit, hkept]; simp
    · rw [← Option.some.inj h, hkept]
      simp

theorem dropEndWhile_eq_nil_iff {p : Char → Bool} : dropEndWhile p t = [] ↔ ∀ c ∈ t, p c := by
  constructor
  · intro h
    obtain ⟨g, hg, ht⟩ := exists_dropEndWhile p t
    rw [h] at ht
    rwa [ht]
  · intro h
    have := dropEndWhile_append h []
    rwa [nil_append] at this

theorem dropEndWhile_of_length_le {p : Char → Bool} {w : Text}
    (h : (dropEndWhile p (u ++ w)).length ≤ u.length) :
    dropEndWhile p (u ++ w) = dropEndWhile p u := by
  obtain ⟨g, hg, hsplit⟩ := exists_dropEndWhile p (u ++ w)
  have hlen := congrArg length hsplit
  simp only [length_append] at hlen
  have hw : w <:+ g :=
    suffix_of_suffix_length_le (suffix_append u w) ⟨_, hsplit.symm⟩ (by omega)
  exact dropEndWhile_append (fun c hc => hg c (hw.subset hc)) u

theorem urlRest_eq_some :
    urlRest t = some n ↔
      n = (dropEndWhile isUrlTrailing (t.takeWhile isAddressChar)).length ∧ 0 < n := by
  unfold urlRest
  split
  · next h => simp [h]
  · next hne =>
    have hpos : 0 < (dropEndWhile isUrlTrailing (t.takeWhile isAddressChar)).length :=
      length_pos_iff.2 fun h => hne h
    simp only [Option.some.injEq]
    omega

theorem persists_urlRest : Persists urlRest := by
  intro u v h
  obtain ⟨n, hn⟩ := Option.isSome_iff_exists.1 h
  obtain ⟨rfl, hpos⟩ := urlRest_eq_some.1 hn
  have hkept : ¬ ∀ c ∈ u.takeWhile isAddressChar, isUrlTrailing c := fun hall => by
    rw [dropEndWhile_eq_nil_iff.2 hall] at hpos
    simp at hpos
  have hlonger : u.takeWhile isAddressChar <+: (u ++ v).takeWhile isAddressChar := by
    rw [takeWhile_append]
    split
    · next hall =>
      rw [(List.takeWhile_prefix isAddressChar).eq_of_length hall]
      exact prefix_append _ _
    · exact prefix_rfl
  refine Option.isSome_iff_exists.2 ⟨_, urlRest_eq_some.2 ⟨rfl, length_pos_iff.2 fun hnil => ?_⟩⟩
  exact hkept fun c hc => dropEndWhile_eq_nil_iff.1 hnil c (hlonger.subset hc)

theorem local_urlRest : Local urlRest := by
  intro u v n h hle
  obtain ⟨rfl, hpos⟩ := urlRest_eq_some.1 h
  refine urlRest_eq_some.2 ⟨?_, hpos⟩
  rw [takeWhile_append] at hle ⊢
  split at hle
  · -- the address goes on after `u`, and what is left of it ends within `u`
    next hall =>
    have hu := (List.takeWhile_prefix (l := u) isAddressChar).eq_of_length hall
    rw [if_pos hall, hu]
    rw [dropEndWhile_of_length_le hle]
  · next hall => rw [if_neg hall]

theorem stable_urlStart : Stable urlStart := by
  intro u v n h
  have hnone : ∀ s s' : Text, s' <+: u → ¬ s <+: s' → ¬ s' <+: s →
      exactly s (u ++ v) = none := by
    intro s s' hs' hne hne'
    rw [exactly, if_neg]
    intro hs
    have hs := isPrefixOf_iff_prefix.1 hs
    rcases prefix_or_prefix_of_prefix hs (hs'.trans (prefix_append u v)) with h | h
    · exact hne h
    · exact hne' h
  unfold urlStart orElse at h ⊢
  rcases Option.or_eq_some_iff.1 h with h | ⟨_, h⟩
  · rw [stable_exactly _ u v n h]
    rfl
  · rcases Option.or_eq_some_iff.1 h with h | ⟨_, h⟩
    · obtain ⟨w, hw, _⟩ := exactly_eq_some.1 h
      rw [hnone _ "http://".toList ⟨w, hw.symm⟩ (by decide) (by decide),
        stable_exactly _ u v n h]
      rfl
    · obtain ⟨w, hw, _⟩ := exactly_eq_some.1 h
      rw [hnone _ "www.".toList ⟨w, hw.symm⟩ (by decide) (by decide),
        hnone _ "www.".toList ⟨w, hw.symm⟩ (by decide) (by decide),
        stable_exactly _ u v n h]
      rfl

theorem within_urlStart : Within urlStart := by
  intro t n h
  rcases Option.or_eq_some_iff.1 h with h | ⟨_, h⟩
  · exact within_exactly _ t n h
  · rcases Option.or_eq_some_iff.1 h with h | ⟨_, h⟩ <;> exact within_exactly _ t n h

theorem local_urlStart : Local urlStart :=
  .orElse (stable_exactly _).persists (local_exactly _)
    (.orElse (stable_exactly _).persists (local_exactly _) (local_exactly _))

theorem persists_bareUrl : Persists (andThen urlStart urlRest) := by
  intro u v h
  obtain ⟨_, h⟩ := Option.isSome_iff_exists.1 h
  obtain ⟨i, j, hi, hj, _⟩ := andThen_eq_some.1 h
  have hle := within_urlStart u i hi
  obtain ⟨m, hm⟩ := Option.isSome_iff_exists.1
    (persists_urlRest (u.drop i) v (Option.isSome_iff_exists.2 ⟨j, hj⟩))
  rw [← drop_append_of_le_length hle] at hm
  exact Option.isSome_iff_exists.2 ⟨_, andThen_eq_some.2 ⟨i, m, stable_urlStart u v i hi, hm, rfl⟩⟩

theorem startsIn_urlStart : StartsIn ['h', 'w'] urlStart := by
  refine .orElse ?_ (.orElse ?_ ?_)
  · exact startsIn_exactly (c := 'h') (by simp) "ttps://".toList
  · exact startsIn_exactly (c := 'h') (by simp) "ttp://".toList
  · exact startsIn_exactly (c := 'w') (by simp) "ww.".toList

/-! ## All of them -/

/-- The characters that a construct may begin with. -/
def firstChars : Construct → List Char
  | codeSpan => ['`']
  | link => ['[']
  | autolink => ['<']
  | bareUrl => ['h', 'w']
  | tag _ => ['{', '<']
  | tagPair _ => ['{', '<']
  | htmlOpen => ['<']
  | htmlClose => ['<']

theorem startsIn_recogniser (k : Construct) : StartsIn k.firstChars k.recogniser := by
  cases k with
  | codeSpan => exact startsIn_codeSpanLength
  | link => exact ((startsIn_exactly (by simp [firstChars]) []).andThen _).andThen _
  | autolink =>
    exact ((startsIn_exactly (by simp [firstChars]) []).andThen _).orElse
      ((startsIn_exactly (by simp [firstChars]) []).andThen _)
  | bareUrl => exact startsIn_urlStart.andThen _
  | tag k | tagPair k => exact startsIn_opening k _
  | htmlOpen => exact (startsIn_exactly (by simp [firstChars]) []).andThen _
  | htmlClose => exact (startsIn_exactly (by simp [firstChars]) ['/']).andThen _

/-- **Edges.** A construct begins with a visible character. -/
theorem startsVisible_recogniser (k : Construct) (h : k.recogniser t = some n) :
    ∃ c u, t = c :: u ∧ isBlank c = false := by
  have hvisible : (k.firstChars.all fun c => !isBlank c) := by
    cases k <;> simp only [firstChars] <;> decide
  obtain ⟨c, u, rfl, hc⟩ := k.startsIn_recogniser t n h
  exact ⟨c, u, rfl, isBlank_of_all hvisible c hc⟩

/-- **The other edge, shorter and longer texts.** A construct ends in a visible character, is found
in any part of the text that it ends within, and one of its kind is found if more text follows. -/
theorem lasting_recogniser (k : Construct) : Lasting k.recogniser := by
  cases k with
  | codeSpan => exact ⟨endsVisible_codeSpanLength, local_codeSpanLength, persists_codeSpanLength⟩
  | link => exact ⟨endsVisible_linkLength, local_linkLength, persists_linkLength⟩
  | autolink => exact contained_schemeAutolink.lasting.orElse contained_mailAutolink.lasting
  | bareUrl =>
    exact ⟨.andThen within_urlStart endsVisible_urlRest, local_urlStart.andThen local_urlRest,
      persists_bareUrl⟩
  | tag k => exact (contained_tagLength k).lasting
  | tagPair k => exact (contained_tagPairLength k).lasting
  | htmlOpen => exact (contained_htmlTag ['<']).lasting
  | htmlClose => exact (contained_htmlTag ['<', '/']).lasting

end Reflow.Construct
