import Reflow.Cli.Options
import Reflow.Proofs.ArgumentReadings

/-!
Settings that the command line speaks of.

The second reading of the arguments knows a part of the options of the first. It notes an option
just if the argument that holds it starts with an option of that part (`mem_explicit_iff`), so a
setting is safe from the configuration if it is *given openly*. Joined to `-h`, `-i` or `-p` it is
not: the command takes the option, and the configuration has the last word on it all the same.
-/

open List

namespace Reflow.Cli

open Arguments (Fault Kind Parsed Row Spec)
open Config (Field Settings Value)

/-! ## What the second reading notes -/

/-- The option as the second reading knows it. -/
def loosened (s : Spec Switch) : Spec Switch :=
  match s.kind with
  | .choice _ => { s with kind := .text }
  | _ => s

/-- The option can be set by a configuration. -/
def Switch.isTracked (s : Switch) : Bool := s.field?.isSome

/-- **The second reading knows a part of the options.** -/
theorem part_trackedGrammar :
    Arguments.Grammar.Part grammar trackedGrammar Switch.isTracked loosened where
  options := by
    rfl
  key s := by
    unfold loosened
    split <;> rfl
  names s := by
    unfold loosened
    split <;> rfl
  flag s := by
    unfold loosened
    split <;> simp_all
  unique := by decide +kernel
  apart := by decide +kernel

theorem Switch.mem_all (s : Switch) : s ∈ Switch.all := by
  cases s <;> decide

variable {s : Switch} {f : Field} {arguments : List Text}

theorem Switch.field?_injective {s' : Switch} (h : s.field? = some f) (h' : s'.field? = some f) :
    s = s' := by
  have hall : ∀ s ∈ Switch.all, ∀ s' ∈ Switch.all,
      s.isTracked → s.field? = s'.field? → s = s' := by
    decide +kernel
  exact hall s s.mem_all s' s'.mem_all (by simp [isTracked, h]) (h.trans h'.symm)

theorem mem_explicitFields_iff {explicit : List Field} (h : explicitFields arguments = .ok explicit)
    (hf : s.field? = some f) :
    ∃ p, trackedGrammar.parseKnown arguments = .ok p ∧ (f ∈ explicit ↔ p.has s) := by
  obtain ⟨p, hp, hexplicit⟩ := Arguments.exists_of_bind h
  cases hexplicit
  refine ⟨p, hp, ?_⟩
  rw [mem_filterMap]
  constructor
  · rintro ⟨s', -, hs'⟩
    split at hs'
    · next hhas => rwa [Switch.field?_injective hf hs']
    · cases hs'
  · intro hhas
    exact ⟨s, s.mem_all, by rw [if_pos hhas, hf]⟩

/-- The option is one of those that stand in an argument which starts with an option that can be set
by a configuration. -/
def GivenOpenly (arguments : List Text) (s : Switch) : Prop :=
  ∃ ts rs, grammar.tokens arguments = .ok ts ∧ grammar.Reads ts rs ∧
    ∃ r ∈ rs, r.first.key.isTracked = true ∧ s ∈ r.keys

/-- **What the second reading notes.** A setting is noted just if its option is given openly. -/
theorem mem_explicit_iff {p : Parsed Switch} {explicit : List Field}
    (hp : grammar.parse arguments = .ok p) (h : explicitFields arguments = .ok explicit)
    (hf : s.field? = some f) : f ∈ explicit ↔ GivenOpenly arguments s := by
  obtain ⟨p', hp', hmem⟩ := mem_explicitFields_iff h hf
  obtain ⟨ts', rs', hts', hrs', hgiven'⟩ := Arguments.Grammar.exists_reads_of_parseKnown hp'
  -- the second reading takes the rows of the first that start with an option it knows
  have hopenly : ∀ ts rs, grammar.tokens arguments = .ok ts → grammar.Reads ts rs →
      (p'.has s ↔ ∃ r ∈ rs, r.first.key.isTracked ∧ s ∈ r.keys) := by
    intro ts rs hts hrs
    obtain ⟨us, hus, hseen⟩ := part_trackedGrammar.exists_tokens hts
    cases hts'.symm.trans hus
    rw [Parsed.has_iff, hgiven', flatMap_def,
      part_trackedGrammar.keys_eq hseen hrs hrs']
    simp [and_assoc]
  obtain ⟨ts, rs, hts, hrs, -⟩ :=
    Arguments.Grammar.exists_reads_of_parseKnown (Arguments.Grammar.parseKnown_of_parse hp)
  rw [hmem]
  constructor
  · intro hhas
    exact ⟨ts, rs, hts, hrs, (hopenly ts rs hts hrs).1 hhas⟩
  · rintro ⟨ts, rs, hts, hrs, hr⟩
    exact (hopenly ts rs hts hrs).2 hr

/-- An option that is given and not given openly is joined to a flag that can not be set by a
configuration. -/
theorem exists_joined_of_not_openly {p : Parsed Switch} (hp : grammar.parse arguments = .ok p)
    (hs : s.isTracked) (hhas : p.has s) (hopenly : ¬ GivenOpenly arguments s) :
    ∃ n ∈ ["-h", "-i", "-p"], ∃ more, more ≠ [] ∧ n.toList ++ more ∈ arguments := by
  obtain ⟨ts, rs, hts, hrs, hgiven⟩ :=
    Arguments.Grammar.exists_reads_of_parseKnown (Arguments.Grammar.parseKnown_of_parse hp)
  rw [Parsed.has_iff, hgiven, mem_flatMap] at hhas
  obtain ⟨r, hr, hkey⟩ := hhas
  -- the row starts with another option, so it is not that option alone
  have huntracked : r.first.key.isTracked = false := by
    by_contra htracked
    exact hopenly ⟨ts, rs, hts, hrs, r, hr, by simpa using htracked, hkey⟩
  have hmore : r.keys ≠ [r.first.key] := by
    intro hkeys
    rw [hkeys, mem_singleton] at hkey
    rw [← hkey, hs] at huntracked
    cases huntracked
  obtain ⟨hfirst, hflag, name, hname, hshort, more, hne, hargument⟩ :=
    hrs.exists_joined hts hr hmore
  have hnames : ∀ s ∈ grammar.options, s.key.isTracked = false → s.kind = .flag →
      ∀ n ∈ s.names, n[1]? ≠ some '-' → n ∈ ["-h", "-i", "-p"].map String.toList := by
    decide +kernel
  obtain ⟨n, hn, rfl⟩ := mem_map.1 (hnames _ hfirst huntracked hflag name hname hshort)
  exact ⟨n, hn, more, hne, hargument⟩

/-! ## What a configuration changes -/

namespace Options

/-- What a field holds, as a value. -/
def value (o : Options) : Field → Value
  | .width => .integer o.width
  | .semantic => .boolean o.semantic
  | .cleanups => .boolean o.cleanups
  | .smartquotes => .boolean o.smartquotes
  | .ellipses => .boolean o.ellipses
  | .listSpacing => .text o.listSpacing
  | .includes => .unset
  | .moreIncludes => .list (o.moreIncludes.map .text)
  | .excludes => (o.excludes.map fun ts => Value.list (ts.map .text)).getD .unset
  | .moreExcludes => .list (o.moreExcludes.map .text)
  | .filesMaxSize => .integer o.filesMaxSize
  | .respectGitignore => .boolean o.respectGitignore
  | .forceExclude => .boolean o.forceExclude

/-- What a field is set to: as the configuration gives it, if that is not of the kind that the field
asks for. -/
def setting (o : Options) (f : Field) : Value := (o.misfits.lookup f).getD (o.value f)

/-- The two agree on a field, and on whether all that is safe is asked for. -/
structure SameAt (f : Field) (o o' : Options) : Prop where
  auto : o'.auto = o.auto
  misfit : o'.misfits.lookup f = o.misfits.lookup f
  value : o'.value f = o.value f

variable {f g : Field} {o : Options} {v : Value}

theorem SameAt.setting {o' : Options} (h : SameAt f o o') : o'.setting f = o.setting f := by
  rw [Options.setting, Options.setting, h.misfit, h.value]

theorem SameAt.trans {o' o'' : Options} (h : SameAt f o o') (h' : SameAt f o' o'') :
    SameAt f o o'' :=
  ⟨h'.auto.trans h.auto, h'.misfit.trans h.misfit, h'.value.trans h.value⟩

theorem sameAt_setClosest (h : g ≠ f) (o : Options) (v : Value) :
    SameAt f o (o.setClosest g v) := by
  cases g <;> refine ⟨rfl, rfl, ?_⟩ <;> cases f <;> first | rfl | exact absurd rfl h

theorem sameAt_set (h : g ≠ f) (o : Options) (v : Value) : SameAt f o (o.set g v) := by
  have hclosest := sameAt_setClosest h o v
  unfold set
  split
  · exact hclosest
  · refine ⟨hclosest.auto, ?_, hclosest.value⟩
    have hother : (f == g) = false := beq_false_of_ne (Ne.symm h)
    simp [← hclosest.misfit, lookup_append, lookup_cons, hother]

theorem eq_list_of_texts? (h : v.texts?.isSome) :
    ∃ ts, v.texts? = some ts ∧ v = .list (ts.map .text) := by
  obtain ⟨ts, hts⟩ := Option.isSome_iff_exists.1 h
  refine ⟨ts, hts, ?_⟩
  cases v with
  | list items =>
    clear h
    congr 1
    rw [Value.texts?] at hts
    induction items generalizing ts with
    | nil =>
      cases hts
      rfl
    | cons item items ih =>
      simp only [mapM_cons, Option.bind_eq_bind, Option.bind_eq_some_iff, Option.pure_def,
        Option.some.injEq] at hts
      obtain ⟨t, ht, us, hus, rfl⟩ := hts
      rw [ih us hus]
      cases item <;> cases ht
      rfl
  | _ => cases hts

theorem value_setClosest (o : Options) (hf : f ≠ .includes) (hv : f.fits v) :
    (o.setClosest f v).value f = v := by
  cases f with
  | includes => exact absurd rfl hf
  | width | filesMaxSize =>
    obtain ⟨n, rfl⟩ : ∃ n, v = .integer n := by cases v <;> simp_all [Field.fits, Value.integer?]
    rfl
  | listSpacing =>
    obtain ⟨t, rfl⟩ : ∃ t, v = .text t := by cases v <;> simp_all [Field.fits, Value.text?]
    rfl
  | moreIncludes | excludes | moreExcludes =>
    obtain ⟨ts, hts, hlist⟩ := eq_list_of_texts? hv
    simp [value, setClosest, hts, ← hlist]
  | semantic | cleanups | smartquotes | ellipses | respectGitignore | forceExclude =>
    obtain ⟨b, rfl⟩ : ∃ b, v = .boolean b := by cases v <;> simp_all [Field.fits]
    rfl

theorem setting_set (hf : f ≠ .includes) (ho : o.misfits.lookup f = none) (v : Value) :
    (o.set f v).setting f = v := by
  have hmisfits : (o.setClosest f v).misfits = o.misfits := by cases f <;> rfl
  unfold set
  split
  · next hfits =>
    have hv : f.fits v := by simpa [hf] using hfits
    rw [setting, hmisfits, ho, Option.getD_none, value_setClosest o hf hv]
  · -- a value of another kind stands beside the field, and goes before what it holds
    simp [setting, hmisfits, lookup_append, ho]

/-- Take one field of a configuration, if the command line does not speak of it. -/
def take (settings : Settings) (explicit : List Field) (o : Options) (f : Field) : Options :=
  match settings.get? f with
  | none => o
  | some v => if explicit.contains f || (o.auto && isLocked f) then o else o.set f v

theorem merge_eq_foldl (o : Options) (settings : Settings) (explicit : List Field) :
    o.merge settings explicit = Field.all.foldl (take settings explicit) o := rfl

theorem sameAt_take (h : g ≠ f) (settings : Settings) (explicit : List Field) (o : Options) :
    SameAt f o (take settings explicit o g) := by
  unfold take
  split
  · exact ⟨rfl, rfl, rfl⟩
  · split
    · exact ⟨rfl, rfl, rfl⟩
    · exact sameAt_set h o _

theorem sameAt_foldl_take {fs : List Field} (h : f ∉ fs) (settings : Settings)
    (explicit : List Field) (o : Options) : SameAt f o (fs.foldl (take settings explicit) o) := by
  induction fs generalizing o with
  | nil => exact ⟨rfl, rfl, rfl⟩
  | cons g fs ih =>
    obtain ⟨hg, hfs⟩ : g ≠ f ∧ f ∉ fs := by simpa [eq_comm] using h
    exact (sameAt_take hg settings explicit o).trans (ih hfs _)

/-- Of all fields of a configuration, one decides on a field: its own. -/
theorem exists_sameAt_merge (o : Options) (settings : Settings) (explicit : List Field)
    (f : Field) :
    ∃ o', SameAt f o o' ∧ SameAt f (take settings explicit o' f) (o.merge settings explicit) := by
  have hmem : f ∈ Field.all := by cases f <;> decide
  -- each field has its turn once, and what comes before and after leaves this one
  obtain ⟨before, after, hall⟩ := append_of_mem hmem
  have hnodup : (before ++ f :: after).Nodup := hall ▸ by decide
  have hbefore : f ∉ before := fun h => by
    simpa using (nodup_append.1 hnodup).2.2 f h f (by simp)
  have hafter : f ∉ after := (nodup_cons.1 (nodup_append.1 hnodup).2.1).1
  refine ⟨before.foldl (take settings explicit) o,
    sameAt_foldl_take hbefore settings explicit o, ?_⟩
  rw [merge_eq_foldl, hall, foldl_append]
  exact sameAt_foldl_take hafter settings explicit _

theorem setting_merge_of_kept {explicit : List Field}
    (h : f ∈ explicit ∨ (o.auto ∧ isLocked f)) (settings : Settings) :
    (o.merge settings explicit).setting f = o.setting f := by
  obtain ⟨o', ho', hmerge⟩ := exists_sameAt_merge o settings explicit f
  rw [hmerge.setting, ← ho'.setting]
  unfold take
  split
  · rfl
  · rw [if_pos]
    simpa [ho'.auto] using h

theorem setting_merge_of_open {settings : Settings} {explicit : List Field} (hf : f ≠ .includes)
    (h : f ∉ explicit) (hlocked : ¬ (o.auto ∧ isLocked f))
    (hget : settings.get? f = some v) (ho : o.misfits = []) :
    (o.merge settings explicit).setting f = v := by
  obtain ⟨o', ho', hmerge⟩ := exists_sameAt_merge o settings explicit f
  have htake : take settings explicit o' f = o'.set f v := by
    rw [take, hget]
    exact if_neg (by simpa [ho'.auto, h] using hlocked)
  rw [hmerge.setting, htake]
  exact setting_set hf (by rw [ho'.misfit, ho]; rfl) v

theorem setting_withAuto {p : Parsed Switch} {s : Switch} (hf : s.field? = some f)
    (h : p.has s) : (ofParsed p).withAuto.setting f = (ofParsed p).setting f := by
  unfold withAuto
  split
  · cases s <;> simp only [Switch.field?, Option.some.injEq, reduceCtorEq] at hf <;> subst hf <;>
      simp [setting, value, ofParsed, h]
  · rfl

end Options

/-- **Settings that are kept.** Where the arguments are taken, a setting counts as spoken of just if
its option is given openly. A given option then keeps what the command reads for it, whatever the
configuration says, and also if it comes with all that is safe; otherwise the configuration has the
last word. Where nothing is joined to `-h`, `-i` or `-p`, all options are given openly. -/
theorem setting_kept_of_given_openly {arguments : List Text} {o : Options} {explicit : List Field}
    (h : parse arguments = .ok (o, explicit)) :
    ∃ p, grammar.parse arguments = .ok p ∧
      (∀ s f, s.field? = some f → (f ∈ explicit ↔ GivenOpenly arguments s)) ∧
      (∀ s f, s.field? = some f → p.has s = true →
        GivenOpenly arguments s ∨ (o.auto = true ∧ Options.isLocked f = true) →
          ∀ settings, (o.merge settings explicit).setting f = (Options.ofParsed p).setting f) ∧
      (∀ s f, s.field? = some f →
        ¬ (GivenOpenly arguments s ∨ (o.auto = true ∧ Options.isLocked f = true)) →
          ∀ settings v, Settings.get? settings f = some v →
            (o.merge settings explicit).setting f = v) ∧
      ((∀ a ∈ arguments, ∀ n ∈ ["-h", "-i", "-p"], n.toList <+: a → a = n.toList) →
        ∀ s f, s.field? = some f → p.has s = true → GivenOpenly arguments s) := by
  obtain ⟨p, hp, hrest⟩ := Arguments.exists_of_bind h
  obtain ⟨fields, hfields, hresult⟩ := Arguments.exists_of_bind hrest
  cases hresult
  have hopenly : ∀ s f, s.field? = some f → (f ∈ explicit ↔ GivenOpenly arguments s) :=
    fun s f hf => mem_explicit_iff hp hfields hf
  refine ⟨p, hp, hopenly, ?_, ?_, ?_⟩
  · intro s f hf hhas hkept settings
    rw [Options.setting_merge_of_kept (hkept.imp_left (hopenly s f hf).2),
      Options.setting_withAuto hf hhas]
  · intro s f hf hlost settings v hget
    rw [not_or] at hlost
    refine Options.setting_merge_of_open ?_ (mt (hopenly s f hf).1 hlost.1) hlost.2 hget ?_
    · rintro rfl
      cases s <;> cases hf
    · unfold Options.withAuto
      split <;> rfl
  · intro halone s f hf hhas
    by_contra hlost
    -- an option that is not given openly is joined to one of the three
    obtain ⟨n, hn, more, hne, hargument⟩ :=
      exists_joined_of_not_openly hp (by simp [Switch.isTracked, hf]) hhas hlost
    have hall := halone _ hargument n hn (prefix_append _ _)
    exact hne (by simpa using hall)

theorem exists_ok_of_toOption {ε α β : Type} {x : Except ε α} {f : α → β} {b : β}
    (h : x.toOption.map f = some b) : ∃ a, x = .ok a ∧ f a = b := by
  cases x with
  | error e => cases h
  | ok a => exact ⟨a, rfl, by simpa [Except.toOption] using h⟩

/-- Two flags in one argument, and a long name that is cut short. -/
theorem setting_kept_of_joined_flags :
    ∃ o explicit, parse ["-sc".toList, "--wid=40".toList, "a.md".toList] = .ok (o, explicit) ∧
      ∀ settings, (o.merge settings explicit).setting .semantic = .boolean true ∧
        (o.merge settings explicit).setting .width = .integer 40 := by
  have hok : ((parse ["-sc".toList, "--wid=40".toList, "a.md".toList]).toOption.map fun _ => ())
      = some () := by
    decide +kernel
  have hgiven : ((grammar.parse ["-sc".toList, "--wid=40".toList, "a.md".toList]).toOption.map
      fun p => (p.has .semantic, p.has .width, p.integer? .width))
        = some (true, true, some 40) := by
    decide +kernel
  obtain ⟨⟨o, explicit⟩, hparse, -⟩ := exists_ok_of_toOption hok
  obtain ⟨p, hp, -, hkept, -, hopenly⟩ := setting_kept_of_given_openly hparse
  obtain ⟨q, hq, hvalues⟩ := exists_ok_of_toOption hgiven
  cases hp.symm.trans hq
  simp only [Prod.mk.injEq] at hvalues
  have hall := hopenly (by decide +kernel)
  refine ⟨o, explicit, hparse, fun settings => ⟨?_, ?_⟩⟩
  · rw [hkept .semantic .semantic rfl hvalues.1 (.inl (hall .semantic .semantic rfl hvalues.1))]
    exact congrArg Value.boolean hvalues.1
  · rw [hkept .width .width rfl hvalues.2.1 (.inl (hall .width .width rfl hvalues.2.1))]
    exact congrArg (fun n : Option Int => Value.integer (n.getD Wrap.defaultWidth)) hvalues.2.2

/-- A flag that is joined to another one gives way to the configuration. -/
theorem joined_flag_overridden :
    ∃ p o explicit, grammar.parse ["-ps".toList, "a.md".toList] = .ok p ∧
      parse ["-ps".toList, "a.md".toList] = .ok (o, explicit) ∧
      p.has .semantic = true ∧ Field.semantic ∉ explicit ∧
      (o.merge (Settings.set {} .semantic (.boolean false)) explicit).semantic = false := by
  have hgiven : ((grammar.parse ["-ps".toList, "a.md".toList]).toOption.map fun p =>
      p.has .semantic) = some true := by
    decide +kernel
  have hmerged : ((parse ["-ps".toList, "a.md".toList]).toOption.map fun r =>
      (r.2, (r.1.merge (Settings.set {} .semantic (.boolean false)) r.2).semantic))
        = some ([], false) := by
    decide +kernel
  obtain ⟨p, hp, hhas⟩ := exists_ok_of_toOption hgiven
  obtain ⟨⟨o, explicit⟩, hparse, hvalues⟩ := exists_ok_of_toOption hmerged
  simp only [Prod.mk.injEq] at hvalues
  exact ⟨p, o, explicit, hp, hparse, hhas, by simp [hvalues.1], hvalues.2⟩

end Reflow.Cli
