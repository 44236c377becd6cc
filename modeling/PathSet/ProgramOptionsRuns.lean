import PathSet.ProgramOptions

/-!
What a command line makes of the options. A run goes on with accepted options, and only
for command lines of the grammar. What the program dumps of its options is a command line
that gives them back.
-/

namespace PathSet
open Fallible GetOpt

variable {strtof : Bytes → ScannedFloat} {st st' : OptState}

theorem setEvents_cons {x : Event × Word} {xs : List (Event × Word)} :
    setEvents strtof st (x :: xs) = setEvent strtof st x >>= fun st => setEvents strtof st xs := rfl

theorem setEvents_append (st : OptState) (xs ys : List (Event × Word)) :
    setEvents strtof st (xs ++ ys) = setEvents strtof st xs >>= fun st => setEvents strtof st ys := by
  induction xs generalizing st with
  | nil => rfl
  | cons x xs ih =>
    rw [List.cons_append, setEvents_cons, setEvents_cons, bind_assoc]
    exact bind_congr fun st' _ => ih st'

theorem setEvent_good {e : Event} (he : e.Good) (w w' : Word) :
    setEvent strtof st (e, w) = setEvent strtof st (e, w') := by
  cases e with
  | option => rfl
  | flag => rfl
  | missing => exact he.elim
  | refused => exact he.elim

theorem setEvents_good {tr : List (Event × Word)} (hgood : ∀ x ∈ tr, x.1.Good) :
    setEvents strtof st tr = setEvents strtof st ((tr.map Prod.fst).map fun e => (e, [])) := by
  induction tr generalizing st with
  | nil => rfl
  | cons x xs ih =>
    rw [List.map_cons, List.map_cons, setEvents_cons, setEvents_cons,
      setEvent_good (hgood x List.mem_cons_self) x.2 []]
    exact bind_congr fun st' _ => ih fun y hy => hgood y (List.mem_cons_of_mem x hy)

theorem of_ofOptOutcome {α : Type} {x : OptOutcome α} {a : α} (h : ofOptOutcome x = .ok a) :
    x = .ok a := by
  cases x with
  | error e => cases h
  | ok b =>
    cases h
    rfl

theorem setCase_usage {optarg : Bytes} {o : OptCode} (h : setCase strtof st optarg o = .ok st')
    (hst : st.2.usage = true) : st'.2.usage = true := by
  cases o
  case structType | setType | poolSize | hashSize | nodeSize | rehashSize | rehashLoad | sepSet =>
    obtain ⟨v, -, h⟩ := bind_eq_ok.mp h
    cases h
    exact hst
  case help =>
    cases h
    rfl
  all_goals
    cases h
    exact hst

theorem setEvent_usage {x : Event × Word} (h : setEvent strtof st x = .ok st') :
    (st.2.usage = true → st'.2.usage = true) ∧ (x.1.Good ∨ st'.2.usage = true) := by
  obtain ⟨e, opt⟩ := x
  cases e with
  | option v optarg =>
    refine ⟨fun hst => ?_, Or.inl trivial⟩
    rw [setEvent] at h
    cases ho : OptCode.ofVal v with
    | none =>
      rw [ho] at h
      cases h
    | some o =>
      rw [ho] at h
      exact setCase_usage (of_ofOptOutcome h) hst
  | flag v =>
    cases h
    exact ⟨fun _ => rfl, Or.inl trivial⟩
  | missing v =>
    rw [setEvent] at h
    split_ifs at h
    obtain ⟨c, -, h⟩ := bind_eq_ok.mp h
    cases h
  | refused v =>
    rw [setEvent] at h
    split_ifs at h
    · obtain ⟨c, -, h⟩ := bind_eq_ok.mp h
      cases h
    · cases h
      exact ⟨fun _ => rfl, Or.inr rfl⟩

theorem setEvents_usage {tr : List (Event × Word)} (h : setEvents strtof st tr = .ok st') :
    (st.2.usage = true → st'.2.usage = true) ∧
      (st'.2.usage = false → ∀ x ∈ tr, x.1.Good) := by
  induction tr generalizing st with
  | nil =>
    cases h
    exact ⟨id, by simp⟩
  | cons x xs ih =>
    rw [setEvents_cons] at h
    obtain ⟨st₁, hx, hxs⟩ := bind_eq_ok.mp h
    obtain ⟨hkeep, hgood⟩ := setEvent_usage hx
    obtain ⟨hkeep', hgood'⟩ := ih hxs
    refine ⟨fun hst => hkeep' (hkeep hst), fun husage y hy => ?_⟩
    rcases List.mem_cons.mp hy with rfl | hy
    · refine hgood.resolve_right fun hst₁ => ?_
      rw [hkeep' hst₁] at husage
      cases husage
    · exact hgood' husage y hy

theorem options_eq (node32 : Bool) (strtof : Bytes → ScannedFloat) (program : Bytes)
    (args : List Bytes) :
    ∃ tr operands, Runs (optTable node32) ⟨program, [], [], args, []⟩ tr operands ∧
      options node32 strtof program args =
        setEvents strtof (defaultProgramOptions, OptBits.none) tr >>= fun st =>
          .ok ({ st.1 with argv := operands }, st.2) := by
  obtain ⟨tr, operands, htrace, hruns⟩ := @trace_runs (optTable node32) ⟨program, [], [], args, []⟩ _
    (Nat.lt_succ_self _)
  refine ⟨tr, operands, hruns, ?_⟩
  simp only [options, htrace]
  rfl

def setAll (strtof : Bytes → ScannedFloat) (es : List Event) : CommandOutcome OptState :=
  setEvents strtof (defaultProgramOptions, OptBits.none) (es.map fun e => (e, []))

theorem options_reads {node32 : Bool} {program : Bytes} {args : List Bytes} {opts : ProgramOptions}
    {bits : OptBits} (husage : bits.usage = false) :
    options node32 strtof program args = .ok (opts, bits) ↔
      ∃ es operands opts', Reads (optTable node32) args es operands ∧
        setAll strtof es = .ok (opts', bits) ∧ opts = { opts' with argv := operands } := by
  obtain ⟨tr, operands, hruns, hoptions⟩ := options_eq node32 strtof program args
  rw [hoptions]
  constructor
  · intro h
    obtain ⟨⟨opts', bits'⟩, hset, h⟩ := bind_eq_ok.mp h
    cases h
    have hgood := (setEvents_usage hset).2 husage
    refine ⟨tr.map Prod.fst, operands, opts', (reads_iff program []).mpr ⟨tr, hruns, rfl, hgood⟩,
      ?_, rfl⟩
    rw [setAll, ← setEvents_good hgood]
    exact hset
  · rintro ⟨es, operands', opts', hreads, hset, rfl⟩
    obtain ⟨tr', hruns', rfl, hgood⟩ := (reads_iff program []).mp hreads
    obtain ⟨rfl, rfl⟩ := hruns.unique hruns'
    rw [setAll, ← setEvents_good hgood] at hset
    rw [hset, ok_bind]

theorem ArgText.suffix {a w : Bytes} (hw : ArgText w) (h : a <:+ w) : ArgText a :=
  ⟨fun hnul => hw.nul (h.subset hnul), h.length_le.trans hw.length⟩

theorem argText_nil : ArgText [] := ⟨by simp, by simp⟩

theorem parseFloatOptarg_accepts {optName : String} {s : Bytes} {lower upper : ℚ} {v : Option ℚ}
    (h : parseFloatOptarg strtof optName s lower upper = .ok v) :
    ∀ x ∈ v, AcceptedFloat lower upper x := by
  obtain ⟨-, -, h⟩ := bind_eq_ok.mp h
  dsimp only at h
  obtain ⟨-, -, h⟩ := bind_eq_ok.mp h
  cases hv : (parseFloat strtof s).1 with
  | nan =>
    rw [hv] at h
    cases h
    simp
  | infinity =>
    rw [hv] at h
    cases h
  | finite x =>
    rw [hv] at h
    obtain ⟨u, hrefuse, h⟩ := bind_eq_ok.mp h
    cases h
    intro y hy
    obtain rfl := Option.some.inj hy
    by_contra hnot
    rw [refuse_of hnot] at hrefuse
    cases hrefuse

theorem setCase_accepted {optarg : Bytes} (harg : ArgText optarg) {o : OptCode}
    (h : setCase strtof st optarg o = .ok st') (hst : st.1.toOptions.Accepted) :
    st'.1.toOptions.Accepted := by
  cases o
  case poolSize =>
    obtain ⟨v, hv, h⟩ := bind_eq_ok.mp h
    cases h
    exact { hst with poolSize := parseSuSizeOptarg_range (by decide) hv }
  case hashSize =>
    obtain ⟨v, hv, h⟩ := bind_eq_ok.mp h
    cases h
    exact { hst with hashSize := parseSuSizeOptarg_range (by decide) hv }
  case nodeSize =>
    obtain ⟨v, hv, h⟩ := bind_eq_ok.mp h
    cases h
    exact { hst with nodeSize := parseSuSizeOptarg_range (by decide) hv }
  case rehashSize =>
    obtain ⟨v, hv, h⟩ := bind_eq_ok.mp h
    cases h
    exact { hst with rehashSize := parseFloatOptarg_accepts hv }
  case rehashLoad =>
    obtain ⟨v, hv, h⟩ := bind_eq_ok.mp h
    cases h
    exact { hst with rehashLoad := parseFloatOptarg_accepts hv }
  case sepSet =>
    obtain ⟨v, hv, h⟩ := bind_eq_ok.mp h
    cases h
    exact { hst with sepSet := parseSepSetOptarg_accepts harg hv }
  case structType | setType =>
    obtain ⟨v, -, h⟩ := bind_eq_ok.mp h
    cases h
    exact hst
  all_goals
    cases h
    exact hst

theorem argText_within {args : List Bytes} (hargs : ∀ w ∈ args, ArgText w) {optarg : Option Bytes}
    (harg : ∀ a ∈ optarg, Within args a) : ArgText (optarg.getD []) := by
  cases optarg with
  | none => exact argText_nil
  | some a =>
    obtain ⟨w, hw, ha⟩ := harg a rfl
    exact (hargs w hw).suffix ha

theorem setEvent_accepted {node32 : Bool} {args : List Bytes} (hargs : ∀ w ∈ args, ArgText w)
    {x : Event × Word} (habout : About (optTable node32) args x)
    (h : setEvent strtof st x = .ok st') (hst : st.1.toOptions.Accepted) :
    st'.1.toOptions.Accepted := by
  obtain ⟨e, opt⟩ := x
  cases e with
  | option v optarg =>
    rw [setEvent] at h
    cases ho : OptCode.ofVal v with
    | none =>
      rw [ho] at h
      cases h
    | some o =>
      rw [ho] at h
      exact setCase_accepted (argText_within hargs habout.2) (of_ofOptOutcome h) hst
  | flag =>
    cases h
    exact hst
  | missing v =>
    rw [setEvent] at h
    split_ifs at h
    obtain ⟨c, -, h⟩ := bind_eq_ok.mp h
    cases h
  | refused v =>
    rw [setEvent] at h
    split_ifs at h
    · obtain ⟨c, -, h⟩ := bind_eq_ok.mp h
      cases h
    · cases h
      exact hst

theorem setEvents_accepted {node32 : Bool} {args : List Bytes} (hargs : ∀ w ∈ args, ArgText w)
    {tr : List (Event × Word)} (habout : ∀ x ∈ tr, About (optTable node32) args x)
    (h : setEvents strtof st tr = .ok st') (hst : st.1.toOptions.Accepted) :
    st'.1.toOptions.Accepted := by
  induction tr generalizing st with
  | nil =>
    cases h
    exact hst
  | cons x xs ih =>
    rw [setEvents_cons] at h
    obtain ⟨st₁, hx, hxs⟩ := bind_eq_ok.mp h
    exact ih (fun y hy => habout y (List.mem_cons_of_mem x hy)) hxs
      (setEvent_accepted hargs (habout x List.mem_cons_self) hx hst)

theorem scan_of (program : Bytes) (args : List Bytes) : (⟨program, [], [], args, []⟩ : Scan).Of args :=
  ⟨fun hne => absurd rfl hne, fun _ => id⟩

theorem accepted_of_options {node32 : Bool} {program : Bytes} {args : List Bytes}
    (hargs : ∀ w ∈ args, ArgText w) {opts : ProgramOptions} {bits : OptBits}
    (h : options node32 strtof program args = .ok (opts, bits)) :
    opts.toOptions.Accepted := by
  obtain ⟨tr, operands, hruns, hoptions⟩ := options_eq node32 strtof program args
  rw [hoptions] at h
  obtain ⟨⟨opts', bits'⟩, hset, h⟩ := bind_eq_ok.mp h
  cases h
  exact setEvents_accepted hargs (hruns.about (scan_of program args)) hset defaultOptions_accepted

def Told {α : Type} (x : OptOutcome α) : Prop := ∀ e, x = .error e → e.format ≠ none

theorem Told.bind {α β : Type} {x : OptOutcome α} {f : α → OptOutcome β} (hx : Told x)
    (hf : ∀ a, Told (f a)) : Told (x >>= f) := by
  intro e h
  cases x with
  | error e' =>
    cases h
    exact hx _ rfl
  | ok a => exact hf a e h

theorem told_ok {α : Type} (a : α) : Told (.ok a) := fun _ h => by cases h

theorem told_refuse {p : Prop} [Decidable p] {e : OptError} (he : e.format ≠ none) :
    Told (refuse p e) := by
  intro e' h
  rw [refuse] at h
  split_ifs at h
  cases h
  exact he

theorem parseSuSizeOptarg_told (optName : String) (optArg : Bytes) {maxSize : Nat}
    (hmax : maxSize ≤ sizeMax) : Told (parseSuSizeOptarg optName optArg maxSize) := by
  intro e h
  rcases parseSuSizeOptarg_cases optName optArg hmax with ⟨v, hv, -⟩ | herr | herr
  · cases hv.symm.trans h
  · cases herr.symm.trans h
    simp [OptError.format]
  · cases herr.symm.trans h
    simp [OptError.format]

theorem parseSepSetOptarg_told (optName : String) {optArg : Bytes} (hlen : optArg.length ≤ sizeMax) :
    Told (parseSepSetOptarg optName (some optArg)) := by
  intro e h
  rw [parseSepSetOptarg_eq optName hlen] at h
  split_ifs at h
  all_goals
    cases h
    simp [OptError.format]

theorem parseFloatOptarg_told (optName : String) (optArg : Bytes) (lower upper : ℚ) :
    Told (parseFloatOptarg strtof optName optArg lower upper) := by
  refine (told_refuse (by simp [OptError.format])).bind fun _ => ?_
  generalize parseFloat strtof optArg = r
  obtain ⟨v, errno⟩ := r
  refine (told_refuse (by simp [OptError.format])).bind fun _ => ?_
  cases v with
  | nan => exact told_ok none
  | infinity =>
    intro e h
    cases h
    simp [OptError.format]
  | finite v =>
    have hrefuse : Told (refuse (¬AcceptedFloat lower upper v) (.illegal optName optArg)) :=
      told_refuse (by simp [OptError.format])
    exact hrefuse.bind fun _ => told_ok (some v)

theorem setCase_told (st : OptState) {optarg : Bytes} (hlen : optarg.length ≤ sizeMax) (o : OptCode) :
    Told (setCase strtof st optarg o) := by
  cases o
  case structType =>
    refine Told.bind (fun e h => ?_) fun _ => told_ok _
    rw [parseStructTypeOptarg] at h
    split at h
    · cases h
    · cases h
      simp [OptError.format]
  case setType =>
    refine Told.bind (fun e h => ?_) fun _ => told_ok _
    rw [parseSetTypeOptarg] at h
    split at h
    · cases h
    · cases h
      simp [OptError.format]
  case poolSize | hashSize | nodeSize =>
    exact (parseSuSizeOptarg_told _ _ (by decide)).bind fun _ => told_ok _
  case rehashSize | rehashLoad => exact (parseFloatOptarg_told _ _ _ _).bind fun _ => told_ok _
  case sepSet => exact (parseSepSetOptarg_told _ hlen).bind fun _ => told_ok _
  all_goals exact told_ok _

theorem ofVal_long {node32 : Bool} : ∀ o ∈ longOpts node32, OptCode.ofVal o.val ≠ none := by
  have hall : ((longOpts node32).all fun o => (OptCode.ofVal o.val).isSome) = true := by
    cases node32 <;> rfl
  intro o ho
  exact Option.isSome_iff_ne_none.mp (List.all_eq_true.mp hall o ho)

theorem ofVal_letters {node32 : Bool} {c : UInt8} (hc : c ∈ shortOpts node32) (hcolon : c ≠ 58) :
    OptCode.ofVal c.toNat ≠ none ∧ c.toNat < 128 := by
  have hall : ((shortOpts node32).all fun c =>
      c == 58 || ((OptCode.ofVal c.toNat).isSome && decide (c.toNat < 128))) = true := by
    cases node32 <;> rfl
  have hletter := List.all_eq_true.mp hall c hc
  rw [Bool.or_eq_true, Bool.and_eq_true, beq_iff_eq, decide_eq_true_iff] at hletter
  obtain ⟨hsome, hascii⟩ := hletter.resolve_left hcolon
  exact ⟨Option.isSome_iff_ne_none.mp hsome, hascii⟩

theorem ofVal_short {node32 : Bool} {c : UInt8} (hc : (optTable node32).short c ≠ none) :
    OptCode.ofVal c.toNat ≠ none ∧ c.toNat < 128 := by
  change shortOpt (shortOpts node32) c ≠ none at hc
  rw [shortOpt] at hc
  split_ifs at hc with hnot
  · exact absurd rfl hc
  · rw [not_or, not_or, not_not] at hnot
    exact ofVal_letters hnot.2.2 hnot.1

theorem setEvent_refused {node32 : Bool} {args : List Bytes} (hargs : ∀ w ∈ args, ArgText w)
    {x : Event × Word} (habout : About (optTable node32) args x) {e : CommandError}
    (h : setEvent strtof st x = .error e) :
    e.format ≠ none ∨ e = .arg (.abort .assertion) ∧ ∃ w ∈ args, ∃ c ∈ w, 128 ≤ c.toNat := by
  obtain ⟨event, opt⟩ := x
  cases event with
  | option v optarg =>
    obtain ⟨hval, harg⟩ := habout
    have hcase : OptCode.ofVal v ≠ none := by
      rcases hval with ⟨c, rfl, hc⟩ | ⟨o, ho, rfl⟩
      · exact (ofVal_short hc).1
      · exact ofVal_long o ho
    rw [setEvent] at h
    cases ho : OptCode.ofVal v with
    | none => exact absurd ho hcase
    | some o =>
      rw [ho] at h
      dsimp only at h
      cases hset : setCase strtof st (optarg.getD []) o with
      | ok st' =>
        rw [hset] at h
        cases h
      | error e' =>
        rw [hset] at h
        cases h
        exact Or.inl (setCase_told st (argText_within hargs harg).length o e' hset)
  | flag => cases h
  | missing v =>
    rw [setEvent] at h
    split_ifs at h with hopt
    · cases h
      exact Or.inl (by simp [CommandError.format])
    · obtain ⟨c, rfl, hc⟩ := habout.resolve_left hopt
      rw [optoptChar, if_pos (ofVal_short hc).2] at h
      cases h
      exact Or.inl (by simp [CommandError.format])
  | refused v =>
    rw [setEvent] at h
    split_ifs at h with hzero hhelp hopt
    · cases h
      exact Or.inl (by simp [CommandError.format])
    · cases h
      exact Or.inl (by simp [CommandError.format])
    · obtain ⟨c, rfl, w, hw, hcw⟩ := (habout.resolve_left hzero).resolve_left hopt
      rw [optoptChar] at h
      split_ifs at h with hascii
      · cases h
        exact Or.inl (by simp [CommandError.format])
      · cases h
        exact Or.inr ⟨rfl, w, hw, c, hcw, Nat.le_of_not_lt hascii⟩
    · cases h

theorem setEvents_refused {node32 : Bool} {args : List Bytes} (hargs : ∀ w ∈ args, ArgText w)
    {tr : List (Event × Word)} (habout : ∀ x ∈ tr, About (optTable node32) args x)
    {e : CommandError} (h : setEvents strtof st tr = .error e) :
    e.format ≠ none ∨ e = .arg (.abort .assertion) ∧ ∃ w ∈ args, ∃ c ∈ w, 128 ≤ c.toNat := by
  induction tr generalizing st with
  | nil => cases h
  | cons x xs ih =>
    rw [setEvents_cons] at h
    cases hx : setEvent strtof st x with
    | error e' =>
      rw [hx] at h
      cases h
      exact setEvent_refused hargs (habout x List.mem_cons_self) hx
    | ok st₁ =>
      rw [hx, ok_bind] at h
      exact ih (fun y hy => habout y (List.mem_cons_of_mem x hy)) h

/-- Without a call for help, the command line is accepted just when it is in the grammar, and each
option sets what it says. The options are accepted ones, and the operands are words of the line. -/
theorem command_line_grammar {node32 : Bool} {program : Bytes} {args : List Bytes}
    (hargs : ∀ w ∈ args, ArgText w) {opts : ProgramOptions} {bits : OptBits}
    (husage : bits.usage = false) :
    (options node32 strtof program args = .ok (opts, bits) ↔
      ∃ es operands opts', Reads (optTable node32) args es operands ∧
        setAll strtof es = .ok (opts', bits) ∧ opts = { opts' with argv := operands }) ∧
    (options node32 strtof program args = .ok (opts, bits) →
      opts.toOptions.Accepted ∧ opts.argv.Sublist args) := by
  refine ⟨options_reads husage, fun h => ⟨accepted_of_options hargs h, ?_⟩⟩
  obtain ⟨es, operands, opts', hreads, -, rfl⟩ := (options_reads husage).mp h
  exact hreads.sublist

def noFloat : Bytes → ScannedFloat := fun _ => ⟨.finite 0, 0, .zero⟩

def commandWords : List Bytes :=
  [ascii "-Pp4K", ascii "paths", ascii "--sep=/.", ascii "--", ascii "-x"]

theorem argText_commandWords : ∀ w ∈ commandWords, ArgText w := by
  have hnul : ∀ w ∈ commandWords, 0 ∉ w := by decide
  have hlength : ∀ w ∈ commandWords, w.length ≤ sizeMax := by decide
  exact fun w hw => ⟨hnul w hw, hlength w hw⟩

def commandOptions : ProgramOptions :=
  { defaultProgramOptions with
    action := .printSet
    poolSize := 4096
    sepSet := some [47, 46]
    argv := [ascii "paths", ascii "-x"] }

theorem command_line_grammar_words :
    (∃ es operands opts', Reads (optTable true) commandWords es operands ∧
      setAll noFloat es = .ok (opts', OptBits.none) ∧
        commandOptions = { opts' with argv := operands }) ∧
    commandOptions.toOptions.Accepted ∧ commandOptions.argv.Sublist commandWords := by
  have hread : options true noFloat [] commandWords = .ok (commandOptions, OptBits.none) := rfl
  obtain ⟨hiff, haccepted⟩ := @command_line_grammar noFloat true [] commandWords argText_commandWords
    commandOptions OptBits.none rfl
  exact ⟨hiff.mp hread, haccepted hread⟩

/-- A command line is either taken, or refused with a message. The program aborts on the letter of
an option only, and that is no ASCII one. The `malloc` of `parse_sep_set_optarg` is taken to
succeed. -/
theorem command_line_refused (node32 : Bool) (strtof : Bytes → ScannedFloat) (program : Bytes)
    {args : List Bytes} (hargs : ∀ w ∈ args, ArgText w) :
    (∃ st, options node32 strtof program args = .ok st) ∨
    (∃ e text, options node32 strtof program args = .error e ∧ e.format = some text) ∨
    (options node32 strtof program args = .error (.arg (.abort .assertion)) ∧
      ∃ w ∈ args, ∃ c ∈ w, 128 ≤ c.toNat) := by
  obtain ⟨tr, operands, hruns, hoptions⟩ := options_eq node32 strtof program args
  rw [hoptions]
  cases hset : setEvents strtof (defaultProgramOptions, OptBits.none) tr with
  | ok st => exact Or.inl ⟨_, rfl⟩
  | error e =>
    right
    rcases setEvents_refused hargs (hruns.about (scan_of program args)) hset with htold | ⟨rfl, hletter⟩
    · obtain ⟨text, htext⟩ := Option.ne_none_iff_exists'.mp htold
      exact Or.inl ⟨e, text, rfl, htext⟩
    · exact Or.inr ⟨rfl, hletter⟩

theorem command_line_refused_letter :
    options true noFloat [] [[45, 200]] = .error (.arg (.abort .assertion)) ∧
      ∃ w ∈ [[45, 200]], ∃ c ∈ w, 128 ≤ UInt8.toNat c := by
  have hargs : ∀ w ∈ [[45, 200]], ArgText w := fun w hw => by
    obtain rfl := List.mem_singleton.mp hw
    exact ⟨by decide, by decide⟩
  have habort : options true noFloat [] [[45, 200]] = .error (.arg (.abort .assertion)) := rfl
  rcases command_line_refused true noFloat [] hargs with ⟨st, h⟩ | ⟨e, text, h, he⟩ | h
  · cases habort.symm.trans h
  · cases habort.symm.trans h
    cases he
  · exact h

end PathSet
