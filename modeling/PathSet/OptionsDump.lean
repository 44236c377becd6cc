import PathSet.ProgramOptionsRuns
import PathSet.Library.Rows

/-!
The dump of the options. It tells each option in the words that set it, so that it can be
written as a command line, and that command line gives the options back.
-/

namespace PathSet
open Fallible GetOpt Decimal Rows

def OptionsAction.name : OptionsAction → String
  | .printConfig => "print-config"
  | .printSizes => "print-sizes"
  | .printNames => "print-names"
  | .loadOnly => "load-only"
  | .printSet => "print-set"
  | .printElems => "print-elems"

def OptionsStructType.name : OptionsStructType → String
  | .plain => "plain-set"
  | .path => "path-trie"

def OptionsSetType.name : OptionsSetType → String
  | .ternaryTree => "ternary-tree"
  | .linearHash => "linear-hash"
  | .gnulibHash => "gnulib-hash"

def noyes (b : Bool) : Bytes := if b then ascii "yes" else ascii "no"

inductive DumpField where
  | action
  | structType
  | setType
  | poolSize
  | hashSize
  | nodeSize
  | rehashSize
  | rehashLoad
  | sepSet
  | printStats
  | verbose
  | argc
  deriving DecidableEq, Repr

def DumpField.label : DumpField → String
  | .action => "action:      "
  | .structType => "struct-type: "
  | .setType => "set-type:    "
  | .poolSize => "pool-size:   "
  | .hashSize => "hash-size:   "
  | .nodeSize => "node-size:   "
  | .rehashSize => "rehash-size: "
  | .rehashLoad => "rehash-load: "
  | .sepSet => "sep-set:     "
  | .printStats => "print-stats: "
  | .verbose => "verbose:     "
  | .argc => "argc:        "

/-- The fields of the dump, with what it tells of each. A factor is told as `"%.04f"` does. -/
def dumpFields (node32 : Bool) (fixed4 : Option ℚ → Bytes) (opts : ProgramOptions) :
    List (DumpField × Bytes) :=
  [(.action, ascii opts.action.name),
    (.structType, ascii opts.structType.name),
    (.setType, ascii opts.setType.name),
    (.poolSize, dumpSize opts.poolSize),
    (.hashSize, dumpSize opts.hashSize)] ++
  (if node32 then [(.nodeSize, dumpSize opts.nodeSize)] else []) ++
  [(.rehashSize, fixed4 opts.rehashSize),
    (.rehashLoad, fixed4 opts.rehashLoad),
    (.sepSet, opts.sepSet.getD PathTrie.defaultSep),
    (.printStats, noyes opts.printStats),
    (.verbose, noyes opts.verbose),
    (.argc, decimal opts.argv.length)]

def dumpOptions (node32 : Bool) (fixed4 : Option ℚ → Bytes) (opts : ProgramOptions) : Bytes :=
  ((dumpFields node32 fixed4 opts).flatMap fun x => ascii x.1.label ++ x.2 ++ [10]) ++
    opts.argv.zipIdx.flatMap fun p => ascii "argv[" ++ decimal p.2 ++ ascii "]:     " ++ p.1 ++ [10]

theorem newline_notMem_decimal (n : Nat) : 10 ∉ decimal n := fun hmem => by
  have hdigit := isDigit_of_mem_decimal hmem
  exact absurd hdigit (by decide)

theorem dumpOptions_lines {node32 : Bool} {fixed4 : Option ℚ → Bytes} {opts : ProgramOptions}
    (hfields : ∀ x ∈ dumpFields node32 fixed4 opts, 10 ∉ x.2) (hargv : ∀ w ∈ opts.argv, 10 ∉ w) :
    splitLines 10 (dumpOptions node32 fixed4 opts) =
      ((dumpFields node32 fixed4 opts).map fun x => ascii x.1.label ++ x.2) ++
        opts.argv.zipIdx.map fun p => ascii "argv[" ++ decimal p.2 ++ ascii "]:     " ++ p.1 := by
  have hlabel : ∀ f : DumpField, 10 ∉ ascii f.label := by
    intro f
    cases f <;> decide
  have hwords : dumpOptions node32 fixed4 opts =
      (((dumpFields node32 fixed4 opts).map fun x => ascii x.1.label ++ x.2).flatMap (· ++ [10])) ++
        ((opts.argv.zipIdx.map fun p => ascii "argv[" ++ decimal p.2 ++ ascii "]:     " ++ p.1).flatMap
          (· ++ [10]) ++ []) := by
    simp only [dumpOptions, List.flatMap_map, List.append_nil]
  rw [hwords, splitLines_append, splitLines_append, splitLines_nil, List.append_nil]
  · intro l hl
    obtain ⟨p, hp, rfl⟩ := List.mem_map.mp hl
    have hword := hargv p.1 ((List.mem_zipIdx hp).2.2 ▸ List.getElem_mem _)
    simp only [List.mem_append, not_or]
    exact ⟨⟨⟨by decide, newline_notMem_decimal _⟩, by decide⟩, hword⟩
  · intro l hl
    obtain ⟨x, hx, rfl⟩ := List.mem_map.mp hl
    simp only [List.mem_append, not_or]
    exact ⟨hlabel x.1, hfields x hx⟩

def DumpField.words (v : Bytes) : DumpField → List Bytes
  | .action => [45 :: 45 :: v]
  | .structType => [ascii "--struct-type=" ++ v]
  | .setType => [ascii "--set-type=" ++ v]
  | .poolSize => [ascii "--pool-size=" ++ v]
  | .hashSize => [ascii "--hash-size=" ++ v]
  | .nodeSize => [ascii "--node-size=" ++ v]
  | .sepSet => [ascii "--separators=" ++ v]
  | .printStats => [ascii (if v = ascii "yes" then "--print-stats" else "--no-print-stats")]
  | .verbose => [ascii (if v = ascii "yes" then "--verbose" else "--no-verbose")]
  | .rehashSize | .rehashLoad | .argc => []

def dumpArgs (node32 : Bool) (fixed4 : Option ℚ → Bytes) (opts : ProgramOptions) : List Bytes :=
  ((dumpFields node32 fixed4 opts).flatMap fun x => x.1.words x.2) ++ dashes :: opts.argv

def OptionsAction.code : OptionsAction → OptCode
  | .printConfig => .printConfig
  | .printSizes => .printSizes
  | .printNames => .printNames
  | .loadOnly => .loadOnly
  | .printSet => .printSet
  | .printElems => .printElems

def dumpChoices (node32 : Bool) (opts : ProgramOptions) : List (LongOption × Option Bytes) :=
  [(longOpt opts.action.name false opts.action.code, none),
    (longOpt "struct-type" true .structType, some (ascii opts.structType.name)),
    (longOpt "set-type" true .setType, some (ascii opts.setType.name)),
    (longOpt "pool-size" true .poolSize, some (dumpSize opts.poolSize)),
    (longOpt "hash-size" true .hashSize, some (dumpSize opts.hashSize))] ++
  (if node32 then [(longOpt "node-size" true .nodeSize, some (dumpSize opts.nodeSize))] else []) ++
  [(longOpt "separators" true .sepSet, some (opts.sepSet.getD PathTrie.defaultSep)),
    (if opts.printStats then longOpt "print-stats" false .printStats
      else longOpt "no-print-stats" false .noPrintStats, none),
    (if opts.verbose then longOpt "verbose" false .verbose
      else longOpt "no-verbose" false .noVerbose, none)]

theorem noyes_eq (b : Bool) : (noyes b = ascii "yes") ↔ b = true := by
  cases b <;> decide

theorem dumpArgs_eq (node32 : Bool) (fixed4 : Option ℚ → Bytes) (opts : ProgramOptions) :
    dumpArgs node32 fixed4 opts =
      ((dumpChoices node32 opts).map fun x => x.1.word x.2) ++ dashes :: opts.argv := by
  have hstats : ascii (if opts.printStats = true then "--print-stats" else "--no-print-stats") =
      (if opts.printStats then longOpt "print-stats" false .printStats
        else longOpt "no-print-stats" false .noPrintStats).word none := by
    cases opts.printStats <;> rfl
  have hverbose : ascii (if opts.verbose = true then "--verbose" else "--no-verbose") =
      (if opts.verbose then longOpt "verbose" false .verbose
        else longOpt "no-verbose" false .noVerbose).word none := by
    cases opts.verbose <;> rfl
  cases node32 with
  | false =>
    simp only [dumpArgs, dumpFields, dumpChoices, DumpField.words, noyes_eq, hstats, hverbose,
      List.flatMap_cons, List.flatMap_nil, List.map_cons, List.map_nil, List.cons_append,
      List.nil_append, Bool.false_eq_true, if_false]
    rfl
  | true =>
    simp only [dumpArgs, dumpFields, dumpChoices, DumpField.words, noyes_eq, hstats, hverbose,
      List.flatMap_cons, List.flatMap_nil, List.map_cons, List.map_nil, List.cons_append,
      List.nil_append, if_true]
    rfl

theorem distinct_longOpts (node32 : Bool) : Distinct (longOpts node32) where
  nodup := by cases node32 <;> decide
  ne_nil := by cases node32 <;> decide
  eq := by cases node32 <;> decide

theorem dumpChoices_long (node32 : Bool) (opts : ProgramOptions) :
    ∀ x ∈ dumpChoices node32 opts, x.1 ∈ longOpts node32 ∧ x.1.hasArg = x.2.isSome := by
  have haction : longOpt opts.action.name false opts.action.code ∈ longOpts node32 := by
    cases opts.action <;> cases node32 <;> decide
  have hstats : (if opts.printStats then longOpt "print-stats" false .printStats
      else longOpt "no-print-stats" false .noPrintStats) ∈ longOpts node32 := by
    cases opts.printStats <;> cases node32 <;> decide
  have hverbose : (if opts.verbose then longOpt "verbose" false .verbose
      else longOpt "no-verbose" false .noVerbose) ∈ longOpts node32 := by
    cases opts.verbose <;> cases node32 <;> decide
  have hnone : ∀ (b : Bool) (m n : String) (o o' : OptCode),
      (if b then longOpt m false o else longOpt n false o').hasArg = false := by
    intro b m n o o'
    cases b <;> rfl
  have hgiven : ∀ x ∈ [longOpt "struct-type" true .structType, longOpt "set-type" true .setType,
      longOpt "pool-size" true .poolSize, longOpt "hash-size" true .hashSize,
      longOpt "separators" true .sepSet], x ∈ longOpts node32 := by
    cases node32 <;> decide
  simp only [List.forall_mem_cons] at hgiven
  obtain ⟨hstruct, hset, hpool, hhash, hsep, -⟩ := hgiven
  intro x hx
  simp only [dumpChoices, List.mem_append, List.mem_cons, List.not_mem_nil, or_false] at hx
  rcases hx with ((rfl | rfl | rfl | rfl | rfl) | hx) | rfl | rfl | rfl
  · exact ⟨haction, rfl⟩
  · exact ⟨hstruct, rfl⟩
  · exact ⟨hset, rfl⟩
  · exact ⟨hpool, rfl⟩
  · exact ⟨hhash, rfl⟩
  · cases node32 with
    | false => cases hx
    | true =>
      obtain rfl := List.mem_singleton.mp hx
      have hnode : longOpt "node-size" true .nodeSize ∈ longOpts true := by decide
      exact ⟨hnode, rfl⟩
  · exact ⟨hsep, rfl⟩
  · exact ⟨hstats, hnone _ _ _ _ _⟩
  · exact ⟨hverbose, hnone _ _ _ _ _⟩

variable {strtof : Bytes → ScannedFloat} {st st' : OptState}

def setChoices (strtof : Bytes → ScannedFloat) (st : OptState)
    (xs : List (LongOption × Option Bytes)) : CommandOutcome OptState :=
  setEvents strtof st ((xs.map fun x => x.1.event x.2).map fun e => (e, []))

theorem setChoices_append (st : OptState) (xs ys : List (LongOption × Option Bytes)) :
    setChoices strtof st (xs ++ ys) = setChoices strtof st xs >>= fun st => setChoices strtof st ys := by
  rw [setChoices, List.map_append, List.map_append, setEvents_append]
  rfl

theorem setChoices_cons {name : String} {hasArg : Bool} {o : OptCode} {arg : Option Bytes}
    {xs : List (LongOption × Option Bytes)} (h : setCase strtof st (arg.getD []) o = .ok st') :
    setChoices strtof st ((longOpt name hasArg o, arg) :: xs) = setChoices strtof st' xs := by
  have hevent : (longOpt name hasArg o).event arg = .option o.val arg := rfl
  rw [setChoices, List.map_cons, List.map_cons, setEvents_cons, hevent, setEvent, OptCode.ofVal_val]
  dsimp only
  rw [h]
  rfl

theorem length_le_of_nodup {s : Bytes} (h : s.Nodup) : s.length ≤ sizeMax := by
  have hsub : s.map UInt8.toNat ⊆ List.range 256 := fun n hn => by
    obtain ⟨c, -, rfl⟩ := List.mem_map.mp hn
    exact List.mem_range.mpr c.toNat_lt
  have hnodup : (s.map UInt8.toNat).Nodup := h.map fun _ _ => UInt8.toNat_inj.mp
  have hle := (List.subperm_of_subset hnodup hsub).length_le
  rw [List.length_map, List.length_range] at hle
  exact hle.trans (by decide)

theorem sepSet_accepted {opts : ProgramOptions} (hopts : opts.toOptions.Accepted) :
    47 ∈ opts.sepSet.getD PathTrie.defaultSep ∧ (opts.sepSet.getD PathTrie.defaultSep).Nodup := by
  cases hsep : opts.sepSet with
  | none => exact ⟨by decide, by decide⟩
  | some s =>
    obtain ⟨hslash, hnodup, -⟩ := hopts.sepSet s hsep
    exact ⟨hslash, hnodup⟩

def ProgramOptions.told (node32 : Bool) (opts : ProgramOptions) : ProgramOptions :=
  { opts with
    rehashSize := none
    rehashLoad := none
    nodeSize := if node32 then opts.nodeSize else defaultOptions.nodeSize
    sepSet := some (opts.sepSet.getD PathTrie.defaultSep) }

theorem dumpSize_read {optName : String} {v maxSize : Nat} (hmax : maxSize ≤ sizeMax)
    (hv : 0 < v ∧ v ≤ maxSize) : parseSuSizeOptarg optName (dumpSize v) maxSize = .ok v :=
  parseSuSizeOptarg_of_text optName hmax (suText_dumpSize v) hv.1 hv.2

theorem setAll_dumpChoices (node32 : Bool) {opts : ProgramOptions} (hopts : opts.toOptions.Accepted) :
    setAll strtof ((dumpChoices node32 opts).map fun x => x.1.event x.2) =
      .ok ({ opts.told node32 with argv := [] }, OptBits.none) := by
  have haction : ∀ st, setCase strtof st [] opts.action.code =
      .ok ({ st.1 with action := opts.action }, st.2) := by
    cases opts.action <;> exact fun _ => rfl
  have hstruct : ∀ st, setCase strtof st (ascii opts.structType.name) .structType =
      .ok ({ st.1 with structType := opts.structType }, st.2) := by
    cases opts.structType <;> exact fun _ => rfl
  have hset : ∀ st, setCase strtof st (ascii opts.setType.name) .setType =
      .ok ({ st.1 with setType := opts.setType }, st.2) := by
    cases opts.setType <;> exact fun _ => rfl
  have hpool : ∀ st, setCase strtof st (dumpSize opts.poolSize) .poolSize =
      .ok ({ st.1 with poolSize := opts.poolSize }, st.2) := fun st => by
    rw [setCase, poolSizeOpt, dumpSize_read (by decide) hopts.poolSize]
    rfl
  have hhash : ∀ st, setCase strtof st (dumpSize opts.hashSize) .hashSize =
      .ok ({ st.1 with hashSize := opts.hashSize }, st.2) := fun st => by
    rw [setCase, hashSizeOpt, dumpSize_read (by decide) hopts.hashSize]
    rfl
  have hnode : ∀ st, setCase strtof st (dumpSize opts.nodeSize) .nodeSize =
      .ok ({ st.1 with nodeSize := opts.nodeSize }, st.2) := fun st => by
    rw [setCase, nodeSizeOpt, dumpSize_read (by decide) hopts.nodeSize]
    rfl
  have hsep : ∀ st, setCase strtof st (opts.sepSet.getD PathTrie.defaultSep) .sepSet =
      .ok ({ st.1 with sepSet := some (opts.sepSet.getD PathTrie.defaultSep) }, st.2) := fun st => by
    obtain ⟨hslash, hnodup⟩ := sepSet_accepted hopts
    rw [setCase, parseSepSetOptarg_eq _ (length_le_of_nodup hnodup), if_pos hslash, if_pos hnodup]
    rfl
  have hnodes : ∀ st : OptState, st.1.nodeSize = defaultOptions.nodeSize →
      setChoices strtof st (if node32 then
        [(longOpt "node-size" true .nodeSize, some (dumpSize opts.nodeSize))] else []) =
      .ok ({ st.1 with nodeSize := (opts.told node32).nodeSize }, st.2) := fun st hst => by
    cases node32 with
    | false =>
      rw [ProgramOptions.told, if_neg Bool.false_ne_true, if_neg Bool.false_ne_true, ← hst]
      rfl
    | true => exact setChoices_cons (hnode st)
  have hstats : ∀ st xs, setChoices strtof st ((if opts.printStats then
      longOpt "print-stats" false .printStats else longOpt "no-print-stats" false .noPrintStats,
        none) :: xs) =
      setChoices strtof ({ st.1 with printStats := opts.printStats }, st.2) xs := by
    cases opts.printStats <;> exact fun _ _ => setChoices_cons rfl
  have hverbose : ∀ st, setChoices strtof st [(if opts.verbose then
      longOpt "verbose" false .verbose else longOpt "no-verbose" false .noVerbose, none)] =
      .ok ({ st.1 with verbose := opts.verbose }, st.2) := by
    cases opts.verbose <;> exact fun _ => setChoices_cons rfl
  change setChoices strtof (defaultProgramOptions, OptBits.none) (dumpChoices node32 opts) = _
  rw [dumpChoices, setChoices_append, setChoices_append, setChoices_cons (haction _),
    setChoices_cons (hstruct _), setChoices_cons (hset _), setChoices_cons (hpool _),
    setChoices_cons (hhash _)]
  change (setChoices strtof _ _ >>= fun st => setChoices strtof st _) = _
  rw [hnodes _ rfl, ok_bind, setChoices_cons (hsep _), hstats, hverbose]
  rfl

/-- The command line of a dump gives the options back, but for the factors. -/
theorem dumped_options_read_back (node32 : Bool) (strtof : Bytes → ScannedFloat)
    (fixed4 : Option ℚ → Bytes) (program : Bytes) {opts : ProgramOptions}
    (hopts : opts.toOptions.Accepted) :
    options node32 strtof program (dumpArgs node32 fixed4 opts) =
      .ok (opts.told node32, OptBits.none) := by
  rw [dumpArgs_eq, options_reads rfl]
  have hreads := @reads_words (optTable node32) (distinct_longOpts node32) _
    (dumpChoices_long node32 opts) opts.argv
  exact ⟨_, _, _, hreads, setAll_dumpChoices node32 hopts, rfl⟩

theorem dumped_defaults_read_back :
    options true noFloat [] (dumpArgs true (fun _ => ascii "nan") defaultProgramOptions) =
      .ok (defaultProgramOptions.told true, OptBits.none) :=
  dumped_options_read_back true noFloat _ [] defaultOptions_accepted

end PathSet
