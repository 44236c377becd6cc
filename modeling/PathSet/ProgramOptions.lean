import PathSet.SepOptArg
import PathSet.PathTrie
import PathSet.Library.CommandLine

/-!
The options of the program, from its command line. The scanner hands over one option after
the other, and the first argument that is refused ends the program.
-/

namespace PathSet
open Fallible GetOpt

inductive OptionsAction where
  | printConfig
  | printSizes
  | printNames
  | loadOnly
  | printSet
  | printElems
  deriving DecidableEq, Repr

inductive OptionsStructType where
  | plain
  | path
  deriving DecidableEq, Repr

inductive OptionsSetType where
  | ternaryTree
  | linearHash
  | gnulibHash
  deriving DecidableEq, Repr

/-- `struct options_t` -/
structure ProgramOptions extends Options where
  action : OptionsAction
  structType : OptionsStructType
  setType : OptionsSetType
  printStats : Bool
  verbose : Bool
  argv : List Bytes

def defaultProgramOptions : ProgramOptions :=
  ⟨defaultOptions, .loadOnly, .path, .ternaryTree, false, false, []⟩

/-- Pattern `l|p[ath-trie|lain-set]`. -/
def lookupStructType : Bytes → Option OptionsStructType
  | 108 :: n => if n = [] then some .plain else none
  | 112 :: n =>
      match n with
      | [] => some .path
      | 97 :: n => if n = ascii "th-trie" then some .path else none
      | 108 :: n => if n = ascii "ain-set" then some .plain else none
      | _ => none
  | _ => none

/-- Pattern `g[nulib-hash]|l[inear-hash]|t[ernary-tree]`. -/
def lookupSetType : Bytes → Option OptionsSetType
  | 103 :: n => if n = [] ∨ n = ascii "nulib-hash" then some .gnulibHash else none
  | 108 :: n => if n = [] ∨ n = ascii "inear-hash" then some .linearHash else none
  | 116 :: n => if n = [] ∨ n = ascii "ernary-tree" then some .ternaryTree else none
  | _ => none

def parseStructTypeOptarg (optArg : Bytes) : OptOutcome OptionsStructType :=
  match lookupStructType optArg with
  | some t => .ok t
  | none => .error (.invalid "struct-type" optArg)

def parseSetTypeOptarg (optArg : Bytes) : OptOutcome OptionsSetType :=
  match lookupSetType optArg with
  | some t => .ok t
  | none => .error (.invalid "set-type" optArg)

inductive FloatValue where
  | nan
  | infinity (negative : Bool)
  | finite (v : ℚ)

structure ScannedFloat where
  value : FloatValue
  stop : Nat
  errno : Errno

def parseFloat (strtof : Bytes → ScannedFloat) (p : Bytes) : FloatValue × Errno :=
  if isSpace (p.headD 0) then (.nan, .einval)
  else
    let s := strtof p
    if s.stop = 0 ∨ p.getD s.stop 0 ≠ 0 then (.nan, .einval) else (s.value, s.errno)

instance (lower upper v : ℚ) : Decidable (AcceptedFloat lower upper v) :=
  inferInstanceAs (Decidable (_ ∧ _))

def parseFloatOptarg (strtof : Bytes → ScannedFloat) (optName : String) (optArg : Bytes)
    (lower upper : ℚ) : OptOutcome (Option ℚ) := do
  refuse (optArg.length = 0) (.invalid optName optArg)
  let (v, errno) := parseFloat strtof optArg
  refuse (errno ≠ .zero) (.invalid optName optArg)
  match v with
  | .nan => pure none
  | .infinity _ => .error (.illegal optName optArg)
  | .finite v => do
      refuse (¬AcceptedFloat lower upper v) (.illegal optName optArg)
      pure (some v)

inductive OptCode where
  | printConfig
  | printSizes
  | printNames
  | loadOnly
  | printSet
  | printElems
  | poolSize
  | hashSize
  | nodeSize
  | structType
  | setType
  | rehashSize
  | rehashLoad
  | sepSet
  | printStats
  | verbose
  | version
  | help
  | dumpOpts
  | noVerbose
  | noPrintStats
  | plainSet
  | pathTrie
  | ternaryTree
  | linearHash
  | gnulibHash
  | helpStats
  deriving DecidableEq, Repr

def OptCode.val : OptCode → Nat
  | .printConfig => 'C'.toNat
  | .printSizes => 'I'.toNat
  | .printNames => 'N'.toNat
  | .loadOnly => 'L'.toNat
  | .printSet => 'P'.toNat
  | .printElems => 'E'.toNat
  | .poolSize => 'p'.toNat
  | .hashSize => 'h'.toNat
  | .nodeSize => 'n'.toNat
  | .structType => 'r'.toNat
  | .setType => 's'.toNat
  | .rehashSize => 'z'.toNat
  | .rehashLoad => 'l'.toNat
  | .sepSet => 't'.toNat
  | .printStats => 'S'.toNat
  | .verbose => 'V'.toNat
  | .version => 'v'.toNat
  | .help => '?'.toNat
  | .dumpOpts => 128
  | .noVerbose => 129
  | .noPrintStats => 130
  | .plainSet => 131
  | .pathTrie => 132
  | .ternaryTree => 133
  | .linearHash => 134
  | .gnulibHash => 135
  | .helpStats => 136

def OptCode.all : List OptCode :=
  [.printConfig, .printSizes, .printNames, .loadOnly, .printSet, .printElems, .poolSize, .hashSize,
    .nodeSize, .structType, .setType, .rehashSize, .rehashLoad, .sepSet, .printStats, .verbose,
    .version, .help, .dumpOpts, .noVerbose, .noPrintStats, .plainSet, .pathTrie, .ternaryTree,
    .linearHash, .gnulibHash, .helpStats]

/-- The `case` of a value. -/
def OptCode.ofVal (v : Nat) : Option OptCode := OptCode.all.find? fun o => o.val = v

theorem OptCode.ofVal_val (o : OptCode) : OptCode.ofVal o.val = some o := by
  cases o <;> rfl

def longOpt (name : String) (hasArg : Bool) (o : OptCode) : LongOption :=
  ⟨ascii name, hasArg, false, o.val⟩

/-- `long_opts`, with `--node-size` where the nodes of path tries have 32-bit offsets. -/
def longOpts (node32 : Bool) : List LongOption :=
  [longOpt "print-config" false .printConfig,
    longOpt "print-sizes" false .printSizes,
    longOpt "print-names" false .printNames,
    longOpt "load-only" false .loadOnly,
    longOpt "print-set" false .printSet,
    longOpt "set" false .printSet,
    longOpt "print-elems" false .printElems,
    longOpt "elems" false .printElems,
    longOpt "struct-type" true .structType,
    longOpt "plain-set" false .plainSet,
    longOpt "path-trie" false .pathTrie,
    longOpt "set-type" true .setType,
    longOpt "type" true .setType,
    longOpt "ternary-tree" false .ternaryTree,
    longOpt "linear-hash" false .linearHash,
    longOpt "gnulib-hash" false .gnulibHash,
    longOpt "pool-size" true .poolSize,
    longOpt "hash-size" true .hashSize] ++
  (if node32 then [longOpt "node-size" true .nodeSize] else []) ++
  [longOpt "rehash-size" true .rehashSize,
    longOpt "rehash-load" true .rehashLoad,
    longOpt "separators" true .sepSet,
    longOpt "seps" true .sepSet,
    longOpt "print-stats" false .printStats,
    longOpt "stats" false .printStats,
    longOpt "no-print-stats" false .noPrintStats,
    longOpt "no-stats" false .noPrintStats,
    longOpt "dump-options" false .dumpOpts,
    longOpt "verbose" false .verbose,
    longOpt "no-verbose" false .noVerbose,
    longOpt "version" false .version,
    longOpt "help-stats" false .helpStats,
    -- stored into `optopt`
    ⟨ascii "help", false, true, OptCode.help.val⟩]

def shortOpts (node32 : Bool) : Bytes :=
  ascii ":CINLPE" ++ (if node32 then ascii "n:" else []) ++ ascii "h:l:p:r:s:St:Vvz:"

/-- A letter of `opts` that a colon follows takes an argument. -/
def shortOpt (opts : Bytes) (c : UInt8) : Option Bool :=
  if c = 58 ∨ c = 59 ∨ c ∉ opts then none else some (opts[opts.idxOf c + 1]? = some 58)

def optTable (node32 : Bool) : Table where
  short := shortOpt (shortOpts node32)
  long := longOpts node32
  dash := by cases node32 <;> decide

structure OptBits where
  dump : Bool
  usage : Bool
  usageStats : Bool
  version : Bool
  deriving DecidableEq, Repr

def OptBits.none : OptBits := ⟨false, false, false, false⟩

inductive CommandError where
  | arg (e : OptError)
  | missingOptArgStr (optName : Bytes)
  | missingOptArgCh (optName : UInt8)
  | notAllowedOptArg (optName : Bytes)
  | invalidOptStr (optName : Bytes)
  | invalidOptCh (optName : UInt8)
  deriving DecidableEq, Repr

def CommandError.format : CommandError → Option Bytes
  | .arg e => e.format
  | .missingOptArgStr optName =>
      some (ascii "argument for option '" ++ optName ++ ascii "' not found")
  | .missingOptArgCh optName =>
      some (ascii "argument for option '-" ++ optName :: ascii "' not found")
  | .notAllowedOptArg optName =>
      some (ascii "option '" ++ optName ++ ascii "' does not allow an argument")
  | .invalidOptStr optName =>
      some (ascii "invalid command line option '" ++ optName ++ ascii "'")
  | .invalidOptCh optName =>
      some (ascii "invalid command line option '-" ++ optName :: ascii "'")

abbrev CommandOutcome := Except CommandError

def ofOptOutcome {α : Type} (x : OptOutcome α) : CommandOutcome α := x.mapError .arg

/-- `optopt_char`, whose assertion is that the letter is an ASCII one. -/
def optoptChar (optopt : Nat) : CommandOutcome UInt8 :=
  if optopt < 128 then .ok (UInt8.ofNat optopt) else .error (.arg (.abort .assertion))

abbrev OptState := ProgramOptions × OptBits

/-- The `case` of an option. The scanner has found the argument of those that take one. -/
def setCase (strtof : Bytes → ScannedFloat) (st : OptState) (optarg : Bytes) :
    OptCode → OptOutcome OptState
  | .printConfig => pure ({ st.1 with action := .printConfig }, st.2)
  | .printSizes => pure ({ st.1 with action := .printSizes }, st.2)
  | .printNames => pure ({ st.1 with action := .printNames }, st.2)
  | .loadOnly => pure ({ st.1 with action := .loadOnly }, st.2)
  | .printSet => pure ({ st.1 with action := .printSet }, st.2)
  | .printElems => pure ({ st.1 with action := .printElems }, st.2)
  | .structType => do
      let t ← parseStructTypeOptarg optarg
      pure ({ st.1 with structType := t }, st.2)
  | .plainSet => pure ({ st.1 with structType := .plain }, st.2)
  | .pathTrie => pure ({ st.1 with structType := .path }, st.2)
  | .setType => do
      let t ← parseSetTypeOptarg optarg
      pure ({ st.1 with setType := t }, st.2)
  | .ternaryTree => pure ({ st.1 with setType := .ternaryTree }, st.2)
  | .linearHash => pure ({ st.1 with setType := .linearHash }, st.2)
  | .gnulibHash => pure ({ st.1 with setType := .gnulibHash }, st.2)
  | .poolSize => do
      let v ← poolSizeOpt optarg
      pure ({ st.1 with poolSize := v }, st.2)
  | .hashSize => do
      let v ← hashSizeOpt optarg
      pure ({ st.1 with hashSize := v }, st.2)
  | .nodeSize => do
      let v ← nodeSizeOpt optarg
      pure ({ st.1 with nodeSize := v }, st.2)
  | .rehashSize => do
      let v ← parseFloatOptarg strtof "rehash-size" optarg 1 4
      pure ({ st.1 with rehashSize := v }, st.2)
  | .rehashLoad => do
      let v ← parseFloatOptarg strtof "rehash-load" optarg 0 1
      pure ({ st.1 with rehashLoad := v }, st.2)
  | .sepSet => do
      let v ← parseSepSetOptarg "sep-set" (some optarg)
      pure ({ st.1 with sepSet := v }, st.2)
  | .printStats => pure ({ st.1 with printStats := true }, st.2)
  | .noPrintStats => pure ({ st.1 with printStats := false }, st.2)
  | .dumpOpts => pure (st.1, { st.2 with dump := true })
  | .verbose => pure ({ st.1 with verbose := true }, st.2)
  | .noVerbose => pure ({ st.1 with verbose := false }, st.2)
  | .version => pure (st.1, { st.2 with version := true })
  | .helpStats => pure (st.1, { st.2 with usageStats := true })
  | .help => pure (st.1, { st.2 with usage := true })

/-- One round of the loop, with the word in front of the next one as `argv_optind`. -/
def setEvent (strtof : Bytes → ScannedFloat) (st : OptState) : Event × Word → CommandOutcome OptState
  | (.option v optarg, _) =>
      match OptCode.ofVal v with
      | some o => ofOptOutcome (setCase strtof st (optarg.getD []) o)
      -- no option has another value
      | none => .error (.arg (.abort .stray))
  | (.flag _, _) => pure (st.1, { st.2 with usage := true })
  | (.missing v, opt) =>
      if opt.take 2 = dashes then .error (.missingOptArgStr opt)
      else do .error (.missingOptArgCh (← optoptChar v))
  | (.refused v, opt) =>
      if v = 0 then .error (.invalidOptStr opt)
      else if v ≠ OptCode.help.val then
        if opt.take 2 = dashes then .error (.notAllowedOptArg (nameOf opt))
        else do .error (.invalidOptCh (← optoptChar v))
      else pure (st.1, { st.2 with usage := true })

def setEvents (strtof : Bytes → ScannedFloat) : OptState → List (Event × Word) → CommandOutcome OptState
  | st, [] => .ok st
  | st, x :: xs => do setEvents strtof (← setEvent strtof st x) xs

/-- `options`. The program prints and exits when one of the bits is set. -/
def options (node32 : Bool) (strtof : Bytes → ScannedFloat) (program : Bytes) (args : List Bytes) :
    CommandOutcome OptState :=
  let s : Scan := ⟨program, [], [], args, []⟩
  match trace (optTable node32) (s.size + 1) s with
  | none => .error (.arg (.abort .hang))
  | some (tr, operands) => do
      let (opts, bits) ← setEvents strtof (defaultProgramOptions, OptBits.none) tr
      pure ({ opts with argv := operands }, bits)

end PathSet
