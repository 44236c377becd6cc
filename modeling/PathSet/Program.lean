import PathSet.SetIntfRuns

/-!
The program. Its command line is read, the lines of its input are put into a set, and the
set is printed as the options say. What is printed depends on the lines alone: each of
them once, or each of their elements once, for every set that can be asked for.
-/

namespace PathSet
open Fallible FirstSeen Numbered GetOpt

/-- What `SET_PRINT_STATS` writes of a set. -/
abbrev Report (B : Build) := (n : SetIntfType) → SetState (B.State n) → Outcome Bytes

def SetIntf.printStats {B : Build} (intf : SetIntf B) (report : Report B) : Outcome Bytes := do
  report intf.funcs (← intf.obj intf.funcs)

/-- `actions`. The actions of `main` are null pointers there. -/
def actions {B : Build} : OptionsAction → Option (SetIntf B → Outcome Output)
  | .loadOnly => some fun _ => pure ⟨[], []⟩
  | .printSet => some SetIntf.printSet
  | .printElems => some SetIntf.printElems
  | .printConfig | .printSizes | .printNames => none

def blankLine {B : Build} (opt : ProgramOptions) (set : SetIntf B) : Outcome Bytes :=
  if opt.action ≠ .loadOnly then do
    if ← set.isEmpty then pure [] else pure [10]
  else pure []

def execSet (B : Build) (report : Report B) (opt : ProgramOptions) (stdin : List LineBuffer) :
    Outcome Output := do
  let set ← SetIntf.create B opt
  let (set, warnings) ← set.load stdin opt.verbose
  match actions opt.action with
  | none => .error .assertion
  | some act => do
      let out ← act set
      let warnings := warnings.map .load ++ out.warnings
      if opt.printStats then do
        let blank ← blankLine opt set
        let stats ← set.printStats report
        pure ⟨out.text ++ blank ++ stats, warnings⟩
      else pure ⟨out.text, warnings⟩

inductive ProgramError where
  | command (e : CommandError)
  | abort (why : Abort)
  deriving DecidableEq, Repr

/-- What the program does. The texts of the first three are about the build alone. -/
inductive ProgramRun where
  | config
  | sizes (structType : OptionsStructType) (setType : OptionsSetType)
  | names (structType : OptionsStructType) (setType : OptionsSetType)
  /-- The end after version, dump, statistics help and usage, as far as asked for. -/
  | info (bits : OptBits)
  | set (out : Output)
  deriving DecidableEq, Repr

def main (B : Build) (strtof : Bytes → ScannedFloat) (report : Report B) (program : Bytes)
    (args : List Bytes) (stdin : List LineBuffer) : Except ProgramError ProgramRun := do
  let (opt, bits) ← (options false strtof program args).mapError .command
  if bits.dump || bits.version || bits.usageStats || bits.usage then pure (.info bits)
  else match opt.action with
    | .printConfig => pure .config
    | .printSizes => pure (.sizes opt.structType opt.setType)
    | .printNames => pure (.names opt.structType opt.setType)
    | .loadOnly | .printSet | .printElems => do
        pure (.set (← (execSet B report opt stdin).mapError .abort))

def asked (B : Build) (opt : ProgramOptions) (ls : List Bytes) : List Bytes :=
  let n := SetIntfType.of opt.structType opt.setType
  match opt.action with
  | .printSet => if n.implemented B then ls else []
  | .printElems => n.elems (opt.sepSet.getD PathTrie.defaultSep) ls
  | _ => []

/-- The lines an action can print. -/
def Printable (B : Build) (opt : ProgramOptions) (ls : List Bytes) : Prop :=
  let n := SetIntfType.of opt.structType opt.setType
  match opt.action with
  | .printSet => n.implemented B = true → n.Fine ls
  | .printElems => n.table = .trie → Short (n.elems (opt.sepSet.getD PathTrie.defaultSep) ls)
  | _ => True

def OptionsAction.OfSet : OptionsAction → Prop
  | .loadOnly | .printSet | .printElems => True
  | .printConfig | .printSizes | .printNames => False

variable {B : Build}

theorem actions_spec {opt : ProgramOptions} (haction : opt.action.OfSet) {ls : List Bytes}
    {set : SetState (B.State (.of opt.structType opt.setType))}
    (hset : SetIntf.Serves B (.of opt.structType opt.setType) opt.toOptions ls set.impl) :
    ∃ act, actions opt.action = some act ∧
      (Printable B opt ls → ∃ ls' warnings, ls'.Perm (firsts (asked B opt ls)) ∧
        act ⟨_, set, .of opt.structType opt.setType⟩ = .ok ⟨textLines ls', warnings⟩) ∧
      (¬Printable B opt ls →
        ∃ e, act ⟨_, set, .of opt.structType opt.setType⟩ = .error e ∧ e ≠ .alloc) := by
  cases ha : opt.action with
  | printConfig => exact (ha ▸ haction : OptionsAction.OfSet .printConfig).elim
  | printSizes => exact (ha ▸ haction : OptionsAction.OfSet .printSizes).elim
  | printNames => exact (ha ▸ haction : OptionsAction.OfSet .printNames).elim
  | loadOnly =>
    refine ⟨_, rfl, fun _ => ⟨[], [], ?_, rfl⟩, fun hno => ?_⟩
    · simp [asked, ha, firsts]
    · simp [Printable, ha] at hno
  | printSet =>
    refine ⟨_, rfl, ?_⟩
    simp only [SetIntf.printSet, SetIntf.obj_self, ok_bind, asked, Printable, ha]
    cases himpl : (SetIntfType.of opt.structType opt.setType).implemented B with
    | false =>
      refine ⟨fun _ => ⟨[], _, ?_, hset.none himpl⟩, fun hno => ?_⟩
      · simp [firsts]
      · simp at hno
    | true =>
      have hprints := hset.set himpl
      refine ⟨fun hfine => ?_, fun hno => hprints.error fun hfine => hno fun _ => hfine⟩
      obtain ⟨ls', hperm, hprint⟩ := hprints.ok (hfine rfl)
      exact ⟨ls', [], hperm, hprint⟩
  | printElems =>
    refine ⟨_, rfl, ?_⟩
    simp only [SetIntf.printElems, SetIntf.obj_self, ok_bind, asked, Printable, ha]
    refine ⟨fun hfine => ?_, hset.elems.error⟩
    obtain ⟨ls', hperm, hprint⟩ := hset.elems.ok hfine
    exact ⟨ls', [], hperm, hprint⟩

def blankOf (action : OptionsAction) (ls : List Bytes) : Bytes :=
  if action = .loadOnly ∨ ls = [] then [] else [10]

theorem blankLine_spec {opt : ProgramOptions} {ls : List Bytes}
    {set : SetState (B.State (.of opt.structType opt.setType))}
    (hset : SetIntf.Serves B (.of opt.structType opt.setType) opt.toOptions ls set.impl) :
    blankLine opt (⟨_, set, .of opt.structType opt.setType⟩ : SetIntf B) =
      .ok (blankOf opt.action ls) := by
  by_cases hload : opt.action = .loadOnly
  · rw [blankLine, blankOf, if_neg (not_not.mpr hload), if_pos (Or.inl hload)]
    rfl
  · rw [blankLine, if_pos hload, SetIntf.isEmpty, SetIntf.obj_self]
    by_cases hls : ls = []
    · have hempty := hset.empty.mpr hls
      simp [blankOf, hls, hempty]
    · have hempty : (B.funcs (.of opt.structType opt.setType)).isEmpty set.impl = false := by
        rw [Bool.eq_false_iff]
        exact fun h => hls (hset.empty.mp h)
      simp [blankOf, hload, hls, hempty]

def outputOf (opt : ProgramOptions) (ls : List Bytes) (text : Bytes)
    (warnings : List ProgramWarning) (report : Outcome Bytes) : Outcome Output :=
  if opt.printStats then do
    let stats ← report
    pure ⟨text ++ blankOf opt.action ls ++ stats, warnings⟩
  else pure ⟨text, warnings⟩

theorem execSet_spec (report : Report B) {opt : ProgramOptions} (hopt : opt.toOptions.Accepted)
    (haction : opt.action.OfSet) {bs : List LineBuffer} {stream : Bytes}
    (hbs : Delivers bs stream) (hload : Loadable opt.verbose stream) :
    (execSet B report opt bs = .error .alloc ∧
        ¬(SetIntfType.of opt.structType opt.setType).Enough B
          (opt.sepSet.getD PathTrie.defaultSep) (lines stream)) ∨
      ∃ set, SetIntf.Loaded B (.of opt.structType opt.setType) opt.toOptions opt.verbose bs set ∧
        (Printable B opt (lines stream) →
          ∃ ls' warnings, ls'.Perm (firsts (asked B opt (lines stream))) ∧
            execSet B report opt bs = outputOf opt (lines stream) (textLines ls') warnings
              (report (.of opt.structType opt.setType) set)) ∧
        (¬Printable B opt (lines stream) → ∃ e, execSet B report opt bs = .error e ∧ e ≠ .alloc) := by
  obtain ⟨intf, hcreate, hcases⟩ := SetIntf.load_run B hopt hbs hload
  rcases hcases with ⟨halloc, hfew⟩ | ⟨set, warnings, hload', hserves, hloaded⟩
  · refine Or.inl ⟨?_, hfew⟩
    rw [execSet, hcreate, ok_bind, halloc]
    rfl
  right
  obtain ⟨act, hact, hok, herror⟩ := actions_spec haction hserves
  refine ⟨set, hloaded, fun hfine => ?_, fun hno => ?_⟩
  · obtain ⟨ls', warnings', hperm, hrun⟩ := hok hfine
    refine ⟨ls', warnings.map .load ++ warnings', hperm, ?_⟩
    rw [execSet, hcreate, ok_bind, hload', ok_bind]
    simp only [hact, hrun, ok_bind, blankLine_spec hserves, SetIntf.printStats, SetIntf.obj_self,
      outputOf]
  · obtain ⟨e, he, hne⟩ := herror hno
    refine ⟨e, ?_, hne⟩
    rw [execSet, hcreate, ok_bind, hload', ok_bind]
    simp only [hact, he, error_bind]

theorem main_eq {strtof : Bytes → ScannedFloat} (report : Report B) {program : Bytes}
    {args : List Bytes} {opt : ProgramOptions}
    (hoptions : options false strtof program args = .ok (opt, OptBits.none))
    (haction : opt.action.OfSet) (stdin : List LineBuffer) :
    main B strtof report program args stdin =
      ((execSet B report opt stdin).mapError .abort).map .set := by
  rw [main, hoptions]
  change (match opt.action with
    | .printConfig => pure .config
    | .printSizes => pure (.sizes opt.structType opt.setType)
    | .printNames => pure (.names opt.structType opt.setType)
    | .loadOnly | .printSet | .printElems => do
        pure (.set (← (execSet B report opt stdin).mapError .abort)) :
    Except ProgramError ProgramRun) = _
  have hrun : (do pure (.set (← (execSet B report opt stdin).mapError .abort)) :
      Except ProgramError ProgramRun) = ((execSet B report opt stdin).mapError .abort).map .set := by
    cases (execSet B report opt stdin).mapError ProgramError.abort <;> rfl
  cases ha : opt.action with
  | printConfig => exact (ha ▸ haction : OptionsAction.OfSet .printConfig).elim
  | printSizes => exact (ha ▸ haction : OptionsAction.OfSet .printSizes).elim
  | printNames => exact (ha ▸ haction : OptionsAction.OfSet .printNames).elim
  | loadOnly => exact hrun
  | printSet => exact hrun
  | printElems => exact hrun

/-- Whatever its command line and its input, the program prints what is asked for of the lines,
each of them once, and the report on the loaded set where it is asked for. It fails for the lines
that the action cannot print, and where there is not enough memory for them. -/
theorem program_output (B : Build) (report : Report B) {strtof : Bytes → ScannedFloat}
    {program : Bytes} {args : List Bytes} (hargs : ∀ w ∈ args, ArgText w) {opt : ProgramOptions}
    (hoptions : options false strtof program args = .ok (opt, OptBits.none))
    (haction : opt.action.OfSet) {stdin : List LineBuffer} {stream : Bytes}
    (hstdin : Delivers stdin stream) (hload : Loadable opt.verbose stream) :
    let run := main B strtof report program args stdin
    let n := SetIntfType.of opt.structType opt.setType
    (run = .error (.abort .alloc) ∧
        ¬n.Enough B (opt.sepSet.getD PathTrie.defaultSep) (lines stream)) ∨
      ∃ set, SetIntf.Loaded B n opt.toOptions opt.verbose stdin set ∧
        (Printable B opt (lines stream) →
          ∃ ls warnings, ls.Perm (firsts (asked B opt (lines stream))) ∧
            run = ((outputOf opt (lines stream) (textLines ls) warnings
              (report n set)).mapError .abort).map .set) ∧
        (¬Printable B opt (lines stream) → ∃ e, run = .error (.abort e) ∧ e ≠ .alloc) := by
  intro run n
  have hrun : run = ((execSet B report opt stdin).mapError .abort).map .set :=
    main_eq report hoptions haction stdin
  rcases execSet_spec report (accepted_of_options hargs hoptions) haction hstdin hload with
    ⟨halloc, hfew⟩ | ⟨set, hloaded, hok, herror⟩
  · refine Or.inl ⟨?_, hfew⟩
    rw [hrun, halloc]
    rfl
  refine Or.inr ⟨set, hloaded, fun hfine => ?_, fun hno => ?_⟩
  · obtain ⟨ls, warnings, hperm, hexec⟩ := hok hfine
    exact ⟨ls, warnings, hperm, by rw [hrun, hexec]⟩
  · obtain ⟨e, he, hne⟩ := herror hno
    exact ⟨e, by rw [hrun, he]; rfl, hne⟩

def packedBuild : Build := ⟨64, .mix64, packed, 64, true⟩

def dottedBuffers : List LineBuffer :=
  [⟨[97, 46, 98, 10, 0], 4, Nat.succ_pos _, rfl, Nat.le_of_ble_eq_true rfl⟩,
    ⟨[97, 47, 10, 0, 0], 3, Nat.succ_pos _, rfl, Nat.le_of_ble_eq_true rfl⟩,
    ⟨[97, 46, 98, 10, 0], 4, Nat.succ_pos _, rfl, Nat.le_of_ble_eq_true rfl⟩]

def dottedStream : Bytes := [97, 46, 98, 10, 97, 47, 10, 97, 46, 98, 10]

theorem program_output_dotted :
    ∃ ls warnings, ls.Perm [[97, 46], [98], [97, 47]] ∧
      main packedBuild noFloat (fun _ _ => pure (ascii "report")) [] [ascii "-ES"] dottedBuffers =
        .ok (.set ⟨textLines ls ++ [10] ++ ascii "report", warnings⟩) := by
  have hargs : ∀ w ∈ [ascii "-ES"], ArgText w := fun w hw => by
    obtain rfl := List.mem_singleton.mp hw
    exact ⟨by decide, by decide⟩
  have hoptions : options false noFloat [] [ascii "-ES"] =
      .ok ({ defaultProgramOptions with action := .printElems, printStats := true },
        OptBits.none) := rfl
  have hload : Loadable false dottedStream := ⟨by decide, by decide, by decide, nofun⟩
  have henough : Table.trie.Enough packed
      ((lines dottedStream).flatMap (elements PathTrie.defaultSep)) := by decide +kernel
  have hshort : Short ((lines dottedStream).flatMap (elements PathTrie.defaultSep)) := by
    unfold Short
    decide +kernel
  obtain ⟨set, -, hok, -⟩ := (program_output packedBuild (fun _ _ => pure (ascii "report")) hargs
    hoptions trivial (show Delivers dottedBuffers dottedStream by decide) hload).resolve_left
      fun h => h.2 henough
  obtain ⟨ls, warnings, hperm, hrun⟩ := hok fun _ => hshort
  exact ⟨ls, warnings, hperm, hrun⟩

end PathSet
