import PathSet.Library.Rows
import PathSet.Clocks
import PathSet.OptArg
import PathSet.SizeFrac

/-!
How statistics are printed. A table of parameters tells where each one is in an object, and
each is printed as a row, a time as three. What is printed can be read back.
-/

namespace PathSet
open Fallible Decimal Rows

inductive StatParamName where
  | dupsLine
  | uniqLine
  | lineMem
  | dupsElem
  | uniqElem
  | dupsNode
  | uniqNode
  | elemInsertEq
  | elemInsertLt
  | elemInsertGt
  | elemInsertNe
  | elemInsertHit
  | elemReallocOp
  | elemReallocTime
  | nodeInsertEq
  | nodeInsertLt
  | nodeInsertGt
  | nodeInsertNe
  | nodeInsertHit
  | nodeReallocOp
  | nodeReallocTime
  | rehashEq
  | rehashNe
  | rehashOp
  | rehashHit
  | rehashTime
  | hashSize
  | hashUsed
  | hashLoad
  | elemStructSize
  | nodeStructSize
  | elemStruct
  | nodeStruct
  | elemMem
  | nodeMem
  | totalNodeMem
  | totalMem
  | insertTime
  | lookupTime
  deriving DecidableEq, Repr

/-- The names in `stat_params`. -/
def StatParamName.name : StatParamName → String
  | .dupsLine => "dups-line"
  | .uniqLine => "uniq-line"
  | .lineMem => "line-mem"
  | .dupsElem => "dups-elem"
  | .uniqElem => "uniq-elem"
  | .dupsNode => "dups-node"
  | .uniqNode => "uniq-node"
  | .elemInsertEq => "elem-insert-eq"
  | .elemInsertLt => "elem-insert-lt"
  | .elemInsertGt => "elem-insert-gt"
  | .elemInsertNe => "elem-insert-ne"
  | .elemInsertHit => "elem-insert-hit"
  | .elemReallocOp => "elem-realloc-op"
  | .elemReallocTime => "elem-realloc-time"
  | .nodeInsertEq => "node-insert-eq"
  | .nodeInsertLt => "node-insert-lt"
  | .nodeInsertGt => "node-insert-gt"
  | .nodeInsertNe => "node-insert-ne"
  | .nodeInsertHit => "node-insert-hit"
  | .nodeReallocOp => "node-realloc-op"
  | .nodeReallocTime => "node-realloc-time"
  | .rehashEq => "rehash-eq"
  | .rehashNe => "rehash-ne"
  | .rehashOp => "rehash-op"
  | .rehashHit => "rehash-hit"
  | .rehashTime => "rehash-time"
  | .hashSize => "hash-size"
  | .hashUsed => "hash-used"
  | .hashLoad => "hash-load"
  | .elemStructSize => "elem-struct-size"
  | .nodeStructSize => "node-struct-size"
  | .elemStruct => "elem-struct"
  | .nodeStruct => "node-struct"
  | .elemMem => "elem-mem"
  | .nodeMem => "node-mem"
  | .totalNodeMem => "total-node-mem"
  | .totalMem => "total-mem"
  | .insertTime => "insert-time"
  | .lookupTime => "lookup-time"

def StatParamName.text (n : StatParamName) : Bytes := ascii n.name

/-- `clocks_time_print` -/
def ClocksTime.print (useconds : Bool) (time : ClocksTime) : Outcome Bytes := do
  assert (time.usecs ≤ clocksMaxUsecs)
  if !useconds then pure (decimal time.secs ++ [46] ++ padded 6 time.usecs)
  else do
    verify (time.secs ≤ sizeMax / clocksLimUsecs)
    let s := time.secs * clocksLimUsecs
    verify (s ≤ sizeMax - time.usecs)
    pure (decimal (s + time.usecs))

def ClockPart.name : ClockPart → String
  | .real => "real"
  | .user => "user"
  | .sys => "sys"

/-- One turn of the loop of `clocks_print`. -/
def Clocks.printPart (clocks : Clocks) (name : Bytes) (width : Nat) (useconds : Bool)
    (p : ClockPart) : Outcome Bytes := do
  let w ← sizeAdd (ascii p.name).length name.length
  let w ← sizeAdd w 1
  let w := if w < width then width - w else 0
  let w ← sizeAsInt w
  let time ← (clocks.part p).print useconds
  pure (ascii p.name ++ 45 :: (name ++ 58 :: (List.replicate w 32 ++ 32 :: (time ++ [10]))))

/-- `clocks_print` -/
def Clocks.print (clocks : Clocks) (name : Bytes) (width : Nat) (useconds : Bool) :
    Outcome Bytes :=
  writeAll (clocks.printPart name width useconds) [.real, .user, .sys]

/-- `val` of `struct stat_param_info_t`: a field of the objects, or a function of them. -/
inductive StatParamVal (σ : Type) where
  | sizeField (field : σ → Nat)
  | timeField (field : σ → Clocks)
  | sizeFunc (func : Option σ → Outcome Nat)
  | fracFunc (func : Option σ → Outcome SizeFrac)

structure StatParamInfo (σ : Type) where
  name : StatParamName
  val : StatParamVal σ

section
variable {σ : Type}

def fieldOf {α : Type} (obj : Option σ) (field : σ → α) : Outcome α :=
  match obj with
  | none => .error .stray
  | some x => pure (field x)

/-- A row of `stat_params_print` whose name is padded to `m`. -/
def printPadded (m : Nat) (name : Bytes) (value : Outcome Bytes) : Outcome Bytes := do
  let w ← sizeSub m name.length
  let w ← sizeAsInt w
  let value ← value
  pure (name ++ 58 :: (List.replicate w 32 ++ 32 :: value))

/-- One turn of the second loop of `stat_params_print`. -/
def printParam (M m : Nat) (obj : Option σ) (p : StatParamInfo σ) : Outcome Bytes :=
  match p.val with
  | .sizeField field => printPadded m p.name.text do
      let v ← fieldOf obj field
      pure (decimal v ++ [10])
  | .timeField field => do
      let clocks ← fieldOf obj field
      clocks.print p.name.text M true
  | .sizeFunc func => printPadded m p.name.text do
      let v ← func obj
      pure (decimal v ++ [10])
  | .fracFunc func => printPadded m p.name.text do
      let v ← func obj
      printFrac v

def statParamsPrint (params : List (StatParamInfo σ)) (obj : Option σ) (onlyNames : Bool) :
    Outcome Bytes :=
  if onlyNames then pure (params.flatMap fun p => p.name.text ++ [10])
  else do
    let M := if obj.isSome then 22 else 0
    let m := params.foldl (fun m p => if m < p.name.text.length then p.name.text.length else m) M
    writeAll (printParam M m obj) params

def marks : Marks UInt8 := ⟨10, 58, 32⟩

def readStats (text : Bytes) : List (Bytes × Bytes) := readRows marks text

def StatParamName.timeText (n : StatParamName) (p : ClockPart) : Bytes :=
  ascii p.name ++ 45 :: n.text

def StatParamInfo.labels (p : StatParamInfo σ) : List Bytes :=
  match p.val with
  | .timeField _ => [.real, .user, .sys].map p.name.timeText
  | _ => [p.name.text]

def StatParamInfo.rows (obj : Option σ) (p : StatParamInfo σ) : Outcome (List (Bytes × Bytes)) :=
  match p.val with
  | .sizeField field => do
      let v ← fieldOf obj field
      pure [(p.name.text, decimal v)]
  | .timeField field => do
      let clocks ← fieldOf obj field
      writeAll (fun q => do
        let time ← (clocks.part q).print true
        pure [(p.name.timeText q, time)]) [.real, .user, .sys]
  | .sizeFunc func => do
      let v ← func obj
      pure [(p.name.text, decimal v)]
  | .fracFunc func => do
      let v ← func obj
      let text ← printFrac v
      pure [(p.name.text, text.dropLast)]

def statRows (params : List (StatParamInfo σ)) (obj : Option σ) :
    Outcome (List (Bytes × Bytes)) := writeAll (StatParamInfo.rows obj) params

def Plain (text : Bytes) : Prop := ∀ c ∈ text, c ≠ 10 ∧ c ≠ 32 ∧ c ≠ 58

instance (text : Bytes) : Decidable (Plain text) := List.decidableBAll _ text

theorem Plain.append {s t : Bytes} (hs : Plain s) (ht : Plain t) : Plain (s ++ t) := fun c hc =>
  (List.mem_append.mp hc).elim (hs c) (ht c)

theorem Plain.cons {c : UInt8} {t : Bytes} (hc : c ≠ 10 ∧ c ≠ 32 ∧ c ≠ 58) (ht : Plain t) :
    Plain (c :: t) := List.forall_mem_cons.mpr ⟨hc, ht⟩

theorem plain_of_digits {text : Bytes} (h : ∀ c ∈ text, IsDigit c) : Plain text := by
  intro c hc
  have hdigit := h c hc
  refine ⟨?_, ?_, ?_⟩
  all_goals
    rintro rfl
    exact absurd hdigit (by decide)

theorem plain_decimal (n : Nat) : Plain (decimal n) := plain_of_digits fun _ => isDigit_of_mem_decimal

theorem legible_of_plain {label value : Bytes} (hl : Plain label) (hv : Plain value) :
    Legible marks (label, value) := by
  refine ⟨⟨fun h => (hl _ h).2.2 rfl, fun h => (hl _ h).1 rfl⟩, fun h => (hv _ h).1 rfl, fun h => ?_⟩
  exact (hv _ (List.mem_of_mem_head? h)).2.1 rfl

theorem StatParamName.plain_text (n : StatParamName) : Plain n.text := by
  cases n <;> decide

theorem StatParamName.length_text (n : StatParamName) : n.text.length ≤ 17 := by
  cases n <;> decide

theorem ClockPart.plain_name (p : ClockPart) : Plain (ascii p.name) := by
  cases p <;> decide

theorem StatParamName.plain_timeText (n : StatParamName) (p : ClockPart) : Plain (n.timeText p) :=
  p.plain_name.append (n.plain_text.cons (by decide))

theorem ClocksTime.print_iff {time : ClocksTime} {text : Bytes} :
    time.print true = .ok text ↔
      (time.usecs ≤ clocksMaxUsecs ∧ time.us ≤ sizeMax) ∧ text = decimal time.us := by
  have hus : time.secs * clocksLimUsecs + time.usecs = time.us := by
    rw [us, clocksLimUsecs, Nat.mul_comm]
  constructor
  · intro h
    obtain ⟨⟨⟩, hassert, h⟩ := bind_eq_ok.mp h
    obtain ⟨⟨⟩, -, h⟩ := bind_eq_ok.mp h
    obtain ⟨⟨⟩, hsum, h⟩ := bind_eq_ok.mp h
    obtain rfl := Except.ok.inj h
    have husecs := of_assert hassert
    have hsum := of_verify hsum
    have hbig : clocksMaxUsecs ≤ sizeMax := by decide
    rw [hus]
    exact ⟨⟨husecs, by omega⟩, rfl⟩
  · rintro ⟨⟨husecs, hfit⟩, rfl⟩
    have hsecs : time.secs ≤ sizeMax / clocksLimUsecs := by
      rw [Nat.le_div_iff_mul_le (by decide)]
      omega
    have hsum : time.secs * clocksLimUsecs ≤ sizeMax - time.usecs := by omega
    rw [print, assert_of husecs, ok_bind]
    simp only [Bool.not_true, Bool.false_eq_true, if_false]
    rw [verify_of hsecs, ok_bind, verify_of hsum, ok_bind, hus]
    rfl

theorem ClocksTime.plain_print {time : ClocksTime} {text : Bytes} (h : time.print true = .ok text) :
    Plain text := by
  obtain ⟨-, rfl⟩ := ClocksTime.print_iff.mp h
  exact plain_decimal _

theorem printFrac_plain {v : SizeFrac} {text : Bytes} (h : printFrac v = .ok text) :
    ∃ value, text = value ++ [10] ∧ Plain value := by
  obtain ⟨d, -, h⟩ := bind_eq_ok.mp h
  obtain ⟨-, -, h⟩ := bind_eq_ok.mp h
  obtain ⟨w, -, h⟩ := bind_eq_ok.mp h
  obtain rfl := Except.ok.inj h
  refine ⟨_, rfl, ((plain_decimal _).append (by decide)).append ?_⟩
  exact plain_of_digits fun _ => isDigit_of_mem_padded

theorem tells_row {label value : Bytes} (hl : Plain label) (hv : Plain value) (w : Nat) :
    Tells marks (label ++ 58 :: (List.replicate w 32 ++ 32 :: (value ++ [10]))) [(label, value)] := by
  have htext : label ++ 58 :: (List.replicate w 32 ++ 32 :: (value ++ [10])) =
      row marks label (w + 1) value ++ marks.last :: [] := by
    simp [row, marks, List.replicate_succ']
  rw [htext]
  exact Tells.cons (legible_of_plain hl hv) (w + 1) Tells.nil

theorem printPadded_agree {m : Nat} {n : StatParamName} (hm : n.text.length ≤ m ∧ m ≤ 22)
    {x y : Outcome Bytes} (h : Agree (fun text value => text = value ++ [10] ∧ Plain value) x y) :
    Agree (Tells marks) (printPadded m n.text x) (do
      let value ← y
      pure [(n.text, value)]) := by
  have hw : m - n.text.length ≤ 2 ^ 31 - 1 := by omega
  rw [printPadded, sizeSub_of hm.1, ok_bind, sizeAsInt, assert_of hw, ok_bind, pure_eq_ok, ok_bind]
  refine h.bind fun text value hvalue => ?_
  obtain ⟨rfl, hplain⟩ := hvalue
  exact tells_row n.plain_text hplain _

theorem printPart_agree (clocks : Clocks) (n : StatParamName) {M : Nat} (hM : M ≤ 22)
    (p : ClockPart) :
    Agree (Tells marks) (clocks.printPart n.text M true p) (do
      let time ← (clocks.part p).print true
      pure [(n.timeText p, time)]) := by
  have hname : (ascii p.name).length ≤ 4 := by
    cases p <;> decide
  have hlen := n.length_text
  have hbig : 30 ≤ sizeMax := by decide
  have hw : (if (ascii p.name).length + n.text.length + 1 < M then
      M - ((ascii p.name).length + n.text.length + 1) else 0) ≤ 2 ^ 31 - 1 := by
    split_ifs <;> omega
  rw [Clocks.printPart, sizeAdd_of (by omega), ok_bind, sizeAdd_of (by omega), ok_bind]
  simp only [sizeAsInt, assert_of hw, ok_bind, pure_eq_ok]
  cases htime : (clocks.part p).print true with
  | error e => rfl
  | ok time =>
    rw [ok_bind, ok_bind, ← List.cons_append, ← List.append_assoc]
    exact tells_row (n.plain_timeText p) (ClocksTime.plain_print htime) _

theorem printParam_agree {M m : Nat} (hM : M ≤ 22) {p : StatParamInfo σ}
    (hm : p.name.text.length ≤ m ∧ m ≤ 22) (obj : Option σ) :
    Agree (Tells marks) (printParam M m obj p) (p.rows obj) := by
  have size : ∀ x : Outcome Nat, Agree (Tells marks)
      (printPadded m p.name.text do
        let v ← x
        pure (decimal v ++ [10]))
      (do
        let v ← x
        pure [(p.name.text, decimal v)]) := by
    intro x
    have h := @printPadded_agree _ _ hm (x >>= fun v => pure (decimal v ++ [10]))
      (x >>= fun v => pure (decimal v)) (agree_bind x fun v _ => ⟨rfl, plain_decimal v⟩)
    rwa [Fallible.bind_assoc] at h
  obtain ⟨n, val⟩ := p
  cases val with
  | sizeField field => exact size (fieldOf obj field)
  | timeField field =>
    refine agree_bind _ fun clocks _ => ?_
    exact tells_writeAll fun q _ => printPart_agree clocks n hM q
  | sizeFunc func => exact size (func obj)
  | fracFunc func =>
    have h := @printPadded_agree _ _ hm (func obj >>= printFrac)
      (func obj >>= fun v => printFrac v >>= fun text => pure text.dropLast)
      (agree_bind _ fun v _ => ?_)
    · simp only [Fallible.bind_assoc, pure_eq_ok, ok_bind] at h
      exact h
    · cases htext : printFrac v with
      | error e => rfl
      | ok text =>
        obtain ⟨value, rfl, hplain⟩ := printFrac_plain htext
        rw [ok_bind, List.dropLast_concat]
        exact ⟨rfl, hplain⟩

theorem nameWidth_spec (params : List (StatParamInfo σ)) {M : Nat} (hM : M ≤ 22) :
    let m := params.foldl (fun m p => if m < p.name.text.length then p.name.text.length else m) M
    M ≤ m ∧ m ≤ 22 ∧ ∀ p ∈ params, p.name.text.length ≤ m := by
  induction params generalizing M with
  | nil => exact ⟨le_refl M, hM, nofun⟩
  | cons p params ih =>
    have hlen := p.name.length_text
    have hnext : (if M < p.name.text.length then p.name.text.length else M) ≤ 22 := by
      split_ifs <;> omega
    obtain ⟨hle, hmax, hall⟩ := ih hnext
    have hstart : M ≤ (if M < p.name.text.length then p.name.text.length else M) ∧
        p.name.text.length ≤ (if M < p.name.text.length then p.name.text.length else M) := by
      split_ifs <;> omega
    refine ⟨hstart.1.trans hle, hmax, ?_⟩
    rintro q (_ | hq)
    · exact hstart.2.trans hle
    · exact hall q ‹_›

theorem labels_of_rows {obj : Option σ} (p : StatParamInfo σ) (rows : List (Bytes × Bytes))
    (h : p.rows obj = .ok rows) : rows.map Prod.fst = p.labels := by
  obtain ⟨n, val⟩ := p
  cases val with
  | sizeField field =>
    obtain ⟨v, -, h⟩ := bind_eq_ok.mp h
    obtain rfl := Except.ok.inj h
    rfl
  | timeField field =>
    obtain ⟨clocks, -, h⟩ := bind_eq_ok.mp h
    have hmap := @map_of_writeAll _ _ _ _ _ Prod.fst (fun q => [n.timeText q]) (fun q out hout => ?_)
      _ _ h
    · exact hmap
    · obtain ⟨time, -, hout⟩ := bind_eq_ok.mp hout
      obtain rfl := Except.ok.inj hout
      rfl
  | sizeFunc func =>
    obtain ⟨v, -, h⟩ := bind_eq_ok.mp h
    obtain rfl := Except.ok.inj h
    rfl
  | fracFunc func =>
    obtain ⟨v, -, h⟩ := bind_eq_ok.mp h
    obtain ⟨text, -, h⟩ := bind_eq_ok.mp h
    obtain rfl := Except.ok.inj h
    rfl

end

theorem statParamsPrint_agree {σ : Type} (params : List (StatParamInfo σ)) (obj : Option σ) :
    Agree (Tells marks) (statParamsPrint params obj false) (statRows params obj) := by
  have hM : (if obj.isSome then 22 else 0) ≤ 22 := by
    split_ifs <;> omega
  obtain ⟨-, hmax, hall⟩ := nameWidth_spec params hM
  exact tells_writeAll fun p hp => printParam_agree hM ⟨hall p hp, hmax⟩ obj

theorem statParamsPrint_names {σ : Type} (params : List (StatParamInfo σ)) (obj : Option σ) :
    ∃ names, statParamsPrint params obj true = .ok names ∧
      splitLines 10 names = params.map fun p => p.name.text := by
  refine ⟨_, rfl, ?_⟩
  have hsplit := @splitLines_append _ _ (10 : UInt8) (params.map fun p => p.name.text) ?_ []
  · rw [List.append_nil, List.flatMap_map, splitLines_nil, List.append_nil] at hsplit
    exact hsplit
  · intro l hl
    obtain ⟨p, -, rfl⟩ := List.mem_map.mp hl
    exact fun hmem => (p.name.plain_text _ hmem).1 rfl

/-- What is printed of an object is read back as its rows, and where a row fails, so does the
text. The names that are printed alone are those of the rows. -/
theorem stat_params_read_back {σ : Type} (params : List (StatParamInfo σ)) (obj : Option σ) :
    Agree (fun text rows => readStats text = rows ∧
        rows.map Prod.fst = params.flatMap StatParamInfo.labels)
      (statParamsPrint params obj false) (statRows params obj) ∧
      ∃ names, statParamsPrint params obj true = .ok names ∧
        splitLines 10 names = params.map fun p => p.name.text := by
  refine ⟨?_, statParamsPrint_names params obj⟩
  have hprint := (statParamsPrint_agree params obj).and_right fun rows hrows =>
    map_of_writeAll labels_of_rows hrows
  refine hprint.mono ?_
  rintro text rows ⟨htells, hlabels⟩
  exact ⟨htells.readRows (by decide), hlabels⟩

end PathSet
