import PathSet.Options
import PathSet.Library.Decimal

/-!
The arguments of the options that give a size. A size is a decimal number with at most
one letter of a unit behind it. The parser looks at the digit in front, lets `strtoul` run
and compares where it stopped with the length of the argument.
-/

namespace PathSet
open Fallible Decimal

inductive OptError where
  | invalid (optName : String) (optArg : Bytes)
  | illegal (optName : String) (optArg : Bytes)
  | abort (why : Abort)
  deriving DecidableEq, Repr

abbrev OptOutcome := Except OptError

def ascii (s : String) : Bytes := s.toList.map fun c => UInt8.ofNat c.toNat

def refusal (word optName : String) (optArg : Bytes) : Bytes :=
  ascii word ++ ascii " argument for '" ++ ascii optName ++ ascii "' option: '" ++ optArg ++
    ascii "'"

def OptError.format : OptError → Option Bytes
  | .invalid optName optArg => some (refusal "invalid" optName optArg)
  | .illegal optName optArg => some (refusal "illegal" optName optArg)
  | .abort _ => none

/-- What `error` tells. Its buffer holds 512 bytes, `vsnprintf` gets one less and ends the text
with a NUL. -/
def OptError.message (e : OptError) : Option Bytes := e.format.map (List.take 510)

theorem OptError.message_prefix {e : OptError} {msg : Bytes} (h : e.message = some msg) :
    ∃ text, e.format = some text ∧ msg <+: text ∧ (text.length ≤ 510 → msg = text) := by
  obtain ⟨text, htext, rfl⟩ := Option.map_eq_some_iff.mp h
  exact ⟨text, htext, List.take_prefix _ _, fun hlen => List.take_of_length_le hlen⟩

def refuse (p : Prop) [Decidable p] (e : OptError) : OptOutcome Unit :=
  if p then .error e else .ok ()

theorem refuse_of {p : Prop} [Decidable p] {e : OptError} (h : p) : refuse p e = .error e :=
  if_pos h

theorem refuse_of_not {p : Prop} [Decidable p] {e : OptError} (h : ¬p) : refuse p e = .ok () :=
  if_neg h

def ofOutcome {α : Type} (x : Outcome α) : OptOutcome α := x.mapError .abort

/-- `PTR_OFFSET` of the pointer that lies `q` bytes behind the begin of `n` bytes. -/
def ptrOffset (q n : Nat) : Outcome Nat := do
  assert (q ≤ n)
  pure q

inductive Errno where
  | zero
  | einval
  | erange
  deriving DecidableEq, Repr

structure Scanned where
  value : Nat
  stop : Nat
  errno : Errno
  deriving DecidableEq, Repr

def isSpace (c : UInt8) : Bool := c = 32 || (9 ≤ c && c ≤ 13)

/-- `strtoul` to the base ten, behind white space and a sign. -/
def strtoul (p : Bytes) : Scanned :=
  let rest := p.dropWhile isSpace
  let sign := if rest.head? = some 43 ∨ rest.head? = some 45 then 1 else 0
  let ds := (rest.drop sign).takeWhile fun c => decide (IsDigit c)
  let stop := (p.takeWhile isSpace).length + sign + ds.length
  if ds = [] then ⟨0, 0, .zero⟩
  else if sizeMax < value ds then ⟨sizeMax, stop, .erange⟩
  else if rest.head? = some 45 then ⟨(2 ^ 64 - value ds) % 2 ^ 64, stop, .zero⟩
  else ⟨value ds, stop, .zero⟩

def parseNum (p : Bytes) : Scanned :=
  if IsDigit (p.headD 0) then strtoul p else ⟨0, 0, .einval⟩

theorem parseNum_of_not {p : Bytes} (h : ∀ c ∈ p.head?, ¬IsDigit c) :
    parseNum p = ⟨0, 0, .einval⟩ := by
  cases p with
  | nil => exact if_neg (by decide)
  | cons c p => exact if_neg (h c rfl)

theorem isSpace_of_isDigit {c : UInt8} (h : IsDigit c) : isSpace c = false := by
  obtain ⟨hle, -⟩ := h
  simp only [isSpace, Bool.or_eq_false_iff, decide_eq_false_iff_not, Bool.and_eq_false_iff,
    UInt8.le_iff_toNat_le, ← UInt8.toNat_inj]
  simp only [UInt8.reduceToNat]
  omega

theorem parseNum_digits {ds rest : Bytes} (hne : ds ≠ []) (hds : ∀ c ∈ ds, IsDigit c)
    (hrest : ∀ c ∈ rest.head?, ¬IsDigit c) :
    parseNum (ds ++ rest) =
      if sizeMax < value ds then ⟨sizeMax, ds.length, .erange⟩
      else ⟨value ds, ds.length, .zero⟩ := by
  have htake := takeWhile_digits hds hrest
  cases ds with
  | nil => exact absurd rfl hne
  | cons c ds =>
    have hc : IsDigit c := hds c (by simp)
    have hspace : ¬isSpace c = true := by rw [isSpace_of_isDigit hc]; exact Bool.false_ne_true
    have hplus : ¬some c = some 43 := fun h => by
      obtain rfl := Option.some.inj h
      exact absurd hc (by decide)
    have hminus : ¬some c = some 45 := fun h => by
      obtain rfl := Option.some.inj h
      exact absurd hc (by decide)
    rw [List.cons_append] at htake ⊢
    rw [parseNum, List.headD_cons, if_pos hc, strtoul, List.dropWhile_cons_of_neg hspace,
      List.takeWhile_cons_of_neg hspace, List.head?_cons, if_neg (not_or.mpr ⟨hplus, hminus⟩),
      List.drop_zero, htake, List.length_nil, Nat.zero_add]
    simp only [if_neg hne, if_neg hminus]

def unitFactor (c : UInt8) : Option Nat :=
  if c = 107 ∨ c = 75 then some (KB 1)
  else if c = 109 ∨ c = 77 then some (MB 1)
  else none

/-- What the parser makes of the letter `q` behind the number `v`. -/
def suScale (optName : String) (optArg : Bytes) (q : UInt8) (v : Nat) : OptOutcome Nat :=
  if q = 107 ∨ q = 75 then do
    refuse (sizeMax / KB 1 < v) (.illegal optName optArg)
    pure (v * KB 1)
  else if q = 109 ∨ q = 77 then do
    refuse (sizeMax / MB 1 < v) (.illegal optName optArg)
    pure (v * MB 1)
  else pure v

def parseSuSizeOptarg (optName : String) (optArg : Bytes) (maxSize : Nat) : OptOutcome Nat := do
  let n := optArg.length
  refuse (n = 0) (.invalid optName optArg)
  let s := parseNum optArg
  let d ← ofOutcome (ptrOffset s.stop n)
  let q := optArg.getD d 0
  refuse (s.errno ≠ .zero ∨ d = 0 ∨ d < n - 1 ∨
    (d = n - 1 ∧ q ≠ 107 ∧ q ≠ 75 ∧ q ≠ 109 ∧ q ≠ 77)) (.invalid optName optArg)
  let v ← suScale optName optArg q s.value
  refuse (v = 0 ∨ maxSize < v) (.illegal optName optArg)
  pure v

inductive SuText : Bytes → Nat → Prop
  | plain {ds : Bytes} (hne : ds ≠ []) (hds : ∀ c ∈ ds, IsDigit c) : SuText ds (value ds)
  | scaled {ds : Bytes} (hne : ds ≠ []) (hds : ∀ c ∈ ds, IsDigit c) {c : UInt8} {f : Nat}
      (hc : unitFactor c = some f) : SuText (ds ++ [c]) (value ds * f)

theorem suScale_eq (optName : String) (optArg : Bytes) (q : UInt8) {v : Nat} (hv : v ≤ sizeMax) :
    suScale optName optArg q v =
      if sizeMax < v * (unitFactor q).getD 1 then .error (.illegal optName optArg)
      else .ok (v * (unitFactor q).getD 1) := by
  have hscaled : ∀ f, 0 < f → (do
      refuse (sizeMax / f < v) (.illegal optName optArg)
      pure (v * f)) = if sizeMax < v * f then .error (.illegal optName optArg) else .ok (v * f) := by
    intro f hf
    simp only [refuse, Nat.div_lt_iff_lt_mul hf]
    split_ifs <;> rfl
  rw [suScale, unitFactor]
  by_cases hk : q = 107 ∨ q = 75
  · rw [if_pos hk, if_pos hk]
    exact hscaled _ (by decide)
  · by_cases hm : q = 109 ∨ q = 77
    · rw [if_neg hk, if_neg hk, if_pos hm, if_pos hm]
      exact hscaled _ (by decide)
    · rw [if_neg hk, if_neg hk, if_neg hm, if_neg hm, Option.getD_none, Nat.mul_one,
        if_neg (Nat.not_lt.mpr hv), pure_eq_ok]

theorem unitFactor_eq_none {q : UInt8} :
    unitFactor q = none ↔ q ≠ 107 ∧ q ≠ 75 ∧ q ≠ 109 ∧ q ≠ 77 := by
  unfold unitFactor
  split_ifs with hk hm
  · rcases hk with rfl | rfl <;> decide
  · rcases hm with rfl | rfl <;> decide
  · simp only [not_or] at hk hm
    exact ⟨fun _ => ⟨hk.1, hk.2, hm⟩, fun _ => rfl⟩

theorem parseSuSizeOptarg_digits (optName : String) {ds rest : Bytes} (hne : ds ≠ [])
    (hds : ∀ c ∈ ds, IsDigit c) (hrest : ∀ c ∈ rest.head?, ¬IsDigit c) (maxSize : Nat) :
    parseSuSizeOptarg optName (ds ++ rest) maxSize = (do
      refuse (sizeMax < value ds ∨ 1 < rest.length ∨
        (rest.length = 1 ∧ unitFactor (rest.headD 0) = none)) (.invalid optName (ds ++ rest))
      let v ← suScale optName (ds ++ rest) (rest.headD 0) (value ds)
      refuse (v = 0 ∨ maxSize < v) (.illegal optName (ds ++ rest))
      pure v) := by
  have hpos : 0 < ds.length := List.length_pos_iff.mpr hne
  have hlen : (ds ++ rest).length = ds.length + rest.length := List.length_append
  have hq : (ds ++ rest).getD ds.length 0 = rest.headD 0 := by
    rw [List.getD_eq_getElem?_getD, List.getElem?_append_right (le_refl _), Nat.sub_self]
    cases rest <;> rfl
  have hoffset : ofOutcome (ptrOffset ds.length (ds ++ rest).length) = .ok ds.length := by
    rw [ptrOffset, assert_of (by omega)]
    rfl
  rw [parseSuSizeOptarg, refuse_of_not (by omega), ok_bind, parseNum_digits hne hds hrest]
  by_cases hrange : sizeMax < value ds
  · simp only [if_pos hrange, hoffset, ok_bind]
    rw [refuse_of (Or.inl (by decide)), refuse_of (Or.inl hrange)]
    rfl
  · simp only [if_neg hrange, hoffset, ok_bind, hq]
    have hiff : (Errno.zero ≠ Errno.zero ∨ ds.length = 0 ∨ ds.length < (ds ++ rest).length - 1 ∨
        (ds.length = (ds ++ rest).length - 1 ∧ rest.headD 0 ≠ 107 ∧ rest.headD 0 ≠ 75 ∧
          rest.headD 0 ≠ 109 ∧ rest.headD 0 ≠ 77)) ↔
        (sizeMax < value ds ∨ 1 < rest.length ∨
          (rest.length = 1 ∧ unitFactor (rest.headD 0) = none)) := by
      rw [unitFactor_eq_none, hlen]
      have h1 : ds.length < ds.length + rest.length - 1 ↔ 1 < rest.length := by omega
      have h2 : ds.length = ds.length + rest.length - 1 ↔ rest.length = 1 := by omega
      rw [h1, h2]
      simp [hrange, hpos.ne']
    simp only [refuse, hiff]

def UnitText (rest : Bytes) : Prop := rest = [] ∨ ∃ c f, rest = [c] ∧ unitFactor c = some f

def factorOf (rest : Bytes) : Nat := (unitFactor (rest.headD 0)).getD 1

theorem SuText.of_unitText {ds rest : Bytes} (hne : ds ≠ []) (hds : ∀ c ∈ ds, IsDigit c)
    (hrest : UnitText rest) : SuText (ds ++ rest) (value ds * factorOf rest) := by
  rcases hrest with rfl | ⟨c, f, rfl, hc⟩
  · rw [List.append_nil]
    exact (Nat.mul_one (value ds)).symm ▸ .plain hne hds
  · have hf : factorOf [c] = f := by rw [factorOf, List.headD_cons, hc, Option.getD_some]
    rw [hf]
    exact .scaled hne hds hc

theorem SuText.unitText {s : Bytes} {v : Nat} (h : SuText s v) :
    ∃ ds rest, s = ds ++ rest ∧ ds ≠ [] ∧ (∀ c ∈ ds, IsDigit c) ∧ UnitText rest ∧
      v = value ds * factorOf rest := by
  cases h with
  | plain hne hds =>
    exact ⟨s, [], (List.append_nil s).symm, hne, hds, Or.inl rfl, (Nat.mul_one _).symm⟩
  | @scaled ds hne hds c f hc =>
    refine ⟨ds, [c], rfl, hne, hds, Or.inr ⟨c, f, rfl, hc⟩, ?_⟩
    rw [factorOf, List.headD_cons, hc, Option.getD_some]

theorem UnitText.not_isDigit {rest : Bytes} (h : UnitText rest) : ∀ c ∈ rest.head?, ¬IsDigit c := by
  rcases h with rfl | ⟨c, f, rfl, hc⟩
  · intro c hc
    cases hc
  · intro c' hc' hdigit
    obtain rfl := Option.some.inj hc'
    unfold unitFactor at hc
    split_ifs at hc with hk hm
    · rcases hk with rfl | rfl <;> exact absurd hdigit (by decide)
    · rcases hm with rfl | rfl <;> exact absurd hdigit (by decide)

theorem unitText_iff (rest : Bytes) :
    UnitText rest ↔ ¬(1 < rest.length ∨ (rest.length = 1 ∧ unitFactor (rest.headD 0) = none)) := by
  match rest with
  | [] => simp [UnitText]
  | [c] =>
    cases hc : unitFactor c <;> simp [UnitText, hc]
  | c :: c' :: rest => simp [UnitText]

theorem factorOf_pos (rest : Bytes) : 0 < factorOf rest := by
  rw [factorOf, unitFactor]
  split_ifs <;> decide

theorem parseSuSizeOptarg_unitText (optName : String) {ds rest : Bytes} (hne : ds ≠ [])
    (hds : ∀ c ∈ ds, IsDigit c) (hrest : UnitText rest) (hrange : value ds ≤ sizeMax)
    {maxSize : Nat} (hmax : maxSize ≤ sizeMax) :
    parseSuSizeOptarg optName (ds ++ rest) maxSize =
      if value ds * factorOf rest = 0 ∨ maxSize < value ds * factorOf rest then
        .error (.illegal optName (ds ++ rest))
      else .ok (value ds * factorOf rest) := by
  rw [parseSuSizeOptarg_digits optName hne hds hrest.not_isDigit,
    refuse_of_not (not_or.mpr ⟨Nat.not_lt.mpr hrange, (unitText_iff rest).mp hrest⟩), ok_bind,
    suScale_eq _ _ _ hrange, ← factorOf]
  by_cases hfit : sizeMax < value ds * factorOf rest
  · rw [if_pos hfit, if_pos (Or.inr (lt_of_le_of_lt hmax hfit))]
    rfl
  · rw [if_neg hfit, ok_bind, refuse]
    split_ifs <;> rfl

theorem parseSuSizeOptarg_of_text (optName : String) {s : Bytes} {v maxSize : Nat}
    (hmax : maxSize ≤ sizeMax) (h : SuText s v) (hpos : 0 < v) (hle : v ≤ maxSize) :
    parseSuSizeOptarg optName s maxSize = .ok v := by
  obtain ⟨ds, rest, rfl, hne, hds, hrest, rfl⟩ := h.unitText
  have hrange : value ds ≤ value ds * factorOf rest := Nat.le_mul_of_pos_right _ (factorOf_pos rest)
  rw [parseSuSizeOptarg_unitText optName hne hds hrest (hrange.trans (hle.trans hmax)) hmax,
    if_neg (by omega)]

theorem parseSuSizeOptarg_cases (optName : String) (s : Bytes) {maxSize : Nat}
    (hmax : maxSize ≤ sizeMax) :
    (∃ v, parseSuSizeOptarg optName s maxSize = .ok v ∧ SuText s v ∧ 0 < v ∧ v ≤ maxSize) ∨
      parseSuSizeOptarg optName s maxSize = .error (.invalid optName s) ∨
      parseSuSizeOptarg optName s maxSize = .error (.illegal optName s) := by
  obtain ⟨ds, rest, rfl, hdigits, hrest⟩ := split_digits s
  by_cases hne : ds = []
  · -- no digit in front
    subst hne
    right
    left
    rw [List.nil_append, parseSuSizeOptarg, parseNum_of_not hrest]
    by_cases hnil : rest.length = 0
    · rw [refuse_of hnil]
      rfl
    · rw [refuse_of_not hnil, ok_bind]
      have hoffset : ofOutcome (ptrOffset 0 rest.length) = .ok 0 := by
        rw [ptrOffset, assert_of (Nat.zero_le _)]
        rfl
      simp only [hoffset, ok_bind]
      rw [refuse_of (Or.inl (by decide))]
      rfl
  · by_cases hunit : sizeMax < value ds ∨ ¬UnitText rest
    · right
      left
      rw [unitText_iff, not_not] at hunit
      rw [parseSuSizeOptarg_digits optName hne hdigits hrest, refuse_of hunit]
      rfl
    · rw [not_or, not_not] at hunit
      rw [parseSuSizeOptarg_unitText optName hne hdigits hunit.2 (Nat.not_lt.mp hunit.1) hmax]
      split_ifs with hbad
      · exact Or.inr (Or.inr rfl)
      · exact Or.inl ⟨_, rfl, .of_unitText hne hdigits hunit.2, by omega, by omega⟩

structure SuSize where
  sz : Nat
  su : Bytes
  deriving DecidableEq, Repr

def suSize (sz : Nat) : SuSize :=
  if sz % MB 1 = 0 then ⟨sz / MB 1, ascii "M"⟩
  else if sz % KB 1 = 0 then ⟨sz / KB 1, ascii "K"⟩
  else ⟨sz, ascii ""⟩

/-- The text `"%zu%s"` of `dump_options`. -/
def dumpSize (sz : Nat) : Bytes := decimal (suSize sz).sz ++ (suSize sz).su

theorem suText_dumpSize (v : Nat) : SuText (dumpSize v) v := by
  have hdigits : ∀ n, ∀ c ∈ decimal n, IsDigit c := fun n c => isDigit_of_mem_decimal
  have hscaled : ∀ c f, unitFactor c = some f → v % f = 0 → SuText (decimal (v / f) ++ [c]) v := by
    intro c f hc hmod
    have htext := SuText.scaled (decimal_ne_nil (v / f)) (hdigits _) hc
    rwa [value_decimal, Nat.div_mul_cancel (Nat.dvd_of_mod_eq_zero hmod)] at htext
  rw [dumpSize, suSize]
  by_cases hm : v % MB 1 = 0
  · rw [if_pos hm]
    exact hscaled 77 _ rfl hm
  · by_cases hk : v % KB 1 = 0
    · rw [if_neg hm, if_pos hk]
      exact hscaled 75 _ rfl hk
    · rw [if_neg hm, if_neg hk]
      have htext := SuText.plain (decimal_ne_nil v) (hdigits v)
      rw [value_decimal] at htext
      exact (List.append_nil (decimal v)).symm ▸ htext

/-- A text is accepted just when it is the text of a size in the range, any other is refused,
and what is printed for a size in the range is read back. -/
theorem su_size_optarg_iff (optName : String) {maxSize : Nat} (hmax : maxSize ≤ sizeMax) :
    (∀ s v, parseSuSizeOptarg optName s maxSize = .ok v ↔ SuText s v ∧ 0 < v ∧ v ≤ maxSize) ∧
    (∀ s, (¬∃ v, SuText s v ∧ 0 < v ∧ v ≤ maxSize) →
      parseSuSizeOptarg optName s maxSize = .error (.invalid optName s) ∨
        parseSuSizeOptarg optName s maxSize = .error (.illegal optName s)) ∧
    ∀ v, 0 < v → v ≤ maxSize → parseSuSizeOptarg optName (dumpSize v) maxSize = .ok v := by
  refine ⟨fun s v => ⟨fun h => ?_, fun ⟨htext, hpos, hle⟩ => ?_⟩, fun s hnone => ?_,
    fun v hpos hle => ?_⟩
  · rcases parseSuSizeOptarg_cases optName s hmax with ⟨w, hw, hspec⟩ | herr | herr
    · obtain rfl := Except.ok.inj (hw.symm.trans h)
      exact hspec
    · cases herr.symm.trans h
    · cases herr.symm.trans h
  · exact parseSuSizeOptarg_of_text optName hmax htext hpos hle
  · rcases parseSuSizeOptarg_cases optName s hmax with ⟨w, -, hspec⟩ | herr
    · exact absurd ⟨w, hspec⟩ hnone
    · exact herr
  · exact parseSuSizeOptarg_of_text optName hmax (suText_dumpSize v) hpos hle

theorem su_size_optarg_hash_size :
    parseSuSizeOptarg "hash-size" (dumpSize 33554432) (MB 32) = .ok 33554432 :=
  (su_size_optarg_iff "hash-size" (by decide)).2.2 33554432 (by decide) (by decide)

example : parseSuSizeOptarg "pool-size" (ascii "0012k") (MB 512) = .ok 12288 := by decide

example : parseSuSizeOptarg "pool-size" (ascii "1kM") (MB 512) =
    .error (.invalid "pool-size" (ascii "1kM")) := by decide

def poolSizeOpt (optArg : Bytes) : OptOutcome Nat :=
  parseSuSizeOptarg "pool-size" optArg (MB 512)

def hashSizeOpt (optArg : Bytes) : OptOutcome Nat :=
  parseSuSizeOptarg "hash-size" optArg (MB 32)

def nodeSizeOpt (optArg : Bytes) : OptOutcome Nat :=
  parseSuSizeOptarg "node-size" optArg (MB 32)

end PathSet
