import PathSet.Machine
import PathSet.Library.Decimal
import Mathlib.Data.Rat.Floor
import Mathlib.Tactic.FieldSimp
import Mathlib.Tactic.Ring
import Mathlib.Tactic.Linarith

/-!
Ratios in the statistics. The whole part is cut off and the fraction is rounded, each for
itself, so a fraction that is rounded up to one has nowhere to go. Doubles are exact here.
-/

namespace PathSet
open Fallible Decimal

structure SizeFrac where
  num : Nat
  denom : Nat
  prec : Nat
  deriving DecidableEq, Repr

def divDouble (n m : ℚ) : Option ℚ := if m = 0 then none else some (n / m)

/-- The cast of a double to `size_t`. -/
def doubleAsSize (f : ℚ) : Option Nat :=
  if 0 ≤ f ∧ f < 2 ^ 64 then some ⌊f⌋.toNat else none

def roundHalfAway (f : ℚ) : Int := if 0 ≤ f then ⌊f + 1 / 2⌋ else ⌈f - 1 / 2⌉

def lround (f : ℚ) : Option Int :=
  if -2 ^ 63 ≤ roundHalfAway f ∧ roundHalfAway f < 2 ^ 63 then some (roundHalfAway f) else none

def fracScale : Nat := 100000

/-- The parts of `compute_size_frac` in front of its assertion. -/
def sizeFrac (n m : Nat) : Option (Nat × Nat) := do
  let f ← divDouble n m
  let num ← doubleAsSize f
  let f := f * fracScale
  let rounded ← lround f
  let denom := (rounded % 2 ^ 64).toNat
  if num ≤ sizeMax / fracScale ∧ num * fracScale ≤ denom then
    some (num, denom - num * fracScale)
  else none

def computeSizeFrac (n m : Nat) : Outcome (Option SizeFrac) :=
  match sizeFrac n m with
  | none => pure none
  | some (num, denom) => do
      assert (denom < fracScale)
      pure (some ⟨num, denom, 5⟩)

def powerLoop (b : Nat) : Nat → Nat → Outcome Nat
  | 0, d => pure d
  | k + 1, d => do
      let d ← sizeMul d b
      powerLoop b k d

/-- The text `"%zu.%0*zu\\n"` of `stat_params_print`. -/
def printFrac (v : SizeFrac) : Outcome Bytes := do
  let d ← powerLoop 10 v.prec 1
  assert (v.denom < d)
  let w ← sizeAsInt v.prec
  pure (decimal v.num ++ [46] ++ padded w v.denom ++ [10])

def divRound (a b : Nat) : Nat := (2 * a + b) / (2 * b)

theorem roundHalfAway_div (a : Nat) {b : Nat} (hb : 0 < b) :
    roundHalfAway ((a : ℚ) / b) = divRound a b := by
  have hb' : (b : ℚ) ≠ 0 := Nat.cast_ne_zero.mpr hb.ne'
  have hhalf : (a : ℚ) / b + 1 / 2 = ((2 * a + b : Nat) : ℚ) / (2 * b : Nat) := by
    push_cast
    field_simp
  rw [roundHalfAway, if_pos (by positivity), hhalf, Rat.floor_natCast_div_natCast, divRound,
    Int.natCast_ediv]

theorem divRound_add (q r : Nat) {m : Nat} (hm : 0 < m) :
    divRound (fracScale * (m * q + r)) m = q * fracScale + divRound (fracScale * r) m := by
  have hsum : 2 * (fracScale * (m * q + r)) + m = 2 * (fracScale * r) + m + 2 * m * (q * fracScale) := by
    ring
  rw [divRound, hsum, Nat.add_mul_div_left _ _ (by omega), divRound, Nat.add_comm]

theorem divRound_lt_iff (r : Nat) {m : Nat} (hm : 0 < m) :
    divRound (fracScale * r) m < fracScale ↔ 200000 * r < 199999 * m := by
  rw [divRound, Nat.div_lt_iff_lt_mul (by omega), fracScale]
  omega

theorem abs_divRound (a : Nat) {b : Nat} (hb : 0 < b) : |(divRound a b : ℚ) - a / b| ≤ 1 / 2 := by
  have hb' : (0 : ℚ) < b := Nat.cast_pos.mpr hb
  have hle : (2 * b : ℚ) * divRound a b ≤ 2 * a + b := by
    exact_mod_cast Nat.mul_div_le (2 * a + b) (2 * b)
  have hlt : (2 * a + b : ℚ) < 2 * b * (divRound a b + 1) := by
    exact_mod_cast Nat.lt_mul_div_succ (2 * a + b) (by omega : 0 < 2 * b)
  rw [abs_le, sub_le_iff_le_add, neg_le_sub_iff_le_add]
  constructor
  · rw [div_le_iff₀ hb']
    linarith
  · rw [← sub_le_iff_le_add', le_div_iff₀ hb']
    linarith

theorem divDouble_of_pos (n : Nat) {m : Nat} (hm : 0 < m) :
    divDouble n m = some ((n : ℚ) / m) := if_neg (Nat.cast_ne_zero.mpr hm.ne')

theorem doubleAsSize_div {n m : Nat} (hn : n / m ≤ sizeMax) (hm : 0 < m) :
    doubleAsSize ((n : ℚ) / m) = some (n / m) := by
  have hm' : (0 : ℚ) < m := Nat.cast_pos.mpr hm
  have hn' : n < 2 ^ 64 * m := by
    rw [← Nat.div_lt_iff_lt_mul hm]
    unfold sizeMax at hn
    omega
  have hlt : (n : ℚ) / m < 2 ^ 64 := by
    rw [div_lt_iff₀ hm']
    exact_mod_cast hn'
  rw [doubleAsSize, if_pos ⟨by positivity, hlt⟩, Rat.floor_natCast_div_natCast,
    ← Int.natCast_ediv, Int.toNat_natCast]

theorem lround_div (a : Nat) {b : Nat} (hb : 0 < b) :
    lround ((a : ℚ) / b) = if divRound a b < 2 ^ 63 then some (divRound a b : Int) else none := by
  rw [lround, roundHalfAway_div a hb]
  have hiff : (-2 ^ 63 ≤ (divRound a b : Int) ∧ (divRound a b : Int) < 2 ^ 63) ↔
      divRound a b < 2 ^ 63 := by omega
  simp only [hiff]

theorem sizeFrac_eq {n m : Nat} (hn : n / m ≤ sizeMax) (hm : 0 < m) :
    sizeFrac n m =
      if divRound (fracScale * n) m < 2 ^ 63 then
        some (n / m, divRound (fracScale * (n % m)) m)
      else none := by
  have hscaled : (n : ℚ) / m * fracScale = ((fracScale * n : Nat) : ℚ) / m := by
    push_cast
    ring
  have hround : divRound (fracScale * n) m =
      n / m * fracScale + divRound (fracScale * (n % m)) m := by
    rw [← divRound_add (n / m) (n % m) hm, Nat.div_add_mod]
  rw [sizeFrac, divDouble_of_pos n hm]
  simp only [Option.bind_eq_bind, Option.bind_some, doubleAsSize_div hn hm, hscaled,
    lround_div (fracScale * n) hm]
  split_ifs with hlt
  · have hmod : ((divRound (fracScale * n) m : Int) % 2 ^ 64).toNat = divRound (fracScale * n) m := by
      omega
    have hfits : n / m ≤ sizeMax / fracScale := by
      rw [Nat.le_div_iff_mul_le (by decide)]
      unfold sizeMax
      omega
    simp only [Option.bind_some, hmod]
    rw [if_pos ⟨hfits, by omega⟩, hround, Nat.add_sub_cancel_left]
  · rfl

theorem sizeFrac_of_le {n m : Nat} (hm : 0 < m) (hle : n ≤ m) :
    sizeFrac n m = some (n / m, divRound (fracScale * (n % m)) m) := by
  have hone : n / m ≤ 1 := Nat.div_le_of_le_mul (by omega)
  have hscale : divRound (fracScale * n) m ≤ fracScale := by
    rw [← Nat.lt_succ_iff, divRound, Nat.div_lt_iff_lt_mul (by omega), fracScale]
    omega
  rw [sizeFrac_eq (hone.trans (by decide)) hm, if_pos (hscale.trans_lt (by decide))]

theorem printFrac_eq {num denom : Nat} (h : denom < fracScale) :
    printFrac ⟨num, denom, 5⟩ = .ok (decimal num ++ [46] ++ padded 5 denom ++ [10]) := by
  have hpower : powerLoop 10 5 1 = .ok fracScale := by decide
  have hprec : sizeAsInt 5 = .ok 5 := by decide
  rw [printFrac, hpower, ok_bind, assert_of h, ok_bind, hprec, ok_bind, pure_eq_ok]

/-- A text with a point and five digits behind it, at most half a unit of the last one off. -/
def TellsRatio (n m : Nat) (text : Bytes) : Prop :=
  ∃ a b, text = a ++ [46] ++ b ++ [10] ∧ a ≠ [] ∧ b.length = 5 ∧ (∀ c ∈ a, IsDigit c) ∧
    (∀ c ∈ b, IsDigit c) ∧ |(value a : ℚ) + value b / 10 ^ 5 - n / m| ≤ 1 / 2 / 10 ^ 5

def MeetsFrac (n m : Nat) : Prop :=
  ∃ r, computeSizeFrac n m = .ok r ∧ ∀ v ∈ r, v.denom < fracScale ∧
    ∃ text, printFrac v = .ok text ∧ TellsRatio n m text

theorem tellsRatio_div {n m : Nat} (hm : 0 < m)
    (h : divRound (fracScale * (n % m)) m < fracScale) :
    TellsRatio n m
      (decimal (n / m) ++ [46] ++ padded 5 (divRound (fracScale * (n % m)) m) ++ [10]) := by
  refine ⟨_, _, rfl, decimal_ne_nil _, length_padded (by decide) h,
    fun c => isDigit_of_mem_decimal, fun c => isDigit_of_mem_padded, ?_⟩
  have hm' : (m : ℚ) ≠ 0 := Nat.cast_ne_zero.mpr hm.ne'
  have hsplit : (n : ℚ) = m * (n / m : Nat) + (n % m : Nat) := by
    exact_mod_cast (Nat.div_add_mod n m).symm
  have hdiff : ((n / m : Nat) : ℚ) + divRound (fracScale * (n % m)) m / 10 ^ 5 - n / m =
      (divRound (fracScale * (n % m)) m - (fracScale * (n % m) : Nat) / m) / 10 ^ 5 := by
    rw [hsplit]
    push_cast [fracScale]
    field_simp
    ring
  rw [value_decimal, value_padded, hdiff, abs_div, abs_of_pos (by norm_num : (0 : ℚ) < 10 ^ 5)]
  exact div_le_div_of_nonneg_right (abs_divRound _ hm) (by norm_num)

/-- The ratio is told, or refused, unless its fraction is rounded up to one. -/
theorem size_frac_iff {n m : Nat} (hn : n ≤ sizeMax) (hm : 0 < m) :
    MeetsFrac n m ↔ 2 ^ 64 * m ≤ 200000 * n + m ∨ 200000 * (n % m) < 199999 * m := by
  have hbig : divRound (fracScale * n) m < 2 ^ 63 ↔ ¬2 ^ 64 * m ≤ 200000 * n + m := by
    rw [divRound, Nat.div_lt_iff_lt_mul (by omega), fracScale]
    omega
  rw [MeetsFrac, computeSizeFrac, sizeFrac_eq ((Nat.div_le_self n m).trans hn) hm]
  by_cases hlt : divRound (fracScale * n) m < 2 ^ 63
  · rw [if_pos hlt, or_iff_right (hbig.mp hlt), ← divRound_lt_iff (n % m) hm]
    constructor
    · rintro ⟨r, hr, -⟩
      obtain ⟨u, hassert, -⟩ := bind_eq_ok.mp hr
      exact of_assert hassert
    · intro hfrac
      refine ⟨some ⟨n / m, divRound (fracScale * (n % m)) m, 5⟩, ?_, fun v hv => ?_⟩
      · simp only [assert_of hfrac, ok_bind, pure_eq_ok]
      · obtain rfl := Option.some.inj hv
        exact ⟨hfrac, _, printFrac_eq hfrac, tellsRatio_div hm hfrac⟩
  · rw [if_neg hlt]
    refine iff_of_true ⟨none, rfl, fun v hv => by cases hv⟩ (Or.inl ?_)
    exact not_not.mp (mt hbig.mpr hlt)

theorem size_frac_two_thirds : MeetsFrac 2 3 :=
  (size_frac_iff (by decide) (by decide)).mpr (Or.inr (by decide))

/-- The fraction of 199999 / 200000 is rounded up to one. -/
theorem size_frac_carry :
    sizeFrac 199999 200000 = some (0, 100000) ∧
      computeSizeFrac 199999 200000 = .error .assertion ∧ ¬MeetsFrac 199999 200000 := by
  have hfrac : sizeFrac 199999 200000 = some (0, 100000) := by
    rw [sizeFrac_eq (by decide) (by decide)]
    decide
  have hrun : computeSizeFrac 199999 200000 = .error .assertion := by
    rw [computeSizeFrac, hfrac]
    rfl
  refine ⟨hfrac, hrun, ?_⟩
  rintro ⟨r, hr, -⟩
  cases hrun.symm.trans hr

end PathSet
