import Mathlib.Algebra.Order.Field.Power
import Mathlib.Data.Int.Log
import Mathlib.Data.Rat.Floor
import Mathlib.Tactic.FieldSimp
import Mathlib.Tactic.Linarith
import Mathlib.Tactic.Positivity

/-!
Rounding to so many binary digits, ties to even. The exponents have no bounds, so there
is neither overflow nor underflow.
-/

namespace Rounding

def nearest (q : ℚ) : ℤ :=
  let n := ⌊q⌋
  if 2 * (q - n) < 1 then n
  else if 1 < 2 * (q - n) then n + 1
  else if n % 2 = 0 then n else n + 1

def ulp (p : ℕ) (q : ℚ) : ℚ := 2 ^ (Int.log 2 |q| + 1 - p)

def roundTo (p : ℕ) (q : ℚ) : ℚ := nearest (q / ulp p q) * ulp p q

theorem nearest_cases (q : ℚ) : (nearest q = ⌊q⌋ ∧ 2 * (q - ⌊q⌋) ≤ 1) ∨
    (nearest q = ⌊q⌋ + 1 ∧ 1 ≤ 2 * (q - ⌊q⌋)) := by
  simp only [nearest]
  split_ifs with hbelow habove heven
  · exact Or.inl ⟨rfl, hbelow.le⟩
  · exact Or.inr ⟨rfl, habove.le⟩
  · exact Or.inl ⟨rfl, not_lt.mp habove⟩
  · exact Or.inr ⟨rfl, not_lt.mp hbelow⟩

theorem le_nearest {n : ℤ} {q : ℚ} (h : n ≤ q) : n ≤ nearest q := by
  have hfloor : n ≤ ⌊q⌋ := Int.le_floor.mpr h
  rcases nearest_cases q with ⟨heq, -⟩ | ⟨heq, -⟩ <;> omega

theorem nearest_le {n : ℤ} {q : ℚ} (h : q ≤ n) : nearest q ≤ n := by
  have hfloor : ⌊q⌋ ≤ n := Int.floor_le_iff.mpr (by linarith)
  rcases nearest_cases q with ⟨heq, -⟩ | ⟨heq, hhalf⟩
  · omega
  · -- a number that is rounded up is no integer
    have hne : ⌊q⌋ ≠ n := by
      rintro rfl
      linarith
    omega

theorem nearest_mono {q r : ℚ} (h : q ≤ r) : nearest q ≤ nearest r := by
  rcases (Int.floor_le_floor h).eq_or_lt with hsame | hless
  · rcases nearest_cases q with ⟨hq, -⟩ | ⟨hq, hupq⟩
    · have hr := le_nearest (Int.floor_le r)
      omega
    rcases nearest_cases r with ⟨hr, hdownr⟩ | ⟨hr, -⟩
    · -- both lie in the middle
      have hcast : (⌊q⌋ : ℚ) = ⌊r⌋ := by exact_mod_cast hsame
      obtain rfl : q = r := by linarith
      exact le_refl _
    · omega
  · have hr := le_nearest (Int.floor_le r)
    rcases nearest_cases q with ⟨hq, -⟩ | ⟨hq, -⟩ <;> omega

theorem abs_nearest_sub (q : ℚ) : |nearest q - q| ≤ 1 / 2 := by
  have hfloor := Int.floor_le q
  have hnext := Int.lt_floor_add_one q
  rcases nearest_cases q with ⟨heq, hhalf⟩ | ⟨heq, hhalf⟩
  · rw [heq, abs_le]
    constructor <;> linarith
  · rw [heq, abs_le]
    push_cast
    constructor <;> linarith

theorem ulp_pos (p : ℕ) (q : ℚ) : 0 < ulp p q := by
  unfold ulp
  positivity

section
variable {p : ℕ} {q r z : ℚ}

theorem two_pow_mul_ulp (hq : 0 < q) : 2 ^ p * ulp p q = 2 * (2 : ℚ) ^ Int.log 2 q := by
  rw [ulp, abs_of_pos hq, zpow_sub₀ two_ne_zero, zpow_add_one₀ two_ne_zero, zpow_natCast]
  field_simp

theorem two_pow_log_le (hq : 0 < q) : (2 : ℚ) ^ Int.log 2 q ≤ q := by
  exact_mod_cast Int.zpow_log_le_self (b := 2) (by norm_num) hq

theorem lt_two_pow_log (q : ℚ) : q < 2 * (2 : ℚ) ^ Int.log 2 q := by
  have hlt := Int.lt_zpow_succ_log_self (b := 2) (by norm_num) q
  rw [zpow_add_one₀ (by norm_num)] at hlt
  push_cast at hlt
  linarith

def Exact (p : ℕ) (z : ℚ) : Prop := ∃ (m : ℕ) (e : ℤ), m ≤ 2 ^ p ∧ z = m * (2 : ℚ) ^ e

theorem exact_natCast {n : ℕ} (h : n ≤ 2 ^ p) : Exact p n := ⟨n, 0, h, by simp⟩

theorem exact_zpow (p : ℕ) (e : ℤ) : Exact p (2 ^ e) := ⟨1, e, Nat.one_le_two_pow, by simp⟩

theorem exact_two_mul {n : ℕ} (h : n ≤ 2 ^ p) : Exact p ((2 * n : ℕ) : ℚ) :=
  ⟨n, 1, h, by push_cast; ring⟩

theorem Exact.multiple (hz : Exact p z) (hp : 0 < p) (hq : 0 < q)
    (hlog : (2 : ℚ) ^ Int.log 2 q ≤ z) : ∃ k : ℤ, z = k * ulp p q := by
  obtain ⟨m, e, hm, rfl⟩ := hz
  rcases le_or_gt (Int.log 2 q + 1 - p) e with hle | hlt
  · refine ⟨m * 2 ^ (e - (Int.log 2 q + 1 - p)).toNat, ?_⟩
    have hexp : ((e - (Int.log 2 q + 1 - p)).toNat : ℤ) = e - (Int.log 2 q + 1 - p) :=
      Int.toNat_of_nonneg (by omega)
    rw [ulp, abs_of_pos hq]
    push_cast
    rw [mul_assoc, ← zpow_natCast (2 : ℚ) (Int.toNat _), hexp, ← zpow_add₀ two_ne_zero]
    congr 2
    ring
  · -- then it is the least number of this order
    have hm' : (m : ℚ) ≤ 2 ^ (p : ℤ) := by exact_mod_cast hm
    have htop : (m : ℚ) * 2 ^ e ≤ 2 ^ Int.log 2 q := by
      calc (m : ℚ) * 2 ^ e ≤ 2 ^ (p : ℤ) * 2 ^ e :=
            mul_le_mul_of_nonneg_right hm' (by positivity)
        _ = 2 ^ ((p : ℤ) + e) := (zpow_add₀ two_ne_zero _ _).symm
        _ ≤ 2 ^ Int.log 2 q := zpow_le_zpow_right₀ (by norm_num) (by omega)
    refine ⟨2 ^ (p - 1), ?_⟩
    rw [le_antisymm htop hlog, ulp, abs_of_pos hq]
    push_cast
    rw [← zpow_natCast, ← zpow_add₀ two_ne_zero]
    congr 1
    omega

theorem roundTo_zero (p : ℕ) : roundTo p 0 = 0 := by simp [roundTo, nearest]

theorem exists_digits (p : ℕ) (hq : 0 ≤ q) : ∃ n : ℕ, nearest (q / ulp p q) = n :=
  Int.eq_ofNat_of_zero_le (le_nearest (by exact_mod_cast div_nonneg hq (ulp_pos p q).le))

theorem roundTo_nonneg (p : ℕ) (hq : 0 ≤ q) : 0 ≤ roundTo p q := by
  obtain ⟨n, hn⟩ := exists_digits p hq
  rw [roundTo, hn]
  exact mul_nonneg (by positivity) (ulp_pos p q).le

theorem two_pow_log_le_roundTo (hp : 0 < p) (hq : 0 < q) : (2 : ℚ) ^ Int.log 2 q ≤ roundTo p q := by
  obtain ⟨k, hk⟩ := (exact_zpow p (Int.log 2 q)).multiple hp hq le_rfl
  have hle : (k : ℚ) ≤ q / ulp p q := by
    rw [le_div_iff₀ (ulp_pos p q), ← hk]
    exact two_pow_log_le hq
  rw [hk, roundTo]
  exact mul_le_mul_of_nonneg_right (by exact_mod_cast le_nearest hle) (ulp_pos p q).le

theorem Exact.le_roundTo (hz : Exact p z) (hp : 0 < p) (hq : 0 ≤ q) (h : z ≤ q) : z ≤ roundTo p q := by
  rcases hq.eq_or_lt with rfl | hq
  · rwa [roundTo_zero]
  rcases le_or_gt ((2 : ℚ) ^ Int.log 2 q) z with hlog | hlog
  · obtain ⟨k, rfl⟩ := hz.multiple hp hq hlog
    have hle : (k : ℚ) ≤ q / ulp p q := (le_div_iff₀ (ulp_pos p q)).mpr h
    exact mul_le_mul_of_nonneg_right (by exact_mod_cast le_nearest hle) (ulp_pos p q).le
  · exact hlog.le.trans (two_pow_log_le_roundTo hp hq)

theorem Exact.roundTo_le (hz : Exact p z) (hp : 0 < p) (hq : 0 ≤ q) (h : q ≤ z) : roundTo p q ≤ z := by
  rcases hq.eq_or_lt with rfl | hq
  · rwa [roundTo_zero]
  obtain ⟨k, rfl⟩ := hz.multiple hp hq ((two_pow_log_le hq).trans h)
  have hle : q / ulp p q ≤ k := (div_le_iff₀ (ulp_pos p q)).mpr h
  exact mul_le_mul_of_nonneg_right (by exact_mod_cast nearest_le hle) (ulp_pos p q).le

theorem Exact.roundTo_eq (hz : Exact p z) (hp : 0 < p) : roundTo p z = z := by
  have hnonneg : 0 ≤ z := by
    obtain ⟨m, e, -, rfl⟩ := hz
    positivity
  exact le_antisymm (hz.roundTo_le hp hnonneg le_rfl) (hz.le_roundTo hp hnonneg le_rfl)

theorem roundTo_mono (hp : 0 < p) (hq : 0 ≤ q) (h : q ≤ r) : roundTo p q ≤ roundTo p r := by
  rcases hq.eq_or_lt with rfl | hq
  · rw [roundTo_zero]
    exact roundTo_nonneg p h
  have hr : 0 < r := hq.trans_le h
  rcases (Int.log_mono_right (b := 2) hq h).eq_or_lt with hsame | hless
  · have hulp : ulp p q = ulp p r := by rw [ulp, ulp, abs_of_pos hq, abs_of_pos hr, hsame]
    rw [roundTo, roundTo, hulp]
    have hdiv : q / ulp p r ≤ r / ulp p r := div_le_div_of_nonneg_right h (ulp_pos p r).le
    exact mul_le_mul_of_nonneg_right (by exact_mod_cast nearest_mono hdiv) (ulp_pos p r).le
  · -- a power of two lies between them
    have htop : roundTo p q ≤ 2 ^ (Int.log 2 q + 1) := by
      refine (exact_zpow p _).roundTo_le hp hq.le ?_
      rw [zpow_add_one₀ two_ne_zero, mul_comm]
      exact (lt_two_pow_log q).le
    exact (htop.trans (zpow_le_zpow_right₀ (by norm_num) hless)).trans (two_pow_log_le_roundTo hp hr)

theorem abs_roundTo_sub (hq : 0 < q) : 2 ^ p * |roundTo p q - q| ≤ q := by
  have hulp := ulp_pos p q
  have hnear := abs_nearest_sub (q / ulp p q)
  have hfactor : roundTo p q - q = (nearest (q / ulp p q) - q / ulp p q) * ulp p q := by
    rw [roundTo]
    field_simp
  rw [hfactor, abs_mul, abs_of_pos hulp]
  calc (2 : ℚ) ^ p * (|nearest (q / ulp p q) - q / ulp p q| * ulp p q)
      = |nearest (q / ulp p q) - q / ulp p q| * (2 ^ p * ulp p q) := by ring
    _ ≤ 1 / 2 * (2 ^ p * ulp p q) := mul_le_mul_of_nonneg_right hnear (by positivity)
    _ = 2 ^ Int.log 2 q := by
      rw [two_pow_mul_ulp hq]
      ring
    _ ≤ q := two_pow_log_le hq

theorem exact_roundTo (p : ℕ) (hq : 0 ≤ q) : Exact p (roundTo p q) := by
  rcases hq.eq_or_lt with rfl | hq
  · exact ⟨0, 0, Nat.zero_le _, by simp [roundTo_zero]⟩
  obtain ⟨n, hn⟩ := exists_digits p hq.le
  have htop : nearest (q / ulp p q) ≤ (2 ^ p : ℕ) := by
    refine nearest_le ?_
    rw [div_le_iff₀ (ulp_pos p q)]
    push_cast
    rw [two_pow_mul_ulp hq]
    exact (lt_two_pow_log q).le
  rw [hn] at htop
  refine ⟨n, Int.log 2 |q| + 1 - p, by exact_mod_cast htop, ?_⟩
  rw [roundTo, hn, ulp]
  norm_cast

theorem roundTo_eq_natCast (hlarge : 2 ^ p ≤ q) : ∃ n : ℕ, roundTo p q = n := by
  have hq : 0 < q := lt_of_lt_of_le (by positivity) hlarge
  have hlog : (p : ℤ) ≤ Int.log 2 q :=
    (Int.zpow_le_iff_le_log (b := 2) (by norm_num) hq).mp (by exact_mod_cast hlarge)
  have hexp : ((Int.log 2 q + 1 - p).toNat : ℤ) = Int.log 2 q + 1 - p :=
    Int.toNat_of_nonneg (by omega)
  obtain ⟨n, hn⟩ := exists_digits p hq.le
  refine ⟨n * 2 ^ (Int.log 2 q + 1 - p).toNat, ?_⟩
  push_cast
  rw [roundTo, hn, ← zpow_natCast (2 : ℚ) (Int.toNat _), hexp, ulp, abs_of_pos hq]
  norm_cast

end

end Rounding
