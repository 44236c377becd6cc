import PathSet.LHashHolds
import Mathlib.Tactic.Linarith
import Mathlib.Tactic.NormNum

/-!
The growth the program really uses. The search for the next prime always ends, and
with accepted factors the threshold lies below the size and the size increases.
-/

namespace PathSet
open Fallible

namespace LHash

/-- The square `s = d * d` stays far from overflow below the limit. -/
theorem isPrimeFrom_total {n fuel d s : Nat} (hs : s = d * d) (hd : 0 < d) (hn : n < 2 ^ 32)
    (hpos : 0 < fuel) (hfuel : n < fuel + d) : ∃ b, isPrimeFrom n fuel d s = .ok b := by
  induction fuel generalizing d s with
  | zero => exact absurd hpos (lt_irrefl 0)
  | succ fuel ih =>
    rw [isPrimeFrom]
    split_ifs with hloop
    · have hdn : d < n := by
        have hle : d * 1 ≤ d * d := Nat.mul_le_mul_left d hd
        omega
      have hsq : (d + 1 + 1) * (d + 1 + 1) = s + (d + 1) * 4 := by
        rw [hs]
        ring
      simp only [verify_of (show d ≤ sizeMax - 2 by unfold sizeMax; omega),
        verify_of (show d + 1 ≤ sizeMax / 4 by unfold sizeMax; omega),
        verify_of (show s ≤ sizeMax - (d + 1) * 4 by unfold sizeMax; omega), ok_bind]
      exact ih hsq.symm (by omega) (by omega) (by omega)
    · exact ⟨_, rfl⟩

theorem isPrime_total {n : Nat} (hn : n < primeLimit) : ∃ b, isPrime n = .ok b :=
  isPrimeFrom_total rfl (by norm_num) (hn.trans (by norm_num [primeLimit])) (by omega) (by omega)

theorem nextPrimeFrom_spec {fuel n : Nat} (hpos : 0 < fuel) (hfuel : primeLimit < fuel + n) :
    ∃ r, nextPrimeFrom fuel n = .ok r ∧ n ≤ r ∧ r ≤ max n (primeLimit + 1) := by
  induction fuel generalizing n with
  | zero => exact absurd hpos (lt_irrefl 0)
  | succ fuel ih =>
    rw [nextPrimeFrom]
    split_ifs with hlt
    · obtain ⟨b, hb⟩ := isPrime_total hlt
      rw [hb, ok_bind]
      cases b with
      | true => exact ⟨n, rfl, le_refl n, le_max_left _ _⟩
      | false =>
        obtain ⟨r, hr, hle, hmax⟩ := @ih (n + 2) (by omega) (by omega)
        refine ⟨r, hr, by omega, ?_⟩
        omega
    · exact ⟨n, rfl, le_refl n, le_max_left _ _⟩

theorem nextPrime_spec (n : Nat) :
    ∃ r, nextPrime n = .ok r ∧ n ≤ r ∧ r ≤ max (n ||| 1) (primeLimit + 1) := by
  obtain ⟨r, hr, hle, hmax⟩ := @nextPrimeFrom_spec (primeLimit + 1) (n ||| 1) (by omega) (by omega)
  exact ⟨r, hr, Nat.left_le_or.trans hle, hmax⟩

theorem sizeMulFloat_spec {x : Nat} {f : ℚ} (h0 : 0 ≤ x * f) (h : x * f < 2 ^ 64) :
    ∃ r : Nat, sizeMulFloat x f = .ok r ∧ (r : ℚ) ≤ x * f ∧ x * f < r + 1 := by
  refine ⟨(x * f).floor.toNat, by rw [sizeMulFloat, verify_of h]; rfl, ?_⟩
  have hfloor : 0 ≤ (x * f).floor := Int.floor_nonneg.mpr h0
  have hcast : (((x * f).floor.toNat : Nat) : ℚ) = ((x * f).floor : ℚ) := by
    rw [← Int.cast_natCast, Int.toNat_of_nonneg hfloor]
  rw [hcast]
  exact ⟨Int.floor_le (x * f), Int.lt_floor_add_one (x * f)⟩

structure Fits (h : LHash) : Prop where
  large : 32 ≤ h.size
  bytes : h.size * 8 ≤ sizeMax
  rehashSize : AcceptedFloat 1 4 h.rehashSize
  rehashLoad : AcceptedFloat 0 1 h.rehashLoad

theorem growth_sound {h : LHash} (hf : Fits h) : Growth.Sound h.growth h.size := by
  obtain ⟨hlarge, hbytes, ⟨hs1, hs2⟩, hl1, hl2⟩ := hf
  have hsize : (32 : ℚ) ≤ h.size := by exact_mod_cast hlarge
  have htop : (h.size : ℚ) < 2 ^ 61 := by
    have hlt : h.size < 2 ^ 61 := by
      simp only [sizeMax] at hbytes
      omega
    exact_mod_cast hlt
  constructor
  · obtain ⟨s, hs, hle, hlt⟩ := @sizeMulFloat_spec h.size h.rehashLoad (by nlinarith) (by nlinarith)
    refine ⟨s, hs, ?_, ?_⟩
    · have hpos : (0 : ℚ) < s := by nlinarith
      exact_mod_cast hpos
    · have hlow : (s : ℚ) < h.size := by nlinarith
      exact_mod_cast hlow
  · obtain ⟨s, hs, hle, hlt⟩ := @sizeMulFloat_spec h.size h.rehashSize (by nlinarith) (by nlinarith)
    obtain ⟨r, hr, hsr, -⟩ := nextPrime_spec s
    refine ⟨r, by simp only [growth, hs, ok_bind, hr], ?_⟩
    have hgrow : (h.size : ℚ) < s := by nlinarith
    have hgrow : h.size < s := by exact_mod_cast hgrow
    omega

/-- The size `LHASH_INIT` starts its search for a prime at. -/
def initSize (opt : Options) : Nat :=
  if opt.hashSize = 0 then 1024 else if opt.hashSize < 32 then 32 else opt.hashSize

theorem le_initSize (opt : Options) : 32 ≤ initSize opt := by
  unfold initSize
  split_ifs <;> omega

theorem init_holds {opt : Options} {h : LHash} (kind : LHashKind) (hinit : init opt = .ok h) :
    Holds kind h [] ∧ 32 ≤ h.size ∧ h.size * 8 ≤ sizeMax ∧
      h.rehashSize = opt.rehashSize.getD 2 ∧ h.rehashLoad = opt.rehashLoad.getD (3 / 4) ∧
      h.stats.uniqNode = 0 ∧ h.stats.dupsNode = 0 := by
  rw [init] at hinit
  by_cases hload : opt.rehashLoad.isSome ∧
      ¬ (1 / 10 < opt.rehashLoad.getD (3 / 4) - 0 ∧ 1 / 10 < 1 - opt.rehashLoad.getD (3 / 4))
  · rw [if_pos hload] at hinit
    simp at hinit
  rw [if_neg hload] at hinit
  by_cases hgrow : opt.rehashSize.isSome ∧
      ¬ (1 / 10 < opt.rehashSize.getD 2 - 0 ∧ opt.rehashSize.getD 2 ≤ 4)
  · rw [if_pos hgrow] at hinit
    simp at hinit
  rw [if_neg hgrow] at hinit
  obtain ⟨r, hr, hle, -⟩ := nextPrime_spec (initSize opt)
  have hlarge : 32 ≤ r := (le_initSize opt).trans hle
  rw [initSize] at hr
  rw [hr, ok_bind] at hinit
  rcases calloc_cases r 8 (none : Option Nat) with ⟨ha, -⟩ | ⟨ha, hfit⟩
  · rw [ha, error_bind] at hinit
    simp at hinit
  · rw [ha, ok_bind] at hinit
    obtain rfl := Except.ok.inj hinit
    refine ⟨⟨by simp, rfl, show 0 < r by omega, rfl, by simp, List.nodup_nil,
      ?_, ?_, rfl⟩, hlarge, hfit, rfl, rfl, rfl, rfl⟩
    · simp [ProbeTable.items_replicate]
    · exact ProbeTable.settled_replicate _ r

theorem init_accepted {opt : Options} (hopt : opt.Accepted) :
    ∃ h, init opt = .ok h ∧ Fits h := by
  have hload : AcceptedFloat 0 1 (opt.rehashLoad.getD (3 / 4)) :=
    acceptedFloat_getD hopt.rehashLoad (by constructor <;> norm_num)
  have hgrow : AcceptedFloat 1 4 (opt.rehashSize.getD 2) :=
    acceptedFloat_getD hopt.rehashSize (by constructor <;> norm_num)
  obtain ⟨r, hr, hle, hmax⟩ := nextPrime_spec (initSize opt)
  have hsize : initSize opt < 2 ^ 26 := by
    have htop := hopt.hashSize.2
    simp only [MB, KB] at htop
    unfold initSize
    split_ifs <;> omega
  have hor : initSize opt ||| 1 < 2 ^ 26 := Nat.or_lt_two_pow hsize (by norm_num)
  have hfit : r * 8 ≤ sizeMax := by
    unfold primeLimit at hmax
    unfold sizeMax
    omega
  refine ⟨⟨[], List.replicate r none, r, 0, opt.rehashSize.getD 2, opt.rehashLoad.getD (3 / 4),
    ⟨0, 0, 0, 0, 0, 0, 0⟩, 0, 0⟩, ?_, (le_initSize opt).trans hle, hfit, hgrow, hload⟩
  have hcalloc : calloc r 8 (none : Option Nat) = .ok (List.replicate r none) := if_pos hfit
  rw [initSize] at hr
  rw [init, if_neg, if_neg, hr, ok_bind, hcalloc]
  · rfl
  · rintro ⟨-, h⟩
    obtain ⟨h1, h2⟩ := hgrow
    exact h ⟨by linarith, by linarith⟩
  · rintro ⟨-, h⟩
    obtain ⟨h1, h2⟩ := hload
    exact h ⟨by linarith, by linarith⟩

end LHash

end PathSet
