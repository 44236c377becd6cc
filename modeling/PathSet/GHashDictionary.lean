import PathSet.GHashHolds
import PathSet.Library.Numbered
import Mathlib.NumberTheory.Bertrand

/-!
The chained hash table as an interner for path elements and as a dictionary of lines.
Every accepted table size leads to a prime in reach, so the table is always made.
-/

namespace PathSet
open Fallible Pointer Buckets FirstSeen Numbered

namespace GHash

theorem mod_ne_zero_of_prime {p d : Nat} (hp : p.Prime) (hd : 2 ≤ d) (hlt : d < p) :
    p % d ≠ 0 := by
  intro hzero
  rcases hp.eq_one_or_self_of_dvd d (Nat.dvd_of_mod_eq_zero hzero) with h | h <;> omega

theorem isPrimeFrom_prime {p fuel d s : Nat} (hp : p.Prime) (htop : p < 2 ^ 32) (hd : 3 ≤ d)
    (hlt : d < p) (hs : s = d * d) (hfuel : p < fuel + d) : isPrimeFrom p fuel d s = .ok true := by
  induction fuel generalizing d s with
  | zero => omega
  | succ fuel ih =>
    rw [isPrimeFrom]
    split_ifs with hloop
    · have hnext : d * 3 ≤ d * d := Nat.mul_le_mul_left d hd
      have hlt' : d + 1 + 1 < p := by omega
      have hsquare : (s + 4 * (d + 1)) % 2 ^ 64 = (d + 1 + 1) * (d + 1 + 1) := by
        rw [hs, Nat.mod_eq_of_lt (by omega)]
        ring
      exact ih (by omega) hlt' hsquare (by omega)
    · simp [mod_ne_zero_of_prime hp (by omega) hlt]

theorem nextPrimeFrom_le {p fuel n r : Nat} (hp : p.Prime) (htop : p < 2 ^ 32) (hodd : p % 2 = 1)
    (hn : n % 2 = 1) (hlow : 3 < n) (hle : n ≤ p) (h : nextPrimeFrom fuel n = .ok r) : r ≤ p := by
  induction fuel generalizing n with
  | zero => simp [nextPrimeFrom] at h
  | succ fuel ih =>
    rw [nextPrimeFrom] at h
    split_ifs at h
    · obtain ⟨b, hb, h⟩ := bind_eq_ok.mp h
      cases b with
      | true =>
        obtain rfl : n = r := Except.ok.inj h
        exact hle
      | false =>
        have hne : n ≠ p := by
          rintro rfl
          rw [isPrime, isPrimeFrom_prime hp htop le_rfl hlow rfl (by omega)] at hb
          simp at hb
        exact ih (by omega) (by omega) (by omega) h
    · obtain rfl : n = r := Except.ok.inj h
      exact hle

theorem nextPrime_small {n : Nat} (hn : n < 2 ^ 29) :
    ∃ r, nextPrime n = .ok r ∧ 0 < r ∧ r ≤ 2 ^ 30 := by
  obtain ⟨r, hr, hpos⟩ := @nextPrime_total n (by unfold sizeMax; omega)
  refine ⟨r, hr, hpos, ?_⟩
  have hstart : (if n < 10 then 10 else n) < 2 ^ 29 := by split_ifs <;> omega
  have hten : 10 ≤ if n < 10 then 10 else n := by split_ifs <;> omega
  have hlow : (if n < 10 then 10 else n) ≤ (if n < 10 then 10 else n) ||| 1 := Nat.left_le_or
  have hlt := Nat.or_lt_two_pow hstart (show 1 < 2 ^ 29 by norm_num)
  obtain ⟨p, hp, hnp, hp2⟩ := Nat.exists_prime_lt_and_le_two_mul
    ((if n < 10 then 10 else n) ||| 1) (by omega)
  have hodd : p % 2 = 1 := hp.eq_two_or_odd.resolve_left (by omega)
  have hle := nextPrimeFrom_le hp (by omega) hodd (by simp [Nat.or_mod_two_eq_one])
    (by omega) hnp.le hr
  omega

theorem computeBucketSize_small {tuning : HashTuning} {n : Nat} (hn : n ≤ MB 32)
    (hload : 11 / 100 < tuning.growthThreshold) (hnot : tuning.isNBuckets = false) :
    ∃ r, computeBucketSize n tuning = .ok r ∧ 0 < r ∧ r ≤ 2 ^ 30 := by
  have hpos : (0 : ℚ) < tuning.growthThreshold := by linarith
  have hbool : ¬tuning.isNBuckets = true := by simp [hnot]
  have hcast : (n : ℚ) ≤ 2 ^ (25 : ℤ) := by
    have : n ≤ 33554432 := by simpa [MB, KB] using hn
    norm_num
    exact_mod_cast this
  have hfloat : toFloat n ≤ 2 ^ (25 : ℤ) :=
    toFloat_le (Rounding.exact_zpow 24 25) (Nat.cast_nonneg n) hcast
  -- a float above the largest quotient
  have hcand : toFloat (toFloat n / tuning.growthThreshold) ≤ (19 : ℕ) * 2 ^ (24 : ℤ) := by
    refine toFloat_le ⟨19, 24, by norm_num, rfl⟩
      (div_nonneg (toFloat_nonneg (Nat.cast_nonneg n)) hpos.le) ?_
    rw [div_le_iff₀ hpos]
    norm_num at hfloat ⊢
    linarith
  have hmax : ¬ toFloat sizeMax ≤ toFloat (toFloat n / tuning.growthThreshold) := by
    rw [toFloat_sizeMax]
    norm_num at hcand ⊢
    linarith
  have hfloor : (toFloat (toFloat n / tuning.growthThreshold)).floor < 2 ^ 29 := by
    have hle := (Int.floor_le (toFloat (toFloat n / tuning.growthThreshold))).trans hcand
    norm_num at hle
    have hint : (toFloat (toFloat n / tuning.growthThreshold)).floor ≤ 318767104 := by
      exact_mod_cast hle
    omega
  obtain ⟨r, hr, hrpos, hrle⟩ :=
    @nextPrime_small (toFloat (toFloat n / tuning.growthThreshold)).floor.toNat (by omega)
  refine ⟨r, ?_, hrpos, hrle⟩
  simp only [computeBucketSize]
  rw [if_neg fun h => hmax h.2, if_neg hbool, hr, ok_bind, if_neg (by unfold sizeMax; omega)]
  rfl

/-- The tuning `GHASH_INIT` makes from the options. -/
def optionsTuning (opt : Options) : HashTuning :=
  ⟨0, 1, opt.rehashLoad.getD (toFloat (4 / 5)), opt.rehashSize.getD (toFloat (1414 / 1000)), false⟩

/-- The float constants between the bounds of the options and the stricter ones of
`check_tuning`. -/
theorem toFloat_constants : toFloat (1 / 10) < 11 / 100 ∧ 89 / 100 < toFloat (1 - toFloat (1 / 10)) ∧
    toFloat (1 + toFloat (1 / 10)) < 111 / 100 ∧ toFloat (0 + toFloat (1 / 10)) < 11 / 100 ∧
    AcceptedFloat 0 1 (toFloat (4 / 5)) ∧ AcceptedFloat 1 4 (toFloat (1414 / 1000)) := by
  unfold AcceptedFloat
  decide +kernel

theorem tuned_options {opt : Options} (hopt : opt.Accepted) :
    Tuned (optionsTuning opt) ∧ 11 / 100 < (optionsTuning opt).growthThreshold := by
  obtain ⟨hepsilon, hbelow, habove, hstart, hload, hgrow⟩ := toFloat_constants
  obtain ⟨h1, h2⟩ := acceptedFloat_getD hopt.rehashLoad hload
  obtain ⟨h3, h4⟩ := acceptedFloat_getD hopt.rehashSize hgrow
  refine ⟨⟨?_, rfl, by simp only [optionsTuning]; linarith⟩, by simp only [optionsTuning]; linarith⟩
  simp only [checkTuning, decide_eq_true_eq]
  simp only [optionsTuning]
  refine ⟨by linarith, by linarith, by linarith, le_refl 0, by linarith, le_refl 1, by linarith⟩

theorem init_accepted (kind : GHashKind) {opt : Options} (hopt : opt.Accepted) :
    ∃ h, init opt = .ok h ∧ Holds kind h [] ∧ Tuned h.tuning ∧ h.nEntries = 0 ∧
      h.stats.nDuplicateEntries = 0 := by
  obtain ⟨htuned, hload⟩ := tuned_options hopt
  obtain ⟨n, hn, hpos, hle⟩ := computeBucketSize_small hopt.hashSize.2 hload htuned.notBuckets
  have hcalloc : calloc n 16 ([] : List Nat) = .ok (List.replicate n []) :=
    if_pos (by unfold sizeMax; omega)
  refine ⟨⟨[], List.replicate n [], n, 0, 0, 0, optionsTuning opt, ⟨0, 0, 0, 0, 0, 0, 0⟩, 0, 0⟩,
    ?_, ⟨by simp, hpos, (used_replicate n).symm, rfl, rfl, by simp, List.nodup_nil, ?_,
      homed_replicate _ n, rfl⟩, htuned, rfl, rfl⟩
  · have hcheck := htuned.checked
    rw [optionsTuning] at hn hcheck
    simp only [init, ensure_of hcheck, ok_bind, hn, ensure_of hpos.ne', hcalloc]
    rfl
  · simp [items_replicate]

theorem holds_setVal {kind : GHashKind} {h : GHash} {ks : List Bytes} (hh : Holds kind h ks)
    (p v : Nat) : Holds kind (h.setVal p v) ks := by
  refine ⟨hh.sized, hh.pos, hh.used, hh.entries, by simpa [setVal] using hh.length, ?_, hh.nodup,
    hh.slots, hh.homed, hh.counted⟩
  intro q k hq
  obtain ⟨c, hc, hs⟩ := hh.stores q k hq
  simp only [setVal, deref_update, hc]
  split_ifs
  · exact ⟨_, rfl, hs.str, hs.len, hs.noNul⟩
  · exact ⟨c, rfl, hs⟩

def numbered (kind : GHashKind) : Store GHash Bytes Abort where
  insert h key := h.insert kind key
  lookup h key := h.lookup kind key
  uniq h := h.nEntries
  dups h := h.stats.nDuplicateEntries
  val := val
  setVal := setVal
  Exhausted e := e = .alloc
  Key k := 0 ∉ k
  Holds h ks := Holds kind h ks ∧ Tuned h.tuning
  holds_key := by
    rintro h ks k ⟨hh, -⟩ hk
    obtain ⟨p, hp⟩ := exists_deref hk
    obtain ⟨c, -, hs⟩ := hh.stores p k hp
    exact hs.noNul
  lookup_spec := by
    rintro h ks k ⟨hh, -⟩ hk
    exact lookup_spec hh hk
  insert_spec := by
    rintro h ks k ⟨hh, htuned⟩ hk
    rcases insert_spec hh htuned hk with
      ⟨p, stats, hins, hp, hd⟩ | ⟨hnew, ⟨ha, -⟩ | ⟨h', hins, hh', ht', hu, hd, hval⟩⟩
    · exact Or.inl ⟨_, p, hins, hp, ⟨holds_stats hh stats, htuned⟩, rfl, hd, fun _ => rfl⟩
    · exact Or.inr ⟨hnew, Or.inl ⟨_, rfl, ha⟩⟩
    · exact Or.inr ⟨hnew, Or.inr ⟨h', hins, ⟨hh', ht' ▸ htuned⟩, hu, hd, hval⟩⟩
  holds_setVal := by
    rintro h ks p v ⟨hh, htuned⟩
    exact ⟨holds_setVal hh p v, htuned⟩
  val_setVal := by
    rintro h ks p k v ⟨hh, -⟩ hp
    obtain ⟨c, hc, -⟩ := hh.stores p k hp
    simp [val, setVal, deref_update, hc]
  val_setVal_ne := by
    intro h p q v hpq
    simp [val, setVal, deref_update, hpq]
  uniq_setVal _ _ _ := rfl
  dups_setVal _ _ _ := rfl

theorem init_numbered (kind : GHashKind) {opt : Options} (hopt : opt.Accepted) :
    ∃ h, init opt = .ok h ∧ (numbered kind).Holds h [] ∧
      (numbered kind).uniq h = 0 ∧ (numbered kind).dups h = 0 := by
  obtain ⟨h, hinit, hh, htuned, hu, hd⟩ := init_accepted kind hopt
  exact ⟨h, hinit, ⟨hh, htuned⟩, hu, hd⟩

end GHash

end PathSet
