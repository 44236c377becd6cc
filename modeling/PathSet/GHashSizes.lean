import PathSet.GHashDictionary
import PathSet.Primes

/-!
The sizes of a chained table. The trial division of this table ends with a test of the
last divisor, so it finds primes only, as long as its square does not wrap. A table has
a prime number of buckets, and does not grow before it holds the keys it was made for.
-/

namespace PathSet
open Fallible Pointer Buckets FirstSeen Numbered

namespace GHash

/-- The largest square of a divisor that `size_t` holds. -/
def trialLimit : Nat := (2 ^ 32 - 1) ^ 2

theorem next_square {n d s : Nat} (hs : s = d * d) (hodd : d % 2 = 1) (hlt : s < n)
    (htop : n ≤ trialLimit) : (s + 4 * (d + 1)) % 2 ^ 64 = (d + 1 + 1) * (d + 1 + 1) := by
  have hd : d < 2 ^ 32 - 1 := by
    refine lt_of_pow_lt_pow_left₀ 2 (Nat.zero_le _) ?_
    rw [Nat.pow_two, ← hs]
    exact hlt.trans_le htop
  have hsq : (d + 1 + 1) * (d + 1 + 1) ≤ (2 ^ 32 - 1) * (2 ^ 32 - 1) :=
    Nat.mul_self_le_mul_self (by omega)
  have heq : s + 4 * (d + 1) = (d + 1 + 1) * (d + 1 + 1) := by
    rw [hs]
    ring
  rw [heq]
  exact Nat.mod_eq_of_lt (by omega)

theorem prime_of_tried {n d : Nat} (hn : 2 ≤ n) (htried : ∀ k, 2 ≤ k → k ≤ d → ¬k ∣ n)
    (hroot : n ≤ d * d) : n.Prime := by
  by_contra hnot
  have hfac : n.minFac.Prime := Nat.minFac_prime (by omega)
  have hsq : n.minFac * n.minFac ≤ n := by
    rw [← Nat.pow_two]
    exact Nat.minFac_sq_le_self (by omega) hnot
  exact htried _ hfac.two_le (Nat.mul_self_le_mul_self_iff.mp (hsq.trans hroot))
    (Nat.minFac_dvd n)

theorem isPrimeFrom_spec {n fuel d s : Nat} {b : Bool} (hs : s = d * d) (hd : 3 ≤ d)
    (hodd : d % 2 = 1) (hn : n % 2 = 1) (hlow : 11 ≤ n) (htop : n ≤ trialLimit)
    (hroot : (d - 2) * (d - 2) < n) (htried : ∀ k, 2 ≤ k → k < d → ¬k ∣ n)
    (h : isPrimeFrom n fuel d s = .ok b) : b = true ↔ n.Prime := by
  induction fuel generalizing d s with
  | zero => cases h
  | succ fuel ih =>
    rw [isPrimeFrom] at h
    split_ifs at h with hloop
    · refine ih (next_square hs hodd hloop.1 htop) (by omega) (by omega) ?_ ?_ h
      · rw [show d + 1 + 1 - 2 = d by omega, ← hs]
        exact hloop.1
      -- the even number behind the divisor needs no trial
      · intro k hk hkd hdvd
        have hcases : k < d ∨ k = d ∨ k = d + 1 := by omega
        rcases hcases with hless | rfl | rfl
        · exact htried k hk hless hdvd
        · exact hloop.2 (Nat.mod_eq_zero_of_dvd hdvd)
        · have htwo : 2 ∣ n := Nat.dvd_trans (by omega) hdvd
          omega
    · obtain rfl := Except.ok.inj h
      rw [decide_eq_true_eq]
      constructor
      · intro hmod
        refine prime_of_tried (by omega) (fun k hk hkd hdvd => ?_) (d := d) ?_
        · rcases Nat.lt_or_eq_of_le hkd with hless | rfl
          · exact htried k hk hless hdvd
          · exact hmod (Nat.mod_eq_zero_of_dvd hdvd)
        · by_contra hless
          exact hloop ⟨by omega, hmod⟩
      · intro hprime
        refine mod_ne_zero_of_prime hprime (by omega) ?_
        -- the divisor two before has its square below the candidate
        have hmul : 9 * (d - 2) ≤ (d - 2) * (d - 2) ∨ d - 2 < 9 := by
          rcases Nat.lt_or_ge (d - 2) 9 with hsmall | hbig
          · exact Or.inr hsmall
          · exact Or.inl (Nat.mul_le_mul_right _ hbig)
        omega

theorem isPrime_spec {n : Nat} (hn : n % 2 = 1) (hlow : 11 ≤ n) (htop : n ≤ trialLimit) :
    ∃ b, isPrime n = .ok b ∧ (b = true ↔ n.Prime) := by
  obtain ⟨b, hb⟩ := @isPrimeFrom_total n (n + 1) 3 9 hn (by norm_num) (by omega) (by omega)
  refine ⟨b, hb, isPrimeFrom_spec rfl le_rfl rfl hn hlow htop (by omega) (fun k hk hk3 => ?_) hb⟩
  obtain rfl : k = 2 := by omega
  omega

theorem nextPrimeFrom_prime {fuel n r : Nat} (hn : n % 2 = 1) (hlow : 11 ≤ n)
    (h : nextPrimeFrom fuel n = .ok r) (hr : r ≤ trialLimit) : r.Prime ∧ n ≤ r := by
  induction fuel generalizing n with
  | zero => cases h
  | succ fuel ih =>
    rw [nextPrimeFrom] at h
    split_ifs at h with hend
    · obtain ⟨b, hb, h⟩ := bind_eq_ok.mp h
      cases b with
      | true =>
        obtain rfl : n = r := Except.ok.inj h
        obtain ⟨b, hb', hiff⟩ := isPrime_spec hn hlow hr
        rw [hb] at hb'
        exact ⟨hiff.mp (Except.ok.inj hb').symm, le_refl n⟩
      | false =>
        obtain ⟨hprime, hle⟩ := ih (by omega) (by omega) h
        exact ⟨hprime, by omega⟩
    · obtain rfl : n = r := Except.ok.inj h
      simp only [trialLimit, sizeMax] at hr hend
      omega

theorem nextPrimeFrom_least {p fuel n r : Nat} (hp : p.Prime) (hle : n ≤ p)
    (htop : p ≤ trialLimit) (hn : n % 2 = 1) (hlow : 11 ≤ n)
    (h : nextPrimeFrom fuel n = .ok r) : IsLeast {q | q.Prime ∧ n ≤ q} r := by
  induction fuel generalizing n with
  | zero => cases h
  | succ fuel ih =>
    obtain ⟨b, hb, hiff⟩ := isPrime_spec hn hlow (hle.trans htop)
    have hend : sizeMax ≠ n := by
      simp only [trialLimit, sizeMax] at htop ⊢
      omega
    rw [nextPrimeFrom, if_pos hend, hb, ok_bind] at h
    by_cases hprime : n.Prime
    · rw [if_pos (hiff.mpr hprime)] at h
      obtain rfl : n = r := Except.ok.inj h
      exact ⟨⟨hprime, le_refl n⟩, fun q hq => hq.2⟩
    · rw [if_neg (mt hiff.mp hprime)] at h
      -- neither the candidate nor the even number behind it is a prime
      have skip : ∀ q : Nat, q.Prime → n ≤ q → n + 2 ≤ q := by
        intro q hq hnq
        have hodd : q % 2 = 1 := hq.eq_two_or_odd.resolve_left (by omega)
        have hne : q ≠ n := by
          rintro rfl
          exact hprime hq
        omega
      obtain ⟨⟨hr, hle'⟩, hleast⟩ := ih (skip p hp hle) (by omega) (by omega) h
      exact ⟨⟨hr, by omega⟩, fun q hq => hleast ⟨hq.1, skip q hq.1 hq.2⟩⟩

/-- Where `next_prime` starts, the first odd number from the candidate and from ten on. -/
theorem nextPrime_start (candidate : Nat) :
    ∃ n, nextPrime candidate = nextPrimeFrom (sizeMax + 1) n ∧ n % 2 = 1 ∧ 11 ≤ n ∧
      n = max candidate 10 + (max candidate 10 + 1) % 2 := by
  have hmax : (if candidate < 10 then 10 else candidate) = max candidate 10 := by
    split_ifs <;> omega
  refine ⟨_, by rw [nextPrime, hmax], Nat.or_mod_two_eq_one.mpr (Or.inr rfl), ?_,
    LHash.or_one _⟩
  rw [LHash.or_one]
  omega

def FirstPrime (candidate n : Nat) : Prop := IsLeast {q | q.Prime ∧ max candidate 10 ≤ q} n

theorem nextPrime_least {p candidate r : Nat} (hp : p.Prime) (hle : max candidate 10 ≤ p)
    (htop : p ≤ trialLimit) (h : nextPrime candidate = .ok r) : FirstPrime candidate r := by
  obtain ⟨n, heq, hodd, hlow, hn⟩ := nextPrime_start candidate
  have start : ∀ q : Nat, q.Prime → max candidate 10 ≤ q → n ≤ q := by
    intro q hq hcq
    have hqodd : q % 2 = 1 := hq.eq_two_or_odd.resolve_left (by omega)
    omega
  obtain ⟨⟨hr, hnr⟩, hleast⟩ :=
    nextPrimeFrom_least hp (start p hp hle) htop hodd hlow (heq ▸ h)
  exact ⟨⟨hr, by omega⟩, fun q hq => hleast ⟨hq.1, start q hq.1 hq.2⟩⟩

theorem nextPrime_first {candidate r : Nat} (h : nextPrime candidate = .ok r)
    (hr : r ≤ trialLimit) : FirstPrime candidate r := by
  obtain ⟨n, heq, hodd, hlow, hn⟩ := nextPrime_start candidate
  obtain ⟨hprime, hle⟩ := nextPrimeFrom_prime hodd hlow (heq ▸ h) hr
  exact nextPrime_least hprime (by omega) hr h

theorem exists_prime_reach {candidate : Nat} (h : candidate ≤ 2 ^ 63 - 2 ^ 32) :
    ∃ p, p.Prime ∧ max candidate 10 ≤ p ∧ p < 2 * max candidate 10 ∧ p ≤ trialLimit := by
  obtain ⟨p, hp, hlt, hle⟩ := Nat.exists_prime_lt_and_le_two_mul (max candidate 10) (by omega)
  have hodd : p % 2 = 1 := hp.eq_two_or_odd.resolve_left (by omega)
  refine ⟨p, hp, hlt.le, by omega, ?_⟩
  unfold trialLimit
  omega

theorem next_prime_least {candidate : Nat} (h : candidate ≤ 2 ^ 63 - 2 ^ 32) :
    ∃ r, nextPrime candidate = .ok r ∧ FirstPrime candidate r ∧ r < 2 * max candidate 10 := by
  obtain ⟨r, hr, -⟩ := @nextPrime_total candidate (by unfold sizeMax; omega)
  obtain ⟨p, hp, hle, hlt, htop⟩ := exists_prime_reach h
  have hleast := nextPrime_least hp hle htop hr
  exact ⟨r, hr, hleast, lt_of_le_of_lt (hleast.2 ⟨hp, hle⟩) hlt⟩

theorem next_prime_least_default :
    1280 ≤ 2 ^ 63 - 2 ^ 32 ∧
      ∃ r, nextPrime 1280 = .ok r ∧ FirstPrime 1280 r ∧ r < 2 * max 1280 10 :=
  ⟨by decide, next_prime_least (by decide)⟩

theorem FirstPrime.prime {candidate n : Nat} (h : FirstPrime candidate n) : n.Prime := h.1.1

theorem FirstPrime.le {candidate n : Nat} (h : FirstPrime candidate n) : candidate ≤ n :=
  (Nat.le_max_left _ _).trans h.1.2

/-- What `compute_bucket_size` looks for a prime from. -/
def bucketCandidate (candidate : Nat) (tuning : HashTuning) : Nat :=
  if tuning.isNBuckets then candidate
  else (toFloat (toFloat candidate / tuning.growthThreshold)).floor.toNat

theorem computeBucketSize_first {candidate n : Nat} {tuning : HashTuning}
    (h : computeBucketSize candidate tuning = .ok n) (hpos : n ≠ 0) :
    FirstPrime (bucketCandidate candidate tuning) n := by
  simp only [computeBucketSize] at h
  by_cases hbig : ¬tuning.isNBuckets ∧
      toFloat sizeMax ≤ toFloat (toFloat candidate / tuning.growthThreshold)
  · rw [if_pos hbig] at h
    exact absurd (Except.ok.inj h).symm hpos
  rw [if_neg hbig] at h
  obtain ⟨r, hr, h⟩ := bind_eq_ok.mp h
  split_ifs at h with hover
  · exact absurd (Except.ok.inj h).symm hpos
  · obtain rfl : r = n := Except.ok.inj h
    refine nextPrime_first hr ?_
    simp only [sizeMax] at hover
    simp only [trialLimit]
    omega

/-- The keys a table is sure to take before it grows. Above `2 ^ 24` the candidate has more
digits than a float, and two keys may be lost. -/
def guaranteed (candidate : Nat) : Nat := if candidate ≤ 2 ^ 24 then candidate else candidate - 2

theorem le_toFloat_natCast {m n : Nat} (hm : m ≤ 2 ^ 24) (h : m ≤ n) : (m : ℚ) ≤ toFloat n :=
  le_toFloat (Rounding.exact_natCast hm) (Nat.cast_nonneg n) (by exact_mod_cast h)

theorem toFloat_natCast {n : Nat} (hn : n ≤ 2 ^ 24) : toFloat n = n :=
  (Rounding.exact_natCast hn).roundTo_eq (by norm_num)

theorem le_mul_toFloat {t q : ℚ} {n : Nat} (ht : 0 < t) (hq : 2 ^ 24 ≤ q)
    (hn : (toFloat q).floor.toNat ≤ n) : t * q - t * q / 2 ^ 24 ≤ t * toFloat n := by
  have hpos : 0 < q := by linarith
  obtain ⟨k, hk⟩ := Rounding.roundTo_eq_natCast hq
  have hquot : toFloat q = k := hk
  have herror : q - q / 2 ^ 24 ≤ k := by
    have hbound := Rounding.abs_roundTo_sub (p := 24) hpos
    rw [hk] at hbound
    have habs := neg_abs_le ((k : ℚ) - q)
    linarith
  have hkn : k ≤ n := by
    rw [hquot] at hn
    have hfloor : (k : ℤ) ≤ (k : ℚ).floor := Rat.le_floor_iff.mpr (by simp)
    omega
  have hfit : (k : ℚ) ≤ toFloat n :=
    le_toFloat (hk ▸ Rounding.exact_roundTo 24 hpos.le) (Nat.cast_nonneg n)
      (by exact_mod_cast hkn)
  calc t * q - t * q / 2 ^ 24 = t * (q - q / 2 ^ 24) := by ring
    _ ≤ t * toFloat n := mul_le_mul_of_nonneg_left (herror.trans hfit) ht.le

theorem lt_mul_toFloat {t : ℚ} {c n : Nat} (ht : 0 < t) (hq : (c : ℚ) / t < 2 ^ 24)
    (hn : (toFloat (c / t)).floor.toNat ≤ n) : (c : ℚ) - t < t * toFloat n := by
  have hquot : (0 : ℚ) ≤ c / t := by positivity
  obtain ⟨m, hm⟩ := Int.eq_ofNat_of_zero_le (Int.floor_nonneg.mpr hquot)
  have hle : (m : ℚ) ≤ c / t := by
    have := Int.floor_le ((c : ℚ) / t)
    rw [hm] at this
    exact_mod_cast this
  have hlt : (c : ℚ) / t < m + 1 := by
    have := Int.lt_floor_add_one ((c : ℚ) / t)
    rw [hm] at this
    exact_mod_cast this
  have hsmall : m ≤ 2 ^ 24 := by
    have : (m : ℚ) ≤ 2 ^ 24 := hle.trans hq.le
    exact_mod_cast this
  have hfloor : (m : ℤ) ≤ (toFloat (c / t)).floor :=
    Rat.le_floor_iff.mpr (by exact_mod_cast le_toFloat (Rounding.exact_natCast hsmall) hquot hle)
  have hfit : (m : ℚ) ≤ toFloat n := le_toFloat_natCast hsmall (by omega)
  rw [div_lt_iff₀ ht] at hlt
  have hmul := mul_le_mul_of_nonneg_left hfit ht.le
  linarith

theorem le_threshold {tuning : HashTuning} (hpos : 0 < tuning.growthThreshold)
    (hone : tuning.growthThreshold ≤ 1) (hnot : tuning.isNBuckets = false) {c n u : Nat}
    (hc : c ≤ 2 ^ 25) (hn : bucketCandidate c tuning ≤ n) (hu : u < guaranteed c) :
    (u : ℚ) ≤ tuning.growthThreshold * toFloat n := by
  have hbool : ¬tuning.isNBuckets = true := by simp [hnot]
  rw [bucketCandidate, if_neg hbool] at hn
  generalize tuning.growthThreshold = t at hpos hone hn ⊢
  by_cases hsmall : c ≤ 2 ^ 24
  · rw [guaranteed, if_pos hsmall] at hu
    have huc : (u : ℚ) + 1 ≤ c := by exact_mod_cast hu
    rw [toFloat_natCast hsmall] at hn
    rcases lt_or_ge ((c : ℚ) / t) (2 ^ 24) with hq | hq
    · have hlt := lt_mul_toFloat hpos hq hn
      linarith
    · have hle := le_mul_toFloat hpos hq hn
      rw [mul_div_cancel₀ _ hpos.ne'] at hle
      have hcast : (c : ℚ) ≤ 2 ^ 24 := by exact_mod_cast hsmall
      linarith
  · rw [guaranteed, if_neg hsmall] at hu
    -- the even one of the candidate and the number before it is a float
    have heven : ((2 * (c / 2) : ℕ) : ℚ) ≤ toFloat c :=
      le_toFloat (Rounding.exact_two_mul (by omega)) (Nat.cast_nonneg c)
        (by exact_mod_cast Nat.mul_div_le c 2)
    have hlow : (u : ℚ) + 2 ≤ toFloat c := by
      refine le_trans ?_ heven
      exact_mod_cast (by omega : u + 2 ≤ 2 * (c / 2))
    have hlarge : (2 : ℚ) ^ 24 ≤ toFloat c := by
      refine le_trans ?_ heven
      exact_mod_cast (by omega : 2 ^ 24 ≤ 2 * (c / 2))
    have hhigh : toFloat c ≤ 2 ^ 25 := by
      refine toFloat_le (Rounding.exact_zpow 24 25) (Nat.cast_nonneg c) ?_
      exact_mod_cast hc
    have hq : 2 ^ 24 ≤ toFloat c / t := by
      rw [le_div_iff₀ hpos]
      linarith
    have hle := le_mul_toFloat hpos hq hn
    rw [mul_div_cancel₀ _ hpos.ne'] at hle
    linarith

variable {kind : GHashKind} {h h' : GHash}

theorem Holds.used_le {ks : List Bytes} (hh : Holds kind h ks) : h.nBucketsUsed ≤ ks.length := by
  rw [hh.used, ← hh.slots.length_eq.trans List.length_range']
  exact used_le_length h.bucket

theorem not_loaded {ks : List Bytes} {candidate : Nat} (hh : Holds kind h ks)
    (ht : Tuned h.tuning) (hcandidate : candidate ≤ 2 ^ 25)
    (hsize : bucketCandidate candidate h.tuning ≤ h.nBuckets)
    (hroom : ks.length < guaranteed candidate) : h.loaded = false := by
  obtain ⟨hpos, hone⟩ := ht.threshold
  have hle := le_threshold hpos hone.le ht.notBuckets hcandidate hsize (hh.used_le.trans_lt hroom)
  rw [loaded, decide_eq_false_iff_not, not_lt]
  exact toFloat_mono (Nat.cast_nonneg _) hle

theorem hashRehash_size {candidate : Nat} (hr : hashRehash kind h candidate = .ok h') :
    h'.nBuckets = h.nBuckets ∨ FirstPrime (bucketCandidate candidate h.tuning) h'.nBuckets := by
  simp only [hashRehash] at hr
  obtain ⟨n, hn, hr⟩ := bind_eq_ok.mp hr
  split_ifs at hr with hzero hsame
  · obtain rfl : h = h' := Except.ok.inj hr
    exact Or.inl rfl
  · obtain ⟨bucket, -, hr⟩ := bind_eq_ok.mp hr
    obtain ⟨dst, -, hr⟩ := bind_eq_ok.mp hr
    obtain rfl := Except.ok.inj hr
    exact Or.inr (computeBucketSize_first hn hzero)

theorem grow_size (ht : Tuned h.tuning) {entry : GHashNode} {j j' : Nat}
    (hg : grow kind h entry j = .ok (h', j')) :
    h'.nBuckets = h.nBuckets ∨ ∃ candidate, FirstPrime candidate h'.nBuckets := by
  simp only [grow, ht.checked, if_true] at hg
  by_cases hload : h.loaded = true
  swap
  · rw [if_neg hload] at hg
    cases hg
    exact Or.inl rfl
  rw [if_pos hload] at hg
  by_cases hbig : toFloat sizeMax ≤ growthCandidate h
  · rw [if_pos hbig] at hg
    cases hg
  rw [if_neg hbig] at hg
  obtain ⟨h₁, hre, hg⟩ := bind_eq_ok.mp hg
  obtain ⟨⟨j₁, r, ne⟩, -, hg⟩ := bind_eq_ok.mp hg
  cases r with
  | some p => cases hg
  | none =>
    cases hg
    exact (hashRehash_size hre).imp_right fun hfirst => ⟨_, hfirst⟩

theorem newNode_size {j p : Nat} {key : Bytes} {new : Bool}
    (hn : newNode kind h j key = .ok (h', new, p)) :
    new = true ∧ h'.nBuckets = h.nBuckets ∧ h'.stats.nRehashOps = h.stats.nRehashOps := by
  simp only [newNode] at hn
  obtain ⟨b, -, hn⟩ := bind_eq_ok.mp hn
  obtain ⟨-, -, hn⟩ := bind_eq_ok.mp hn
  obtain ⟨-, -, hn⟩ := bind_eq_ok.mp hn
  cases hn
  exact ⟨rfl, rfl, rfl⟩

theorem insert_size (ht : Tuned h.tuning) {key : Bytes} {new : Bool} {p : Nat}
    (hins : h.insert kind key = .ok (h', new, p)) :
    (h'.nBuckets = h.nBuckets ∧ h'.stats.nRehashOps = h.stats.nRehashOps) ∨
      new = true ∧ h.loaded = true ∧
        (h'.nBuckets = h.nBuckets ∨ ∃ candidate, FirstPrime candidate h'.nBuckets) := by
  simp only [insert] at hins
  obtain ⟨⟨j, r, ne⟩, -, hins⟩ := bind_eq_ok.mp hins
  cases r with
  | some q =>
    cases hins
    exact Or.inl ⟨rfl, rfl⟩
  | none =>
    obtain ⟨⟨h₁, j₁⟩, hgrow, hins⟩ := bind_eq_ok.mp hins
    obtain ⟨rfl, hsize, hops⟩ := newNode_size hins
    split_ifs at hgrow with hload
    · have hgrown := fun ht => grow_size ht hgrow
      right
      rw [hsize]
      exact ⟨rfl, hload, hgrown ht⟩
    · cases hgrow
      exact Or.inl ⟨hsize, hops⟩

structure Sized (kind : GHashKind) (tuning : HashTuning) (candidate n : Nat) (past : List Bytes)
    (h : GHash) : Prop where
  holds : Holds kind h (firsts past)
  tuning : h.tuning = tuning
  prime : h.nBuckets.Prime
  unchanged : (firsts past).length ≤ guaranteed candidate →
    h.nBuckets = n ∧ h.stats.nRehashOps = 0

theorem sized_insert {tuning : HashTuning} {candidate n : Nat} (ht : Tuned tuning)
    (hcandidate : candidate ≤ 2 ^ 25) (hn : bucketCandidate candidate tuning ≤ n) {past : List Bytes} {key : Bytes}
    (hs : Sized kind tuning candidate n past h) (hkey : 0 ∉ key) :
    Stops (· = .alloc) (h.insert kind key) ∨
      ∃ h', h.insert kind key = .ok (h', decide (key ∉ past), number (past ++ [key]) key) ∧
        Sized kind tuning candidate n (past ++ [key]) h' := by
  obtain ⟨hh, rfl, hprime, hsame⟩ := hs
  rcases insert_spec hh ht hkey with
    ⟨p, stats, hins, hp, -⟩ | ⟨hnew, ⟨ha, -⟩ | ⟨h₁, hins, hh₁, ht₁, -, -, -⟩⟩
  · have hmem : key ∈ past := mem_firsts.mp (mem_of_deref hp)
    obtain rfl : number (past ++ [key]) key = p :=
      (number_append [key] hmem).trans (number_eq_of_deref hp)
    refine Or.inr ⟨_, by simpa [hmem] using hins, ?_⟩
    have hfirsts : firsts (past ++ [key]) = firsts past := by rw [firsts_concat, if_pos hmem]
    rcases insert_size ht hins with ⟨hsize, hops⟩ | ⟨hno, -⟩
    · refine ⟨hfirsts ▸ holds_stats hh stats, rfl, hprime, fun hle => ?_⟩
      rw [hsize, hops]
      exact hsame (hfirsts ▸ hle)
    · cases hno
  · exact Or.inl ⟨_, rfl, ha⟩
  · have hnot : key ∉ past := fun hmem => hnew (mem_firsts.mpr hmem)
    have hfirsts : firsts (past ++ [key]) = firsts past ++ [key] := by
      rw [firsts_concat, if_neg hnot]
    rw [← number_concat hnot] at hins
    refine Or.inr ⟨h₁, by simpa [hnot] using hins, hfirsts ▸ hh₁, ht₁, ?_, fun hle => ?_⟩
    · rcases insert_size ht hins with ⟨hsize, -⟩ | ⟨-, -, hsize | ⟨c, hfirst⟩⟩
      · exact hsize ▸ hprime
      · exact hsize ▸ hprime
      · exact hfirst.prime
    · -- before the insertion there was room for one more key
      rw [hfirsts, List.length_append, List.length_singleton] at hle
      obtain ⟨hbuckets, hzero⟩ := hsame (by omega)
      have hload := not_loaded hh ht hcandidate (hbuckets ▸ hn) hle
      rcases insert_size ht hins with ⟨hsize, hops⟩ | ⟨-, hloaded, -⟩
      · exact ⟨hsize.trans hbuckets, hops.trans hzero⟩
      · rw [hload] at hloaded
        cases hloaded

theorem init_size {opt : Options} (hi : init opt = .ok h) :
    FirstPrime (bucketCandidate opt.hashSize (optionsTuning opt)) h.nBuckets ∧
      h.tuning = optionsTuning opt ∧ h.stats.nRehashOps = 0 := by
  simp only [init] at hi
  obtain ⟨-, -, hi⟩ := bind_eq_ok.mp hi
  obtain ⟨n, hn, hi⟩ := bind_eq_ok.mp hi
  obtain ⟨u, hpos, hi⟩ := bind_eq_ok.mp hi
  obtain ⟨bucket, -, hi⟩ := bind_eq_ok.mp hi
  cases hi
  refine ⟨computeBucketSize_first hn ?_, rfl, rfl⟩
  rintro rfl
  cases hpos

theorem ghash_init_guarantee (kind : GHashKind) {opt : Options} (hopt : opt.Accepted)
    {keys : List Bytes} (hkeys : ∀ key ∈ keys, 0 ∉ key) :
    ∃ h, init opt = .ok h ∧
      FirstPrime (bucketCandidate opt.hashSize (optionsTuning opt)) h.nBuckets ∧
      (Stops (· = .alloc) (run (insert kind) h keys) ∨
        ∃ h' rs, run (insert kind) h keys = .ok (h', rs) ∧ h'.nBuckets.Prime ∧
          h'.nEntries = (firsts keys).length ∧
          ((firsts keys).length ≤ guaranteed opt.hashSize →
            h'.nBuckets = h.nBuckets ∧ h'.stats.nRehashOps = 0)) := by
  obtain ⟨h, hinit, hh, -, -, -⟩ := init_accepted kind hopt
  obtain ⟨hfirst, htuning, hops⟩ := init_size hinit
  refine ⟨h, hinit, hfirst, ?_⟩
  have hstart : Sized kind (optionsTuning opt) opt.hashSize h.nBuckets [] h :=
    ⟨hh, htuning, hfirst.prime, fun _ => ⟨rfl, hops⟩⟩
  have hstep := fun past s key (hs : Sized kind (optionsTuning opt) opt.hashSize h.nBuckets past s)
    (hkey : 0 ∉ key) =>
    sized_insert (tuned_options hopt).1 (by simpa [MB, KB] using hopt.hashSize.2) hfirst.le hs hkey
  rcases run_answers hstep hstart hkeys with hstop | ⟨h', hrun, hs⟩
  · exact Or.inl hstop
  · rw [List.nil_append] at hs
    exact Or.inr ⟨h', _, hrun, hs.prime, hs.holds.entries, hs.unchanged⟩

theorem ghash_init_guarantee_default : defaultOptions.Accepted ∧
    ∃ h h' rs, init defaultOptions = .ok h ∧
      FirstPrime (bucketCandidate 1024 (optionsTuning defaultOptions)) h.nBuckets ∧
      run (insert ⟨true, 24⟩) h [[97], [98], [97]] = .ok (h', rs) ∧
      h'.nBuckets = h.nBuckets ∧ h'.nEntries = 2 ∧ h'.stats.nRehashOps = 0 := by
  have hok : (init defaultOptions >>= fun h => run (insert ⟨true, 24⟩) h [[97], [98], [97]]).isOk =
      true := by
    decide +kernel
  obtain ⟨h, hinit, hfirst, hcases⟩ := ghash_init_guarantee ⟨true, 24⟩ defaultOptions_accepted
    (show ∀ key ∈ [[97], [98], [97]], (0 : UInt8) ∉ key by decide)
  rw [hinit, ok_bind] at hok
  rcases hcases with ⟨e, -, he⟩ | ⟨h', rs, hrun, -, hentries, hsame⟩
  · rw [he] at hok
    cases hok
  · obtain ⟨hbuckets, hops⟩ := hsame (by decide)
    exact ⟨defaultOptions_accepted, h, h', rs, hinit, hfirst, hrun, hbuckets, hentries, hops⟩

-- with as many buckets in use as there are keys to come but one, the growth starts early
example : computeBucketSize 26843608 defaultTuning = .ok 33554509 ∧
    loaded ⟨[], [], 33554509, 26843607, 26843607, 0, defaultTuning, ⟨0, 0, 0, 0, 0, 0, 0⟩, 0, 0⟩ =
      true := by
  decide +kernel

end GHash

end PathSet
