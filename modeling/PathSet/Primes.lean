import PathSet.LHashGrowth
import Mathlib.NumberTheory.LucasPrimality
import Mathlib.Order.Bounds.Defs
import Mathlib.Tactic.NormNum.Prime
import Mathlib.Tactic.ReduceModChar

/-!
What the prime search of the linear table finds. The trial division stops as soon as the
square of the divisor has reached the candidate, and then takes the candidate for a prime
without trying the divisor. So the squares of odd primes pass as well.
-/

namespace PathSet
open Fallible

theorem no_divisor_iff {n : Nat} (hn : 2 ≤ n) :
    (∀ k, 2 ≤ k → k * k < n → ¬k ∣ n) ↔ n.Prime ∨ ∃ p, p.Prime ∧ n = p * p := by
  constructor
  · intro h
    by_cases hprime : n.Prime
    · exact Or.inl hprime
    have hfac : n.minFac.Prime := Nat.minFac_prime (by omega)
    have hle : n.minFac * n.minFac ≤ n := by
      rw [← Nat.pow_two]
      exact Nat.minFac_sq_le_self (by omega) hprime
    have hge : ¬n.minFac * n.minFac < n := fun hlt =>
      h n.minFac hfac.two_le hlt (Nat.minFac_dvd n)
    exact Or.inr ⟨n.minFac, hfac, by omega⟩
  · rintro (hprime | ⟨p, hp, rfl⟩) k hk hlt hdvd
    · rcases hprime.eq_one_or_self_of_dvd k hdvd with rfl | rfl
      · omega
      · exact absurd hlt (Nat.not_lt.mpr (Nat.le_mul_self k))
    · rw [← Nat.pow_two, Nat.dvd_prime_pow hp] at hdvd
      obtain ⟨m, hm, rfl⟩ := hdvd
      rw [← Nat.pow_two, ← Nat.pow_two, Nat.pow_lt_pow_iff_left (by omega)] at hlt
      have hm1 : m = 0 ∨ m = 1 ∨ m = 2 := by omega
      rcases hm1 with rfl | rfl | rfl
      · simp at hk
      · simp at hlt
      · exact absurd hlt (Nat.not_lt.mpr (Nat.pow_two p ▸ Nat.le_mul_self p))

theorem prime_factor {q : Nat} (hq : q.Prime) (h : q ∣ 4294967290) :
    q = 2 ∨ q = 5 ∨ q = 19 ∨ q = 22605091 := by
  rw [show 4294967290 = 2 * 5 * 19 * 22605091 from rfl, hq.dvd_mul, hq.dvd_mul, hq.dvd_mul,
    Nat.prime_dvd_prime_iff_eq hq Nat.prime_two, Nat.prime_dvd_prime_iff_eq hq Nat.prime_five,
    Nat.prime_dvd_prime_iff_eq hq (by norm_num : Nat.Prime 19),
    Nat.prime_dvd_prime_iff_eq hq (by norm_num : Nat.Prime 22605091)] at h
  omega

theorem two_pow_eq_one : (2 : ZMod 4294967291) ^ 4294967290 = 1 := by reduce_mod_char

theorem limit_prime : Nat.Prime 4294967291 := by
  refine lucas_primality _ (2 : ZMod 4294967291) two_pow_eq_one ?_
  intro q hq hdvd
  rcases prime_factor hq hdvd with rfl | rfl | rfl | rfl
  all_goals
    norm_num only
    reduce_mod_char
    decide

namespace LHash

theorem primeLimit_prime : primeLimit.Prime := limit_prime

theorem or_one (n : Nat) : n ||| 1 = n + (n + 1) % 2 := by
  have hdiv : (n ||| 1) / 2 = n / 2 := by simp [Nat.or_div_two]
  have hmod : (n ||| 1) % 2 = 1 := by simp [Nat.or_mod_two_eq_one]
  omega

/-- The loop of `lhash_is_prime` with its comment `invariant: s == d^2` as a check. -/
def isPrimeChecked (n : Nat) : Nat → Nat → Nat → Outcome Bool
  | 0, _, _ => .error .hang
  | fuel + 1, d, s => do
      assert (s = d ^ 2)
      if s < n ∧ n % d ≠ 0 then do
        verify (d ≤ sizeMax - 2)
        let d := d + 1
        verify (d ≤ sizeMax / 4)
        let i := d * 4
        verify (s ≤ sizeMax - i)
        isPrimeChecked n fuel (d + 1) (s + i)
      else .ok (n ≤ s)

theorem next_square {d s : Nat} (hs : s = d ^ 2) : s + (d + 1) * 4 = (d + 1 + 1) ^ 2 := by
  rw [hs]
  ring

theorem isPrimeChecked_eq {n fuel d s : Nat} (hs : s = d ^ 2) :
    isPrimeChecked n fuel d s = isPrimeFrom n fuel d s := by
  induction fuel generalizing d s with
  | zero => rfl
  | succ fuel ih =>
    rw [isPrimeChecked, isPrimeFrom, assert_of hs, ok_bind]
    simp only [ih (next_square hs)]

def PassesTrials (n : Nat) : Prop := ∀ k, 2 ≤ k → k * k < n → ¬k ∣ n

theorem isPrimeFrom_spec {n fuel d s : Nat} (hs : s = d ^ 2) (hd : 3 ≤ d) (hodd : d % 2 = 1)
    (hn : n % 2 = 1) (hlt : n < 2 ^ 32) (hpos : 0 < fuel) (hfuel : n < fuel + d)
    (htried : ∀ k, 2 ≤ k → k < d → ¬k ∣ n) :
    ∃ b, isPrimeFrom n fuel d s = .ok b ∧ (b = true ↔ PassesTrials n) := by
  induction fuel generalizing d s with
  | zero => exact absurd hpos (lt_irrefl 0)
  | succ fuel ih =>
    have hsq : s = d * d := by rw [hs, Nat.pow_two]
    rw [isPrimeFrom]
    split_ifs with hloop
    · have hle : d * 1 ≤ d * d := Nat.mul_le_mul_left d (by omega)
      simp only [verify_of (show d ≤ sizeMax - 2 by unfold sizeMax; omega),
        verify_of (show d + 1 ≤ sizeMax / 4 by unfold sizeMax; omega),
        verify_of (show s ≤ sizeMax - (d + 1) * 4 by unfold sizeMax; omega), ok_bind]
      refine ih (next_square hs) (by omega) (by omega) (by omega) (by omega) ?_
      -- the divisor has been tried, and the even number behind it needs no trial
      intro k hk hkd hdvd
      have hcases : k < d ∨ k = d ∨ k = d + 1 := by omega
      rcases hcases with hlow | rfl | rfl
      · exact htried k hk hlow hdvd
      · exact hloop.2 (Nat.mod_eq_zero_of_dvd hdvd)
      · have htwo : 2 ∣ n := Nat.dvd_trans (by omega) hdvd
        omega
    · refine ⟨_, rfl, ?_⟩
      rw [decide_eq_true_eq]
      constructor
      · intro hle k hk hsquare
        exact htried k hk (Nat.mul_self_lt_mul_self_iff.mp (by omega))
      · intro hpass
        by_contra hless
        have hdvd : d ∣ n := Nat.dvd_of_mod_eq_zero (by
          by_contra hmod
          exact hloop ⟨by omega, hmod⟩)
        exact hpass d (by omega) (by omega) hdvd

/-- What `lhash_is_prime` takes for a prime. -/
def TakenForPrime (n : Nat) : Prop := n.Prime ∨ ∃ p, p.Prime ∧ n = p * p

theorem isPrime_spec {n : Nat} (h3 : 3 ≤ n) (hodd : n % 2 = 1) (hlt : n < primeLimit) :
    ∃ b, isPrime n = .ok b ∧ (b = true ↔ TakenForPrime n) := by
  have htried : ∀ k, 2 ≤ k → k < 3 → ¬k ∣ n := by
    intro k hk hk3
    obtain rfl : k = 2 := by omega
    omega
  obtain ⟨b, hb, hiff⟩ := isPrimeFrom_spec (s := 9) rfl (le_refl 3) rfl hodd
    (hlt.trans (by norm_num [primeLimit])) (Nat.succ_pos n) (by omega) htried
  exact ⟨b, hb, hiff.trans (no_divisor_iff (by omega))⟩

theorem nextPrimeFrom_least {fuel m : Nat} (h3 : 3 ≤ m) (hodd : m % 2 = 1) (hle : m ≤ primeLimit)
    (hfuel : primeLimit < fuel + m) :
    ∃ r, nextPrimeFrom fuel m = .ok r ∧ IsLeast {k | k % 2 = 1 ∧ m ≤ k ∧ TakenForPrime k} r := by
  induction fuel generalizing m with
  | zero => omega
  | succ fuel ih =>
    rw [nextPrimeFrom]
    split_ifs with hlt
    · obtain ⟨b, hb, hiff⟩ := isPrime_spec h3 hodd hlt
      rw [hb, ok_bind]
      cases b with
      | true => exact ⟨m, rfl, ⟨hodd, le_refl m, hiff.mp rfl⟩, fun k hk => hk.2.1⟩
      | false =>
        have hbound : m + 2 ≤ primeLimit := by
          unfold primeLimit at hlt ⊢
          omega
        obtain ⟨r, hr, ⟨hrodd, hmr, hrtaken⟩, hleast⟩ :=
          ih (m := m + 2) (by omega) (by omega) hbound (by omega)
        refine ⟨r, hr, ⟨hrodd, by omega, hrtaken⟩, fun k hk => ?_⟩
        obtain ⟨hkodd, hmk, hktaken⟩ := hk
        refine hleast ⟨hkodd, ?_, hktaken⟩
        have hne : k ≠ m := by
          rintro rfl
          exact Bool.false_ne_true (hiff.mpr hktaken)
        omega
    · obtain rfl : m = primeLimit := by omega
      exact ⟨_, rfl, ⟨hodd, le_refl _, Or.inl primeLimit_prime⟩, fun k hk => hk.2.1⟩

theorem nextPrime_least {n : Nat} (h3 : 3 ≤ n) (hle : n ≤ primeLimit) :
    ∃ r, nextPrime n = .ok r ∧ IsLeast {k | k % 2 = 1 ∧ n ≤ k ∧ TakenForPrime k} r := by
  have hor := or_one n
  have hbound : n ||| 1 ≤ primeLimit := by
    unfold primeLimit at hle ⊢
    omega
  obtain ⟨r, hr, ⟨hrodd, hmr, hrtaken⟩, hleast⟩ :=
    @nextPrimeFrom_least (primeLimit + 1) (n ||| 1) (by omega) (by omega) hbound (by omega)
  refine ⟨r, hr, ⟨hrodd, by omega, hrtaken⟩, fun k hk => ?_⟩
  obtain ⟨hkodd, hnk, hktaken⟩ := hk
  exact hleast ⟨hkodd, by omega, hktaken⟩

theorem takenForPrime_prime_iff {n : Nat} (h : TakenForPrime n) :
    n.Prime ↔ ¬∃ p, p.Prime ∧ n = p * p := by
  constructor
  · rintro hn ⟨p, hp, rfl⟩
    exact Nat.not_prime_mul hp.ne_one hp.ne_one hn
  · exact h.resolve_right

theorem least_prime_iff {n r : Nat} (h3 : 3 ≤ n)
    (hr : IsLeast {k | k % 2 = 1 ∧ n ≤ k ∧ TakenForPrime k} r) :
    IsLeast {q | q.Prime ∧ n ≤ q} r ↔
      ∀ p, p.Prime → p ≠ 2 → n ≤ p * p → ∃ q, q.Prime ∧ n ≤ q ∧ q < p * p := by
  obtain ⟨⟨hrodd, hnr, hrtaken⟩, hleast⟩ := hr
  have hprimeOdd : ∀ q, q.Prime → n ≤ q → q % 2 = 1 := fun q hq hnq =>
    (hq.eq_two_or_odd).resolve_left (by omega)
  constructor
  · rintro ⟨⟨hrprime, -⟩, -⟩ p hp hp2 hnp
    have hpodd : p * p % 2 = 1 :=
      Nat.odd_mul.mpr ⟨hp.odd_of_ne_two hp2, hp.odd_of_ne_two hp2⟩ |> Nat.odd_iff.mp
    have hle : r ≤ p * p := hleast ⟨hpodd, hnp, Or.inr ⟨p, hp, rfl⟩⟩
    refine ⟨r, hrprime, hnr, lt_of_le_of_ne hle fun heq => ?_⟩
    exact (takenForPrime_prime_iff hrtaken).mp hrprime ⟨p, hp, heq⟩
  · intro hsquares
    have hrprime : r.Prime := by
      rw [takenForPrime_prime_iff hrtaken]
      rintro ⟨p, hp, rfl⟩
      have hp2 : p ≠ 2 := by
        rintro rfl
        omega
      obtain ⟨q, hq, hnq, hlt⟩ := hsquares p hp hp2 hnr
      exact absurd (hleast ⟨hprimeOdd q hq hnq, hnq, Or.inl hq⟩) (Nat.not_le.mpr hlt)
    refine ⟨⟨hrprime, hnr⟩, fun q hq => ?_⟩
    exact hleast ⟨hprimeOdd q hq.1 hq.2, hq.2, Or.inl hq.1⟩

/-- What `lhash_is_prime` should tell of `n`. -/
def TellsPrime (n : Nat) : Prop := ∃ b, isPrime n = .ok b ∧ (b = true ↔ n.Prime)

/-- What `lhash_next_prime` should find from `n` on. -/
def FindsNextPrime (n : Nat) : Prop :=
  ∃ r, nextPrime n = .ok r ∧ IsLeast {q | q.Prime ∧ n ≤ q} r

theorem tellsPrime_iff {n : Nat} (h3 : 3 ≤ n) (hodd : n % 2 = 1) (hlt : n < primeLimit) :
    TellsPrime n ↔ ¬∃ p, p.Prime ∧ n = p * p := by
  obtain ⟨b, hb, hiff⟩ := isPrime_spec h3 hodd hlt
  constructor
  · rintro ⟨b', hb', hprime⟩ hsquare
    obtain rfl := Except.ok.inj (hb.symm.trans hb')
    have htaken : TakenForPrime n := Or.inr hsquare
    exact (takenForPrime_prime_iff htaken).mp (hprime.mp (hiff.mpr htaken)) hsquare
  · intro hsquare
    refine ⟨b, hb, hiff.trans ⟨fun h => h.resolve_right hsquare, Or.inl⟩⟩

theorem findsNextPrime_iff {n : Nat} (h3 : 3 ≤ n) (hle : n ≤ primeLimit) :
    FindsNextPrime n ↔
      ∀ p, p.Prime → p ≠ 2 → n ≤ p * p → ∃ q, q.Prime ∧ n ≤ q ∧ q < p * p := by
  obtain ⟨r, hr, hleast⟩ := nextPrime_least h3 hle
  rw [← least_prime_iff h3 hleast]
  constructor
  · rintro ⟨r', hr', hprime⟩
    obtain rfl := Except.ok.inj (hr.symm.trans hr')
    exact hprime
  · exact fun h => ⟨r, hr, h⟩

/-- The trial division keeps its square, and tells the primes apart from everything but the
squares of primes. The search ends, with the least prime unless such a square comes first. -/
theorem prime_search_iff (n : Nat) (h3 : 3 ≤ n) :
    (n % 2 = 1 → n < primeLimit →
      isPrimeChecked n (n + 1) 3 9 = isPrime n ∧
        (TellsPrime n ↔ ¬∃ p, p.Prime ∧ n = p * p)) ∧
    (n ≤ primeLimit →
      (∃ r, nextPrime n = .ok r) ∧
        (FindsNextPrime n ↔
          ∀ p, p.Prime → p ≠ 2 → n ≤ p * p → ∃ q, q.Prime ∧ n ≤ q ∧ q < p * p)) := by
  refine ⟨fun hodd hlt => ⟨isPrimeChecked_eq rfl, tellsPrime_iff h3 hodd hlt⟩,
    fun hle => ⟨?_, findsNextPrime_iff h3 hle⟩⟩
  obtain ⟨r, hr, -⟩ := nextPrime_least h3 hle
  exact ⟨r, hr⟩

theorem prime_search_eleven : TellsPrime 11 ∧ FindsNextPrime 11 := by
  have heleven : Nat.Prime 11 := by norm_num
  obtain ⟨htells, hfinds⟩ := prime_search_iff 11 (by decide)
  refine ⟨(htells (by decide) (by decide)).2.mpr ?_, (hfinds (by decide)).2.mpr ?_⟩
  · rintro ⟨p, hp, heq⟩
    rw [heq] at heleven
    exact Nat.not_prime_mul hp.ne_one hp.ne_one heleven
  · intro p hp hp2 hle
    refine ⟨11, heleven, le_refl 11, lt_of_le_of_ne hle fun heq => ?_⟩
    rw [heq] at heleven
    exact Nat.not_prime_mul hp.ne_one hp.ne_one heleven

/-- Nine is taken for a prime, and a search that starts there finds it. -/
theorem prime_search_nine :
    isPrime 9 = .ok true ∧ nextPrime 9 = .ok 9 ∧ ¬TellsPrime 9 ∧ ¬FindsNextPrime 9 := by
  have hprime : ¬Nat.Prime 9 := by norm_num
  have hnine : isPrime 9 = .ok true := rfl
  have hnext : nextPrime 9 = .ok 9 := rfl
  refine ⟨hnine, hnext, ?_, ?_⟩
  · rintro ⟨b, hb, hiff⟩
    obtain rfl := Except.ok.inj (hnine.symm.trans hb)
    exact hprime (hiff.mp rfl)
  · rintro ⟨r, hr, ⟨hrprime, -⟩, -⟩
    obtain rfl := Except.ok.inj (hnext.symm.trans hr)
    exact hprime hrprime

end LHash

end PathSet
