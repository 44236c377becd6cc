import PathSet.GHashSizes
import PathSet.ElemSets

/-!
Where memory does not run out. Below `2 ^ 48` keys the sizes that the hash tables ask for
stay far from the bounds of `size_t`, so only keys of more than `2 ^ 62` bytes find no room.
A set of elements also needs addresses for its nodes.
-/

namespace PathSet
open Fallible Pointer LinkedTree TernaryTree FirstSeen Numbered

/-- Fewer than `2 ^ 48` keys, each of less than `2 ^ 62` bytes. -/
def Modest (keys : List Bytes) : Prop := keys.length < 2 ^ 48 ∧ ∀ key ∈ keys, key.length < 2 ^ 62

instance (keys : List Bytes) : Decidable (Modest keys) := inferInstanceAs (Decidable (_ ∧ _))

theorem Modest.of_append {keys keys' : List Bytes} (h : Modest (keys ++ keys')) : Modest keys := by
  obtain ⟨hlen, hkeys⟩ := h
  rw [List.length_append] at hlen
  exact ⟨by omega, fun key hkey => hkeys key (List.mem_append_left _ hkey)⟩

namespace LHash
variable {kind : LHashKind} {h : LHash} {ks : List Bytes}

theorem size_of_full (hf : Fits h) {s : Nat} (hs : h.growth.threshold h.size = .ok s)
    (hfull : s ≤ h.used) (hused : h.used < 2 ^ 48) : h.size < 2 ^ 52 := by
  obtain ⟨hlarge, hbytes, -, hl1, hl2⟩ := hf
  have hsize : (32 : ℚ) ≤ h.size := by exact_mod_cast hlarge
  have htop : (h.size : ℚ) < 2 ^ 61 := by
    have hlt : h.size < 2 ^ 61 := by
      simp only [sizeMax] at hbytes
      omega
    exact_mod_cast hlt
  obtain ⟨r, hr, -, hlt⟩ := @sizeMulFloat_spec h.size h.rehashLoad (by nlinarith) (by nlinarith)
  obtain rfl : s = r := Except.ok.inj (hs.symm.trans hr)
  have hsmall : (s : ℚ) < 2 ^ 48 := by exact_mod_cast hfull.trans_lt hused
  have hmul : (h.size : ℚ) * (11 / 100) ≤ h.size * h.rehashLoad := by nlinarith
  have hlow : (h.size : ℚ) < 2 ^ 52 := by linarith
  exact_mod_cast hlow

theorem grown_le (hf : Fits h) (hsize : h.size < 2 ^ 52) {n : Nat}
    (hn : h.growth.grown h.size = .ok n) : n ≤ 2 ^ 54 := by
  obtain ⟨-, -, ⟨hs1, hs2⟩, -⟩ := hf
  have hcast : (h.size : ℚ) < 2 ^ 52 := by exact_mod_cast hsize
  have hpos : (0 : ℚ) ≤ h.size := Nat.cast_nonneg _
  obtain ⟨s, hs, hle, -⟩ := @sizeMulFloat_spec h.size h.rehashSize (by nlinarith) (by nlinarith)
  obtain ⟨r, hr, -, hmax⟩ := nextPrime_spec s
  simp only [growth, hs, ok_bind, hr] at hn
  obtain rfl := Except.ok.inj hn
  have hlt : (s : ℚ) < 2 ^ 54 := by nlinarith
  have hlt : s < 2 ^ 54 := by exact_mod_cast hlt
  have hor := Nat.or_lt_two_pow hlt (show 1 < 2 ^ 54 by norm_num)
  unfold primeLimit at hmax
  omega

theorem not_starved (hkind : kind.nodeSize ≤ 2 ^ 40) (hh : Holds kind h ks) (hf : Fits h)
    {key : Bytes} (hlen : ks.length < 2 ^ 48) (hkey : key.length < 2 ^ 62) :
    ¬Starved kind h.growth h key := by
  rintro (hbig | ⟨s, n, hs, hfull, hn, hbig⟩)
  · unfold sizeMax at hbig
    omega
  · have hsize := size_of_full hf hs hfull (hh.used ▸ hlen)
    have hgrown := grown_le hf hsize hn
    unfold sizeMax at hbig
    omega

theorem supplied (hkind : kind.nodeSize ≤ 2 ^ 40) :
    (numbered kind).dictionary.Supplied Modest := by
  refine ⟨?_, fun _ _ => Modest.of_append⟩
  rintro h m past key ⟨ks, ⟨hh, hf⟩, hm⟩ hdom hkey ⟨hlen, hkeys⟩ ⟨e, he, hstop⟩
  have hpast : ks.length ≤ past.length := by
    rw [hm.length_eq hh.nodup hdom]
    exact List.toFinset_card_le past
  rw [List.length_append] at hlen
  have hroom := not_starved hkind hh hf (show ks.length < 2 ^ 48 by omega)
    (hkeys key (by simp))
  have hstop : h.insertWith kind h.growth key = .error e := hstop
  rcases insertWith_spec hh (growth_sound hf) hkey with
    ⟨p, stats, hins, -⟩ | ⟨-, ⟨-, hstarved⟩ | ⟨h', hins, -⟩⟩
  · cases hins.symm.trans hstop
  · exact hroom hstarved
  · cases hins.symm.trans hstop

end LHash

namespace GHash
variable {kind : GHashKind} {h : GHash} {ks : List Bytes}

theorem Tuned.threshold_ge {tuning : HashTuning} (ht : Tuned tuning) :
    1 / 16 ≤ tuning.growthThreshold := by
  have hepsilon : 1 / 16 ≤ toFloat (1 / 10) := by decide +kernel
  have hcheck := ht.checked
  simp only [checkTuning, decide_eq_true_eq] at hcheck
  exact hepsilon.trans hcheck.1.le

theorem toFloat_le_two_pow {q : ℚ} {e : ℕ} (hq : 0 ≤ q) (h : q ≤ 2 ^ e) : toFloat q ≤ 2 ^ e :=
  toFloat_le (by exact_mod_cast Rounding.exact_zpow 24 e) hq h

theorem two_pow_le_toFloat {q : ℚ} {e : ℕ} (hq : 0 ≤ q) (h : 2 ^ e ≤ q) : 2 ^ e ≤ toFloat q :=
  le_toFloat (by exact_mod_cast Rounding.exact_zpow 24 e) hq h

theorem size_of_loaded (ht : Tuned h.tuning) (hload : h.loaded = true)
    (hused : h.nBucketsUsed < 2 ^ 48) : h.nBuckets < 2 ^ 52 := by
  have hlow := ht.threshold_ge
  by_contra hlarge
  have hbuckets : (2 : ℚ) ^ 52 ≤ toFloat h.nBuckets :=
    two_pow_le_toFloat (Nat.cast_nonneg _) (by exact_mod_cast Nat.le_of_not_lt hlarge)
  have hmul : (2 : ℚ) ^ 48 ≤ h.tuning.growthThreshold * toFloat h.nBuckets := by nlinarith
  have hfull : (2 : ℚ) ^ 48 ≤ toFloat (h.tuning.growthThreshold * toFloat h.nBuckets) :=
    two_pow_le_toFloat (by linarith) hmul
  have hsmall : toFloat h.nBucketsUsed ≤ 2 ^ 48 :=
    toFloat_le_two_pow (Nat.cast_nonneg _) (by exact_mod_cast hused.le)
  rw [loaded, decide_eq_true_eq] at hload
  linarith

theorem growthCandidate_le (ht : Tuned h.tuning) (hsize : h.nBuckets < 2 ^ 52) :
    0 ≤ growthCandidate h ∧ growthCandidate h ≤ 2 ^ 54 := by
  obtain ⟨hpos, hone⟩ := ht.threshold
  have hgrowth := ht.growth
  have hbool : ¬h.tuning.isNBuckets = true := by simp [ht.notBuckets]
  have hfactor : 0 ≤ h.tuning.growthFactor := by
    have hcheck := ht.checked
    have hunit : 0 ≤ toFloat (1 + toFloat (1 / 10)) := by decide +kernel
    simp only [checkTuning, decide_eq_true_eq] at hcheck
    exact hunit.trans hcheck.2.2.1.le
  have hbuckets : toFloat h.nBuckets ≤ 2 ^ 52 :=
    toFloat_le_two_pow (Nat.cast_nonneg _) (by exact_mod_cast hsize.le)
  have hnonneg : 0 ≤ toFloat h.nBuckets := toFloat_nonneg (Nat.cast_nonneg _)
  have hgrown : toFloat (toFloat h.nBuckets * h.tuning.growthFactor) ≤ 2 ^ 54 :=
    toFloat_le_two_pow (by positivity) (by nlinarith)
  have hgrown₀ : 0 ≤ toFloat (toFloat h.nBuckets * h.tuning.growthFactor) :=
    toFloat_nonneg (by positivity)
  rw [growthCandidate, if_neg hbool]
  exact ⟨toFloat_nonneg (by positivity), toFloat_le_two_pow (by positivity) (by nlinarith)⟩

theorem computeBucketSize_le {tuning : HashTuning} (ht : Tuned tuning) {c n : Nat}
    (hc : c ≤ 2 ^ 54) (h : computeBucketSize c tuning = .ok n) : n ≠ 0 ∧ n ≤ 2 ^ 59 := by
  obtain ⟨hpos, -⟩ := ht.threshold
  have hlow := ht.threshold_ge
  have hbool : ¬tuning.isNBuckets = true := by simp [ht.notBuckets]
  have hcast : toFloat c ≤ 2 ^ 54 :=
    toFloat_le_two_pow (Nat.cast_nonneg _) (by exact_mod_cast hc)
  have hquot : toFloat (toFloat c / tuning.growthThreshold) ≤ 2 ^ 58 := by
    refine toFloat_le_two_pow (div_nonneg (toFloat_nonneg (Nat.cast_nonneg _)) hpos.le) ?_
    rw [div_le_iff₀ hpos]
    linarith
  have hmax : ¬ toFloat sizeMax ≤ toFloat (toFloat c / tuning.growthThreshold) := by
    rw [toFloat_sizeMax]
    linarith
  have hfloor : (toFloat (toFloat c / tuning.growthThreshold)).floor ≤ 2 ^ 58 := by
    have hle := (Int.floor_le (toFloat (toFloat c / tuning.growthThreshold))).trans hquot
    exact_mod_cast hle
  obtain ⟨p, hp, hlt, hle, htop⟩ := exists_prime_reach
    (show (toFloat (toFloat c / tuning.growthThreshold)).floor.toNat ≤ 2 ^ 63 - 2 ^ 32 by omega)
  rw [computeBucketSize, if_neg fun h => hmax h.2, if_neg hbool] at h
  obtain ⟨r, hr, h⟩ := bind_eq_ok.mp h
  have hfirst := nextPrime_least hp hlt htop hr
  have hrp : r ≤ p := hfirst.2 ⟨hp, hlt⟩
  rw [if_neg (by unfold sizeMax; omega)] at h
  obtain rfl := Except.ok.inj h
  exact ⟨hfirst.prime.pos.ne', by omega⟩

theorem not_starved (hkind : kind.nodeSize ≤ 2 ^ 40) (hh : Holds kind h ks) (ht : Tuned h.tuning)
    {key : Bytes} (hlen : ks.length < 2 ^ 48) (hkey : key.length < 2 ^ 62) :
    ¬Starved kind h key := by
  rintro (hbig | hbig | ⟨hload, hstuck⟩)
  · unfold sizeMax at hbig
    omega
  · unfold sizeMax at hbig
    omega
  · have hsize := size_of_loaded ht hload (hh.used_le.trans_lt hlen)
    obtain ⟨hnonneg, hcand⟩ := growthCandidate_le ht hsize
    rcases hstuck with hbig | ⟨n, hn, hbad⟩
    · rw [toFloat_sizeMax] at hbig
      linarith
    · have hfloor : (growthCandidate h).floor ≤ 2 ^ 54 := by
        exact_mod_cast (Int.floor_le (growthCandidate h)).trans hcand
      have hle := computeBucketSize_le ht (show (growthCandidate h).floor.toNat ≤ 2 ^ 54 by omega) hn
      unfold sizeMax at hbad
      omega

theorem supplied (hkind : kind.nodeSize ≤ 2 ^ 40) :
    (numbered kind).dictionary.Supplied Modest := by
  refine ⟨?_, fun _ _ => Modest.of_append⟩
  rintro h m past key ⟨ks, ⟨hh, ht⟩, hm⟩ hdom hkey ⟨hlen, hkeys⟩ ⟨e, he, hstop⟩
  have hpast : ks.length ≤ past.length := by
    rw [hm.length_eq hh.nodup hdom]
    exact List.toFinset_card_le past
  rw [List.length_append] at hlen
  have hroom := not_starved hkind hh ht (show ks.length < 2 ^ 48 by omega)
    (hkeys key (by simp))
  have hstop : h.insert kind key = .error e := hstop
  rcases insert_spec hh ht hkey with ⟨p, stats, hins, -⟩ | ⟨-, ⟨-, hstarved⟩ | ⟨h', hins, -⟩⟩
  · cases hins.symm.trans hstop
  · exact hroom hstarved
  · cases hins.symm.trans hstop

end GHash

theorem Fits.mono {w : Nat} {addr : Nat → BitVec w} {m n : Nat} (h : Fits addr n) (hle : m ≤ n) :
    Fits addr m := by
  refine List.Nodup.sublist (List.Sublist.cons_cons 0 (List.Sublist.map addr ?_)) h
  exact List.range'_sublist_right.mpr hle

theorem NodeSet.placed_supplied {σ : Type} {w : Nat} (N : NodeSet σ) (addr : Nat → BitVec w)
    {Enough : List Bytes → Prop} {nodes : List Bytes → Nat} (hN : N.Supplied Enough)
    (hcount : ∀ {s m els}, N.Rep s m → (∀ k, (m k).isSome ↔ k ∈ els) → N.count s = nodes els)
    (hmono : ∀ els els', nodes els ≤ nodes (els ++ els')) :
    (N.placed addr).Supplied fun els => Enough els ∧ Fits addr (nodes els) := by
  refine ⟨?_, fun els els' h => ⟨hN.fewer _ _ h.1, h.2.mono (hmono els els')⟩⟩
  rintro s m past key ⟨-, m₀, hrep, hm⟩ hdom hkey ⟨henough, hfits⟩ hstop
  have hdom₀ : ∀ k, (m₀ k).isSome ↔ k ∈ past := fun k => by
    rw [← hdom, hm, Option.isSome_map]
  have hroom := hN.insert hrep hdom₀ hkey henough
  rcases N.insert_spec hrep hkey with hs | ⟨s', p, m', hins, hrep', -, -, hdom', -⟩
  · exact hroom hs
  · have hnodes : N.count s' = nodes (past ++ [key]) := hcount hrep' fun k => by
      rw [hdom', hdom₀, List.mem_append, List.mem_singleton]
    have hplaced : (N.placed addr).insert s key = .ok (s', (m₀ key).isNone, addr p) := by
      show N.placedInsert addr s key = _
      rw [placedInsert, hins, ok_bind]
      exact if_pos (hnodes ▸ hfits)
    rw [hplaced] at hstop
    exact not_stops_ok _ hstop

end PathSet
