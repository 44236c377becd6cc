import PathSet.GHash
import PathSet.LHashHolds
import Mathlib.Tactic.Linarith
import Mathlib.Tactic.NormNum

/-!
The invariant of a chained hash table. Node number `p` stores the `p`-th key in the
order of first insertion, and every node is in exactly one bucket, the one its hash
selects. The search for a table size always ends.
-/

namespace PathSet
open Fallible Pointer Buckets

namespace GHash

theorem isPrimeFrom_total {n fuel d s : Nat} (hn : n % 2 = 1) (hd : d % 2 = 1) (hle : d ≤ n)
    (hfuel : n < fuel + d) : ∃ b, isPrimeFrom n fuel d s = .ok b := by
  induction fuel generalizing d s with
  | zero => omega
  | succ fuel ih =>
    rw [isPrimeFrom]
    split_ifs with hloop
    · have hne : d ≠ n := by
        rintro rfl
        exact hloop.2 (Nat.mod_self d)
      exact ih (by omega) (by omega) (by omega)
    · exact ⟨_, rfl⟩

theorem nextPrimeFrom_total {fuel n : Nat} (hn : n % 2 = 1) (hlow : 3 ≤ n) (hle : n ≤ sizeMax)
    (hfuel : sizeMax < fuel + n) : ∃ r, nextPrimeFrom fuel n = .ok r ∧ n ≤ r := by
  induction fuel generalizing n with
  | zero => omega
  | succ fuel ih =>
    rw [nextPrimeFrom]
    split_ifs with hend
    · obtain ⟨b, hb⟩ := @isPrimeFrom_total n (n + 1) 3 9 hn (by norm_num) hlow (by omega)
      rw [isPrime, hb, ok_bind]
      cases b with
      | true => exact ⟨n, rfl, le_refl n⟩
      | false =>
        have hmax : sizeMax % 2 = 1 := by norm_num [sizeMax]
        obtain ⟨r, hr, hnr⟩ := @ih (n + 2) (by omega) (by omega) (by omega) (by omega)
        exact ⟨r, hr, by omega⟩
    · exact ⟨n, rfl, le_refl n⟩

theorem nextPrime_total {n : Nat} (hn : n ≤ sizeMax) : ∃ r, nextPrime n = .ok r ∧ 0 < r := by
  have hstart : (if n < 10 then 10 else n) < 2 ^ 64 := by
    unfold sizeMax at hn
    split_ifs <;> omega
  have hlow : (if n < 10 then 10 else n) ≤ (if n < 10 then 10 else n) ||| 1 := Nat.left_le_or
  have htop := Nat.or_lt_two_pow hstart (show 1 < 2 ^ 64 by norm_num)
  have hten : 10 ≤ if n < 10 then 10 else n := by split_ifs <;> omega
  obtain ⟨r, hr, hle⟩ := @nextPrimeFrom_total (sizeMax + 1) ((if n < 10 then 10 else n) ||| 1)
    (by simp [Nat.or_mod_two_eq_one]) (by omega) (by unfold sizeMax; omega) (by omega)
  exact ⟨r, hr, by omega⟩

/-- A tuning the tables of the program may have. -/
structure Tuned (tuning : HashTuning) : Prop where
  checked : checkTuning tuning = true
  notBuckets : tuning.isNBuckets = false
  growth : tuning.growthFactor ≤ 4

theorem toFloat_nonneg {q : ℚ} (h : 0 ≤ q) : 0 ≤ toFloat q := Rounding.roundTo_nonneg 24 h

theorem toFloat_mono {q r : ℚ} (hq : 0 ≤ q) (h : q ≤ r) : toFloat q ≤ toFloat r :=
  Rounding.roundTo_mono (by norm_num) hq h

theorem toFloat_le {q z : ℚ} (hz : Rounding.Exact 24 z) (hq : 0 ≤ q) (h : q ≤ z) :
    toFloat q ≤ z :=
  hz.roundTo_le (by norm_num) hq h

theorem le_toFloat {q z : ℚ} (hz : Rounding.Exact 24 z) (hq : 0 ≤ q) (h : z ≤ q) :
    z ≤ toFloat q :=
  hz.le_roundTo (by norm_num) hq h

theorem Tuned.threshold {tuning : HashTuning} (ht : Tuned tuning) :
    0 < tuning.growthThreshold ∧ tuning.growthThreshold < 1 := by
  have hepsilon : 0 < toFloat (1 / 10) ∧ toFloat (1 - toFloat (1 / 10)) < 1 := by decide +kernel
  have hcheck := ht.checked
  simp only [checkTuning, decide_eq_true_eq] at hcheck
  exact ⟨hepsilon.1.trans hcheck.1, hcheck.2.1.trans hepsilon.2⟩

theorem toFloat_sizeMax : toFloat (sizeMax : ℕ) = 2 ^ 64 := by decide +kernel

/-- What `compute_bucket_size` finds for a number of buckets, or zero. -/
theorem computeBucketSize_total {tuning : HashTuning} (ht : Tuned tuning) (n : Nat) :
    ∃ r, computeBucketSize n tuning = .ok r := by
  have hbool : ¬tuning.isNBuckets = true := by simp [ht.notBuckets]
  simp only [computeBucketSize]
  generalize toFloat (toFloat n / tuning.growthThreshold) = newCandidate
  by_cases hbig : toFloat sizeMax ≤ newCandidate
  · rw [if_pos ⟨hbool, hbig⟩]
    exact ⟨0, rfl⟩
  · rw [if_neg fun h => hbig h.2, if_neg hbool]
    rw [toFloat_sizeMax, not_le] at hbig
    have hfloor : newCandidate.floor < 2 ^ 64 := by
      have hcast := (Int.floor_le newCandidate).trans_lt hbig
      exact_mod_cast hcast
    obtain ⟨r, hr, -⟩ := @nextPrime_total newCandidate.floor.toNat (by unfold sizeMax; omega)
    rw [hr, ok_bind]
    split_ifs
    · exact ⟨0, rfl⟩
    · exact ⟨r, rfl⟩

structure Stores (kind : GHashKind) (c : GHashNode) (key : Bytes) : Prop where
  str : c.str = key ++ [0]
  len : c.len = if kind.nullTermKey then 0 else key.length
  noNul : 0 ∉ key

theorem hash_of_stores {kind : GHashKind} {c : GHashNode} {key : Bytes} (h : Stores kind c key)
    (n : Nat) : hash kind c n = LHash.slot n key := by
  have hlength : keyLength kind c = key.length := by
    rw [keyLength, h.len, h.str, LHash.strlen, LHash.takeWhile_terminated h.noNul]
    split_ifs <;> rfl
  rw [hash, hlength, h.str, List.take_left, LHash.slot]

theorem hash_keyNode (kind : GHashKind) {key : Bytes} (h : 0 ∉ key) (n : Nat) :
    hash kind (keyNode kind key) n = LHash.slot n key := by
  have hlength : keyLength kind (keyNode kind key) = key.length := by
    simp only [keyLength, keyNode, LHash.strlen, LHash.takeWhile_noNul h]
    split_ifs <;> rfl
  rw [hash, hlength, keyNode, List.take_length, LHash.slot]

theorem eq_keyNode {kind : GHashKind} {c : GHashNode} {k key : Bytes} (hs : Stores kind c k)
    (hkey : 0 ∉ key) : eq kind (keyNode kind key) c = decide (k = key) := by
  simp only [eq, keyNode, hs.str, hs.len]
  split_ifs with hnull
  · rw [LHash.takeWhile_terminated hs.noNul, LHash.takeWhile_noNul hkey, decide_eq_decide]
    exact eq_comm
  · rw [decide_eq_decide]
    constructor
    · rintro ⟨hl, ht⟩
      rw [List.take_length, hl, List.take_left] at ht
      exact ht.symm
    · rintro rfl
      simp

def home (ks : List Bytes) (size p : Nat) : Nat := LHash.slot size ((deref ks p).getD [])

structure Holds (kind : GHashKind) (h : GHash) (ks : List Bytes) : Prop where
  sized : h.bucket.length = h.nBuckets
  pos : 0 < h.nBuckets
  used : h.nBucketsUsed = used h.bucket
  entries : h.nEntries = ks.length
  length : h.nodes.length = ks.length
  stores : ∀ p k, deref ks p = some k → ∃ c, deref h.nodes p = some c ∧ Stores kind c k
  nodup : ks.Nodup
  slots : (items h.bucket).Perm (List.range' 1 ks.length)
  homed : Homed (home ks h.bucket.length) h.bucket
  counted : h.nodeStruct = ks.length

section
variable {kind : GHashKind} {h : GHash} {ks : List Bytes}

theorem Holds.mem_items (hh : Holds kind h ks) {p : Nat} :
    p ∈ items h.bucket ↔ ∃ k, deref ks p = some k := by
  rw [hh.slots.mem_iff, List.mem_range'_1, ← Option.isSome_iff_exists, deref_isSome]
  omega

theorem holds_stats (hh : Holds kind h ks) (stats : GHashStats) :
    Holds kind { h with stats := stats } ks :=
  ⟨hh.sized, hh.pos, hh.used, hh.entries, hh.length, hh.stores, hh.nodup, hh.slots, hh.homed,
    hh.counted⟩

theorem safeHasher_spec {bucket : List (List Nat)} {c : GHashNode} {j : Nat}
    (hj : hash kind c bucket.length = j) (hlt : j < bucket.length) :
    ∃ b, bucket[j]? = some b ∧ safeHasher kind bucket c = .ok (j, b) := by
  obtain ⟨b, hb⟩ : ∃ b, bucket[j]? = some b := ⟨_, List.getElem?_eq_getElem hlt⟩
  refine ⟨b, hb, ?_⟩
  simp only [safeHasher, hj, hb]

theorem scan_key (hh : Holds kind h ks) {key : Bytes} (hkey : 0 ∉ key) {b : List Nat}
    (hb : h.bucket[LHash.slot h.bucket.length key]? = some b) (n : Nat) :
    (∃ p m, scan (fun p => do pure (eq kind (keyNode kind key) (← h.node p))) b n =
      .ok (some p, m) ∧ deref ks p = some key) ∨
    (∃ m, scan (fun p => do pure (eq kind (keyNode kind key) (← h.node p))) b n = .ok (none, m) ∧
      key ∉ ks) := by
  have htest : ∀ p ∈ b, (do pure (eq kind (keyNode kind key) (← h.node p)) : Outcome Bool) =
      .ok (decide (deref ks p = some key)) := by
    intro p hp
    obtain ⟨k, hk⟩ := hh.mem_items.mp (List.mem_flatten.mpr ⟨b, List.mem_of_getElem? hb, hp⟩)
    obtain ⟨c, hc, hs⟩ := hh.stores p k hk
    have hnode : h.node p = .ok c := by simp [node, hc]
    rw [hnode, ok_bind, eq_keyNode hs hkey, hk]
    simp
  obtain ⟨m, hscan⟩ := scan_spec htest n
  cases hfind : b.find? fun p => decide (deref ks p = some key) with
  | some p =>
    rw [hfind] at hscan
    exact Or.inl ⟨p, m, hscan, by simpa using List.find?_some hfind⟩
  | none =>
    rw [hfind] at hscan
    refine Or.inr ⟨m, hscan, fun hmem => ?_⟩
    obtain ⟨p, hp⟩ := exists_deref hmem
    obtain ⟨b', hb', hpb⟩ := mem_home hh.homed (hh.mem_items.mpr ⟨key, hp⟩)
    rw [home, hp, Option.getD_some, hb] at hb'
    obtain rfl := Option.some.inj hb'
    simpa [hp] using List.find?_eq_none.mp hfind p hpb

theorem lookup_spec (hh : Holds kind h ks) {key : Bytes} (hkey : 0 ∉ key) :
    (∃ p, h.lookup kind key = .ok (some p) ∧ deref ks p = some key) ∨
      (h.lookup kind key = .ok none ∧ key ∉ ks) := by
  obtain ⟨b, hb, hrun⟩ := safeHasher_spec (hash_keyNode kind hkey h.bucket.length)
    (LHash.slot_lt key (hh.sized ▸ hh.pos))
  simp only [lookup, hrun, ok_bind]
  rcases scan_key hh hkey hb 0 with ⟨p, m, hscan, hp⟩ | ⟨m, hscan, hnot⟩
  · exact Or.inl ⟨p, by rw [hscan]; rfl, hp⟩
  · exact Or.inr ⟨by rw [hscan]; rfl, hnot⟩

theorem hashFindEntry_spec (hh : Holds kind h ks) {key : Bytes} (hkey : 0 ∉ key) (n : Nat) :
    (∃ j p m, hashFindEntry kind h (keyNode kind key) n = .ok (j, some p, m) ∧
      deref ks p = some key) ∨
    (∃ m, hashFindEntry kind h (keyNode kind key) n =
      .ok (LHash.slot h.bucket.length key, none, m) ∧ key ∉ ks) := by
  obtain ⟨b, hb, hrun⟩ := safeHasher_spec (hash_keyNode kind hkey h.bucket.length)
    (LHash.slot_lt key (hh.sized ▸ hh.pos))
  simp only [hashFindEntry, hrun, ok_bind]
  rcases scan_key hh hkey hb n with ⟨p, m, hscan, hp⟩ | ⟨m, hscan, hnot⟩
  · exact Or.inl ⟨_, p, m, by rw [hscan]; rfl, hp⟩
  · exact Or.inr ⟨m, by rw [hscan]; rfl, hnot⟩

structure Placed (ks : List Bytes) (dst : Dest) : Prop where
  pos : 0 < dst.bucket.length
  used : dst.nBucketsUsed = Buckets.used dst.bucket
  homed : Homed (home ks dst.bucket.length) dst.bucket

def Moved (ks : List Bytes) (dst : Dest) (ps : List Nat) (dst' : Dest) : Prop :=
  Placed ks dst' ∧ dst'.bucket.length = dst.bucket.length ∧
    (items dst'.bucket).Perm (ps ++ items dst.bucket)

theorem Moved.trans {dst dst' dst'' : Dest} {ps qs : List Nat} (h : Moved ks dst ps dst')
    (h' : Moved ks dst' qs dst'') : Moved ks dst (ps ++ qs) dst'' := by
  obtain ⟨-, hlen, hperm⟩ := h
  obtain ⟨hp, hlen', hperm'⟩ := h'
  refine ⟨hp, hlen'.trans hlen, hperm'.trans ((hperm.append_left qs).trans ?_)⟩
  rw [← List.append_assoc]
  exact List.perm_append_comm.append_right _

theorem moved_set {dst : Dest} (hd : Placed ks dst) {p j : Nat} {b : List Nat}
    (hj : dst.bucket[j]? = some b) (hp : home ks dst.bucket.length p = j) (free : Nat) :
    Moved ks dst [p] ⟨dst.bucket.set j (chain p b),
      if b = [] then dst.nBucketsUsed + 1 else dst.nBucketsUsed, free⟩ := by
  refine ⟨⟨by simpa using hd.pos, ?_, ?_⟩, by simp, items_set_perm hj⟩
  · simp only [used_set hj, hd.used]
    split_ifs <;> rfl
  · simp only [List.length_set]
    exact homed_set hd.homed hj hp

theorem moveOverflow_spec (hh : Holds kind h ks) {dst : Dest} (hd : Placed ks dst) {p : Nat}
    (hp : p ∈ items h.bucket) :
    ∃ dst', moveOverflow kind h dst p = .ok dst' ∧ Moved ks dst [p] dst' := by
  obtain ⟨k, hk⟩ := hh.mem_items.mp hp
  obtain ⟨c, hc, hs⟩ := hh.stores p k hk
  have hnode : h.node p = .ok c := by simp [node, hc]
  have hhome : home ks dst.bucket.length p = LHash.slot dst.bucket.length k := by
    rw [home, hk, Option.getD_some]
  obtain ⟨b, hb, hrun⟩ := safeHasher_spec (hash_of_stores hs dst.bucket.length)
    (LHash.slot_lt k hd.pos)
  simp only [moveOverflow, hnode, ok_bind, hrun]
  by_cases hnil : b = []
  · have hmoved := moved_set hd hb hhome (dst.freeEntries + 1)
    rw [if_pos hnil] at hmoved
    exact ⟨_, if_neg (not_not_intro hnil), hmoved⟩
  · have hmoved := moved_set hd hb hhome dst.freeEntries
    rw [if_neg hnil] at hmoved
    exact ⟨_, if_pos hnil, hmoved⟩

theorem moveHead_spec (hh : Holds kind h ks) {dst : Dest} (hd : Placed ks dst) {p : Nat}
    (hp : p ∈ items h.bucket) :
    ∃ dst', moveHead kind h dst p = .ok dst' ∧ Moved ks dst [p] dst' := by
  obtain ⟨k, hk⟩ := hh.mem_items.mp hp
  obtain ⟨c, hc, hs⟩ := hh.stores p k hk
  have hnode : h.node p = .ok c := by simp [node, hc]
  have hhome : home ks dst.bucket.length p = LHash.slot dst.bucket.length k := by
    rw [home, hk, Option.getD_some]
  obtain ⟨b, hb, hrun⟩ := safeHasher_spec (hash_of_stores hs dst.bucket.length)
    (LHash.slot_lt k hd.pos)
  simp only [moveHead, hnode, ok_bind, hrun]
  by_cases hnil : b = []
  · have hmoved := moved_set hd hb hhome dst.freeEntries
    rw [if_pos hnil] at hmoved
    exact ⟨_, if_neg (not_not_intro hnil), hmoved⟩
  · have hmoved := moved_set hd hb hhome (dst.freeEntries - 1)
    rw [if_neg hnil] at hmoved
    exact ⟨_, if_pos hnil, hmoved⟩

theorem transferOverflow_spec (hh : Holds kind h ks) {dst : Dest} (hd : Placed ks dst)
    {ps : List Nat} (hps : ∀ p ∈ ps, p ∈ items h.bucket) :
    ∃ dst', transferOverflow kind h dst ps = .ok dst' ∧ Moved ks dst ps dst' := by
  induction ps generalizing dst with
  | nil => exact ⟨dst, rfl, hd, rfl, List.Perm.refl _⟩
  | cons p ps ih =>
    obtain ⟨mid, hmove, hmid⟩ := moveOverflow_spec hh hd (hps p (by simp))
    obtain ⟨dst', hrest, hdst'⟩ := ih hmid.1 (fun q hq => hps q (by simp [hq]))
    exact ⟨dst', by rw [transferOverflow, hmove, ok_bind, hrest], hmid.trans hdst'⟩

theorem transferEntries_spec (hh : Holds kind h ks) {dst : Dest} (hd : Placed ks dst)
    {bs : List (List Nat)} (hbs : ∀ p ∈ items bs, p ∈ items h.bucket) :
    ∃ dst', transferEntries kind h dst bs = .ok dst' ∧ Placed ks dst' ∧
      dst'.bucket.length = dst.bucket.length ∧
      (items dst'.bucket).Perm (items bs ++ items dst.bucket) := by
  induction bs generalizing dst with
  | nil => exact ⟨dst, rfl, hd, rfl, List.Perm.refl _⟩
  | cons b bs ih =>
    have hrest : ∀ p ∈ items bs, p ∈ items h.bucket := fun p hp =>
      hbs p (by simp only [items, List.flatten_cons, List.mem_append] at hp ⊢; exact Or.inr hp)
    cases b with
    | nil => exact ih hd hrest
    | cons p ps =>
      have hmem : ∀ q ∈ p :: ps, q ∈ items h.bucket := fun q hq =>
        hbs q (by simp only [items, List.flatten_cons, List.mem_append]; exact Or.inl hq)
      obtain ⟨mid, hover, hmid⟩ := transferOverflow_spec hh hd fun q hq =>
        hmem q (List.mem_cons_of_mem p hq)
      obtain ⟨top, hhead, htop⟩ := moveHead_spec hh hmid.1 (hmem p (by simp))
      obtain ⟨dst', hend, hplaced, hlen, hperm⟩ := ih htop.1 hrest
      obtain ⟨-, hlen', hperm'⟩ := hmid.trans htop
      refine ⟨dst', by simp only [transferEntries, hover, hhead, ok_bind, hend], hplaced,
        hlen.trans hlen', hperm.trans ((hperm'.append_left _).trans ?_)⟩
      rw [show items ((p :: ps) :: bs) = (p :: ps) ++ items bs from rfl, ← List.append_assoc]
      refine List.Perm.append_right _ (List.perm_append_comm.trans ?_)
      exact (List.perm_append_singleton p ps).append_right _

theorem hashRehash_spec (hh : Holds kind h ks) (ht : Tuned h.tuning) (candidate : Nat) :
    (hashRehash kind h candidate = .error .alloc ∧ ∃ n,
        computeBucketSize candidate h.tuning = .ok n ∧ (n = 0 ∨ sizeMax < n * 16)) ∨
      ∃ h', hashRehash kind h candidate = .ok h' ∧ Holds kind h' ks ∧ h'.tuning = h.tuning ∧
        h'.nodes = h.nodes ∧ h'.nEntries = h.nEntries ∧
        h'.stats.nDuplicateEntries = h.stats.nDuplicateEntries := by
  obtain ⟨n, hn⟩ := computeBucketSize_total ht candidate
  simp only [hashRehash, hn, ok_bind]
  by_cases hzero : n = 0
  · rw [if_pos hzero]
    exact Or.inl ⟨rfl, n, rfl, Or.inl hzero⟩
  rw [if_neg hzero]
  by_cases hsame : n = h.nBuckets
  · rw [if_pos hsame]
    exact Or.inr ⟨h, rfl, hh, rfl, rfl, rfl, rfl⟩
  rw [if_neg hsame]
  rcases calloc_cases n 16 ([] : List Nat) with ⟨ha, hbig⟩ | ⟨ha, -⟩
  · refine Or.inl ⟨?_, n, rfl, Or.inr hbig⟩
    rw [ha, error_bind]
  · have hpos : 0 < n := Nat.pos_of_ne_zero hzero
    have hplaced : Placed ks ⟨List.replicate n [], 0, h.freeEntries⟩ :=
      ⟨by simpa using hpos, (used_replicate n).symm, homed_replicate _ n⟩
    obtain ⟨dst, hrun, hd, hlen, hperm⟩ := transferEntries_spec hh hplaced
      (fun p hp => hp : ∀ p ∈ items h.bucket, p ∈ items h.bucket)
    rw [List.length_replicate] at hlen
    rw [items_replicate, List.append_nil] at hperm
    right
    refine ⟨{ h with
      bucket := dst.bucket
      nBuckets := n
      nBucketsUsed := dst.nBucketsUsed
      freeEntries := dst.freeEntries
      stats := { h.stats with nRehashOps := h.stats.nRehashOps + 1 } }, ?_,
      ⟨hlen, hpos, hd.used, hh.entries, hh.length, hh.stores, hh.nodup, hperm.trans hh.slots,
        hd.homed, hh.counted⟩, rfl, rfl, rfl, rfl⟩
    rw [ha, ok_bind, hrun]
    rfl

def Stuck (h : GHash) : Prop :=
  h.loaded = true ∧ (toFloat sizeMax ≤ growthCandidate h ∨
    ∃ n, computeBucketSize (growthCandidate h).floor.toNat h.tuning = .ok n ∧
      (n = 0 ∨ sizeMax < n * 16))

theorem grow_spec (hh : Holds kind h ks) (ht : Tuned h.tuning) {key : Bytes} (hkey : 0 ∉ key)
    (hnew : key ∉ ks) :
    (grow kind h (keyNode kind key) (LHash.slot h.bucket.length key) = .error .alloc ∧
        Stuck h) ∨
      ∃ h', grow kind h (keyNode kind key) (LHash.slot h.bucket.length key) =
          .ok (h', LHash.slot h'.bucket.length key) ∧ Holds kind h' ks ∧ h'.tuning = h.tuning ∧
        h'.nodes = h.nodes ∧ h'.nEntries = h.nEntries ∧
        h'.stats.nDuplicateEntries = h.stats.nDuplicateEntries := by
  simp only [grow, ht.checked, if_true]
  by_cases hload : h.loaded = true
  swap
  · rw [if_neg hload]
    exact Or.inr ⟨h, rfl, hh, rfl, rfl, rfl, rfl⟩
  rw [if_pos hload]
  by_cases hbig : toFloat sizeMax ≤ growthCandidate h
  · rw [if_pos hbig]
    exact Or.inl ⟨rfl, hload, Or.inl hbig⟩
  rw [if_neg hbig]
  rcases hashRehash_spec hh ht (growthCandidate h).floor.toNat with
    ⟨ha, hbad⟩ | ⟨h₁, hre, hh₁, ht₁, hnodes, hentries, hdups⟩
  · rw [ha, error_bind]
    exact Or.inl ⟨rfl, hload, Or.inr hbad⟩
  rw [hre, ok_bind]
  rcases hashFindEntry_spec hh₁ hkey h₁.stats.nRehashNotEqualHits with
    ⟨j, p, m, -, hp⟩ | ⟨m, hrun, -⟩
  · exact absurd (mem_of_deref hp) hnew
  · rw [hrun, ok_bind]
    exact Or.inr ⟨_, rfl, holds_stats hh₁ _, ht₁, hnodes, hentries, hdups⟩

theorem newNode_spec (hh : Holds kind h ks) {key : Bytes} (hkey : 0 ∉ key) (hnew : key ∉ ks) :
    (newNode kind h (LHash.slot h.bucket.length key) key = .error .alloc ∧
        (sizeMax / 2 < kind.nodeSize + 8 ∨ sizeMax / 2 < key.length + 1 + 1)) ∨
      ∃ h', newNode kind h (LHash.slot h.bucket.length key) key =
          .ok (h', true, ks.length + 1) ∧ Holds kind h' (ks ++ [key]) ∧ h'.tuning = h.tuning ∧
        h'.nEntries = h.nEntries + 1 ∧
        h'.stats.nDuplicateEntries = h.stats.nDuplicateEntries ∧
        ∀ p k, deref ks p = some k → h'.val p = h.val p := by
  have hlt : LHash.slot h.bucket.length key < h.bucket.length :=
    LHash.slot_lt key (hh.sized ▸ hh.pos)
  obtain ⟨b, hb⟩ : ∃ b, h.bucket[LHash.slot h.bucket.length key]? = some b :=
    ⟨_, List.getElem?_eq_getElem hlt⟩
  rcases poolAllocate_cases kind.nodeSize 8 with ⟨ha, hbig⟩ | ha
  · refine Or.inl ⟨?_, Or.inl hbig⟩
    simp only [newNode, hb, ok_bind, ha, error_bind]
  rcases poolAllocate_cases (key.length + 1) 1 with ⟨ha', hbig⟩ | ha'
  · refine Or.inl ⟨?_, Or.inr hbig⟩
    simp only [newNode, hb, ok_bind, ha, ha', error_bind]
  right
  have hsame : ∀ p ∈ items h.bucket,
      home (ks ++ [key]) h.bucket.length p = home ks h.bucket.length p := by
    intro p hp
    obtain ⟨k, hk⟩ := hh.mem_items.mp hp
    rw [home, home, deref_append_left _ hk, hk]
  have hhomed := homed_congr hh.homed hsame
  refine ⟨{ h with
    nodes := h.nodes ++ [⟨0, if kind.nullTermKey then 0 else key.length, key ++ [0]⟩]
    bucket := h.bucket.set (LHash.slot h.bucket.length key) (chain (ks.length + 1) b)
    nEntries := h.nEntries + 1
    nBucketsUsed := if b ≠ [] then h.nBucketsUsed else h.nBucketsUsed + 1
    freeEntries := if b ≠ [] then h.freeEntries - 1 else h.freeEntries
    stats := { h.stats with
      nAllocEntries :=
        if b ≠ [] ∧ h.freeEntries = 0 then h.stats.nAllocEntries + 1 else h.stats.nAllocEntries }
    nodeStruct := h.nodeStruct + 1
    nodeMem := h.nodeMem + (key.length + 1) }, ?_, ?_, rfl, rfl, rfl, ?_⟩
  · simp only [newNode, hb, ok_bind, ha, ha', pure_eq_ok, hh.length]
  · constructor
    · simpa using hh.sized
    · exact hh.pos
    · simp only [used_set hb, hh.used]
      split_ifs <;> simp_all
    · simp [hh.entries]
    · simp [hh.length]
    · exact paired_concat hh.stores hh.length ⟨rfl, rfl, hkey⟩
    · exact nodup_concat hh.nodup hnew
    · exact (items_set_perm hb).trans (pointers_concat hh.slots key)
    · simp only [List.length_set]
      refine homed_set hhomed hb ?_
      rw [home, deref_append, if_pos rfl, Option.getD_some]
    · simp [hh.counted]
  · intro p k hk
    obtain ⟨c, hc, -⟩ := hh.stores p k hk
    simp only [val, deref_append_left _ hc, hc]

def Starved (kind : GHashKind) (h : GHash) (key : Bytes) : Prop :=
  sizeMax / 2 < kind.nodeSize + 8 ∨ sizeMax / 2 < key.length + 1 + 1 ∨ Stuck h

theorem insert_spec (hh : Holds kind h ks) (ht : Tuned h.tuning) {key : Bytes} (hkey : 0 ∉ key) :
    (∃ p stats, h.insert kind key = .ok ({ h with stats := stats }, false, p) ∧
      deref ks p = some key ∧
      stats.nDuplicateEntries = h.stats.nDuplicateEntries + 1) ∨
    (key ∉ ks ∧ ((h.insert kind key = .error .alloc ∧ Starved kind h key) ∨
      ∃ h', h.insert kind key = .ok (h', true, ks.length + 1) ∧ Holds kind h' (ks ++ [key]) ∧
        h'.tuning = h.tuning ∧ h'.nEntries = h.nEntries + 1 ∧
        h'.stats.nDuplicateEntries = h.stats.nDuplicateEntries ∧
        ∀ p k, deref ks p = some k → h'.val p = h.val p)) := by
  rcases hashFindEntry_spec hh hkey h.stats.nInsertNotEqualHits with
    ⟨j, p, ne, hrun, hp⟩ | ⟨ne, hrun, hnew⟩
  · left
    refine ⟨p, { h.stats with
      nInsertNotEqualHits := ne
      nDuplicateEntries := h.stats.nDuplicateEntries + 1
      nInsertEqualHits := h.stats.nInsertEqualHits + 1 }, ?_, hp, rfl⟩
    simp only [insert, hrun, ok_bind, pure_eq_ok]
  · refine Or.inr ⟨hnew, ?_⟩
    have hne := holds_stats hh { h.stats with nInsertNotEqualHits := ne }
    simp only [insert, hrun, ok_bind]
    by_cases hload : loaded { h with stats := { h.stats with nInsertNotEqualHits := ne } } = true
    · rw [if_pos hload]
      rcases grow_spec hne ht hkey hnew with
        ⟨ha, hstuck⟩ | ⟨h₁, hgrow, hh₁, ht₁, hnodes, hentries, hdups⟩
      · refine Or.inl ⟨?_, Or.inr (Or.inr hstuck)⟩
        rw [ha, error_bind]
      · rw [hgrow, ok_bind]
        rcases newNode_spec hh₁ hkey hnew with ⟨ha, hbig⟩ | ⟨h', hins, hh', ht', he, hd, hval⟩
        · exact Or.inl ⟨ha, hbig.imp_right Or.inl⟩
        · refine Or.inr ⟨h', hins, hh', ht'.trans ht₁, by rw [he, hentries],
            by rw [hd, hdups], fun p k hk => ?_⟩
          rw [hval p k hk, val, val, hnodes]
    · rw [if_neg hload]
      rcases newNode_spec hne hkey hnew with ⟨ha, hbig⟩ | hmade
      · exact Or.inl ⟨ha, hbig.imp_right Or.inl⟩
      · exact Or.inr hmade

end

end GHash

end PathSet
