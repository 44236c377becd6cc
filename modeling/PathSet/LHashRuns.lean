import PathSet.LHashDictionary

/-!
No check of an insertion into the linear table fails, whatever bytes the keys have. The
factors the program accepts and the least size of a table leave room for the threshold
and for the growth.
-/

namespace PathSet
open Fallible Pointer ProbeTable

namespace LHash

variable {kind : LHashKind} {h : LHash}

structure Live (h : LHash) : Prop where
  sized : h.table.length = h.size
  used : (items h.table).length = h.used
  free : h.used < h.size
  nodes : ∀ p ∈ items h.table, ∃ c, deref h.nodes p = some c
  fits : Fits h

theorem Live.assertInvariants (hl : Live h) : h.assertInvariants = .ok () := by
  have hpos : 0 < h.size := Nat.zero_lt_of_lt hl.free
  rw [LHash.assertInvariants, assert_of hpos, ok_bind, assert_of hl.free]

theorem Live.room (hl : Live h) : (items h.table).length < h.table.length := by
  rw [hl.used, hl.sized]
  exact hl.free

theorem Live.slot_lt (hl : Live h) (key : Bytes) : slot h.size key < h.table.length := by
  rw [hl.sized]
  exact LHash.slot_lt key (Nat.zero_lt_of_lt hl.free)

theorem live_of_holds {ks : List Bytes} (hh : Holds kind h ks) (hfits : Fits h) : Live h := by
  refine ⟨hh.sized, hh.occupied, hh.free, fun p hp => ?_, hfits⟩
  obtain ⟨k, hk⟩ := hh.mem_items.mp hp
  obtain ⟨c, hc, -⟩ := hh.stores p k hk
  exact ⟨c, hc⟩

theorem eq_total {p : Nat} {c : LHashNode} (hc : deref h.nodes p = some c) (key : Bytes) :
    ∃ b, h.eq kind p key = .ok b := by
  simp only [eq, node, hc, ok_bind]
  split_ifs <;> exact ⟨_, rfl⟩

theorem probe_live (hl : Live h) (kind : LHashKind) (key : Bytes) (n : Nat) :
    ∃ j r m, probe .hang (h.eq kind · key) h.table h.table.length (slot h.size key) n =
      .ok (j, r, m) ∧ h.table[j]? = some r := by
  obtain ⟨e, he⟩ := exists_empty hl.room
  have htest : ∀ p ∈ items h.table, h.eq kind p key = .ok (decide (h.eq kind p key = .ok true)) := by
    intro p hp
    obtain ⟨c, hc⟩ := hl.nodes p hp
    obtain ⟨b, hb⟩ := eq_total hc key
    rw [hb]
    cases b <;> rfl
  obtain ⟨j, r, m, hrun, hj, -⟩ := probe_spec htest he (hl.slot_lt key) n
  exact ⟨j, r, m, hrun, hj⟩

theorem rehash_live (hl : Live h) (kind : LHashKind) :
    h.rehash kind h.growth = .error .alloc ∨
      ∃ h', h.rehash kind h.growth = .ok h' ∧ Live h' ∧ h.size < h'.size ∧
        h.growth.grown h.size = .ok h'.size ∧ h'.used = h.used := by
  have hfree := hl.free
  have hroom : (items h.table).length < h.size := hl.used ▸ hfree
  rcases rehash_run (growth_sound hl.fits) hl.assertInvariants hroom hl.nodes with
    ⟨ha, -⟩ | ⟨t, n, hit, hrun, hlen, hlt, hn, hfit, hperm, -⟩
  · exact Or.inl ha
  · refine Or.inr ⟨_, hrun, ⟨hlen, hperm.length_eq.trans hl.used, hfree.trans hlt, fun p hp => ?_,
      hl.fits.large.trans hlt.le, hfit, hl.fits.rehashSize, hl.fits.rehashLoad⟩, hlt, hn, rfl⟩
    exact hl.nodes p (hperm.mem_iff.mp hp)

theorem newNode_live (hl : Live h) (kind : LHashKind) (hroom : h.used < h.size - 1) {j : Nat}
    (hj : h.table[j]? = some none) (key : Bytes) :
    h.newNode kind j key = .error .alloc ∨
      ∃ h' r, h.newNode kind j key = .ok (h', r) ∧ Live h' := by
  rw [newNode, assert_of hroom, ok_bind]
  rcases poolAllocate_cases (kind.nodeSize + (key.length + 1)) kind.nodeSize with ⟨ha, -⟩ | ha
  · left
    rw [ha, error_bind]
  right
  rw [ha, ok_bind]
  have hperm := @items_set_perm _ _ _ (h.nodes.length + 1) hj
  refine ⟨_, _, rfl, ?_, ?_, ?_, fun p hp => ?_, hl.fits.large, hl.fits.bytes, hl.fits.rehashSize,
    hl.fits.rehashLoad⟩
  · simpa using hl.sized
  · show (items (h.table.set j (some (h.nodes.length + 1)))).length = h.used + 1
    rw [hperm.length_eq, List.length_cons, hl.used]
  · show h.used + 1 < h.size
    omega
  · rcases List.mem_cons.mp (hperm.mem_iff.mp hp) with hp | hp
    · exact ⟨_, by rw [hp, deref_append, if_pos rfl]⟩
    · obtain ⟨c, hc⟩ := hl.nodes p hp
      exact ⟨c, deref_append_left _ hc⟩

theorem Live.setStats (hl : Live h) (stats : LHashStats) : Live { h with stats := stats } :=
  ⟨hl.sized, hl.used, hl.free, hl.nodes, hl.fits.large, hl.fits.bytes, hl.fits.rehashSize,
    hl.fits.rehashLoad⟩

theorem insert_live (hl : Live h) (kind : LHashKind) (key : Bytes) :
    h.insert kind key = .error .alloc ∨ ∃ h' r, h.insert kind key = .ok (h', r) ∧ Live h' := by
  obtain ⟨s, hs, hpos, hlt⟩ := (growth_sound hl.fits).threshold
  obtain ⟨j, r, ne, hrun, hj⟩ := probe_live hl kind key h.stats.insertNe
  simp only [insert, insertWith, hl.assertInvariants, ok_bind, hrun]
  cases r with
  | some p => exact Or.inr ⟨_, _, rfl, hl.setStats _⟩
  | none =>
    simp only [hs, ok_bind, verify_of (And.intro hpos hlt)]
    have hl₁ := hl.setStats { h.stats with insertNe := ne }
    split_ifs with hload
    · exact newNode_live hl₁ kind (show h.used < h.size - 1 by omega) hj key
    · rcases rehash_live hl₁ kind with ha | ⟨h', hre, hl', hgrown, -, hused⟩
      · left
        exact congrArg (· >>= _) ha
      · -- the used slots are fewer than the old size, and the new one is larger
        have hfree : h.used < h.size := hl.free
        have hroom : h'.used < h'.size - 1 := by
          have : h.size < h'.size := hgrown
          have : h'.used = h.used := hused
          omega
        obtain ⟨j', hit, hrun', hj', -⟩ :=
          probe_free hl'.sized (hl'.used ▸ hl'.free) key h'.stats.insertHit
        rw [show rehash kind h.growth { h with stats := { h.stats with insertNe := ne } } = .ok h'
          from hre, ok_bind, hrun', ok_bind]
        exact newNode_live (hl'.setStats { h'.stats with insertHit := hit }) kind hroom hj' key

theorem run_live (hl : Live h) (kind : LHashKind) (keys : List Bytes) :
    run (insert kind) h keys = .error .alloc ∨
      ∃ h' rs, run (insert kind) h keys = .ok (h', rs) ∧ Live h' := by
  induction keys generalizing h with
  | nil => exact Or.inr ⟨h, [], rfl, hl⟩
  | cons key keys ih =>
    rw [run_cons]
    rcases insert_live hl kind key with ha | ⟨h₁, r, hins, hl₁⟩
    · left
      rw [ha, error_bind]
    · rw [hins, ok_bind]
      rcases ih hl₁ with ha | ⟨h', rs, hrun, hl'⟩
      · left
        rw [ha, error_bind]
      · exact Or.inr ⟨h', _, by rw [hrun, ok_bind], hl'⟩

/-- What the next insertion relies on: its threshold, the size it may grow to, and room
at the store, directly and after a rehash. -/
structure Ready (kind : LHashKind) (h : LHash) : Prop where
  direct : ∃ s, h.growth.threshold h.size = .ok s ∧ 0 < s ∧ s < h.size ∧
    (h.used < s → h.used < h.size - 1)
  larger : ∃ x n, sizeMulFloat h.size h.rehashSize = .ok x ∧ nextPrime x = .ok n ∧ h.size < n
  rehashed : h.rehash kind h.growth = .error .alloc ∨
    ∃ h', h.rehash kind h.growth = .ok h' ∧ h.growth.grown h.size = .ok h'.size ∧
      h'.used < h'.size - 1
  inserted : ∀ key, h.insert kind key = .error .alloc ∨ ∃ r, h.insert kind key = .ok r

theorem Live.ready (hl : Live h) (kind : LHashKind) : Ready kind h := by
  have hsound := growth_sound hl.fits
  refine ⟨?_, ?_, ?_, fun key => ?_⟩
  · obtain ⟨s, hs, hpos, hlt⟩ := hsound.threshold
    exact ⟨s, hs, hpos, hlt, fun hused => by omega⟩
  · obtain ⟨n, hn, hlt⟩ := hsound.grown
    obtain ⟨x, hx, hnext⟩ := bind_eq_ok.mp hn
    exact ⟨x, n, hx, hnext, hlt⟩
  · rcases rehash_live hl kind with ha | ⟨h', hre, -, hlt, hgrown, hused⟩
    · exact Or.inl ha
    · have hfree := hl.free
      exact Or.inr ⟨h', hre, hgrown, by omega⟩
  · rcases insert_live hl kind key with ha | ⟨h', r, hins, -⟩
    · exact Or.inl ha
    · exact Or.inr ⟨_, hins⟩

end LHash

/-- With accepted options no check of a run of insertions fails. It may run out of
memory only. -/
theorem lhash_insert_safe (kind : LHashKind) {opt : Options} (hopt : opt.Accepted)
    (keys : List Bytes) :
    ∃ h₀, LHash.init opt = .ok h₀ ∧ (run (LHash.insert kind) h₀ keys = .error .alloc ∨
      ∃ h rs, run (LHash.insert kind) h₀ keys = .ok (h, rs) ∧ LHash.Ready kind h) := by
  obtain ⟨h₀, hinit, hfits⟩ := LHash.init_accepted hopt
  have hl : LHash.Live h₀ := LHash.live_of_holds (LHash.init_holds kind hinit).1 hfits
  refine ⟨h₀, hinit, ?_⟩
  rcases LHash.run_live hl kind keys with ha | ⟨h, rs, hrun, hl'⟩
  · exact Or.inl ha
  · exact Or.inr ⟨h, rs, hrun, hl'.ready kind⟩

def tightOptions : Options := ⟨1, some (9 / 8), some (7 / 8), MB 1, MB 1, none⟩

theorem lhash_insert_safe_tight :
    ∃ h₀ h rs, LHash.init tightOptions = .ok h₀ ∧
      run (LHash.insert ⟨true, 1⟩) h₀ [[97], [0, 97], []] = .ok (h, rs) ∧ LHash.Ready ⟨true, 1⟩ h := by
  have hopt : tightOptions.Accepted := by
    refine ⟨by decide, ?_, ?_, by decide, by decide, by simp [tightOptions]⟩
    · intro v hv
      obtain rfl : 9 / 8 = v := Option.some.inj hv
      constructor <;> norm_num
    · intro v hv
      obtain rfl : 7 / 8 = v := Option.some.inj hv
      constructor <;> norm_num
  have hvalue : (LHash.init tightOptions >>= fun h₀ =>
      run (LHash.insert ⟨true, 1⟩) h₀ [[97], [0, 97], []]).toOption.isSome = true := by
    decide +kernel
  obtain ⟨h₀, hinit, halloc | ⟨h, rs, hrun, hready⟩⟩ :=
    lhash_insert_safe ⟨true, 1⟩ hopt [[97], [0, 97], []]
  · rw [hinit, ok_bind, halloc] at hvalue
    cases hvalue
  · exact ⟨h₀, h, rs, hinit, hrun, hready⟩

end PathSet
