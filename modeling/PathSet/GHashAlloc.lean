import PathSet.GHashDelete

/-!
The counter of allocated entries. An insertion counts the entry it takes for itself. What
its rehash takes is counted for the temporary table alone, and lost with it.
-/

namespace PathSet
open Fallible Pointer Buckets Recycled

namespace GHashEntries

variable {mix : Bytes → Nat} {kind : GHashKind} {t : GHashEntries} {ks : List Bytes}
variable {tbl : List (List Nat)}

def Counted (t : GHashEntries) : Prop :=
  t.nAllocEntries = (overflow t.bucket).length + t.entry.free.length

instance (t : GHashEntries) : Decidable (Counted t) := inferInstanceAs (Decidable (_ = _))

/-- What `hash_get_struct_mem` should tell. -/
def claimed (tableSize : Nat) (t : GHashEntries) : Nat :=
  ((t.nBuckets + ((overflow t.bucket).length + t.entry.free.length)) * 16 + tableSize) % 2 ^ 64

def nodeHash (mix : Bytes → Nat) (kind : GHashKind) (t : GHashEntries) (size p : Nat) : Nat :=
  match t.node (some p) with
  | .ok c => GHashTable.hash mix kind c size
  | .error _ => 0

/-- A rehash to `size` buckets gets by with the entries there are: up to each bucket, the
heads are no more than the free entries and the different buckets their nodes go to. -/
def Suffices (mix : Bytes → Nat) (kind : GHashKind) (t : GHashEntries) (size : Nat) : Prop :=
  ∀ i, ((t.bucket.take i).countP fun b => b.data.isSome) ≤
    t.entry.free.length + homes (t.nodeHash mix kind size) ((t.bucket.take i).flatMap (nodesOf t.entry))

def TakesNone (mix : Bytes → Nat) (kind : GHashKind) (t : GHashEntries)
    (input : Bytes × Option Nat) : Prop :=
  (∃ p ∈ t.stored, Matches kind t input.1 p) ∨
    ∀ n ∈ input.2, n ≠ t.nBuckets → Suffices mix kind t n

theorem counted_iff (h : Kept mix kind t ks tbl) :
    Counted t ↔ t.nAllocEntries = t.entry.cell.length := by
  rw [Counted, h.owns.length]

theorem nodeHash_eq (h : Kept mix kind t ks tbl) {p : Nat} (hp : p ∈ items tbl) (size : Nat) :
    t.nodeHash mix kind size p = GHashTable.home mix ks size p := by
  obtain ⟨k, c, hk, hc, hs⟩ := h.node hp
  rw [nodeHash, hc, GHashTable.home, hk]
  exact GHashTable.hash_of_keeps hs size

theorem used_take (h : Kept mix kind t ks tbl) (i : Nat) :
    (t.bucket.take i).countP (fun b => b.data.isSome) = used (tbl.take i) := by
  rw [used, ← h.shown.map_nodesOf, ← List.map_take, List.countP_map]
  refine List.countP_congr fun b hb => ?_
  obtain ⟨j, hj⟩ := List.mem_iff_getElem?.mp (List.mem_of_mem_take hb)
  have hlt := (List.getElem?_eq_some_iff.mp hj).1
  obtain ⟨c, ps, hc, -, hshow⟩ := h.shown.bucket_at (h.shown.length ▸ hlt)
  obtain rfl := Option.some.inj (hj.symm.trans hc)
  have hempty := hshow.data_eq_none
  rw [Function.comp_apply, hshow.nodesOf]
  cases ps with
  | nil => simp [hempty.mpr rfl]
  | cons p ps => simp [hshow.1]

theorem suffices_iff (h : Kept mix kind t ks tbl) (size : Nat) :
    Suffices mix kind t size ↔ Fitting (GHashTable.home mix ks size) t.entry.free.length [] tbl := by
  have hnodes : ∀ i, (t.bucket.take i).flatMap (nodesOf t.entry) = items (tbl.take i) := by
    intro i
    rw [List.flatMap_def, List.map_take, h.shown.map_nodesOf]
    rfl
  have hhomes : ∀ i, homes (t.nodeHash mix kind size) (items (tbl.take i)) =
      homes (GHashTable.home mix ks size) (items (tbl.take i)) := by
    intro i
    refine homes_congr fun p hp => nodeHash_eq h ?_ size
    obtain ⟨ps, hps, hpp⟩ := List.mem_flatten.mp hp
    exact List.mem_flatten.mpr ⟨ps, List.mem_of_mem_take hps, hpp⟩
  refine forall_congr' fun i => ?_
  rw [used_take h, hnodes, hhomes, List.append_nil]
  exact Iff.rfl

theorem counted_insert_iff (h : Kept mix kind t ks tbl) (hcounted : Counted t)
    {input : Bytes × Option Nat} (hsize : ∀ n ∈ input.2, 0 < n) (hg : Granted kind input) :
    ∃ t' r, insert mix kind t input = .ok (t', r) ∧ (∃ ks' tbl', Kept mix kind t' ks' tbl') ∧
      (Counted t' ↔ TakesNone mix kind t input) := by
  rw [counted_iff h] at hcounted
  rcases insert_spec h rfl hsize with
    ⟨p, hp, hk, hins⟩ | ⟨hnew, ⟨hno, -⟩ | ⟨t', tbl', hins, hinserted⟩⟩
  · have hm : ∃ p ∈ t.stored, Matches kind t input.1 p :=
      ⟨p, h.stored_eq ▸ hp, (matches_iff h hp).mpr hk⟩
    refine ⟨t, (false, p), hins, ⟨ks, tbl, h⟩, iff_of_true ?_ (Or.inl hm)⟩
    rwa [counted_iff h]
  · exact absurd hg hno
  · refine ⟨t', (true, ks.length + 1), hins, ⟨_, tbl', hinserted.kept⟩, ?_⟩
    have hout : ¬∃ p ∈ t.stored, Matches kind t input.1 p := by
      rintro ⟨p, hp, hm⟩
      rw [h.stored_eq] at hp
      exact hnew p hp ((matches_iff h hp).mp hm)
    have hfits : (∀ n ∈ input.2, FitsGrowth mix t ks tbl n) ↔
        ∀ n ∈ input.2, n ≠ t.nBuckets → Suffices mix kind t n := by
      refine forall₂_congr fun n _ => ?_
      rw [FitsGrowth, suffices_iff h]
    rw [counted_iff hinserted.kept, TakesNone, or_iff_right hout, ← hfits, ← hinserted.counted]
    omega

end GHashEntries

open GHashEntries in
/-- In a run of insertions with the memory they ask for, the counter tells all claimed
entries after every call just when no growth of the run takes one. -/
theorem ghash_alloc_entries_iff (mix : Bytes → Nat) (kind : GHashKind) (tableSize : Nat) {n : Nat}
    (hn : 0 < n) {inputs : List (Bytes × Option Nat)}
    (hinputs : ∀ x ∈ inputs, (∀ m ∈ x.2, 0 < m) ∧ Granted kind x) :
    Meets (GHashEntries.insert mix kind) (fun _ _ t' _ => Counted t' ∧
        t'.hashGetStructMem tableSize = claimed tableSize t') [] (GHashEntries.fresh n) inputs ↔
      Along (GHashEntries.insert mix kind) (TakesNone mix kind) (GHashEntries.fresh n) inputs := by
  have hinv : (∃ ks tbl, Kept mix kind (GHashEntries.fresh n) ks tbl) ∧
      Counted (GHashEntries.fresh n) := by
    refine ⟨⟨[], _, kept_fresh hn⟩, ?_⟩
    rw [Counted, GHashEntries.fresh, overflow_replicate]
    rfl
  have hgood : ∀ (_past : List (Bool × Nat)) (t : GHashEntries) (x : Bytes × Option Nat),
      (∃ ks tbl, Kept mix kind t ks tbl) ∧ Counted t →
      (∀ m ∈ x.2, 0 < m) ∧ Granted kind x → TakesNone mix kind t x →
      ∃ t' r, GHashEntries.insert mix kind t x = .ok (t', r) ∧
        (Counted t' ∧ t'.hashGetStructMem tableSize = claimed tableSize t') ∧
        (∃ ks tbl, Kept mix kind t' ks tbl) ∧ Counted t' := by
    rintro _ t x ⟨⟨ks, tbl, h⟩, hcounted⟩ ⟨hsize, hg⟩ hnone
    obtain ⟨t', r, hins, hkept, hiff⟩ := counted_insert_iff h hcounted hsize hg
    have hcounted' := hiff.mpr hnone
    exact ⟨t', r, hins, ⟨hcounted', by rw [hashGetStructMem, claimed, ← hcounted']⟩, hkept, hcounted'⟩
  have hbad : ∀ (_past : List (Bool × Nat)) (t : GHashEntries) (x : Bytes × Option Nat)
      (t' : GHashEntries) (r : Bool × Nat), (∃ ks tbl, Kept mix kind t ks tbl) ∧ Counted t →
      (∀ m ∈ x.2, 0 < m) ∧ Granted kind x → GHashEntries.insert mix kind t x = .ok (t', r) →
      (Counted t' ∧ t'.hashGetStructMem tableSize = claimed tableSize t') →
      TakesNone mix kind t x := by
    rintro _ t x t' r ⟨⟨ks, tbl, h⟩, hcounted⟩ ⟨hsize, hg⟩ hins ⟨hcounted', -⟩
    obtain ⟨t₁, r₁, hins₁, -, hiff⟩ := counted_insert_iff h hcounted hsize hg
    obtain ⟨rfl, -⟩ := Prod.mk.inj (Except.ok.inj (hins.symm.trans hins₁))
    exact hiff.mp hcounted'
  exact meets_iff_along hgood hbad hinv hinputs

open GHashEntries in
theorem ghash_alloc_entries_moved :
    Meets (GHashEntries.insert List.length ⟨true, 16⟩) (fun _ _ t' _ => Counted t' ∧
        t'.hashGetStructMem 128 = claimed 128 t') [] (GHashEntries.fresh 2)
      [([97], none), ([98], some 3)] := by
  have hgranted : ∀ x ∈ [(([97] : Bytes), none), ([98], some 3)],
      (∀ m ∈ x.2, 0 < m) ∧ Granted ⟨true, 16⟩ x := by
    intro x hx
    simp only [List.mem_cons, List.not_mem_nil, or_false] at hx
    rcases hx with rfl | rfl <;> exact ⟨by decide, by decide, by decide, by decide⟩
  refine (ghash_alloc_entries_iff List.length ⟨true, 16⟩ 128 (by decide : 0 < 2) hgranted).mpr ?_
  refine Along.cons rfl (Or.inr (by simp)) (Along.cons rfl (Or.inr ?_) trivial)
  intro n hn _ i
  obtain rfl : 3 = n := Option.some.inj hn
  match i with
  | 0 | 1 => decide
  | i + 2 =>
    rw [List.take_of_length_le (Nat.le_add_left 2 i)]
    decide

def GHashEntries.nineKeys : List Bytes :=
  [[97], [114], [98], [99], [100], [101], [102], [104], [105]]

def GHashEntries.nineStored : GHashEntries :=
  ⟨nineKeys.map fun k => ⟨0, 0, k ++ [0]⟩, ⟨[], []⟩,
    [some 8, some 9, none, none, some 1, some 3, some 4, some 5, some 6, some 7, some 2].map
      (⟨·, []⟩), 11, 9, 9, 0⟩

open GHashEntries in
/-- The tenth key makes the table grow, and an overflow entry of it is not counted. So it is
in the program: one entry, none of them free, and a counter of zero. -/
theorem ghash_alloc_entries_lost :
    ¬Meets (GHashEntries.insert keyMix ⟨true, 16⟩) (fun _ _ t' _ => Counted t' ∧
        t'.hashGetStructMem 128 = claimed 128 t') [] (GHashEntries.fresh 11)
      (nineKeys.map (fun k => (k, none)) ++ [([106], some 17)]) ∧
    (do let h₀ ← GHash.init ⟨1, none, none, MB 1, MB 1, none⟩
        let (h, _) ← run (GHash.insert ⟨true, 16⟩) h₀ (nineKeys ++ [[106]])
        pure (h₀.nBuckets, h.nBuckets, (items h.bucket).length - used h.bucket, h.freeEntries,
          h.stats.nAllocEntries) : Outcome (Nat × Nat × Nat × Nat × Nat)) =
      .ok (11, 17, 1, 0, 0) := by
  refine ⟨fun hmeets => ?_, by decide +kernel⟩
  have hnine : run (GHashEntries.insert keyMix ⟨true, 16⟩) (GHashEntries.fresh 11)
      (nineKeys.map fun k => (k, none)) =
      .ok (nineStored, (List.range' 1 9).map fun p => (true, p)) := by decide +kernel
  have hcounted := (hmeets.last hnine rfl).1
  exact absurd hcounted (by decide)

end PathSet
