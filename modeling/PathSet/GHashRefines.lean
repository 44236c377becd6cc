import PathSet.GHashRuns
import PathSet.GHashDictionary

/-!
The chained table over lists is the one over slots. What it does without failing is done
slot by slot, with the sizes it computes, so the tables of the program are well placed.
-/

namespace PathSet
open Fallible Pointer Buckets FirstSeen Numbered

def keyMix (key : Bytes) : Nat := (LHash.hash key).toNat

namespace GHash

open GHashTable (ofList)

def table (g : GHash) : GHashTable :=
  ⟨g.nodes, g.bucket.map ofList, g.nBuckets, g.nBucketsUsed, g.nEntries, g.freeEntries⟩

def Dest.table (dst : Dest) : GHashTable.Dest :=
  ⟨dst.bucket.map ofList, dst.nBucketsUsed, dst.freeEntries⟩

section
variable {kind : GHashKind} {g g' : GHash}

theorem hash_table (kind : GHashKind) : GHashTable.hash keyMix kind = hash kind := rfl

theorem node_table (g : GHash) (p : Nat) : g.table.node (some p) = g.node p := rfl

theorem safeHasher_table {bucket : List (List Nat)} {c : GHashNode} {j : Nat} {b : List Nat}
    (h : safeHasher kind bucket c = .ok (j, b)) :
    bucket[j]? = some b ∧
      GHashTable.safeHasher keyMix kind (bucket.map ofList) c = .ok (j, ofList b) := by
  simp only [safeHasher] at h
  simp only [GHashTable.safeHasher, hash_table, List.length_map, List.getElem?_map]
  cases hb : bucket[hash kind c bucket.length]? with
  | none =>
    rw [hb] at h
    cases h
  | some b' =>
    rw [hb] at h
    cases h
    exact ⟨hb, rfl⟩

def Found (t : GHashTable) (r : Option Nat) (s : Option Slot) : Prop :=
  (r = none ∧ s = none) ∨ ∃ p slot, r = some p ∧ s = some slot ∧ t.readSlot slot = .ok (some p)

theorem scanNext_table {c : GHashNode} {ps : List Nat} {n m : Nat} {r : Option Nat}
    (h : scan (fun p => do pure (eq kind c (← g.node p))) ps n = .ok (r, m)) (j i : Nat) :
    (r = none ∧ GHashTable.scanNext kind g.table c j i (ps.map some) = .ok none) ∨
      ∃ p k, r = some p ∧ ps[k]? = some p ∧
        GHashTable.scanNext kind g.table c j i (ps.map some) = .ok (some (.overflow j (i + k))) := by
  induction ps generalizing n i with
  | nil =>
    cases h
    exact Or.inl ⟨rfl, rfl⟩
  | cons p ps ih =>
    obtain ⟨hit, htest, h⟩ := bind_eq_ok.mp h
    obtain ⟨d, hd, htest⟩ := bind_eq_ok.mp htest
    obtain rfl : eq kind c d = hit := Except.ok.inj htest
    rw [List.map_cons, GHashTable.scanNext, node_table, hd, ok_bind]
    cases hit : eq kind c d with
    | true =>
      rw [hit] at h
      cases h
      exact Or.inr ⟨p, 0, rfl, rfl, rfl⟩
    | false =>
      rw [hit] at h
      rcases ih h (i + 1) with ⟨hr, hrun⟩ | ⟨q, k, hr, hq, hrun⟩
      · exact Or.inl ⟨hr, hrun⟩
      · refine Or.inr ⟨q, k + 1, hr, hq, ?_⟩
        rw [Nat.add_comm k, ← Nat.add_assoc]
        exact hrun

theorem hashFindEntry_table {c : GHashNode} {j n m : Nat} {r : Option Nat}
    (h : hashFindEntry kind g c n = .ok (j, r, m)) :
    ∃ s, GHashTable.hashFindEntry keyMix kind g.table c = .ok (j, s) ∧ Found g.table r s := by
  obtain ⟨⟨j', b⟩, hsafe, h⟩ := bind_eq_ok.mp h
  obtain ⟨⟨r', m'⟩, hscan, h⟩ := bind_eq_ok.mp h
  cases h
  obtain ⟨hb, hsafe'⟩ := safeHasher_table hsafe
  have hbucket : g.table.bucket[j]? = some (ofList b) := by
    rw [table, List.getElem?_map, hb]
    rfl
  have hrun : GHashTable.safeHasher keyMix kind g.table.bucket c = .ok (j, ofList b) := hsafe'
  rw [GHashTable.hashFindEntry, hrun, ok_bind]
  cases b with
  | nil =>
    cases hscan
    exact ⟨none, rfl, Or.inl ⟨rfl, rfl⟩⟩
  | cons p ps =>
    obtain ⟨hit, htest, hscan⟩ := bind_eq_ok.mp hscan
    obtain ⟨d, hd, htest⟩ := bind_eq_ok.mp htest
    obtain rfl : eq kind c d = hit := Except.ok.inj htest
    simp only [ofList, reduceCtorEq, if_false, node_table, hd, ok_bind]
    cases hit : eq kind c d with
    | true =>
      rw [hit] at hscan
      cases hscan
      refine ⟨some (.head j), rfl, Or.inr ⟨p, .head j, rfl, rfl, ?_⟩⟩
      rw [GHashTable.readSlot, hbucket]
      rfl
    | false =>
      rw [hit] at hscan
      rcases scanNext_table hscan j 0 with ⟨hr, hnext⟩ | ⟨q, k, hr, hq, hnext⟩
      · exact ⟨none, by rw [hnext]; rfl, Or.inl ⟨hr, rfl⟩⟩
      · refine ⟨some (.overflow j (0 + k)), by rw [hnext]; rfl, Or.inr ⟨q, _, hr, rfl, ?_⟩⟩
        simp only [GHashTable.readSlot, hbucket, Option.bind_some, ofList, Nat.zero_add,
          List.getElem?_map, hq, Option.map_some]

theorem moveOverflow_table {dst dst' : Dest} {p : Nat} (h : moveOverflow kind g dst p = .ok dst') :
    GHashTable.moveOverflow keyMix kind g.table dst.table (some p) = .ok dst'.table := by
  obtain ⟨c, hc, h⟩ := bind_eq_ok.mp h
  obtain ⟨⟨j, b⟩, hsafe, h⟩ := bind_eq_ok.mp h
  obtain ⟨-, hsafe'⟩ := safeHasher_table hsafe
  rw [GHashTable.moveOverflow, node_table, hc, ok_bind, Dest.table, hsafe', ok_bind]
  cases b with
  | nil =>
    cases h
    simp only [Dest.table, List.map_set]
    rfl
  | cons q qs =>
    cases h
    simp only [Dest.table, List.map_set]
    rfl

theorem moveHead_table {dst dst' : Dest} {p : Nat} (h : moveHead kind g dst p = .ok dst') :
    GHashTable.moveHead keyMix kind g.table dst.table (some p) = .ok dst'.table := by
  obtain ⟨c, hc, h⟩ := bind_eq_ok.mp h
  obtain ⟨⟨j, b⟩, hsafe, h⟩ := bind_eq_ok.mp h
  obtain ⟨-, hsafe'⟩ := safeHasher_table hsafe
  rw [GHashTable.moveHead, node_table, hc, ok_bind, Dest.table, hsafe', ok_bind]
  cases b with
  | nil =>
    cases h
    simp only [Dest.table, List.map_set]
    rfl
  | cons q qs =>
    cases h
    simp only [Dest.table, List.map_set]
    rfl

theorem transferOverflow_table {dst dst' : Dest} {ps : List Nat}
    (h : transferOverflow kind g dst ps = .ok dst') :
    GHashTable.transferOverflow keyMix kind g.table dst.table (ps.map some) = .ok dst'.table := by
  induction ps generalizing dst with
  | nil =>
    cases h
    rfl
  | cons p ps ih =>
    obtain ⟨mid, hmid, h⟩ := bind_eq_ok.mp h
    rw [List.map_cons, GHashTable.transferOverflow, moveOverflow_table hmid, ok_bind, ih h]

theorem transferEntries_table {dst dst' : Dest} {bs : List (List Nat)}
    (h : transferEntries kind g dst bs = .ok dst') :
    GHashTable.transferEntries keyMix kind g.table dst.table (bs.map ofList) = .ok dst'.table := by
  induction bs generalizing dst with
  | nil =>
    cases h
    rfl
  | cons b bs ih =>
    cases b with
    | nil => exact ih h
    | cons p ps =>
      obtain ⟨mid, hover, h⟩ := bind_eq_ok.mp h
      obtain ⟨top, hhead, h⟩ := bind_eq_ok.mp h
      simp only [List.map_cons, GHashTable.transferEntries, ofList, reduceCtorEq, if_false,
        transferOverflow_table hover, moveHead_table hhead, ok_bind]
      exact ih h

theorem calloc_table {n size : Nat} {bucket : List (List Nat)} (h : calloc n size [] = .ok bucket) :
    calloc n size ⟨none, []⟩ = .ok (bucket.map ofList) := by
  rw [calloc] at h ⊢
  split_ifs at h ⊢
  cases h
  rw [List.map_replicate]
  rfl

theorem hashRehash_table {candidate : Nat} (h : hashRehash kind g candidate = .ok g') :
    ∃ n, 0 < n ∧ GHashTable.hashRehash keyMix kind g.table n = .ok g'.table := by
  obtain ⟨n, -, h⟩ := bind_eq_ok.mp h
  refine ⟨n, ?_⟩
  split_ifs at h with hzero hsame
  · cases h
    refine ⟨Nat.pos_of_ne_zero hzero, ?_⟩
    rw [GHashTable.hashRehash, if_neg hzero]
    exact if_pos hsame
  · obtain ⟨bucket, hcalloc, h⟩ := bind_eq_ok.mp h
    obtain ⟨dst, hmoved, h⟩ := bind_eq_ok.mp h
    cases h
    have htransfer := transferEntries_table hmoved
    refine ⟨Nat.pos_of_ne_zero hzero, ?_⟩
    rw [GHashTable.hashRehash, if_neg hzero]
    refine (if_neg hsame).trans ?_
    rw [calloc_table hcalloc, ok_bind]
    exact bind_eq_ok.mpr ⟨dst.table, htransfer, rfl⟩

theorem grow_table {c : GHashNode} {j j' : Nat} (h : grow kind g c j = .ok (g', j')) :
    ∃ newSize, (∀ n ∈ newSize, 0 < n) ∧
      GHashTable.grow keyMix kind newSize g.table c j = .ok (g'.table, j') := by
  have htuned : (if checkTuning g.tuning then g else { g with tuning := defaultTuning }).table =
      g.table := by
    split_ifs <;> rfl
  rw [grow] at h
  rw [← htuned]
  generalize (if checkTuning g.tuning then g else { g with tuning := defaultTuning }) = g₀ at h ⊢
  -- the tuning only decides on the size
  generalize growthCandidate g₀ = candidate at h
  by_cases hload : g₀.loaded = true
  · rw [if_pos hload] at h
    by_cases hbig : toFloat sizeMax ≤ candidate
    · rw [if_pos hbig] at h
      cases h
    rw [if_neg hbig] at h
    obtain ⟨g₁, hrehash, h⟩ := bind_eq_ok.mp h
    obtain ⟨⟨j₁, r, m⟩, hfind, h⟩ := bind_eq_ok.mp h
    obtain ⟨n, hn, hslots⟩ := hashRehash_table hrehash
    obtain ⟨s, hsearch, hfound⟩ := hashFindEntry_table hfind
    cases r with
    | some p => cases h
    | none =>
      cases h
      obtain rfl : s = none := by
        rcases hfound with ⟨-, hs⟩ | ⟨p, slot, hp, -⟩
        · exact hs
        · cases hp
      refine ⟨some n, by simpa using hn, ?_⟩
      rw [GHashTable.grow, hslots, ok_bind, hsearch]
      rfl
  · rw [if_neg hload] at h
    cases h
    exact ⟨none, by simp, rfl⟩

theorem newNode_table {g₁ : GHash} {c : GHashNode} {newSize : Option Nat} {j j₁ p : Nat} {b : Bool}
    {key : Bytes} (hfind : GHashTable.hashFindEntry keyMix kind g.table c = .ok (j, none))
    (hgrow : GHashTable.grow keyMix kind newSize g.table c j = .ok (g₁.table, j₁))
    (h : newNode kind g₁ j₁ key = .ok (g', b, p)) :
    b = true ∧ ∃ t t' slot,
      GHashTable.hashInsert keyMix kind newSize g.table c = .ok (t, true, slot) ∧
      GHashTable.newNode kind t key = .ok (t', p) ∧ t'.writeSlot p slot = g'.table := by
  obtain ⟨ps, hps, h⟩ := bind_eq_ok.mp h
  obtain ⟨⟨⟩, hnode, h⟩ := bind_eq_ok.mp h
  obtain ⟨⟨⟩, htext, h⟩ := bind_eq_ok.mp h
  cases h
  refine ⟨rfl, ?_⟩
  have hnew : ∀ t : GHashTable, GHashTable.newNode kind t key =
      .ok ({ t with
        nodes := t.nodes ++ [⟨0, if kind.nullTermKey then 0 else key.length, key ++ [0]⟩] },
        t.nodes.length + 1) := by
    intro t
    rw [GHashTable.newNode, hnode, ok_bind, htext]
    rfl
  have hb : g₁.bucket[j₁]? = some ps := by
    cases hb : g₁.bucket[j₁]? with
    | none =>
      rw [hb] at hps
      cases hps
    | some qs =>
      rw [hb] at hps
      exact congrArg some (Except.ok.inj hps)
  have hbucket : (g₁.bucket.map ofList)[j₁]? = some (ofList ps) := by
    rw [List.getElem?_map, hb]
    rfl
  rw [GHashTable.hashInsert, hfind, ok_bind]
  simp only [hgrow, ok_bind]
  simp only [table, hbucket, hnew]
  cases ps with
  | nil =>
    refine ⟨_, _, _, rfl, rfl, ?_⟩
    have hput := modify_bucket hbucket fun b =>
      { b with data := some (g₁.nodes.length + 1) }
    simp only [GHashTable.writeSlot, hput, List.map_set]
    rfl
  | cons q qs =>
    refine ⟨_, _, _, rfl, rfl, ?_⟩
    have hslot : ((g₁.bucket.map ofList).set j₁ ⟨some q, none :: qs.map some⟩)[j₁]? =
        some ⟨some q, none :: qs.map some⟩ :=
      List.getElem?_set_self (List.getElem?_eq_some_iff.mp hbucket).1
    have hput := modify_bucket hslot fun b =>
      { b with next := b.next.set 0 (some (g₁.nodes.length + 1)) }
    rw [List.set_set] at hput
    simp only [ofList, GHashTable.writeSlot, hput, List.map_set]
    rfl

theorem insert_table {key : Bytes} {b : Bool} {p : Nat} (h : insert kind g key = .ok (g', b, p)) :
    ∃ newSize slot, (∀ n ∈ newSize, 0 < n) ∧
      GHashTable.insert keyMix kind g.table (key, newSize) = .ok (g'.table, b, slot, p) := by
  obtain ⟨⟨j, r, m⟩, hfind, h⟩ := bind_eq_ok.mp h
  obtain ⟨s, hsearch, hfound⟩ := hashFindEntry_table hfind
  rcases hfound with ⟨rfl, rfl⟩ | ⟨q, slot, rfl, rfl, hread⟩
  · obtain ⟨⟨g₁, j₁⟩, hgrow, h⟩ := bind_eq_ok.mp h
    have hslots : ∃ newSize, (∀ n ∈ newSize, 0 < n) ∧
        GHashTable.grow keyMix kind newSize g.table (keyNode kind key) j = .ok (g₁.table, j₁) := by
      split_ifs at hgrow with hload
      · obtain ⟨newSize, hsize, hslots⟩ := grow_table hgrow
        exact ⟨newSize, hsize, hslots⟩
      · cases hgrow
        exact ⟨none, by simp, rfl⟩
    obtain ⟨newSize, hsize, hslots⟩ := hslots
    obtain ⟨rfl, t, t', slot, hinsert, hnew, hwrite⟩ := newNode_table hsearch hslots h
    refine ⟨newSize, slot, hsize, ?_⟩
    simp only [GHashTable.insert, hinsert, ok_bind, if_true, hnew, hwrite, pure_eq_ok]
  · cases h
    refine ⟨none, slot, by simp, ?_⟩
    simp only [GHashTable.insert, GHashTable.hashInsert, hsearch, ok_bind, pure_eq_ok,
      Bool.false_eq_true, if_false, hread]
    rfl

theorem init_table {opt : Options} (h : init opt = .ok g) :
    0 < g.nBuckets ∧ g.table = GHashTable.fresh g.nBuckets := by
  obtain ⟨⟨⟩, -, h⟩ := bind_eq_ok.mp h
  obtain ⟨n, -, h⟩ := bind_eq_ok.mp h
  obtain ⟨⟨⟩, hn, h⟩ := bind_eq_ok.mp h
  obtain ⟨bucket, hcalloc, h⟩ := bind_eq_ok.mp h
  cases h
  rw [ensure] at hn
  rw [calloc] at hcalloc
  split_ifs at hn hcalloc with hzero
  cases hcalloc
  refine ⟨Nat.pos_of_ne_zero hzero, ?_⟩
  rw [table, List.map_replicate]
  rfl

theorem run_table {keys : List Bytes} {rs : List (Bool × Nat)}
    (h : run (insert kind) g keys = .ok (g', rs)) :
    ∃ inputs answers, List.Forall₂ (fun key x => (∀ n ∈ x.2, 0 < n) ∧ x.1 = key) keys inputs ∧
      List.Forall₂ (fun r s => s.1 = r.1 ∧ s.2.2 = r.2) rs answers ∧
      run (GHashTable.insert keyMix kind) g.table inputs = .ok (g'.table, answers) := by
  refine run_simulates (fun g₀ key g₁ r hstep => ?_) h
  obtain ⟨newSize, slot, hsize, hslots⟩ := insert_table hstep
  exact ⟨(key, newSize), (r.1, slot, r.2), ⟨hsize, rfl⟩, ⟨rfl, rfl⟩, hslots⟩

theorem wellPlaced_of_run {opt : Options} {keys : List Bytes} {rs : List (Bool × Nat)}
    (hinit : init opt = .ok g) (h : run (insert kind) g keys = .ok (g', rs)) :
    GHashTable.WellPlaced keyMix kind g'.table := by
  obtain ⟨hpos, hfresh⟩ := init_table hinit
  obtain ⟨inputs, answers, hinputs, -, hrun⟩ := run_table h
  have hsizes : ∀ x ∈ inputs, ∀ n ∈ x.2, 0 < n := ((List.forall₂_and_left _ _).mp hinputs.flip).1
  have hsound : ∃ tbl, GHashTable.Sound keyMix kind g.table (firsts []) tbl :=
    ⟨_, hfresh ▸ GHashTable.sound_fresh hpos⟩
  rcases GHashTable.run_spec hsound hsizes with ha | ⟨t, answers', hrun', ⟨tbl, hsound'⟩, -⟩
  · rw [hrun] at ha
    cases ha
  · rw [hrun] at hrun'
    cases hrun'
    exact hsound'.wellPlaced

theorem keeps_of_stores {c : GHashNode} {key : Bytes} (h : Stores kind c key) :
    GHashTable.Keeps kind c key := by
  refine ⟨key, ⟨h.str, h.len⟩, ?_⟩
  rw [GHashTable.keyText]
  split_ifs
  · exact LHash.takeWhile_noNul h.noNul
  · rfl

theorem Holds.sound {ks : List Bytes} (h : Holds kind g ks) :
    GHashTable.Sound keyMix kind g.table ks g.bucket := by
  refine ⟨rfl, h.sized, h.sized ▸ h.pos, h.used, h.entries, h.length, ?_, h.nodup, h.slots, h.homed⟩
  intro p k hk
  obtain ⟨c, hc, hs⟩ := h.stores p k hk
  exact ⟨c, hc, keeps_of_stores hs⟩

theorem Holds.wellPlaced {ks : List Bytes} (h : Holds kind g ks) :
    GHashTable.WellPlaced keyMix kind g.table := h.sound.wellPlaced

end

end GHash

end PathSet
