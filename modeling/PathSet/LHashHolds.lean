import PathSet.LHash
import PathSet.Library.CString

/-!
The invariant of a linear hash table. Node number `p` stores the `p`-th key in the
order of first insertion, every node is in exactly one slot, and every node is
reached from the slot its hash selects through occupied slots.
-/

namespace PathSet
open Fallible Pointer ProbeTable

namespace LHash

structure Stores (kind : LHashKind) (c : LHashNode) (key : Bytes) : Prop where
  str : c.str = key ++ [0]
  len : c.len = if kind.nullTermKey then 0 else if key.length ≤ 255 then key.length else 0
  noNul : 0 ∉ key

theorem takeWhile_terminated {key : Bytes} (h : 0 ∉ key) (rest : Bytes) :
    (key ++ 0 :: rest).takeWhile (· ≠ 0) = key := CString.text_append h rest

theorem takeWhile_noNul {key : Bytes} (h : 0 ∉ key) : key.takeWhile (· ≠ 0) = key := by
  rw [List.takeWhile_eq_self_iff]
  intro ch hch
  simp only [decide_eq_true_eq]
  rintro rfl
  exact h hch

theorem strlen_of_stores {kind : LHashKind} {c : LHashNode} {key : Bytes}
    (h : Stores kind c key) : strlen c.str = key.length := by
  rw [strlen, h.str, takeWhile_terminated h.noNul]

theorem keyLength_of_stores {kind : LHashKind} {c : LHashNode} {key : Bytes}
    (h : Stores kind c key) : keyLength kind c = key.length := by
  have hlen := h.len
  rw [keyLength, strlen_of_stores h]
  by_cases hnull : kind.nullTermKey = true
  · rw [if_pos hnull]
  · rw [if_neg hnull] at hlen ⊢
    split_ifs at hlen ⊢ with hz
    · rfl
    · rfl
    · exact hlen
    · exact absurd hlen hz

theorem take_of_stores {kind : LHashKind} {c : LHashNode} {key : Bytes}
    (h : Stores kind c key) : c.str.take (keyLength kind c) = key := by
  rw [keyLength_of_stores h, h.str, List.take_left]

theorem eq_of_stores {kind : LHashKind} {h : LHash} {p : Nat} {c : LHashNode} {k key : Bytes}
    (hc : deref h.nodes p = some c) (hs : Stores kind c k) (hkey : 0 ∉ key) :
    h.eq kind p key = .ok (decide (k = key)) := by
  have hnode : h.node p = .ok c := by simp [node, hc]
  have hlength := keyLength_of_stores hs
  simp only [eq, hnode, ok_bind, pure_eq_ok]
  rw [keyLength] at hlength
  split_ifs at hlength ⊢ with hnull hz
  · rw [hs.str, takeWhile_terminated hs.noNul, takeWhile_noNul hkey]
  all_goals
    rw [hlength, hs.str]
    congr 1
    rw [decide_eq_decide]
    constructor
    · rintro ⟨hl, ht⟩
      rwa [← hl, List.take_left] at ht
    · rintro rfl
      exact ⟨rfl, List.take_left⟩

theorem stores_setVal {kind : LHashKind} {h : LHash} {p : Nat} {c : LHashNode} {key : Bytes}
    (hc : deref h.nodes p = some c) (hs : Stores kind c key) (q v : Nat) :
    ∃ c', deref (h.setVal q v).nodes p = some c' ∧ Stores kind c' key := by
  simp only [setVal, deref_update, hc]
  split_ifs
  · exact ⟨_, rfl, hs.str, hs.len, hs.noNul⟩
  · exact ⟨c, rfl, hs⟩

def home (ks : List Bytes) (size p : Nat) : Nat := slot size ((deref ks p).getD [])

structure Holds (kind : LHashKind) (h : LHash) (ks : List Bytes) : Prop where
  sized : h.table.length = h.size
  used : h.used = ks.length
  free : h.used < h.size
  length : h.nodes.length = ks.length
  stores : ∀ p k, deref ks p = some k → ∃ c, deref h.nodes p = some c ∧ Stores kind c k
  nodup : ks.Nodup
  slots : (items h.table).Perm (List.range' 1 ks.length)
  settled : Settled (home ks) h.table
  counted : h.nodeStruct = ks.length

section
variable {kind : LHashKind} {h : LHash} {ks : List Bytes}

theorem Holds.mem_items (hh : Holds kind h ks) {p : Nat} :
    p ∈ items h.table ↔ ∃ k, deref ks p = some k := by
  rw [hh.slots.mem_iff, List.mem_range'_1, ← Option.isSome_iff_exists, deref_isSome]
  omega

theorem Holds.occupied (hh : Holds kind h ks) : (items h.table).length = h.used := by
  rw [hh.slots.length_eq, List.length_range', hh.used]

theorem holds_stats (hh : Holds kind h ks) (stats : LHashStats) :
    Holds kind { h with stats := stats } ks :=
  ⟨hh.sized, hh.used, hh.free, hh.length, hh.stores, hh.nodup, hh.slots, hh.settled, hh.counted⟩

theorem slot_lt {size : Nat} (key : Bytes) (hs : 0 < size) : slot size key < size :=
  Nat.mod_lt _ hs

theorem assertInvariants_of_holds (hh : Holds kind h ks) : h.assertInvariants = .ok () := by
  have hpos : 0 < h.size := Nat.lt_of_le_of_lt (Nat.zero_le _) hh.free
  rw [assertInvariants, assert_of hpos, ok_bind, assert_of hh.free]

theorem probe_key (hh : Holds kind h ks) {key : Bytes} (hkey : 0 ∉ key) (n : Nat) :
    (∃ j p m, probe .hang (h.eq kind · key) h.table h.table.length (slot h.size key) n =
      .ok (j, some p, m) ∧ deref ks p = some key) ∨
    (∃ j m, probe .hang (h.eq kind · key) h.table h.table.length (slot h.size key) n =
      .ok (j, none, m) ∧ h.table[j]? = some none ∧ key ∉ ks ∧
      Path h.table (fun _ => True) (slot h.size key) j) := by
  have hpos : 0 < h.size := Nat.lt_of_le_of_lt (Nat.zero_le _) hh.free
  have hfree : (items h.table).length < h.table.length := by
    rw [hh.occupied, hh.sized]
    exact hh.free
  obtain ⟨e, he⟩ := exists_empty hfree
  have htest : ∀ p ∈ items h.table,
      h.eq kind p key = .ok (decide (deref ks p = some key)) := by
    intro p hp
    obtain ⟨k, hk⟩ := hh.mem_items.mp hp
    obtain ⟨c, hc, hs⟩ := hh.stores p k hk
    rw [eq_of_stores hc hs hkey, hk]
    simp
  have hi : slot h.size key < h.table.length := by
    rw [hh.sized]
    exact slot_lt key hpos
  obtain ⟨j, r, m, hrun, hj, hpath, hr⟩ := probe_spec htest he hi n
  cases r with
  | some p => exact Or.inl ⟨j, p, m, hrun, by simpa using hr p rfl⟩
  | none =>
    refine Or.inr ⟨j, m, hrun, hj, ?_, hpath.mono fun _ _ => trivial⟩
    intro hmem
    obtain ⟨p, hp⟩ := exists_deref hmem
    obtain ⟨s, hs⟩ := ProbeTable.mem_items.mp (hh.mem_items.mpr ⟨key, hp⟩)
    have hway := hh.settled s p hs
    rw [home, hp, hh.sized] at hway
    simpa [hp] using hpath.no_match hj hway hs

theorem lookup_spec (hh : Holds kind h ks) {key : Bytes} (hkey : 0 ∉ key) :
    (∃ p, h.lookup kind key = .ok (some p) ∧ deref ks p = some key) ∨
      (h.lookup kind key = .ok none ∧ key ∉ ks) := by
  rw [lookup, assertInvariants_of_holds hh, ok_bind]
  rcases probe_key hh hkey 0 with ⟨j, p, m, hrun, hp⟩ | ⟨j, m, hrun, -, hnot, -⟩
  · exact Or.inl ⟨p, by rw [hrun]; rfl, hp⟩
  · exact Or.inr ⟨by rw [hrun]; rfl, hnot⟩

def nodeHome (kind : LHashKind) (nodes : List LHashNode) (size p : Nat) : Nat :=
  slot size (((deref nodes p).map fun c => c.str.take (keyLength kind c)).getD [])

theorem nodeHome_eq (hh : Holds kind h ks) {p : Nat} (hp : p ∈ items h.table) (size : Nat) :
    nodeHome kind h.nodes size p = home ks size p := by
  obtain ⟨k, hk⟩ := hh.mem_items.mp hp
  obtain ⟨c, hc, hs⟩ := hh.stores p k hk
  rw [nodeHome, home, hc, hk, Option.map_some, Option.getD_some, Option.getD_some,
    take_of_stores hs]

theorem refill_spec {slots t : List (Option Nat)} {n : Nat}
    (hnodes : ∀ p ∈ items slots, ∃ c, deref h.nodes p = some c)
    (ht : Settled (nodeHome kind h.nodes) t)
    (hroom : (items t).length + (items slots).length < t.length) :
    ∃ t' n', refill kind h t slots n = .ok (t', n') ∧ t'.length = t.length ∧
      Settled (nodeHome kind h.nodes) t' ∧ (items t').Perm (items t ++ items slots) := by
  induction slots generalizing t n with
  | nil => exact ⟨t, n, rfl, rfl, ht, by simp [items]⟩
  | cons x slots ih =>
    cases x with
    | none =>
      simp only [items, List.reduceOption_cons_of_none] at hroom hnodes ⊢
      exact ih hnodes ht hroom
    | some p =>
      have hitems : items (some p :: slots) = p :: items slots := by simp [items]
      rw [hitems] at hroom hnodes ⊢
      rw [List.length_cons] at hroom
      obtain ⟨c, hc⟩ := hnodes p (by simp)
      have hnode : h.node p = .ok c := by simp [node, hc]
      have hpos : 0 < t.length := by omega
      obtain ⟨j, m, hrun, hj, hpath⟩ := @probe_never _ _ Abort.hang t (by omega) _
        (slot_lt (c.str.take (keyLength kind c)) hpos) n
      have hperm : (items (t.set j (some p))).Perm (p :: items t) := items_set_perm hj
      have hset : Settled (nodeHome kind h.nodes) (t.set j (some p)) := by
        refine settled_set ht hj ?_
        rw [nodeHome, hc]
        exact hpath
      obtain ⟨t', n', hrest, hlen, hsettled, hperm'⟩ := @ih (t.set j (some p)) m
        (fun q hq => hnodes q (List.mem_cons_of_mem p hq)) hset
        (by rw [hperm.length_eq, List.length_set, List.length_cons]; omega)
      refine ⟨t', n', ?_, by rw [hlen, List.length_set], hsettled, ?_⟩
      · simp only [refill, hnode, ok_bind, hrun]
        exact hrest
      · exact hperm'.trans ((hperm.append_right _).trans List.perm_middle.symm)

/-- A threshold below the size, and a larger size. -/
structure Growth.Sound (growth : Growth) (size : Nat) : Prop where
  threshold : ∃ s, growth.threshold size = .ok s ∧ 0 < s ∧ s < size
  grown : ∃ n, growth.grown size = .ok n ∧ size < n

theorem rehash_run {growth : Growth} (hg : Growth.Sound growth h.size)
    (hassert : h.assertInvariants = .ok ()) (hroom : (items h.table).length < h.size)
    (hnodes : ∀ p ∈ items h.table, ∃ c, deref h.nodes p = some c) :
    (h.rehash kind growth = .error .alloc ∧
        ∃ n, growth.grown h.size = .ok n ∧ sizeMax < n * 8) ∨
      ∃ t n hit, h.rehash kind growth = .ok { h with
          table := t
          size := n
          stats := { h.stats with rehashHit := hit, rehashOp := h.stats.rehashOp + 1 } } ∧
        t.length = n ∧ h.size < n ∧ growth.grown h.size = .ok n ∧ n * 8 ≤ sizeMax ∧
        (items t).Perm (items h.table) ∧ Settled (nodeHome kind h.nodes) t := by
  obtain ⟨n, hn, hlt⟩ := hg.grown
  rcases calloc_cases n 8 (none : Option Nat) with ⟨ha, hbig⟩ | ⟨ha, hfit⟩
  · refine Or.inl ⟨?_, n, hn, hbig⟩
    simp only [rehash, hassert, ok_bind, hn, verify_of hlt, ha, error_bind]
  · right
    have hfresh : items (List.replicate n (none : Option Nat)) = [] := items_replicate n
    obtain ⟨t, hit, hrun, hlen, hsettled, hperm⟩ :=
      @refill_spec kind h h.table (List.replicate n none) h.stats.rehashHit hnodes
        (settled_replicate _ n)
        (by rw [hfresh, List.length_nil, List.length_replicate]; omega)
    rw [hfresh, List.nil_append] at hperm
    rw [List.length_replicate] at hlen
    refine ⟨t, n, hit, ?_, hlen, hlt, hn, hfit, hperm, hsettled⟩
    simp only [rehash, hassert, ok_bind, hn, verify_of hlt, ha, hrun, pure_eq_ok]

theorem rehash_spec (hh : Holds kind h ks) {growth : Growth} (hg : Growth.Sound growth h.size) :
    (h.rehash kind growth = .error .alloc ∧
        ∃ n, growth.grown h.size = .ok n ∧ sizeMax < n * 8) ∨
      ∃ h', h.rehash kind growth = .ok h' ∧ Holds kind h' ks ∧ h.size < h'.size ∧
        growth.grown h.size = .ok h'.size ∧ h'.size * 8 ≤ sizeMax ∧
        (items h'.table).Perm (items h.table) ∧
        h' = { h with table := h'.table, size := h'.size, stats := h'.stats } ∧
        h'.stats.uniqNode = h.stats.uniqNode ∧ h'.stats.dupsNode = h.stats.dupsNode := by
  have hnodes : ∀ p ∈ items h.table, ∃ c, deref h.nodes p = some c := by
    intro p hp
    obtain ⟨k, hk⟩ := hh.mem_items.mp hp
    obtain ⟨c, hc, -⟩ := hh.stores p k hk
    exact ⟨c, hc⟩
  rcases rehash_run hg (assertInvariants_of_holds hh) (hh.occupied ▸ hh.free) hnodes with
    halloc | ⟨t, n, hit, hrun, hlen, hlt, hn, hfit, hperm, hsettled⟩
  · exact Or.inl halloc
  · right
    have hhome : Settled (home ks) t :=
      settled_congr hsettled fun p hp => (nodeHome_eq hh (hperm.mem_iff.mp hp) _).symm
    exact ⟨_, hrun, ⟨hlen, hh.used, hh.free.trans hlt, hh.length, hh.stores, hh.nodup,
      hperm.trans hh.slots, hhome, hh.counted⟩, hlt, hn, hfit, hperm, rfl, rfl, rfl⟩

theorem rehash_frame {growth : Growth} {h' : LHash} (hre : h.rehash kind growth = .ok h') :
    h' = { h with table := h'.table, size := h'.size, stats := h'.stats } := by
  obtain ⟨-, -, hre⟩ := bind_eq_ok.mp hre
  obtain ⟨s, -, hre⟩ := bind_eq_ok.mp hre
  obtain ⟨-, -, hre⟩ := bind_eq_ok.mp hre
  obtain ⟨t, -, hre⟩ := bind_eq_ok.mp hre
  obtain ⟨⟨t', hit⟩, -, hre⟩ := bind_eq_ok.mp hre
  obtain rfl := Except.ok.inj hre
  rfl

theorem newNode_frame {h' : LHash} {j p : Nat} {key : Bytes} {new : Bool}
    (hnew : h.newNode kind j key = .ok (h', new, p)) :
    new = true ∧ p = h.nodes.length + 1 ∧ h' = { h with
      nodes := h.nodes ++
        [⟨0, if kind.nullTermKey then 0 else if key.length ≤ 255 then key.length else 0, key ++ [0]⟩]
      table := h'.table
      used := h.used + 1
      stats := h'.stats
      nodeStruct := h.nodeStruct + 1
      nodeMem := h.nodeMem + (key.length + 1) } := by
  obtain ⟨-, -, hnew⟩ := bind_eq_ok.mp hnew
  obtain ⟨-, -, hnew⟩ := bind_eq_ok.mp hnew
  obtain ⟨rfl, rfl, rfl⟩ := Prod.mk.inj (Except.ok.inj hnew) |>.imp_right Prod.mk.inj
  exact ⟨rfl, rfl, rfl⟩

theorem insertWith_cases {growth : Growth} {h' : LHash} {key : Bytes} {new : Bool} {p : Nat}
    (hins : h.insertWith kind growth key = .ok (h', new, p)) :
    (new = false ∧ h' = { h with stats := h'.stats } ∧ h.lookup kind key = .ok (some p)) ∨
      (h.lookup kind key = .ok none ∧ ∃ (h₁ : LHash) (j : Nat),
        h₁ = { h with table := h₁.table, size := h₁.size, stats := h₁.stats } ∧
        h₁.newNode kind j key = .ok (h', new, p)) := by
  obtain ⟨⟨⟩, hassert, hins⟩ := bind_eq_ok.mp hins
  obtain ⟨⟨j, r, ne⟩, hprobe, hins⟩ := bind_eq_ok.mp hins
  obtain ⟨ne', hlook⟩ := (probe_ends hprobe).2 0
  have hlookup : h.lookup kind key = .ok r := by
    rw [lookup, hassert, ok_bind, hlook]
    rfl
  cases r with
  | some q =>
    obtain ⟨rfl, rfl, rfl⟩ := Prod.mk.inj (Except.ok.inj hins) |>.imp_right Prod.mk.inj
    exact Or.inl ⟨rfl, rfl, hlookup⟩
  | none =>
    right
    obtain ⟨s, -, hins⟩ := bind_eq_ok.mp hins
    obtain ⟨-, -, hins⟩ := bind_eq_ok.mp hins
    split_ifs at hins with hload
    · exact ⟨hlookup, _, j, rfl, hins⟩
    · obtain ⟨h₁, hre, hins⟩ := bind_eq_ok.mp hins
      obtain ⟨⟨j', r', hit⟩, -, hins⟩ := bind_eq_ok.mp hins
      have hframe := rehash_frame hre
      exact ⟨hlookup, _, j', by rw [hframe], hins⟩

theorem newNode_spec (hh : Holds kind h ks) {key : Bytes} (hkey : 0 ∉ key) (hnew : key ∉ ks)
    (hroom : h.used < h.size - 1) {j : Nat} (hj : h.table[j]? = some none)
    (hpath : Path h.table (fun _ => True) (slot h.size key) j) :
    (h.newNode kind j key = .error .alloc ∧
        sizeMax / 2 < kind.nodeSize + (key.length + 1) + kind.nodeSize) ∨
      ∃ h', h.newNode kind j key = .ok (h', true, ks.length + 1) ∧ Holds kind h' (ks ++ [key]) ∧
        h'.size = h.size ∧ h'.rehashSize = h.rehashSize ∧ h'.rehashLoad = h.rehashLoad ∧
        h'.stats.uniqNode = h.stats.uniqNode + 1 ∧ h'.stats.dupsNode = h.stats.dupsNode ∧
        ∀ p k, deref ks p = some k → h'.val p = h.val p := by
  rcases poolAllocate_cases (kind.nodeSize + (key.length + 1)) kind.nodeSize with ⟨ha, hbig⟩ | ha
  · refine Or.inl ⟨?_, hbig⟩
    simp only [newNode, assert_of hroom, ok_bind, ha, error_bind]
  · right
    have hsame : ∀ p ∈ items h.table, home (ks ++ [key]) h.table.length p =
        home ks h.table.length p := by
      intro p hp
      obtain ⟨k, hk⟩ := hh.mem_items.mp hp
      rw [home, home, deref_append_left _ hk, hk]
    have hsettled := settled_congr hh.settled hsame
    refine ⟨{ h with
      nodes := h.nodes ++
        [⟨0, if kind.nullTermKey then 0 else if key.length ≤ 255 then key.length else 0, key ++ [0]⟩]
      table := h.table.set j (some (h.nodes.length + 1))
      used := h.used + 1
      stats := { h.stats with uniqNode := h.stats.uniqNode + 1 }
      nodeStruct := h.nodeStruct + 1
      nodeMem := h.nodeMem + (key.length + 1) }, ?_, ?_, rfl, rfl, rfl, rfl, rfl, ?_⟩
    · simp only [newNode, assert_of hroom, ok_bind, ha, pure_eq_ok, hh.length]
    · constructor
      · simpa using hh.sized
      · simp [hh.used]
      · show h.used + 1 < h.size
        omega
      · simp [hh.length]
      · exact paired_concat hh.stores hh.length ⟨rfl, rfl, hkey⟩
      · exact nodup_concat hh.nodup hnew
      · exact (items_set_perm hj).trans (hh.length ▸ pointers_concat hh.slots key)
      · refine settled_set hsettled hj ?_
        rw [home, deref_append, if_pos (by rw [hh.length]), hh.sized]
        exact hpath
      · simp [hh.counted]
    · intro p k hk
      obtain ⟨c, hc, -⟩ := hh.stores p k hk
      simp only [val, deref_append_left _ hc, hc]

/-- Memory is refused, for a node of the key or for the table a full one grows to. -/
def Starved (kind : LHashKind) (growth : Growth) (h : LHash) (key : Bytes) : Prop :=
  sizeMax / 2 < kind.nodeSize + (key.length + 1) + kind.nodeSize ∨
    ∃ s n, growth.threshold h.size = .ok s ∧ s ≤ h.used ∧
      growth.grown h.size = .ok n ∧ sizeMax < n * 8

theorem probe_free (hsized : h.table.length = h.size) (hfree : (items h.table).length < h.size)
    (key : Bytes) (n : Nat) :
    ∃ j m, probe Abort.hang (fun _ => .ok false) h.table h.table.length (slot h.size key) n =
        .ok (j, none, m) ∧
      h.table[j]? = some none ∧ Path h.table (fun _ => True) (slot h.size key) j := by
  have hslot : slot h.size key < h.table.length := by
    rw [hsized]
    exact slot_lt key (Nat.zero_lt_of_lt hfree)
  exact probe_never (hsized ▸ hfree) hslot n

theorem insertWith_spec (hh : Holds kind h ks) {growth : Growth}
    (hg : Growth.Sound growth h.size) {key : Bytes} (hkey : 0 ∉ key) :
    (∃ p stats, h.insertWith kind growth key = .ok ({ h with stats := stats }, false, p) ∧
      deref ks p = some key ∧
      stats.uniqNode = h.stats.uniqNode ∧ stats.dupsNode = h.stats.dupsNode + 1) ∨
    (key ∉ ks ∧ ((h.insertWith kind growth key = .error .alloc ∧ Starved kind growth h key) ∨
      ∃ h', h.insertWith kind growth key = .ok (h', true, ks.length + 1) ∧
        Holds kind h' (ks ++ [key]) ∧
        (h'.size = h.size ∨ (growth.grown h.size = .ok h'.size ∧ h'.size * 8 ≤ sizeMax)) ∧
        h'.rehashSize = h.rehashSize ∧ h'.rehashLoad = h.rehashLoad ∧
        h'.stats.uniqNode = h.stats.uniqNode + 1 ∧ h'.stats.dupsNode = h.stats.dupsNode ∧
        ∀ p k, deref ks p = some k → h'.val p = h.val p)) := by
  obtain ⟨s, hs, hspos, hslt⟩ := hg.threshold
  rcases probe_key hh hkey h.stats.insertNe with
    ⟨j, p, ne, hrun, hp⟩ | ⟨j, ne, hrun, hj, hnot, hpath⟩
  · left
    refine ⟨p, { h.stats with
      insertNe := ne, dupsNode := h.stats.dupsNode + 1, insertEq := h.stats.insertEq + 1 },
      ?_, hp, rfl, rfl⟩
    simp only [insertWith, assertInvariants_of_holds hh, ok_bind, hrun, pure_eq_ok]
  · right
    refine ⟨hnot, ?_⟩
    have hne := holds_stats hh { h.stats with insertNe := ne }
    simp only [insertWith, assertInvariants_of_holds hh, ok_bind, hrun, hs,
      verify_of (show 0 < s ∧ s < h.size from ⟨hspos, hslt⟩)]
    by_cases hload : h.used < s
    · rw [if_pos hload]
      rcases newNode_spec hne hkey hnot (show h.used < h.size - 1 by omega) hj hpath with
        ⟨ha, hbig⟩ | ⟨h', hins, hh', hsize, hrs, hrl, hu, hd, hval⟩
      · exact Or.inl ⟨ha, Or.inl hbig⟩
      · exact Or.inr ⟨h', hins, hh', Or.inl hsize, hrs, hrl, hu, hd, hval⟩
    · rw [if_neg hload]
      rcases rehash_spec hne hg with
        ⟨ha, n, hn, hbig⟩ | ⟨h₁, hre, hh₁, hlt, hgrown, hfit, hperm, hframe, hu₁, hd₁⟩
      · refine Or.inl ⟨?_, Or.inr ⟨s, n, hs, Nat.le_of_not_lt hload, hn, hbig⟩⟩
        rw [ha, error_bind]
      · rw [hre, ok_bind]
        obtain ⟨j', hit, hrun', hj', hpath'⟩ :=
          probe_free hh₁.sized (hh₁.occupied ▸ hh₁.free) key h₁.stats.insertHit
        have hroom : h₁.used < h₁.size - 1 := by
          have hused : h₁.used = h.used := by rw [hframe]
          have hfree : h.used < h.size := hh.free
          have hlarger : h.size < h₁.size := hlt
          omega
        have hne' := holds_stats hh₁ { h₁.stats with insertHit := hit }
        rw [hrun', ok_bind]
        rcases newNode_spec hne' hkey hnot hroom hj' hpath' with
          ⟨ha, hbig⟩ | ⟨h', hins, hh', hsize, hrs, hrl, hu, hd, hval⟩
        · exact Or.inl ⟨ha, Or.inl hbig⟩
        · refine Or.inr ⟨h', hins, hh', Or.inr ⟨hsize ▸ hgrown, hsize ▸ hfit⟩, ?_, ?_, ?_, ?_, ?_⟩
          · rw [hrs, hframe]
          · rw [hrl, hframe]
          · rw [hu, hu₁]
          · rw [hd, hd₁]
          · intro p k hk
            rw [hval p k hk]
            simp only [val]
            rw [hframe]

end

end LHash

end PathSet
