import PathSet.PoolAllocRuns
import PathSet.Tables

/-!
Element sets whose nodes are in the pool of their set, at the addresses the allocator hands
out. Other objects are allocated from the same pool in between, and `malloc` puts the
blocks of the pool anywhere. The addresses are distinct and not null, so such a set is an
element set of a path trie.
-/

namespace PathSet
open Fallible Pointer FirstSeen Numbered Regions

namespace PoolAlloc
variable {alloc alloc' : PoolAlloc} {ys : List (PoolCall × Nat)}

theorem blocks_of_take {size i a r : Nat} {p : PoolNode} (hi : alloc.base[i]? = some p)
    (h : alloc.take size i p a = .ok (alloc', r)) :
    alloc'.maxSize = alloc.maxSize ∧
      alloc'.base.map PoolNode.block = alloc.base.map PoolNode.block := by
  obtain ⟨-, -, h⟩ := bind_eq_ok.mp h
  obtain ⟨rfl, -⟩ := Prod.mk.inj (Except.ok.inj h)
  exact ⟨rfl, map_block_set hi _⟩

theorem blocks_of_allocate (h : Served ys alloc) {c : PoolCall} (hc : Allowed alloc c) {r : Nat}
    (hrun : alloc.allocate c = .ok (alloc', r)) :
    alloc'.maxSize = alloc.maxSize ∧
      (alloc'.base.map PoolNode.block = alloc.base.map PoolNode.block ∨
        search c.size c.align alloc.base 0 = .ok none ∧
          alloc'.base.map PoolNode.block =
            ⟨c.addr, alloc.newSize c.size c.align + PoolNode.headSize⟩ ::
              alloc.base.map PoolNode.block) := by
  obtain ⟨k, hk⟩ := hc.align
  have hpow : SizeIsPow2 c.align := hk ▸ sizeIsPow2_two_pow k
  have hadd : c.size + c.align ≤ sizeMax := by
    have hfits := hc.fits
    have htop := h.sound.top
    omega
  rw [allocate, assert_of hc.size, ok_bind, assert_of hpow, ok_bind, assert_of h.sound.init,
    ok_bind, verify_of hadd, ok_bind, if_neg (Nat.not_lt.mpr hc.fits)] at hrun
  rcases search_spec hpow hadd h.sound.used 0 with hnone | ⟨j, p, hsome, hj, -⟩
  · rw [hnone, ok_bind] at hrun
    obtain ⟨⟨alloc₁, p⟩, hnew, hrun⟩ := bind_eq_ok.mp hrun
    obtain ⟨a, -, htake⟩ := bind_eq_ok.mp hrun
    obtain ⟨-, -, hnew⟩ := bind_eq_ok.mp hnew
    obtain ⟨-, -, hnew⟩ := bind_eq_ok.mp hnew
    cases hnew
    obtain ⟨hmax, hblocks⟩ := blocks_of_take rfl htake
    exact ⟨hmax, Or.inr ⟨hnone, hblocks⟩⟩
  · rw [hsome, ok_bind, Nat.zero_add] at hrun
    obtain ⟨hmax, hblocks⟩ := blocks_of_take hj hrun
    exact ⟨hmax, Or.inl hblocks⟩

end PoolAlloc

structure PoolRequest where
  size : Nat
  align : Nat
  pos : 0 < size
  pow : ∃ k, align = 2 ^ k

/-- A set with its pool, and the regions of its nodes. -/
structure Pooled (σ : Type) where
  set : σ
  pool : PoolAlloc
  nodes : List Region
  /-- How often the pool was asked. -/
  calls : Nat
  /-- How many keys were new. -/
  keys : Nat

namespace Pooled
variable {σ : Type} (malloc : Nat → Nat)

def init (s : σ) (poolSize : Nat) : Pooled σ := ⟨s, PoolAlloc.init poolSize 0, [], 0, 0⟩

def addr (nodes : List Region) (p : Nat) : BitVec 64 :=
  BitVec.ofNat 64 (((deref nodes p).map Region.start).getD 0)

def Delivers (alloc : PoolAlloc) (c : PoolCall) : Prop :=
  (∀ p ∈ alloc.base, p.block.Apart ⟨c.addr, alloc.newSize c.size c.align + PoolNode.headSize⟩) ∧
    c.addr + (alloc.newSize c.size c.align + PoolNode.headSize) ≤ 2 ^ 64

instance (alloc : PoolAlloc) (c : PoolCall) : Decidable (Delivers alloc c) :=
  inferInstanceAs (Decidable (_ ∧ _))

/-- `SET_ALLOCATE_STRUCT`, `SET_ALLOCATE_VAR_STRUCT` and `SET_ALLOCATE_ARRAY`. An address
that `malloc` cannot return stands for a failure. -/
def allocate (x : Pooled σ) (r : PoolRequest) : Outcome (Pooled σ × Region) := do
  poolAllocate r.size r.align
  let c : PoolCall := ⟨r.size, r.align, malloc x.calls⟩
  if PoolAlloc.search c.size c.align x.pool.base 0 = .ok none ∧ ¬Delivers x.pool c then
    .error .alloc
  else do
    let (pool, a) ← x.pool.allocate c
    pure ({ x with pool := pool, calls := x.calls + 1 }, ⟨a, r.size⟩)

def allocateAll (x : Pooled σ) : List PoolRequest → Outcome (Pooled σ)
  | [] => .ok x
  | r :: rs => do
      let (x, _) ← x.allocate malloc r
      allocateAll x rs

def allocateNodes (own : PoolRequest) (rest : List PoolRequest) :
    Nat → Pooled σ → Outcome (Pooled σ)
  | 0, x => .ok x
  | n + 1, x => do
      let (x, node) ← x.allocate malloc own
      let x ← allocateAll malloc { x with nodes := x.nodes ++ [node] } rest
      allocateNodes own rest n x

/-- The nodes are some of the objects that were handed out, in blocks below the top of the
address space. -/
structure Owned (x : Pooled σ) : Prop where
  served : ∃ ys, PoolAlloc.Served ys x.pool ∧ x.nodes.Sublist (ys.map PoolAlloc.object)
  top : x.pool.maxSize = sizeMax / 2
  blocks : ∀ b ∈ x.pool.base.map PoolNode.block, b.stop ≤ 2 ^ 64
  sized : ∀ r ∈ x.nodes, 0 < r.len

theorem owned_init (s : σ) (poolSize : Nat) : Owned (init s poolSize) :=
  ⟨⟨[], PoolAlloc.served_init poolSize 0, List.Sublist.refl _⟩, rfl, by simp [init, PoolAlloc.init],
    by simp [init]⟩

variable {malloc}

theorem allocate_spec {x : Pooled σ} (h : Owned x) (r : PoolRequest) :
    Stops (· = .alloc) (x.allocate malloc r) ∨
      ∃ x' node, x.allocate malloc r = .ok (x', node) ∧
        x'.set = x.set ∧ x'.nodes = x.nodes ∧ x'.keys = x.keys ∧
        Owned x' ∧ Owned { x' with nodes := x'.nodes ++ [node] } := by
  rw [allocate]
  rcases poolAllocate_cases r.size r.align with ⟨ha, -⟩ | ha
  · exact Or.inl ⟨_, rfl, by rw [ha, error_bind]⟩
  have hfits : r.size + r.align ≤ sizeMax / 2 := by
    by_contra hno
    rw [poolAllocate, if_neg hno] at ha
    cases ha
  rw [ha, ok_bind]
  simp only
  split_ifs with hno
  · exact Or.inl ⟨_, rfl, rfl⟩
  right
  obtain ⟨ys, hserved, hsub⟩ := h.served
  have hallowed : PoolAlloc.Allowed x.pool ⟨r.size, r.align, malloc x.calls⟩ :=
    ⟨r.pos, r.pow, h.top ▸ hfits, fun hnone => (not_not.mp fun hd => hno ⟨hnone, hd⟩).1⟩
  obtain ⟨pool, y, hserve, hserved'⟩ := PoolAlloc.serve_spec ys x.pool _ hserved hallowed
  obtain ⟨⟨pool', a⟩, hrun, hserve⟩ := bind_eq_ok.mp hserve
  obtain ⟨rfl, rfl⟩ := Prod.mk.inj (Except.ok.inj hserve)
  obtain ⟨hmax, hblocks⟩ := PoolAlloc.blocks_of_allocate hserved hallowed hrun
  have htop : ∀ b ∈ pool'.base.map PoolNode.block, b.stop ≤ 2 ^ 64 := by
    rcases hblocks with hsame | ⟨hnone, hnew⟩
    · exact hsame ▸ h.blocks
    · rw [hnew]
      intro b hb
      rcases List.mem_cons.mp hb with rfl | hb
      · exact (not_not.mp fun hd => hno ⟨hnone, hd⟩).2
      · exact h.blocks b hb
  rw [hrun, ok_bind]
  refine ⟨_, _, rfl, rfl, rfl, rfl, ⟨⟨_, hserved', ?_⟩, hmax.trans h.top, htop, h.sized⟩,
    ⟨⟨_, hserved', ?_⟩, hmax.trans h.top, htop, ?_⟩⟩
  · rw [List.map_append]
    exact hsub.trans (List.sublist_append_left _ _)
  · rw [List.map_append]
    exact hsub.append (List.Sublist.refl _)
  · intro q hq
    rcases List.mem_append.mp hq with hq | hq
    · exact h.sized q hq
    · obtain rfl := List.mem_singleton.mp hq
      exact r.pos

theorem allocateAll_spec {x : Pooled σ} (h : Owned x) (rs : List PoolRequest) :
    Stops (· = .alloc) (allocateAll malloc x rs) ∨
      ∃ x', allocateAll malloc x rs = .ok x' ∧
        x'.set = x.set ∧ x'.nodes = x.nodes ∧ x'.keys = x.keys ∧ Owned x' := by
  induction rs generalizing x with
  | nil => exact Or.inr ⟨x, rfl, rfl, rfl, rfl, h⟩
  | cons r rs ih =>
    rw [allocateAll]
    rcases allocate_spec h r with hstop | ⟨x₁, node, hrun, hset, hnodes, hkeys, h₁, -⟩
    · exact Or.inl (hstop.bind _)
    rw [hrun, ok_bind]
    rcases ih h₁ with hstop | ⟨x', hrun', hset', hnodes', hkeys', h'⟩
    · exact Or.inl hstop
    · exact Or.inr ⟨x', hrun', hset'.trans hset, hnodes'.trans hnodes, hkeys'.trans hkeys, h'⟩

theorem allocateNodes_spec {x : Pooled σ} (h : Owned x) (own : PoolRequest)
    (rest : List PoolRequest) (n : Nat) :
    Stops (· = .alloc) (allocateNodes malloc own rest n x) ∨
      ∃ x' more, allocateNodes malloc own rest n x = .ok x' ∧ more.length = n ∧
        x'.set = x.set ∧ x'.nodes = x.nodes ++ more ∧ x'.keys = x.keys ∧ Owned x' := by
  induction n generalizing x with
  | zero => exact Or.inr ⟨x, [], rfl, rfl, rfl, (List.append_nil _).symm, rfl, h⟩
  | succ n ih =>
    rw [allocateNodes]
    rcases allocate_spec h own with hstop | ⟨x₁, node, hrun, hset₁, hnodes₁, hkeys₁, -, h₁⟩
    · exact Or.inl (hstop.bind _)
    simp only [hrun, ok_bind]
    rcases allocateAll_spec h₁ rest with hstop | ⟨x₂, hrun₂, hset₂, hnodes₂, hkeys₂, h₂⟩
    · exact Or.inl (hstop.bind _)
    rw [hrun₂, ok_bind]
    rcases ih h₂ with hstop | ⟨x', more, hrun', hlen, hset', hnodes', hkeys', h'⟩
    · exact Or.inl hstop
    · refine Or.inr ⟨x', node :: more, hrun', by rw [List.length_cons, hlen],
        hset'.trans (hset₂.trans hset₁), ?_, hkeys'.trans (hkeys₂.trans hkeys₁), h'⟩
      rw [hnodes', hnodes₂, hnodes₁, List.append_assoc, List.singleton_append]

theorem Owned.within {x : Pooled σ} (h : Owned x) {r : Region} (hr : r ∈ x.nodes) :
    ∃ p ∈ x.pool.base, r.Within p.area := by
  obtain ⟨ys, hserved, hsub⟩ := h.served
  obtain ⟨y, hy, rfl⟩ := List.mem_map.mp (hsub.subset hr)
  obtain ⟨p, hp, hin⟩ := hserved.owned y hy
  exact ⟨p, hp, hin.trans (PoolNode.taken_within (hserved.sound.used p hp))⟩

theorem Owned.bounds {x : Pooled σ} (h : Owned x) {r : Region} (hr : r ∈ x.nodes) :
    0 < r.start ∧ r.start < 2 ^ 64 := by
  obtain ⟨p, hp, hwithin⟩ := h.within hr
  have htop := h.blocks _ (List.mem_map_of_mem hp)
  have hpos := h.sized _ hr
  simp only [Region.Within, Region.stop, PoolNode.area, PoolNode.block, PoolNode.pool,
    PoolNode.headSize] at hwithin htop
  omega

theorem Owned.apart {x : Pooled σ} (h : Owned x) : x.nodes.Pairwise Region.Apart := by
  obtain ⟨ys, hserved, hsub⟩ := h.served
  exact hserved.apart.sublist hsub

theorem Owned.fits {x : Pooled σ} (h : Owned x) : Fits (addr x.nodes) x.nodes.length := by
  have hmap : (List.range' 1 x.nodes.length).map (addr x.nodes) =
      (x.nodes.map Region.start).map (BitVec.ofNat 64) := by
    have hrange := map_deref_range (x.nodes.map Region.start) 0
    rw [List.length_map] at hrange
    rw [← hrange, List.map_map]
    refine List.map_congr_left fun p _ => ?_
    rw [Function.comp_apply, addr, deref_map]
  rw [Fits, hmap, List.nodup_cons]
  have hbound : ∀ a ∈ x.nodes.map Region.start, 0 < a ∧ a < 2 ^ 64 := by
    intro a ha
    obtain ⟨r, hr, rfl⟩ := List.mem_map.mp ha
    exact h.bounds hr
  constructor
  · intro hzero
    obtain ⟨a, ha, heq⟩ := List.mem_map.mp hzero
    have hnat := congrArg BitVec.toNat heq
    rw [BitVec.toNat_ofNat, Nat.mod_eq_of_lt (hbound a ha).2] at hnat
    exact absurd hnat (Nat.ne_of_gt (hbound a ha).1)
  · refine (nodup_starts h.apart h.sized).map_on fun a ha b hb heq => ?_
    have hnat := congrArg BitVec.toNat heq
    rwa [BitVec.toNat_ofNat, BitVec.toNat_ofNat, Nat.mod_eq_of_lt (hbound a ha).2,
      Nat.mod_eq_of_lt (hbound b hb).2] at hnat

theorem addr_append {nodes : List Region} {p : Nat} (hp : 0 < p ∧ p ≤ nodes.length)
    (more : List Region) : addr (nodes ++ more) p = addr nodes p := by
  obtain ⟨r, hr⟩ := Option.isSome_iff_exists.mp (deref_isSome.mpr hp)
  rw [addr, addr, deref_append_left _ hr, hr]

end Pooled

structure PoolNodes (σ : Type) extends NodeSet σ where
  own : Bytes → PoolRequest
  rest : Bytes → List PoolRequest
  count_le : ∀ {s m k s' b p}, Rep s m → Key k → insert s k = .ok (s', b, p) →
    count s ≤ count s'

namespace PoolNodes
variable {σ : Type} (N : PoolNodes σ) (malloc : Nat → Nat) (others : Nat → List PoolRequest)

def pooledInsert (x : Pooled σ) (key : Bytes) : Outcome (Pooled σ × Bool × BitVec 64) := do
  let (s, b, p) ← N.insert x.set key
  if b then do
    let x₁ ← Pooled.allocateAll malloc x (others x.keys)
    let x₂ ← Pooled.allocateNodes malloc (N.own key) (N.rest key) (N.count s - N.count x.set) x₁
    pure ({ x₂ with set := s, keys := x₂.keys + 1 }, b, Pooled.addr x₂.nodes p)
  else pure ({ x with set := s }, b, Pooled.addr x.nodes p)

def pooledLookup (x : Pooled σ) (key : Bytes) : Outcome (Option (BitVec 64)) := do
  let r ← N.lookup x.set key
  pure (r.map (Pooled.addr x.nodes))

structure PooledRep (x : Pooled σ) (m : Bytes → Option (BitVec 64)) : Prop where
  owned : Pooled.Owned x
  count : x.nodes.length = N.count x.set
  rep : ∃ m₀, N.Rep x.set m₀ ∧ ∀ k, m k = (m₀ k).map (Pooled.addr x.nodes)

variable {N malloc others} {x : Pooled σ} {m : Bytes → Option (BitVec 64)}

theorem PooledRep.fits (h : N.PooledRep x m) : Fits (Pooled.addr x.nodes) (N.count x.set) :=
  h.count ▸ h.owned.fits

theorem PooledRep.placed (h : N.PooledRep x m) : N.Placed (Pooled.addr x.nodes) x.set m :=
  ⟨h.fits, h.rep⟩

theorem PooledRep.withSet (h : N.PooledRep x m) {s : σ} {m₀ : Bytes → Option Nat}
    (hs : N.Rep s m₀) (hcount : N.count s = N.count x.set)
    (hm : ∀ k, m k = (m₀ k).map (Pooled.addr x.nodes)) : N.PooledRep { x with set := s } m :=
  ⟨⟨h.owned.served, h.owned.top, h.owned.blocks, h.owned.sized⟩, h.count.trans hcount.symm,
    m₀, hs, hm⟩

theorem pooledInsert_fresh (h : N.PooledRep x m) {k : Bytes} (hkey : N.Key k) (hk : m k = none) :
    Stops (fun e => N.Exhausted e ∨ e = .alloc) (N.pooledInsert malloc others x k) ∨
      ∃ x' i, N.pooledInsert malloc others x k = .ok (x', true, i) ∧
        N.PooledRep x' (Function.update m k (some i)) ∧
        N.uniq x'.set = N.uniq x.set + 1 ∧ N.dups x'.set = N.dups x.set := by
  obtain ⟨m₀, hrep, hm⟩ := h.rep
  rw [hm, Option.map_eq_none_iff] at hk
  rw [pooledInsert]
  rcases N.insert_fresh hrep hkey hk with hstop | ⟨s, p, hins, hrep', hu, hd⟩
  · exact Or.inl ((hstop.bind _).mono fun _ => Or.inl)
  simp only [hins, ok_bind, if_true]
  rcases @Pooled.allocateAll_spec σ malloc x h.owned (others x.keys) with
    hstop | ⟨x₁, hrun₁, hset₁, hnodes₁, -, h₁⟩
  · exact Or.inl ((hstop.bind _).mono fun _ => Or.inr)
  simp only [hrun₁, ok_bind]
  rcases @Pooled.allocateNodes_spec σ malloc x₁ h₁ (N.own k) (N.rest k)
      (N.count s - N.count x.set) with
    hstop | ⟨x₂, more, hrun₂, hlen, hset₂, hnodes₂, -, h₂⟩
  · exact Or.inl ((hstop.bind _).mono fun _ => Or.inr)
  simp only [hrun₂, ok_bind]
  have hle := N.count_le hrep hkey hins
  have hnodes : x₂.nodes = x.nodes ++ more := by rw [hnodes₂, hnodes₁]
  refine Or.inr ⟨_, _, rfl, ⟨⟨h₂.served, h₂.top, h₂.blocks, h₂.sized⟩, ?_, _, hrep', ?_⟩, hu, hd⟩
  · have hcount := h.count
    simp only [hnodes, List.length_append]
    omega
  · intro q
    by_cases hq : q = k
    · simp [hq]
    · rw [Function.update_of_ne hq, Function.update_of_ne hq, hm]
      cases hq₀ : m₀ q with
      | none => rfl
      | some r =>
        have hr := N.id_bound hrep hq₀
        rw [Option.map_some, Option.map_some, hnodes, Pooled.addr_append (h.count ▸ hr)]

def pooled : ElemSet (Pooled σ) 64 where
  insert := N.pooledInsert malloc others
  lookup := N.pooledLookup
  uniq x := N.uniq x.set
  dups x := N.dups x.set
  Exhausted e := N.Exhausted e ∨ e = .alloc
  Key := N.Key
  Rep := N.PooledRep
  rep_key h hk := (N.placed _).rep_key h.placed hk
  rep_inj h hk hk' := (N.placed _).rep_inj h.placed hk hk'
  lookup_eq h hk := (N.placed _).lookup_eq h.placed hk
  insert_known := by
    rintro x m k i h hk
    obtain ⟨m₀, hrep, hm⟩ := h.rep
    rw [hm, Option.map_eq_some_iff] at hk
    obtain ⟨p, hp, rfl⟩ := hk
    obtain ⟨s, hins, hrep', hu, hd⟩ := N.insert_known hrep hp
    have hcount := N.count_known hrep (N.rep_key hrep hp) hins
    refine ⟨{ x with set := s }, ?_, h.withSet hrep' hcount hm, hu, hd⟩
    rw [pooledInsert, hins]
    rfl
  insert_fresh h hkey hk := pooledInsert_fresh h hkey hk
  key_iff := N.key_iff
  id_ne_zero h hk := (N.placed _).id_ne_zero h.placed hk

end PoolNodes

theorem count_le_of_store {σ : Type} (S : Store σ Bytes Abort) {count : σ → Nat}
    (hcount : ∀ s ks, S.Holds s ks → count s = ks.length) {s s' : σ} {m : Bytes → Option Nat}
    {k : Bytes} {b : Bool} {p : Nat} (h : S.Represents s m) (hk : S.Key k)
    (hins : S.insert s k = .ok (s', b, p)) : count s ≤ count s' := by
  obtain ⟨ks, hs, -⟩ := h
  rcases S.insert_spec hs hk with ⟨t, q, hrun, -, ht, -⟩ | ⟨-, ⟨e, -, hrun⟩ | ⟨t, hrun, ht, -⟩⟩
  · obtain ⟨rfl, -⟩ := Prod.mk.inj (Except.ok.inj (hrun.symm.trans hins))
    rw [hcount s ks hs, hcount t ks ht]
  · cases hrun.symm.trans hins
  · obtain ⟨rfl, -⟩ := Prod.mk.inj (Except.ok.inj (hrun.symm.trans hins))
    rw [hcount s ks hs, hcount t _ ht, List.length_append]
    exact Nat.le_add_right _ _

def Trie.poolNodes (printOne : Bool) : PoolNodes Trie where
  toNodeSet := nodeSet printOne
  own _ := ⟨if printOne then 40 else 32, 8, by split_ifs <;> omega, 3, rfl⟩
  rest _ := []
  count_le := by
    rintro t m k t' b p ⟨T, hT, -⟩ hk hins
    have hins : t.insert printOne k = .ok (t', b, p) := hins
    rcases insert_cases printOne hT hk with
      ⟨i, stats, hrun, -⟩ | ⟨t₂, l, key', base, hrun, -, hlen, -⟩
    · obtain ⟨rfl, -⟩ := Prod.mk.inj (Except.ok.inj (hrun.symm.trans hins))
      exact le_refl _
    · obtain ⟨rfl, -⟩ := Prod.mk.inj (Except.ok.inj (hrun.symm.trans hins))
      have hle : t.nodes.length ≤ t₂.nodes.length := by omega
      exact hle

def LHash.poolNodes : PoolNodes LHash where
  toNodeSet := nodeSet elemKind
  own key := ⟨elemKind.nodeSize + (key.length + 1), elemKind.nodeSize, Nat.succ_pos _, 0, rfl⟩
  rest _ := []
  count_le h hk hins := count_le_of_store (numbered elemKind) (fun _ _ hs => hs.1.length) h hk hins

def GHash.poolNodes : PoolNodes GHash where
  toNodeSet := nodeSet elemKind
  own _ := ⟨elemKind.nodeSize, 8, Nat.succ_pos _, 3, rfl⟩
  rest key := [⟨key.length + 1, 1, Nat.succ_pos _, 0, rfl⟩]
  count_le h hk hins := count_le_of_store (numbered elemKind) (fun _ _ hs => hs.1.length) h hk hins

namespace Table

def poolNodes (printOne : Bool) : (k : Table) → PoolNodes k.State
  | .trie => Trie.poolNodes printOne
  | .lhash => LHash.poolNodes
  | .ghash => GHash.poolNodes

theorem poolNodes_toNodeSet (printOne : Bool) (k : Table) :
    (k.poolNodes printOne).toNodeSet = k.nodes printOne := by
  cases k <;> rfl

theorem create_pooled (printOne : Bool) {opt : Options} (hopt : opt.Accepted) (k : Table) :
    ∃ s, k.create opt = .ok s ∧
      (k.poolNodes printOne).PooledRep (Pooled.init s opt.poolSize) (fun _ => none) := by
  obtain ⟨s, hs, -, -, hrep, hcount⟩ := k.create_spec printOne 0 hopt
  rw [← k.poolNodes_toNodeSet] at hrep hcount
  exact ⟨s, hs, Pooled.owned_init s opt.poolSize, hcount.symm, _, hrep, fun _ => rfl⟩

theorem poolNodes_exhausted (printOne : Bool) (k : Table) {e : Abort}
    (h : (k.poolNodes printOne).Exhausted e) : e = .alloc :=
  k.nodes_exhausted printOne (k.poolNodes_toNodeSet printOne ▸ h)

end Table

/-- A path set whose elements are in the pool of the set. Wherever `malloc` puts the blocks,
and whatever else is allocated in between, the answers are right. -/
theorem path_set_on_pool (k : Table) (printOne : Bool) (U : UintHash 64) (malloc : Nat → Nat)
    (others : Nat → List PoolRequest) {opt : Options} (hopt : opt.Accepted) (size : Nat)
    {lines : List Bytes} (hlines : ∀ l ∈ lines, 0 ∉ l) :
    ∃ s, k.create opt = .ok s ∧
      let E := @PoolNodes.pooled _ (k.poolNodes printOne) malloc others
      let put := (PathTrie.set U E (opt.sepSet.getD PathTrie.defaultSep)).put size
      let t₀ := PathTrie.init (Pooled.init s opt.poolSize) opt.sepSet
      (run put t₀ (lines.zipIdx 1) = .error .alloc ∨
        ∃ t, run put t₀ (lines.zipIdx 1) = .ok (t, putAnswers size lines) ∧
          t.elemSet.nodes.length = (k.poolNodes printOne).count t.elemSet.set ∧
          t.elemSet.nodes.Pairwise Region.Apart ∧
          ∀ r ∈ t.elemSet.nodes, 0 < r.start ∧
            ∃ p ∈ t.elemSet.pool.base, r.Within p.area) := by
  obtain ⟨s, hs, hinit⟩ := k.create_pooled printOne hopt
  refine ⟨s, hs, ?_⟩
  intro E put t₀
  have hempty : E.Rep (Pooled.init s opt.poolSize) (fun _ => none) := hinit
  rcases SetImpl.keys_run (PathTrie.set U E (opt.sepSet.getD PathTrie.defaultSep)) size
      (Dictionary.recorded_empty _ (PathTrie.holding_init hempty opt.sepSet) rfl rfl) hlines with
    ⟨e, he, hrun⟩ | ⟨t, m, hrun, ⟨⟨T, me, hknows⟩, -⟩, -⟩
  · obtain rfl : e = .alloc := Or.elim he (k.poolNodes_exhausted printOne) id
    exact Or.inl hrun
  have hrep : (k.poolNodes printOne).PooledRep t.elemSet me := hknows.elems
  refine Or.inr ⟨t, hrun, hrep.count, hrep.owned.apart, fun r hr => ?_⟩
  exact ⟨(hrep.owned.bounds hr).1, hrep.owned.within hr⟩

def spread (i : Nat) : Nat := 2 ^ 12 + 2 ^ 20 * i

def spreadTries : ElemSet (Pooled Trie) 64 :=
  @PoolNodes.pooled _ (Table.trie.poolNodes true) spread fun _ => [⟨48, 8, Nat.succ_pos _, 3, rfl⟩]

def nodesOf (lines : List Bytes) : Outcome Nat := do
  let (t, _) ← run ((PathTrie.set .mix64 spreadTries PathTrie.defaultSep).put 64)
    (PathTrie.init (Pooled.init Trie.init defaultOptions.poolSize) none) (lines.zipIdx 1)
  pure t.elemSet.nodes.length

theorem path_set_on_pool_branch :
    ∃ t, run ((PathTrie.set .mix64 spreadTries PathTrie.defaultSep).put 64)
        (PathTrie.init (Pooled.init Trie.init defaultOptions.poolSize) none)
        (branchLines.zipIdx 1) = .ok (t, putAnswers 64 branchLines) ∧
      t.elemSet.nodes.length = 5 ∧ t.elemSet.nodes.Pairwise Region.Apart := by
  have hnodes : nodesOf branchLines = .ok 5 := by decide +kernel
  obtain ⟨x, hrun, hlen⟩ := bind_eq_ok.mp hnodes
  obtain ⟨s, hs, hcases⟩ := path_set_on_pool .trie true .mix64 spread
    (fun _ => [⟨48, 8, Nat.succ_pos _, 3, rfl⟩]) defaultOptions_accepted 64
    (show ∀ l ∈ branchLines, 0 ∉ l by decide)
  obtain rfl : Trie.init = s := Except.ok.inj hs
  rcases hcases with halloc | ⟨t, hrun', -, hapart, -⟩
  · cases hrun.symm.trans halloc
  · obtain rfl := Except.ok.inj (hrun.symm.trans hrun')
    exact ⟨t, hrun', Except.ok.inj hlen, hapart⟩

end PathSet
