import PathSet.PoolAlloc

/-!
Runs of the pool allocator. Its blocks are apart from each other, and what was handed out
lies in the used part of a block, so a new object is apart from all earlier ones. A new
block has room for the object because its padding is less than its alignment.
-/

namespace PathSet
open Fallible Regions

namespace PoolNode

/-- What `malloc` returned. -/
def block (p : PoolNode) : Region := ⟨p.addr, p.size + headSize⟩

def area (p : PoolNode) : Region := ⟨p.pool, p.size⟩

def taken (p : PoolNode) : Region := ⟨p.pool, p.used⟩

theorem area_within (p : PoolNode) : p.area.Within p.block := by
  simp only [Region.Within, Region.stop, area, block, pool]
  omega

theorem taken_within {p : PoolNode} (h : p.used ≤ p.size) : p.taken.Within p.area := by
  simp only [Region.Within, Region.stop, area, taken]
  omega

end PoolNode

namespace PoolAlloc

structure Sound (alloc : PoolAlloc) : Prop where
  init : alloc.initSize ≤ alloc.maxSize
  top : alloc.maxSize ≤ sizeMax / 2
  used : ∀ p ∈ alloc.base, p.used ≤ p.size
  blocks : (alloc.base.map PoolNode.block).Pairwise Region.Apart

def object (y : PoolCall × Nat) : Region := ⟨y.2, y.1.size⟩

structure Served (ys : List (PoolCall × Nat)) (alloc : PoolAlloc) : Prop where
  sound : Sound alloc
  owned : ∀ y ∈ ys, ∃ p ∈ alloc.base, (object y).Within p.taken
  aligned : ∀ y ∈ ys, y.1.align ∣ y.2
  apart : (ys.map object).Pairwise Region.Apart

theorem served_init (initSize maxSize : Nat) : Served [] (init initSize maxSize) := by
  refine ⟨⟨?_, ?_, by simp [init], by simp [init]⟩, by simp, by simp, by simp⟩
  · simp only [init]
    split_ifs <;> omega
  · simp only [init]
    split_ifs <;> omega

section
variable {alloc : PoolAlloc} {ys : List (PoolCall × Nat)}

theorem Sound.apart (h : Sound alloc) {i j : Nat} {p q : PoolNode} (hi : alloc.base[i]? = some p)
    (hj : alloc.base[j]? = some q) (hne : i ≠ j) : p.block.Apart q.block := by
  refine apart_of_ne h.blocks ?_ ?_ hne
  · rw [List.getElem?_map, hi, Option.map_some]
  · rw [List.getElem?_map, hj, Option.map_some]

theorem map_block_set {i : Nat} {p : PoolNode} (hi : alloc.base[i]? = some p) (used : Nat) :
    (alloc.base.set i { p with used := used }).map PoolNode.block =
      alloc.base.map PoolNode.block := by
  apply List.ext_getElem?
  intro j
  rw [List.getElem?_map, List.getElem?_map]
  by_cases hij : i = j
  · subst hij
    rw [hi, List.getElem?_set_self (List.getElem?_eq_some_iff.mp hi).1]
    rfl
  · rw [List.getElem?_set_ne hij]

theorem take_spec (h : Served ys alloc) (c : PoolCall) {i : Nat} {p : PoolNode}
    (hi : alloc.base[i]? = some p) (halign : 0 < c.align)
    (hroom : p.size - p.used ≥ c.size + padding (p.pool + p.used) c.align) :
    ∃ alloc' addr, alloc.take c.size i p (padding (p.pool + p.used) c.align) = .ok (alloc', addr) ∧
      Served (ys ++ [(c, addr)]) alloc' := by
  generalize ha : padding (p.pool + p.used) c.align = a at hroom ⊢
  have hdvd : c.align ∣ p.pool + p.used + a := ha ▸ dvd_add_padding halign
  have hused : p.used ≤ p.size := h.sound.used p (List.mem_of_getElem? hi)
  let p' : PoolNode := { p with used := p.used + (c.size + a) }
  have hi' : (alloc.base.set i p')[i]? = some p' :=
    List.getElem?_set_self (List.getElem?_eq_some_iff.mp hi).1
  have hmem' : p' ∈ alloc.base.set i p' := List.mem_of_getElem? hi'
  have hgrow : p.taken.Within p'.taken := by
    simp only [Region.Within, Region.stop, PoolNode.taken, PoolNode.pool, p']
    omega
  have hnew : (object (c, p.pool + (p.used + a))).Within p'.taken := by
    simp only [Region.Within, Region.stop, PoolNode.taken, PoolNode.pool, p', object]
    omega
  refine ⟨{ alloc with base := alloc.base.set i p' }, p.pool + (p.used + a), ?_, ⟨?_, ?_, ?_, ?_⟩, ?_,
    ?_, ?_⟩
  · rw [take, assert_of hroom]
    rfl
  · exact h.sound.init
  · exact h.sound.top
  · intro q hq
    rcases List.mem_or_eq_of_mem_set hq with hq | rfl
    · exact h.sound.used q hq
    · simp only [p']
      omega
  · exact map_block_set hi _ ▸ h.sound.blocks
  · intro y hy
    rcases List.mem_append.mp hy with hy | hy
    · obtain ⟨q, hq, hin⟩ := h.owned y hy
      obtain ⟨j, hj⟩ := List.mem_iff_getElem?.mp hq
      by_cases hij : i = j
      · subst hij
        obtain rfl := Option.some.inj (hi.symm.trans hj)
        exact ⟨p', hmem', hin.trans hgrow⟩
      · exact ⟨q, List.mem_of_getElem? ((List.getElem?_set_ne hij).trans hj), hin⟩
    · obtain rfl := List.mem_singleton.mp hy
      exact ⟨p', hmem', hnew⟩
  · intro y hy
    rcases List.mem_append.mp hy with hy | hy
    · exact h.aligned y hy
    · obtain rfl := List.mem_singleton.mp hy
      rwa [← Nat.add_assoc]
  · rw [List.map_append, List.map_singleton, List.pairwise_append]
    refine ⟨h.apart, List.pairwise_singleton _ _, fun r hr s hs => ?_⟩
    obtain rfl := List.mem_singleton.mp hs
    obtain ⟨y, hy, rfl⟩ := List.mem_map.mp hr
    obtain ⟨q, hq, hin⟩ := h.owned y hy
    obtain ⟨j, hj⟩ := List.mem_iff_getElem?.mp hq
    by_cases hij : j = i
    · -- earlier objects of the block lie below its used part
      subst hij
      obtain rfl := Option.some.inj (hi.symm.trans hj)
      have hstop := hin.2
      left
      simp only [Region.stop, PoolNode.taken, object] at hstop ⊢
      omega
    · have hq' := h.sound.used q hq
      have hsize : p'.used ≤ p'.size := by
        simp only [p']
        omega
      have hqin := hin.trans ((PoolNode.taken_within hq').trans q.area_within)
      have hpin := hnew.trans ((PoolNode.taken_within hsize).trans p'.area_within)
      exact (h.sound.apart hj hi hij).within hqin hpin

theorem search_spec {size align : Nat} (hpow : SizeIsPow2 align) (hadd : size + align ≤ sizeMax)
    {ps : List PoolNode} (hused : ∀ p ∈ ps, p.used ≤ p.size) (i : Nat) :
    search size align ps i = .ok none ∨
      ∃ j p, search size align ps i = .ok (some (i + j, p, padding (p.pool + p.used) align)) ∧
        ps[j]? = some p ∧ p.size - p.used ≥ size + padding (p.pool + p.used) align := by
  induction ps generalizing i with
  | nil => exact Or.inl rfl
  | cons p ps ih =>
    have hpad := @padding_lt (p.pool + p.used) align (Nat.pos_of_ne_zero hpow.1)
    have hsum : size + padding (p.pool + p.used) align ≤ sizeMax := by omega
    rw [search, assert_of (hused p (by simp)), ok_bind, ptrAlignSize_of hpow, ok_bind,
      assert_of hsum, ok_bind]
    split_ifs with hroom
    · exact Or.inr ⟨0, p, rfl, rfl, hroom⟩
    · rcases ih (fun q hq => hused q (by simp [hq])) (i + 1) with hnone | ⟨j, q, hrun, hj, hq⟩
      · exact Or.inl hnone
      · refine Or.inr ⟨j + 1, q, ?_, hj, hq⟩
        rw [hrun, Nat.add_assoc, Nat.add_comm 1 j]

theorem newBlock_spec (h : Served ys alloc) {size align addr : Nat}
    (hmax : size + align ≤ alloc.maxSize)
    (hplace : ∀ p ∈ alloc.base,
      p.block.Apart ⟨addr, alloc.newSize size align + PoolNode.headSize⟩) :
    ∃ alloc' p, alloc.newBlock size align addr = .ok (alloc', p) ∧ alloc'.base[0]? = some p ∧
      p.used = 0 ∧ size + align ≤ p.size ∧ Served ys alloc' := by
  have hinit := h.sound.init
  have htop := h.sound.top
  have hsize : alloc.newSize size align ≤ alloc.maxSize ∧
      size + align ≤ alloc.newSize size align := by
    unfold newSize
    split_ifs <;> omega
  obtain ⟨hle, hroom⟩ := hsize
  have hhead : alloc.newSize size align + PoolNode.headSize ≤ sizeMax := by
    simp only [PoolNode.headSize, sizeMax] at *
    omega
  let p : PoolNode := ⟨addr, alloc.newSize size align, 0⟩
  refine ⟨{ alloc with
    base := p :: alloc.base
    initSize :=
      if alloc.newSize size align * 2 > alloc.maxSize then alloc.maxSize
      else alloc.newSize size align * 2 }, p, ?_, rfl, rfl, hroom, ⟨?_, htop, ?_, ?_⟩, ?_,
    h.aligned, h.apart⟩
  · rw [newBlock, verify_of hhead, ok_bind, verify_of (by omega), ok_bind]
    rfl
  · simp only
    split_ifs <;> omega
  · intro p hp
    rcases List.mem_cons.mp hp with rfl | hp
    · exact Nat.zero_le _
    · exact h.sound.used p hp
  · rw [List.map_cons, List.pairwise_cons]
    refine ⟨fun r hr => ?_, h.sound.blocks⟩
    obtain ⟨p, hp, rfl⟩ := List.mem_map.mp hr
    exact (hplace p hp).symm
  · intro y hy
    obtain ⟨p, hp, hin⟩ := h.owned y hy
    exact ⟨p, List.mem_cons_of_mem _ hp, hin⟩

end

def serve (alloc : PoolAlloc) (c : PoolCall) : Outcome (PoolAlloc × PoolCall × Nat) := do
  let (alloc, addr) ← alloc.allocate c
  pure (alloc, c, addr)

structure Allowed (alloc : PoolAlloc) (c : PoolCall) : Prop where
  size : 0 < c.size
  align : ∃ k, c.align = 2 ^ k
  fits : c.size + c.align ≤ alloc.maxSize
  malloc : search c.size c.align alloc.base 0 = .ok none → ∀ p ∈ alloc.base,
    p.block.Apart ⟨c.addr, alloc.newSize c.size c.align + PoolNode.headSize⟩

theorem serve_spec (ys : List (PoolCall × Nat)) (alloc : PoolAlloc) (c : PoolCall)
    (h : Served ys alloc) (hc : Allowed alloc c) :
    ∃ alloc' y, serve alloc c = .ok (alloc', y) ∧ Served (ys ++ [y]) alloc' := by
  obtain ⟨k, hk⟩ := hc.align
  have hpow : SizeIsPow2 c.align := hk ▸ sizeIsPow2_two_pow k
  have halign : 0 < c.align := Nat.pos_of_ne_zero hpow.1
  have hadd : c.size + c.align ≤ sizeMax := by
    have hfits := hc.fits
    have htop := h.sound.top
    omega
  have hrest : ¬c.size + c.align > alloc.maxSize := Nat.not_lt.mpr hc.fits
  rw [serve, allocate, assert_of hc.size, ok_bind, assert_of hpow, ok_bind, assert_of h.sound.init,
    ok_bind, verify_of hadd, ok_bind, if_neg hrest]
  rcases search_spec hpow hadd h.sound.used 0 with hnone | ⟨j, p, hrun, hj, hroom⟩
  · obtain ⟨alloc₁, p, hnew, hp, hzero, hsize, h₁⟩ := newBlock_spec h hc.fits (hc.malloc hnone)
    have hstart : p.pool = p.pool + p.used := by rw [hzero, Nat.add_zero]
    have hroom : p.size - p.used ≥ c.size + padding (p.pool + p.used) c.align := by
      have hpad := @padding_lt (p.pool + p.used) c.align halign
      omega
    obtain ⟨alloc', addr, htake, h'⟩ := take_spec h₁ c hp halign hroom
    refine ⟨alloc', (c, addr), ?_, h'⟩
    rw [hnone, ok_bind]
    simp only [hnew, ok_bind, ptrAlignSize_of hpow]
    rw [hstart, htake]
    rfl
  · rw [Nat.zero_add] at hrun
    obtain ⟨alloc', addr, htake, h'⟩ := take_spec h c hj halign hroom
    refine ⟨alloc', (c, addr), ?_, h'⟩
    rw [hrun, ok_bind]
    simp only [htake, ok_bind, pure_eq_ok]

theorem calls_of_serve {alloc alloc' : PoolAlloc} {cs : List PoolCall}
    {ys : List (PoolCall × Nat)} (h : run serve alloc cs = .ok (alloc', ys)) :
    ys.map Prod.fst = cs := by
  induction cs generalizing alloc ys with
  | nil =>
    obtain ⟨-, rfl⟩ := Prod.mk.inj (Except.ok.inj h)
    rfl
  | cons c cs ih =>
    obtain ⟨t, y, zs, hstep, hrest, rfl⟩ := run_eq_cons h
    obtain ⟨⟨t', addr⟩, -, heq⟩ := bind_eq_ok.mp hstep
    obtain ⟨-, rfl⟩ := Prod.mk.inj (Except.ok.inj heq)
    rw [List.map_cons, ih hrest]

end PoolAlloc

open PoolAlloc in
/-- No check fails in a run of allowed calls. The objects are aligned, each lies in the
pool of one block, and they are apart from each other. -/
theorem pool_alloc_run (initSize maxSize : Nat) {cs : List PoolCall}
    (hcs : Along serve Allowed (PoolAlloc.init initSize maxSize) cs) :
    ∃ alloc ys, run serve (PoolAlloc.init initSize maxSize) cs = .ok (alloc, ys) ∧
      ys.map Prod.fst = cs ∧ alloc.initSize ≤ alloc.maxSize ∧ (∀ p ∈ alloc.base, p.used ≤ p.size) ∧
      (∀ y ∈ ys, y.1.align ∣ y.2 ∧ ∃ p ∈ alloc.base, (object y).Within p.area) ∧
      (ys.map object).Pairwise Region.Apart := by
  obtain ⟨alloc, ys, hrun, h⟩ := run_along serve_spec (served_init initSize maxSize) hcs
  rw [List.nil_append] at h
  refine ⟨alloc, ys, hrun, calls_of_serve hrun, h.sound.init, h.sound.used,
    fun y hy => ⟨h.aligned y hy, ?_⟩, h.apart⟩
  obtain ⟨p, hp, hin⟩ := h.owned y hy
  exact ⟨p, hp, hin.trans (PoolNode.taken_within (h.sound.used p hp))⟩

open PoolAlloc in
theorem pool_alloc_run_blocks :
    ∃ alloc ys, run serve (PoolAlloc.init 64 1024) [⟨10, 8, 1000⟩, ⟨5, 16, 0⟩, ⟨60, 4, 2000⟩] =
        .ok (alloc, ys) ∧
      alloc.base = [⟨2000, 128, 60⟩, ⟨1000, 64, 21⟩] ∧
      ys.map object = [⟨1024, 10⟩, ⟨1040, 5⟩, ⟨2024, 60⟩] ∧
      (ys.map object).Pairwise Region.Apart := by
  have h₁ : serve (PoolAlloc.init 64 1024) ⟨10, 8, 1000⟩ =
      .ok (⟨[⟨1000, 64, 10⟩], 128, 1024⟩, ⟨10, 8, 1000⟩, 1024) := rfl
  have h₂ : serve ⟨[⟨1000, 64, 10⟩], 128, 1024⟩ ⟨5, 16, 0⟩ =
      .ok (⟨[⟨1000, 64, 21⟩], 128, 1024⟩, ⟨5, 16, 0⟩, 1040) := rfl
  have h₃ : serve ⟨[⟨1000, 64, 21⟩], 128, 1024⟩ ⟨60, 4, 2000⟩ =
      .ok (⟨[⟨2000, 128, 60⟩, ⟨1000, 64, 21⟩], 256, 1024⟩, ⟨60, 4, 2000⟩, 2024) := rfl
  have hcs : Along serve Allowed (PoolAlloc.init 64 1024)
      [⟨10, 8, 1000⟩, ⟨5, 16, 0⟩, ⟨60, 4, 2000⟩] :=
    .cons h₁ ⟨by decide, ⟨3, rfl⟩, by decide, by decide⟩ <|
    .cons h₂ ⟨by decide, ⟨4, rfl⟩, by decide, by decide⟩ <|
    .cons h₃ ⟨by decide, ⟨2, rfl⟩, by decide, by decide⟩ trivial
  obtain ⟨alloc, ys, hrun, -, -, -, -, hapart⟩ := pool_alloc_run 64 1024 hcs
  obtain ⟨rfl, rfl⟩ := Prod.mk.inj (Except.ok.inj hrun)
  exact ⟨_, _, hrun, rfl, rfl, hapart⟩

end PathSet
