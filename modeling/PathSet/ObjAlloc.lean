import PathSet.Machine
import PathSet.Library.Pointer

/-!
The allocator of objects of one size, named by 32-bit references. Its blocks grow by
`realloc`. A block is a new one after each `realloc`, so a pointer that was computed
before is never good again, whether the block was moved or not. An allocator of no
node bits has one block, and its references are the pointers of the list of objects.
-/

namespace PathSet
open Fallible

structure AllocNode (α : Type) where
  /-- The number of the block, `none` for `NULL`. -/
  base : Option Nat
  size : Nat
  objs : List α

def AllocNode.used {α : Type} (n : AllocNode α) : Nat := n.objs.length

structure ObjAlloc (α : Type) where
  nodes : List (AllocNode α)
  initSize : Nat
  maxSize : Nat
  /-- The number of calls of `realloc`, and that of the next block. -/
  reallocOp : Nat

structure ObjPtr where
  block : Nat
  index : Nat
  deriving DecidableEq, Repr

namespace ObjAlloc
variable {α : Type}

def offsetMax (nodeBits : Nat) : Nat := 2 ^ (32 - nodeBits) - 1

def init (nodeBits initSize maxSize : Nat) : Outcome (ObjAlloc α) := do
  if initSize > offsetMax nodeBits then .error .invalidArg
  else if maxSize > offsetMax nodeBits then .error .invalidArg
  else
    let maxSize := if maxSize = 0 then offsetMax nodeBits else maxSize
    let initSize := if initSize = 0 ∨ initSize > maxSize then maxSize else initSize
    pure ⟨List.replicate (2 ^ nodeBits) ⟨none, 0, []⟩, initSize, maxSize, 0⟩

def assertInvariants (a : ObjAlloc α) (n : AllocNode α) : Outcome Unit := do
  assert (n.size ≤ a.maxSize)
  assert (n.used ≤ n.size)
  assert (n.base.isSome ∨ n.used = 0)

def pick (a : ObjAlloc α) (nodeBits : Nat) :
    List (AllocNode α) → Nat → Outcome (Option (Nat × AllocNode α))
  | [], _ => pure none
  | n :: ns, i => do
      a.assertInvariants n
      if n.base = none then pure (some (i, n))
      else if n.used ≥ offsetMax nodeBits then pick a nodeBits ns (i + 1)
      else if n.size > n.used ∨ n.size < a.maxSize then pure (some (i, n))
      else pick a nodeBits ns (i + 1)

def grownSize (a : ObjAlloc α) (size : Nat) : Outcome Nat := do
  let s ← (if size = 0 then pure a.initSize
    else do
      assert (size * 2 ≤ sizeMax)
      pure (size * 2) : Outcome Nat)
  pure (if s > a.maxSize then a.maxSize else s)

def grow (a : ObjAlloc α) (objSize : Nat) (n : AllocNode α) :
    Outcome (ObjAlloc α × AllocNode α) := do
  let s ← a.grownSize n.size
  verify (s * objSize ≤ sizeMax)
  assert (n.used < s)
  pure ({ a with reallocOp := a.reallocOp + 1 }, { n with base := some a.reallocOp, size := s })

def ready (a : ObjAlloc α) (objSize : Nat) (n : AllocNode α) :
    Outcome (ObjAlloc α × AllocNode α) :=
  if n.size = n.used then a.grow objSize n else pure (a, n)

/-- `OBJ_ALLOC_ALLOCATE`: a pointer to a zeroed object, and its reference. -/
def allocate (nodeBits objSize : Nat) (zero : α) (a : ObjAlloc α) :
    Outcome (Option (ObjAlloc α × ObjPtr × Nat)) := do
  match ← a.pick nodeBits a.nodes 0 with
  | none => pure none
  | some (i, n) => do
      assert (n.used < offsetMax nodeBits)
      let (a, n) ← a.ready objSize n
      match n.base with
      | none => .error .stray
      | some b =>
          pure (some ({ a with nodes := a.nodes.set i { n with objs := n.objs ++ [zero] } },
            ⟨b, n.used⟩, (i <<< (32 - nodeBits)) ||| (n.used + 1)))

/-- `OBJ_ALLOC_DEREF`. In an allocator of no node bits the whole reference is an offset. -/
def deref (nodeBits : Nat) (a : ObjAlloc α) (r : Nat) : Outcome (Option ObjPtr) :=
  if r = 0 then pure none
  else do
    let o := r % 2 ^ (32 - nodeBits)
    match a.nodes[r / 2 ^ (32 - nodeBits)]? with
    | none => .error .assertion
    | some n => do
        a.assertInvariants n
        assert (o > 0)
        assert (o ≤ n.used)
        match n.base with
        | none => .error .assertion
        | some b => pure (some ⟨b, o - 1⟩)

def read (a : ObjAlloc α) (p : ObjPtr) : Outcome α :=
  match a.nodes.find? fun n => n.base = some p.block with
  | none => .error .stray
  | some n =>
      match n.objs[p.index]? with
      | none => .error .stray
      | some c => .ok c

def modify (a : ObjAlloc α) (p : ObjPtr) (f : α → α) : Outcome (ObjAlloc α) := do
  let _ ← a.read p
  pure { a with nodes := a.nodes.map fun n =>
    if n.base = some p.block then { n with objs := n.objs.modify p.index f } else n }

structure Within (maxSize : Nat) (n : AllocNode α) : Prop where
  size : n.size ≤ maxSize
  used : n.used ≤ n.size
  unmade : n.base = none → n.size = 0

structure Sound (nodeBits : Nat) (a : ObjAlloc α) : Prop where
  length : a.nodes.length = 2 ^ nodeBits
  init : 0 < a.initSize ∧ a.initSize ≤ a.maxSize
  top : a.maxSize ≤ offsetMax nodeBits
  nodes : ∀ n ∈ a.nodes, Within a.maxSize n

theorem offsetMax_lt (nodeBits : Nat) : offsetMax nodeBits < 2 ^ 32 := by
  have hpow : 2 ^ (32 - nodeBits) ≤ 2 ^ 32 := Nat.pow_le_pow_right (by decide) (Nat.sub_le ..)
  unfold offsetMax
  omega

theorem Within.made {maxSize : Nat} {n : AllocNode α} (h : Within maxSize n) :
    n.base.isSome ∨ n.used = 0 := by
  cases hb : n.base with
  | none => exact Or.inr (Nat.le_zero.mp (h.unmade hb ▸ h.used))
  | some b => exact Or.inl rfl

theorem Within.assertInvariants {a : ObjAlloc α} {n : AllocNode α} (h : Within a.maxSize n) :
    a.assertInvariants n = .ok () := by
  rw [ObjAlloc.assertInvariants, assert_of h.size, ok_bind, assert_of h.used, ok_bind,
    assert_of h.made]

section
variable {nodeBits : Nat} {a : ObjAlloc α} {n : AllocNode α}

theorem Sound.pick_spec (h : a.Sound nodeBits) {ns : List (AllocNode α)}
    (hns : ∀ n ∈ ns, Within a.maxSize n) (i : Nat) :
    (a.pick nodeBits ns i = .ok none ∧ ∀ n ∈ ns, n.used = a.maxSize) ∨
      ∃ j n, a.pick nodeBits ns i = .ok (some (i + j, n)) ∧ ns[j]? = some n ∧
        n.used < a.maxSize := by
  obtain ⟨hinit, htop⟩ := And.intro h.init h.top
  induction ns generalizing i with
  | nil => exact Or.inl ⟨rfl, fun n hn => nomatch hn⟩
  | cons n ns ih =>
    obtain ⟨hsize, hused, hunmade⟩ := hns n (by simp)
    have skip (hpick : a.pick nodeBits (n :: ns) i = a.pick nodeBits ns (i + 1))
        (hfull : n.used = a.maxSize) :
        (a.pick nodeBits (n :: ns) i = .ok none ∧ ∀ m ∈ n :: ns, m.used = a.maxSize) ∨
          ∃ j m, a.pick nodeBits (n :: ns) i = .ok (some (i + j, m)) ∧ (n :: ns)[j]? = some m ∧
            m.used < a.maxSize := by
      rw [hpick]
      rcases ih (fun m hm => hns m (by simp [hm])) (i + 1) with ⟨hnone, hall⟩ | ⟨j, m, hrun, hj, hm⟩
      · refine Or.inl ⟨hnone, fun m hm => ?_⟩
        rcases List.mem_cons.mp hm with rfl | hm
        · exact hfull
        · exact hall m hm
      · refine Or.inr ⟨j + 1, m, ?_, hj, hm⟩
        rw [hrun, Nat.add_assoc, Nat.add_comm 1 j]
    have hpick : a.pick nodeBits (n :: ns) i =
        if n.base = none then .ok (some (i, n))
        else if n.used ≥ offsetMax nodeBits then a.pick nodeBits ns (i + 1)
        else if n.size > n.used ∨ n.size < a.maxSize then .ok (some (i, n))
        else a.pick nodeBits ns (i + 1) := by
      rw [pick, (hns n (by simp)).assertInvariants, ok_bind]
      rfl
    by_cases hb : n.base = none
    · have hzero := hunmade hb
      exact Or.inr ⟨0, n, by rw [hpick, if_pos hb]; rfl, rfl, by omega⟩
    by_cases hmax : n.used ≥ offsetMax nodeBits
    · exact skip (by rw [hpick, if_neg hb, if_pos hmax]) (by omega)
    by_cases hroom : n.size > n.used ∨ n.size < a.maxSize
    · exact Or.inr ⟨0, n, by rw [hpick, if_neg hb, if_neg hmax, if_pos hroom]; rfl, rfl, by omega⟩
    · exact skip (by rw [hpick, if_neg hb, if_neg hmax, if_neg hroom]) (by omega)

theorem Sound.grownSize (h : a.Sound nodeBits) {size : Nat} (hroom : size < a.maxSize) :
    ∃ s, a.grownSize size = .ok s ∧ size < s ∧ s ≤ a.maxSize := by
  have hinit := h.init
  have htop := h.top
  have hlt := offsetMax_lt nodeBits
  rw [ObjAlloc.grownSize]
  by_cases hz : size = 0
  · rw [if_pos hz]
    refine ⟨_, rfl, ?_⟩
    split_ifs <;> omega
  · have hdouble : size * 2 ≤ sizeMax := by
      unfold sizeMax
      omega
    rw [if_neg hz, assert_of hdouble]
    refine ⟨_, rfl, ?_⟩
    split_ifs <;> omega

theorem Sound.grow {objSize : Nat} (h : a.Sound nodeBits) (hroom : n.used < a.maxSize)
    (hfull : n.size = n.used) (hobj : objSize < 2 ^ 32) :
    ∃ s, a.grow objSize n = .ok ({ a with reallocOp := a.reallocOp + 1 },
        { n with base := some a.reallocOp, size := s }) ∧ n.used < s ∧ s ≤ a.maxSize := by
  obtain ⟨s, hs, hlt, hle⟩ := h.grownSize (hfull ▸ hroom)
  have hfit : s * objSize ≤ sizeMax := by
    have hs' : s ≤ 2 ^ 32 - 1 := by
      have htop := h.top
      have hlt := offsetMax_lt nodeBits
      omega
    have hmul := Nat.mul_le_mul hs' (Nat.le_sub_one_of_lt hobj)
    unfold sizeMax
    omega
  have hused : n.used < s := hfull ▸ hlt
  refine ⟨s, ?_, hused, hle⟩
  rw [ObjAlloc.grow, hs, ok_bind, verify_of hfit, ok_bind, assert_of hused]
  rfl

theorem Sound.ready {objSize : Nat} (h : a.Sound nodeBits) (hn : Within a.maxSize n)
    (hroom : n.used < a.maxSize) (hobj : objSize < 2 ^ 32) :
    ∃ b s k, a.ready objSize n = .ok ({ a with reallocOp := k }, ⟨some b, s, n.objs⟩) ∧
      n.used < s ∧ s ≤ a.maxSize ∧
      (n.base = some b ∧ k = a.reallocOp ∨ b = a.reallocOp ∧ k = a.reallocOp + 1) := by
  rw [ObjAlloc.ready]
  by_cases hfull : n.size = n.used
  · obtain ⟨s, hgrow, hlt, hle⟩ := h.grow hroom hfull hobj
    rw [if_pos hfull]
    exact ⟨_, _, _, hgrow, hlt, hle, Or.inr ⟨rfl, rfl⟩⟩
  · have hused := hn.used
    rw [if_neg hfull]
    obtain ⟨base, size, objs⟩ := n
    cases base with
    | none =>
      have hzero : size = 0 := hn.unmade rfl
      simp only at hused hfull
      omega
    | some b => exact ⟨b, size, _, rfl, by simp only at *; omega, hn.size, Or.inl ⟨rfl, rfl⟩⟩

theorem Sound.allocate_spec {objSize : Nat} (zero : α) (h : a.Sound nodeBits)
    (hobj : objSize < 2 ^ 32) :
    (a.allocate nodeBits objSize zero = .ok none ∧ ∀ n ∈ a.nodes, n.used = a.maxSize) ∨
      ∃ i n b s k, a.allocate nodeBits objSize zero =
          .ok (some ({ a with
              nodes := a.nodes.set i ⟨some b, s, n.objs ++ [zero]⟩
              reallocOp := k }, ⟨b, n.used⟩, (i <<< (32 - nodeBits)) ||| (n.used + 1))) ∧
        a.nodes[i]? = some n ∧ n.used < s ∧ s ≤ a.maxSize ∧
        (n.base = some b ∧ k = a.reallocOp ∨ b = a.reallocOp ∧ k = a.reallocOp + 1) := by
  rcases h.pick_spec h.nodes 0 with ⟨hpick, hfull⟩ | ⟨i, n, hpick, hi, hroom⟩
  · exact Or.inl ⟨by rw [allocate, hpick]; rfl, hfull⟩
  · have hn := h.nodes n (List.mem_of_getElem? hi)
    obtain ⟨b, s, k, hready, hlt, hle, hblock⟩ := h.ready hn hroom hobj
    have hmax : n.used < offsetMax nodeBits := Nat.lt_of_lt_of_le hroom h.top
    rw [Nat.zero_add] at hpick
    refine Or.inr ⟨i, n, b, s, k, ?_, hi, hlt, hle, hblock⟩
    rw [allocate, hpick, ok_bind]
    simp only [assert_of hmax, hready, ok_bind, pure_eq_ok]
    rfl

end

structure Single (a : ObjAlloc α) (n : AllocNode α) : Prop where
  nodes : a.nodes = [n]
  init : 0 < a.initSize ∧ a.initSize ≤ a.maxSize
  top : a.maxSize = 2 ^ 32 - 1
  size : n.size ≤ a.maxSize
  used : n.used ≤ n.size
  unmade : n.base = none → n.size = 0

def Keeps (a : ObjAlloc α) (objs : List α) : Prop := ∃ n, a.Single n ∧ n.objs = objs

theorem init_keeps {initSize : Nat} (h : initSize ≤ 2 ^ 32 - 1) :
    ∃ a : ObjAlloc α, init 0 initSize 0 = .ok a ∧ a.Keeps [] := by
  have htop : offsetMax 0 = 2 ^ 32 - 1 := rfl
  let size := if initSize = 0 ∨ initSize > 2 ^ 32 - 1 then 2 ^ 32 - 1 else initSize
  refine ⟨⟨[⟨none, 0, []⟩], size, 2 ^ 32 - 1, 0⟩, ?_, ⟨none, 0, []⟩, ⟨rfl, ?_, rfl, ?_, ?_, ?_⟩, rfl⟩
  · rw [init, if_neg (by omega), if_neg (by omega)]
    rfl
  · simp only [size]
    split_ifs <;> omega
  · exact Nat.zero_le _
  · exact Nat.zero_le _
  · exact fun _ => rfl

section
variable {a : ObjAlloc α} {n : AllocNode α}

theorem Single.used_le (h : a.Single n) : n.used ≤ 2 ^ 32 - 1 := by
  have hused := h.used
  have hsize := h.size
  have htop := h.top
  omega

theorem Single.within (h : a.Single n) : Within a.maxSize n := ⟨h.size, h.used, h.unmade⟩

theorem Single.sound (h : a.Single n) : a.Sound 0 := by
  refine ⟨by rw [h.nodes]; rfl, h.init, Nat.le_of_eq h.top, fun m hm => ?_⟩
  rw [h.nodes, List.mem_singleton] at hm
  exact hm ▸ h.within

theorem deref_ne_zero {r : Nat} (h : a.Single n) (hr : 0 < r ∧ r ≤ n.used) :
    a.deref 0 r = match n.base with
      | none => .error .assertion
      | some b => .ok (some ⟨b, r - 1⟩) := by
  have hlt : r < 2 ^ (32 - 0) := by
    have := h.used_le
    omega
  have hne : r ≠ 0 := by omega
  rw [deref, if_neg hne, Nat.div_eq_of_lt hlt, Nat.mod_eq_of_lt hlt, h.nodes]
  simp only [List.getElem?_cons_zero, h.within.assertInvariants, ok_bind, assert_of hr.1, assert_of hr.2,
    pure_eq_ok]

end

section
variable {a : ObjAlloc α} {objs : List α}

theorem deref_spec (h : a.Keeps objs) {r : Nat} {c : α} (hr : Pointer.deref objs r = some c) :
    ∃ p, a.deref 0 r = .ok (some p) ∧ a.read p = .ok c ∧ p.index + 1 = r := by
  obtain ⟨n, hn, rfl⟩ := h
  have hbound := Pointer.deref_le_length hr
  cases hb : n.base with
  | none =>
    have hused := hn.used
    rw [hn.unmade hb] at hused
    have : n.objs.length ≤ 0 := hused
    omega
  | some b =>
    refine ⟨⟨b, r - 1⟩, ?_, ?_, Nat.sub_add_cancel hbound.1⟩
    · rw [deref_ne_zero hn hbound, hb]
    · have hget : n.objs[r - 1]? = some c := by
        cases r with
        | zero => simp at hr
        | succ r => exact hr
      rw [read, hn.nodes]
      simp [hb, hget]

theorem allocate_room {objSize : Nat} (zero : α) (h : a.Keeps objs) (hobj : objSize ≤ 2 ^ 31)
    (hroom : objs.length < 2 ^ 32 - 1) :
    ∃ a' p, a.allocate 0 objSize zero = .ok (some (a', p, objs.length + 1)) ∧
      a'.Keeps (objs ++ [zero]) ∧ a'.deref 0 (objs.length + 1) = .ok (some p) := by
  obtain ⟨n, hn, rfl⟩ := h
  have hused : n.used < a.maxSize := hn.top ▸ hroom
  rcases hn.sound.allocate_spec zero (show objSize < 2 ^ 32 by omega) with
    ⟨-, hfull⟩ | ⟨i, m, b, s, k, halloc, hi, hlt, hle, -⟩
  · have hmax := hfull n (by simp [hn.nodes])
    omega
  obtain ⟨rfl, rfl⟩ : i = 0 ∧ m = n := by
    rw [hn.nodes] at hi
    cases i with
    | zero => exact ⟨rfl, (Option.some.inj hi).symm⟩
    | succ i => cases hi
  let n' : AllocNode α := ⟨some b, s, m.objs ++ [zero]⟩
  have hlen : n'.used = m.objs.length + 1 := List.length_append
  have hsingle : ({ a with nodes := [n'], reallocOp := k } : ObjAlloc α).Single n' :=
    ⟨rfl, hn.init, hn.top, hle, hlen ▸ hlt, fun hnone => nomatch hnone⟩
  refine ⟨_, ⟨b, m.objs.length⟩, ?_, ⟨n', hsingle, rfl⟩, ?_⟩
  · rw [halloc, hn.nodes, Nat.zero_shiftLeft, Nat.zero_or]
    rfl
  · rw [deref_ne_zero hsingle ⟨Nat.succ_pos _, Nat.le_of_eq hlen.symm⟩]
    rfl

theorem allocate_full {objSize : Nat} (zero : α) (h : a.Keeps objs)
    (hfull : objs.length = 2 ^ 32 - 1) : a.allocate 0 objSize zero = .ok none := by
  obtain ⟨n, hn, rfl⟩ := h
  rcases hn.sound.pick_spec hn.sound.nodes 0 with ⟨hpick, -⟩ | ⟨i, m, -, hi, hroom⟩
  · rw [allocate, hpick]
    rfl
  · have hm := List.mem_of_getElem? hi
    rw [hn.nodes, List.mem_singleton] at hm
    have hmax : m.used = a.maxSize := hm ▸ hfull.trans hn.top.symm
    omega

theorem deref_congr {a' : ObjAlloc α} {n n' : AllocNode α} (h : a.Single n) (h' : a'.Single n')
    (hbase : n'.base = n.base) (hused : n'.used = n.used) (r : Nat) : a'.deref 0 r = a.deref 0 r := by
  rw [deref, deref, h.nodes, h'.nodes]
  cases r / 2 ^ (32 - 0) with
  | zero =>
    simp only [List.getElem?_cons_zero, h.within.assertInvariants, h'.within.assertInvariants, ok_bind,
      hbase,
      hused]
  | succ i => rfl

theorem modify_spec (h : a.Keeps objs) {r : Nat} {p : ObjPtr} (f : α → α)
    (hp : a.deref 0 r = .ok (some p)) (hr : (Pointer.deref objs r).isSome) :
    ∃ a', a.modify p f = .ok a' ∧ a'.Keeps (Pointer.update objs f r) ∧
      ∀ r', a'.deref 0 r' = a.deref 0 r' := by
  obtain ⟨c, hc⟩ := Option.isSome_iff_exists.mp hr
  obtain ⟨p', hp', hread, hindex⟩ := deref_spec h hc
  obtain rfl : p = p' := Option.some.inj (Except.ok.inj (hp.symm.trans hp'))
  obtain ⟨n, hn, rfl⟩ := h
  have hbase : n.base = some p.block := by
    rw [deref_ne_zero hn (Pointer.deref_le_length hc)] at hp
    cases hb : n.base with
    | none =>
      rw [hb] at hp
      cases hp
    | some b =>
      rw [hb] at hp
      obtain rfl := Option.some.inj (Except.ok.inj hp)
      rfl
  have hupdate : Pointer.update n.objs f r = n.objs.modify p.index f := by
    rw [← hindex]
    rfl
  let n' : AllocNode α := { n with objs := n.objs.modify p.index f }
  have hlen : n'.used = n.used := List.length_modify ..
  have hsingle : ({ a with nodes := [n'] } : ObjAlloc α).Single n' :=
    ⟨rfl, hn.init, hn.top, hn.size, hlen ▸ hn.used, hn.unmade⟩
  refine ⟨{ a with nodes := [n'] }, ?_, ⟨n', hsingle, hupdate.symm⟩, deref_congr hn hsingle rfl hlen⟩
  rw [modify, hread, ok_bind, hn.nodes, List.map_singleton, if_pos hbase]
  rfl

end

end ObjAlloc

end PathSet
