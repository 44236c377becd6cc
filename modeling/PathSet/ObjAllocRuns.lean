import PathSet.ObjAlloc
import Mathlib.Algebra.Order.BigOperators.Group.List
import Mathlib.Algebra.Order.Group.Nat
import Mathlib.Data.List.ReduceOption

/-!
Runs of the allocator of objects of one size. To its client it is a bounded list of
objects, and a reference names the same object whatever is allocated later.
-/

namespace PathSet
open Fallible

/-- A new object is asked for, or the `k`-th one is overwritten. -/
inductive AllocOp (α : Type) where
  | allocate
  | store (k : Nat) (c : α)

structure ObjClient (α : Type) where
  alloc : ObjAlloc α
  refs : List Nat

variable {α : Type}

def AllocOp.apply (cap : Nat) (zero : α) (cs : List α) : AllocOp α → List α
  | allocate => if cs.length < cap then cs ++ [zero] else cs
  | store k c => cs.set k c

namespace ObjAlloc

def step (nodeBits objSize : Nat) (zero : α) (s : ObjClient α) :
    AllocOp α → Outcome (ObjClient α × Option Nat)
  | .allocate => do
      match ← s.alloc.allocate nodeBits objSize zero with
      | none => pure (s, none)
      | some (a, _, r) => pure (⟨a, s.refs ++ [r]⟩, some r)
  | .store k c =>
      match s.refs[k]? with
      | none => pure (s, none)
      | some r => do
          match ← s.alloc.deref nodeBits r with
          | none => .error .stray
          | some p => do
              let a ← s.alloc.modify p fun _ => c
              pure (⟨a, s.refs⟩, none)

def ref (nodeBits i o : Nat) : Nat := (i <<< (32 - nodeBits)) ||| (o + 1)

theorem ref_eq {nodeBits o : Nat} (ho : o < offsetMax nodeBits) (i : Nat) :
    ref nodeBits i o = 2 ^ (32 - nodeBits) * i + (o + 1) := by
  have hlt : o + 1 < 2 ^ (32 - nodeBits) := by
    unfold offsetMax at ho
    omega
  rw [ref, ← Nat.shiftLeft_add_eq_or_of_lt hlt, Nat.shiftLeft_eq, Nat.mul_comm]

theorem ref_pos (nodeBits i o : Nat) : 0 < ref nodeBits i o :=
  Nat.lt_of_lt_of_le (Nat.succ_pos o) Nat.right_le_or

theorem ref_div {nodeBits o : Nat} (ho : o < offsetMax nodeBits) (i : Nat) :
    ref nodeBits i o / 2 ^ (32 - nodeBits) = i := by
  rw [ref_eq ho, Nat.mul_add_div (Nat.two_pow_pos _), Nat.div_eq_of_lt, Nat.add_zero]
  unfold offsetMax at ho
  omega

theorem ref_mod {nodeBits o : Nat} (ho : o < offsetMax nodeBits) (i : Nat) :
    ref nodeBits i o % 2 ^ (32 - nodeBits) = o + 1 := by
  rw [ref_eq ho, Nat.mul_add_mod, Nat.mod_eq_of_lt]
  unfold offsetMax at ho
  omega

theorem ref_inj {nodeBits i j o q : Nat} (ho : o < offsetMax nodeBits)
    (hq : q < offsetMax nodeBits) (h : ref nodeBits i o = ref nodeBits j q) : i = j ∧ o = q := by
  have hmod := ref_mod ho i
  rw [h, ref_mod hq] at hmod
  refine ⟨?_, by omega⟩
  rw [← ref_div ho i, h, ref_div hq]

theorem ref_lt {nodeBits i o : Nat} (hbits : nodeBits ≤ 32) (hi : i < 2 ^ nodeBits)
    (ho : o < offsetMax nodeBits) : ref nodeBits i o < 2 ^ 32 := by
  have hpow : 2 ^ (32 - nodeBits) * 2 ^ nodeBits = 2 ^ 32 := by
    rw [← Nat.pow_add, Nat.sub_add_cancel hbits]
  have hmul : 2 ^ (32 - nodeBits) * (i + 1) ≤ 2 ^ (32 - nodeBits) * 2 ^ nodeBits :=
    Nat.mul_le_mul_left _ hi
  rw [ref_eq ho, ← hpow]
  unfold offsetMax at ho
  rw [Nat.mul_add] at hmul
  omega

def At (a : ObjAlloc α) (i o : Nat) (c : α) : Prop :=
  ∃ n, a.nodes[i]? = some n ∧ n.objs[o]? = some c

structure Live (nodeBits : Nat) (a : ObjAlloc α) : Prop extends Sound nodeBits a where
  old : ∀ (i : Nat) (n : AllocNode α) b, a.nodes[i]? = some n → n.base = some b → b < a.reallocOp
  once : ∀ (i j : Nat) (n m : AllocNode α) b, a.nodes[i]? = some n → a.nodes[j]? = some m →
    n.base = some b → m.base = some b → i = j

def total (a : ObjAlloc α) : Nat := (a.nodes.map AllocNode.used).sum

section
variable {nodeBits : Nat} {a : ObjAlloc α} {n n' : AllocNode α} {i o k : Nat} {c : α}

theorem Sound.used_le (h : a.Sound nodeBits) (hn : n ∈ a.nodes) : n.used ≤ a.maxSize :=
  Nat.le_trans (h.nodes n hn).used (h.nodes n hn).size

theorem Sound.at_lt (h : a.Sound nodeBits) (hc : a.At i o c) :
    i < 2 ^ nodeBits ∧ o < offsetMax nodeBits := by
  obtain ⟨n, hi, ho⟩ := hc
  have hused := h.used_le (List.mem_of_getElem? hi)
  have htop := h.top
  have hlt : o < n.used := (List.getElem?_eq_some_iff.mp ho).1
  exact ⟨h.length ▸ (List.getElem?_eq_some_iff.mp hi).1, by omega⟩

theorem Sound.total_le (h : a.Sound nodeBits) : a.total ≤ 2 ^ nodeBits * a.maxSize := by
  have hsum := List.sum_le_card_nsmul (a.nodes.map AllocNode.used) a.maxSize (by
    intro u hu
    obtain ⟨n, hn, rfl⟩ := List.mem_map.mp hu
    exact h.used_le hn)
  rwa [List.length_map, h.length, Nat.nsmul_eq_mul] at hsum

theorem Sound.total_full (h : a.Sound nodeBits) (hfull : ∀ n ∈ a.nodes, n.used = a.maxSize) :
    a.total = 2 ^ nodeBits * a.maxSize := by
  have hsum := List.sum_eq_card_nsmul (a.nodes.map AllocNode.used) a.maxSize (by
    intro u hu
    obtain ⟨n, hn, rfl⟩ := List.mem_map.mp hu
    exact hfull n hn)
  rwa [List.length_map, h.length, Nat.nsmul_eq_mul] at hsum

theorem sum_map_set {β : Type} (f : β → Nat) {xs : List β} {i : Nat} {x : β} (hi : xs[i]? = some x)
    (y : β) : ((xs.set i y).map f).sum + f x = (xs.map f).sum + f y := by
  induction xs generalizing i with
  | nil => cases hi
  | cons z zs ih =>
    cases i with
    | zero =>
      obtain rfl := Option.some.inj hi
      simp only [List.set_cons_zero, List.map_cons, List.sum_cons]
      omega
    | succ i =>
      have hsum := ih hi
      simp only [List.set_cons_succ, List.map_cons, List.sum_cons]
      omega

theorem getElem?_set_cases {β : Type} {xs : List β} {i j : Nat} {y z : β}
    (h : (xs.set i y)[j]? = some z) : i = j ∧ z = y ∨ i ≠ j ∧ xs[j]? = some z := by
  by_cases hij : i = j
  · subst hij
    have hlt := (List.getElem?_eq_some_iff.mp h).1
    rw [List.length_set] at hlt
    rw [List.getElem?_set_self hlt] at h
    exact Or.inl ⟨rfl, (Option.some.inj h).symm⟩
  · rw [List.getElem?_set_ne hij] at h
    exact Or.inr ⟨hij, h⟩

theorem Live.set (h : a.Live nodeBits) (hi : a.nodes[i]? = some n) (hn' : Within a.maxSize n')
    (hbase : n'.base = n.base ∧ k = a.reallocOp ∨
      n'.base = some a.reallocOp ∧ k = a.reallocOp + 1) :
    ({ a with nodes := a.nodes.set i n', reallocOp := k } : ObjAlloc α).Live nodeBits := by
  have hlater : a.reallocOp ≤ k := by omega
  have hnew (b : Nat) (hb : n'.base = some b) : b < k ∧
      (n.base = some b ∨ b = a.reallocOp) := by
    rcases hbase with ⟨heq, rfl⟩ | ⟨heq, rfl⟩
    · exact ⟨h.old i n b hi (heq ▸ hb), Or.inl (heq ▸ hb)⟩
    · obtain rfl := Option.some.inj (heq.symm.trans hb)
      exact ⟨Nat.lt_succ_self _, Or.inr rfl⟩
  have hother (j : Nat) (m : AllocNode α) (b : Nat) (hij : i ≠ j) (hj : a.nodes[j]? = some m)
      (hb : n'.base = some b) (hm : m.base = some b) : False := by
    rcases (hnew b hb).2 with hold | rfl
    · exact hij (h.once i j n m b hi hj hold hm)
    · exact Nat.lt_irrefl _ (h.old j m _ hj hm)
  refine ⟨⟨?_, h.init, h.top, fun m hm => ?_⟩, fun j m b hj hb => ?_,
    fun j l m q b hj hl hm hq => ?_⟩
  · rw [List.length_set]
    exact h.length
  · rcases List.mem_or_eq_of_mem_set hm with hm | rfl
    · exact h.nodes m hm
    · exact hn'
  · rcases getElem?_set_cases hj with ⟨-, rfl⟩ | ⟨-, hj⟩
    · exact (hnew b hb).1
    · exact Nat.lt_of_lt_of_le (h.old j m b hj hb) hlater
  · rcases getElem?_set_cases hj with ⟨rfl, rfl⟩ | ⟨hij, hj'⟩
    · rcases getElem?_set_cases hl with ⟨rfl, -⟩ | ⟨hil, hl'⟩
      · rfl
      · exact (hother l q b hil hl' hm hq).elim
    · rcases getElem?_set_cases hl with ⟨rfl, rfl⟩ | ⟨-, hl'⟩
      · exact (hother j m b hij hj' hq hm).elim
      · exact h.once j l m q b hj' hl' hm hq

theorem total_set (hi : a.nodes[i]? = some n) (n' : AllocNode α) (k : Nat) :
    ({ a with nodes := a.nodes.set i n', reallocOp := k } : ObjAlloc α).total + n.used =
      a.total + n'.used :=
  sum_map_set AllocNode.used hi n'

theorem at_set_self (hi : a.nodes[i]? = some n) (hc : n'.objs[o]? = some c) :
    ({ a with nodes := a.nodes.set i n', reallocOp := k } : ObjAlloc α).At i o c :=
  ⟨n', List.getElem?_set_self (List.getElem?_eq_some_iff.mp hi).1, hc⟩

theorem At.set (hc : a.At i o c) {j : Nat} (hj : a.nodes[j]? = some n)
    (hkeep : i = j → n.objs[o]? = some c → n'.objs[o]? = some c) :
    ({ a with nodes := a.nodes.set j n', reallocOp := k } : ObjAlloc α).At i o c := by
  obtain ⟨m, hi, ho⟩ := hc
  by_cases hij : i = j
  · subst hij
    obtain rfl := Option.some.inj (hj.symm.trans hi)
    exact at_set_self hi (hkeep rfl ho)
  · exact ⟨m, (List.getElem?_set_ne (Ne.symm hij)).trans hi, ho⟩

theorem Live.deref_ref (h : a.Live nodeBits) (hc : a.At i o c) :
    ∃ n b, a.nodes[i]? = some n ∧ n.base = some b ∧ n.objs[o]? = some c ∧
      a.deref nodeBits (ref nodeBits i o) = .ok (some ⟨b, o⟩) := by
  have hlt := (h.at_lt hc).2
  obtain ⟨n, hi, ho⟩ := hc
  have hn := h.nodes n (List.mem_of_getElem? hi)
  have hused : o < n.used := (List.getElem?_eq_some_iff.mp ho).1
  cases hb : n.base with
  | none =>
    have hmade := hn.made
    rw [hb] at hmade
    simp only [Option.isSome_none, Bool.false_eq_true, false_or] at hmade
    omega
  | some b =>
    refine ⟨n, b, hi, hb, ho, ?_⟩
    rw [deref, if_neg (ref_pos nodeBits i o).ne', ref_div hlt, ref_mod hlt]
    simp only [hi, hn.assertInvariants, ok_bind, assert_of (Nat.succ_pos o), hb,
      assert_of (Nat.succ_le_of_lt hused), Nat.add_sub_cancel, pure_eq_ok]

theorem Live.read_spec (h : a.Live nodeBits) {b : Nat} (hi : a.nodes[i]? = some n)
    (hb : n.base = some b) (hc : n.objs[o]? = some c) : a.read ⟨b, o⟩ = .ok c := by
  have hfind : (a.nodes.find? fun m => m.base = some b) = some n := by
    obtain ⟨hlt, hn⟩ := List.getElem?_eq_some_iff.mp hi
    rw [List.find?_eq_some_iff_getElem]
    refine ⟨by simpa using hb, i, hlt, hn, fun j hj => ?_⟩
    have hne : a.nodes[j].base ≠ some b := fun hjb =>
      Nat.ne_of_lt hj (h.once j i _ n b (List.getElem?_eq_getElem _) hi hjb hb)
    simpa using hne
  rw [read, hfind]
  simp only [hc]

theorem Live.modify_spec (h : a.Live nodeBits) {b : Nat} (hi : a.nodes[i]? = some n)
    (hb : n.base = some b) (hc : n.objs[o]? = some c) (f : α → α) :
    a.modify ⟨b, o⟩ f =
      .ok { a with nodes := a.nodes.set i { n with objs := n.objs.modify o f } } := by
  have hmap : (a.nodes.map fun m =>
        if m.base = some b then { m with objs := m.objs.modify o f } else m) =
      a.nodes.set i { n with objs := n.objs.modify o f } := by
    apply List.ext_getElem?
    intro j
    rw [List.getElem?_map]
    by_cases hij : i = j
    · subst hij
      rw [hi, List.getElem?_set_self (List.getElem?_eq_some_iff.mp hi).1, Option.map_some,
        if_pos hb]
    · rw [List.getElem?_set_ne hij]
      cases hj : a.nodes[j]? with
      | none => rfl
      | some m => rw [Option.map_some, if_neg fun hm => hij (h.once i j n m b hi hj hb hm)]
  rw [modify, h.read_spec hi hb hc, ok_bind]
  exact congrArg (fun nodes => Except.ok { a with nodes := nodes }) hmap

def Names (nodeBits : Nat) (a : ObjAlloc α) (r : Nat) (c : α) : Prop :=
  ∃ i o, r = ref nodeBits i o ∧ a.At i o c

structure Tracks (nodeBits : Nat) (s : ObjClient α) (cs : List α) : Prop where
  live : s.alloc.Live nodeBits
  length : s.refs.length = cs.length
  names : ∀ (k r : Nat) (c : α), s.refs[k]? = some r → cs[k]? = some c →
    Names nodeBits s.alloc r c
  nodup : s.refs.Nodup
  total : s.alloc.total = cs.length

theorem Tracks.names_of_mem {s : ObjClient α} {cs : List α} (h : Tracks nodeBits s cs) {r : Nat}
    (hr : r ∈ s.refs) : ∃ c, Names nodeBits s.alloc r c := by
  obtain ⟨k, hk⟩ := List.mem_iff_getElem?.mp hr
  have hlt : k < cs.length := h.length ▸ (List.getElem?_eq_some_iff.mp hk).1
  exact ⟨cs[k], h.names k r _ hk (List.getElem?_eq_getElem hlt)⟩

theorem offsetMax_pos (hbits : nodeBits ≤ 4) : 0 < offsetMax nodeBits := by
  have hpow : 2 ^ 1 ≤ 2 ^ (32 - nodeBits) := Nat.pow_le_pow_right (by decide) (by omega)
  unfold offsetMax
  omega

theorem init_sizes {top initSize maxSize : Nat} (hpos : 0 < top) (hinit : ¬initSize > top)
    (hmax : ¬maxSize > top) :
    let max := if maxSize = 0 then top else maxSize
    let init := if initSize = 0 ∨ initSize > max then max else initSize
    (0 < init ∧ init ≤ max) ∧ max ≤ top := by
  dsimp only
  split_ifs <;> omega

theorem tracks_init {initSize maxSize : Nat} (hbits : nodeBits ≤ 4)
    (h : init nodeBits initSize maxSize = .ok a) : Tracks nodeBits ⟨a, []⟩ [] := by
  have hpos := offsetMax_pos hbits
  unfold init at h
  by_cases hinit : initSize > offsetMax nodeBits
  · rw [if_pos hinit] at h
    cases h
  by_cases hmax : maxSize > offsetMax nodeBits
  · rw [if_neg hinit, if_pos hmax] at h
    cases h
  rw [if_neg hinit, if_neg hmax] at h
  obtain rfl := Except.ok.inj h
  have hmade {i : Nat} {n : AllocNode α}
      (hi : (List.replicate (2 ^ nodeBits) (⟨none, 0, []⟩ : AllocNode α))[i]? = some n) :
      n = ⟨none, 0, []⟩ := List.eq_of_mem_replicate (List.mem_of_getElem? hi)
  refine ⟨⟨⟨List.length_replicate, ?_, ?_, fun n hn => ?_⟩, fun i n b hi hb => ?_,
    fun i j n m b hi hj hb hm => ?_⟩, rfl, fun k r c hr => (nomatch hr),
    List.nodup_nil, ?_⟩
  · exact (init_sizes hpos hinit hmax).1
  · exact (init_sizes hpos hinit hmax).2
  · obtain rfl := List.eq_of_mem_replicate hn
    exact ⟨Nat.zero_le _, Nat.zero_le _, fun _ => rfl⟩
  · rw [hmade hi] at hb
    cases hb
  · rw [hmade hi] at hb
    cases hb
  · simp [total, AllocNode.used]

theorem Tracks.push {s : ObjClient α} {cs : List α} (h : Tracks nodeBits s cs) {a' : ObjAlloc α}
    (hlive : a'.Live nodeBits) (hkeep : ∀ i o c, s.alloc.At i o c → a'.At i o c) {zero : α}
    (hnew : a'.At i o zero) (hfree : ∀ c, ¬s.alloc.At i o c)
    (htotal : a'.total = s.alloc.total + 1) :
    Tracks nodeBits ⟨a', s.refs ++ [ref nodeBits i o]⟩ (cs ++ [zero]) := by
  have hfresh : ref nodeBits i o ∉ s.refs := by
    intro hr
    obtain ⟨c, j, q, heq, hc⟩ := h.names_of_mem hr
    obtain ⟨rfl, rfl⟩ := ref_inj (hlive.at_lt hnew).2 (h.live.at_lt hc).2 heq
    exact hfree c hc
  refine ⟨hlive, ?_, fun k r c hr hc => ?_, ?_, ?_⟩
  · rw [List.length_append, List.length_append, h.length]
    rfl
  · rcases Nat.lt_or_ge k s.refs.length with hk | hk
    · rw [List.getElem?_append_left hk] at hr
      rw [List.getElem?_append_left (h.length ▸ hk)] at hc
      obtain ⟨j, q, rfl, hat⟩ := h.names k r c hr hc
      exact ⟨j, q, rfl, hkeep j q c hat⟩
    · obtain rfl : k = s.refs.length := by
        have hlt := (List.getElem?_eq_some_iff.mp hr).1
        rw [List.length_append, List.length_singleton] at hlt
        omega
      rw [List.getElem?_concat_length] at hr
      rw [h.length, List.getElem?_concat_length] at hc
      exact ⟨i, o, (Option.some.inj hr).symm, Option.some.inj hc ▸ hnew⟩
  · exact Pointer.nodup_concat h.nodup hfresh
  · rw [htotal, h.total, List.length_append]
    rfl

theorem Tracks.allocate {objSize : Nat} (zero : α) {s : ObjClient α} {cs : List α}
    (h : Tracks nodeBits s cs) (hobj : objSize < 2 ^ 32) :
    (step nodeBits objSize zero s .allocate = .ok (s, none) ∧
        (∀ n ∈ s.alloc.nodes, n.used = s.alloc.maxSize) ∧
        cs.length = 2 ^ nodeBits * s.alloc.maxSize) ∨
      ∃ s' r, step nodeBits objSize zero s .allocate = .ok (s', some r) ∧
        (∃ n ∈ s.alloc.nodes, n.used < s.alloc.maxSize) ∧
        cs.length < 2 ^ nodeBits * s.alloc.maxSize ∧ s'.refs = s.refs ++ [r] ∧
        s'.alloc.maxSize = s.alloc.maxSize ∧ Tracks nodeBits s' (cs ++ [zero]) ∧
        ∃ p, s.alloc.allocate nodeBits objSize zero = .ok (some (s'.alloc, p, r)) ∧
          s'.alloc.deref nodeBits r = .ok (some p) := by
  rcases h.live.allocate_spec zero hobj with
    ⟨halloc, hfull⟩ | ⟨i, n, b, size, k, halloc, hi, hlt, hle, hb⟩
  · refine Or.inl ⟨?_, hfull, h.total ▸ h.live.total_full hfull⟩
    rw [step, halloc]
    rfl
  let n' : AllocNode α := ⟨some b, size, n.objs ++ [zero]⟩
  let a' : ObjAlloc α := { s.alloc with nodes := s.alloc.nodes.set i n', reallocOp := k }
  have hlen : n'.used = n.used + 1 := List.length_append
  have hlive : a'.Live nodeBits := by
    refine h.live.set hi ⟨hle, hlen ▸ hlt, fun hnone => nomatch hnone⟩ ?_
    rcases hb with ⟨hb, rfl⟩ | ⟨rfl, rfl⟩
    · exact Or.inl ⟨hb.symm, rfl⟩
    · exact Or.inr ⟨rfl, rfl⟩
  have htotal : a'.total = s.alloc.total + 1 := by
    have hsum : a'.total + n.used = s.alloc.total + n'.used := total_set hi n' k
    omega
  have hnew : a'.At i n.used zero :=
    at_set_self hi (List.getElem?_concat_length ..)
  have hkeep (j o : Nat) (c : α) (hat : s.alloc.At j o c) : a'.At j o c := by
    refine hat.set hi fun _ ho => ?_
    exact (List.getElem?_append_left (List.getElem?_eq_some_iff.mp ho).1).trans ho
  have hfree (c : α) : ¬s.alloc.At i n.used c := by
    rintro ⟨m, hm, ho⟩
    obtain rfl := Option.some.inj (hi.symm.trans hm)
    exact Nat.lt_irrefl _ (List.getElem?_eq_some_iff.mp ho).1
  refine Or.inr ⟨⟨a', s.refs ++ [ref nodeBits i n.used]⟩, ref nodeBits i n.used, ?_,
    ⟨n, List.mem_of_getElem? hi, Nat.lt_of_lt_of_le hlt hle⟩, ?_, rfl, rfl,
    h.push hlive hkeep hnew hfree htotal, ⟨b, n.used⟩, halloc, ?_⟩
  · rw [step, halloc]
    rfl
  · have hcap := hlive.total_le
    rw [htotal, h.total] at hcap
    exact hcap
  · obtain ⟨m, b', hm, hb', -, hderef⟩ := hlive.deref_ref hnew
    obtain rfl : n' = m :=
      Option.some.inj ((List.getElem?_set_self (List.getElem?_eq_some_iff.mp hi).1).symm.trans hm)
    obtain rfl := Option.some.inj hb'
    exact hderef

theorem Tracks.store {objSize : Nat} (zero : α) {s : ObjClient α} {cs : List α}
    (h : Tracks nodeBits s cs) (k : Nat) (c : α) :
    ∃ s', step nodeBits objSize zero s (.store k c) = .ok (s', none) ∧ s'.refs = s.refs ∧
      s'.alloc.maxSize = s.alloc.maxSize ∧ Tracks nodeBits s' (cs.set k c) := by
  cases hr : s.refs[k]? with
  | none =>
    have hset : cs.set k c = cs := by
      rw [List.set_eq_of_length_le]
      rw [← h.length]
      exact List.getElem?_eq_none_iff.mp hr
    refine ⟨s, ?_, rfl, rfl, hset.symm ▸ h⟩
    rw [step, hr]
    rfl
  | some r =>
    have hk : k < cs.length := h.length ▸ (List.getElem?_eq_some_iff.mp hr).1
    obtain ⟨i, o, rfl, hat⟩ := h.names k r _ hr (List.getElem?_eq_getElem hk)
    obtain ⟨n, b, hi, hb, ho, hderef⟩ := h.live.deref_ref hat
    let n' : AllocNode α := { n with objs := n.objs.modify o fun _ => c }
    have hn := h.live.nodes n (List.mem_of_getElem? hi)
    have hused : n'.used = n.used := List.length_modify ..
    have hn' : Within s.alloc.maxSize n' := ⟨hn.size, hused ▸ hn.used, hn.unmade⟩
    have hlive := h.live.set hi hn' (Or.inl ⟨rfl, rfl⟩)
    refine ⟨⟨{ s.alloc with nodes := s.alloc.nodes.set i n' }, s.refs⟩, ?_, rfl, rfl, hlive, ?_, ?_,
      h.nodup, ?_⟩
    · rw [step]
      simp only [hr, hderef, ok_bind, h.live.modify_spec hi hb ho]
      rfl
    · rw [List.length_set]
      exact h.length
    · intro j r d hj hd
      rcases getElem?_set_cases hd with ⟨rfl, rfl⟩ | ⟨hkj, hd⟩
      · obtain rfl := Option.some.inj (hr.symm.trans hj)
        exact ⟨i, o, rfl, at_set_self hi (by simp [n', ho])⟩
      · obtain ⟨i', o', rfl, hat'⟩ := h.names j r d hj hd
        refine ⟨i', o', rfl, hat'.set hi ?_⟩
        rintro rfl ho'
        have hne : o ≠ o' := by
          rintro rfl
          have hlt := (List.getElem?_eq_some_iff.mp hr).1
          exact hkj ((List.getElem?_inj hlt h.nodup).mp (hr.trans hj.symm))
        exact (List.getElem?_modify_ne _ _ hne).trans ho'
    · have hsum := total_set hi n' s.alloc.reallocOp
      rw [hused, h.total] at hsum
      rw [List.length_set]
      exact Nat.add_right_cancel hsum

theorem Tracks.run {objSize : Nat} (zero : α) (hobj : objSize < 2 ^ 32) {s : ObjClient α}
    {cs : List α} (h : Tracks nodeBits s cs) (ops : List (AllocOp α)) :
    ∃ s' ys, run (step nodeBits objSize zero) s ops = .ok (s', ys) ∧
      s'.refs = s.refs ++ ys.reduceOption ∧ s'.alloc.maxSize = s.alloc.maxSize ∧
      Tracks nodeBits s' (ops.foldl (AllocOp.apply (2 ^ nodeBits * s.alloc.maxSize) zero) cs) := by
  induction ops generalizing s cs with
  | nil => exact ⟨s, [], rfl, (List.append_nil _).symm, rfl, h⟩
  | cons op ops ih =>
    obtain ⟨t, y, hstep, hrefs, hmax, ht⟩ : ∃ t y, step nodeBits objSize zero s op = .ok (t, y) ∧
        t.refs = s.refs ++ [y].reduceOption ∧ t.alloc.maxSize = s.alloc.maxSize ∧
        Tracks nodeBits t (op.apply (2 ^ nodeBits * s.alloc.maxSize) zero cs) := by
      cases op with
      | allocate =>
        rcases h.allocate zero hobj with
          ⟨hstep, -, hfull⟩ | ⟨t, r, hstep, -, hroom, hrefs, hmax, ht, -⟩
        · refine ⟨s, none, hstep, (List.append_nil _).symm, rfl, ?_⟩
          rw [AllocOp.apply, if_neg (Nat.not_lt.mpr (Nat.le_of_eq hfull.symm))]
          exact h
        · refine ⟨t, some r, hstep, hrefs, hmax, ?_⟩
          rw [AllocOp.apply, if_pos hroom]
          exact ht
      | store k c =>
        obtain ⟨t, hstep, hrefs, hmax, ht⟩ := h.store zero k c
        exact ⟨t, none, hstep, hrefs.trans (List.append_nil _).symm, hmax, ht⟩
    obtain ⟨s', ys, hrun, hrefs', hmax', hs'⟩ := ih ht
    refine ⟨s', y :: ys, ?_, ?_, hmax'.trans hmax, ?_⟩
    · rw [run_cons, hstep, ok_bind, hrun, ok_bind]
    · rw [hrefs', hrefs, List.append_assoc]
      cases y <;> rfl
    · rw [hmax] at hs'
      exact hs'

end

end ObjAlloc

open ObjAlloc in
/-- In any run the references differ, and each leads to its place, where the object that
was stored last is. An object is refused when all blocks are full, and only then. -/
theorem obj_alloc_run {nodeBits objSize initSize maxSize : Nat} (zero : α) {a : ObjAlloc α}
    (hbits : nodeBits ≤ 4) (hobj : objSize < 2 ^ 32)
    (h : ObjAlloc.init nodeBits initSize maxSize = .ok a) (ops : List (AllocOp α)) :
    ∃ s ys cs, run (step nodeBits objSize zero) ⟨a, []⟩ ops = .ok (s, ys) ∧
      s.refs = ys.reduceOption ∧
      cs = ops.foldl (AllocOp.apply (2 ^ nodeBits * a.maxSize) zero) [] ∧
      s.alloc.maxSize = a.maxSize ∧ s.alloc.nodes.length = 2 ^ nodeBits ∧
      (∀ n ∈ s.alloc.nodes, n.size ≤ s.alloc.maxSize ∧ n.used ≤ n.size ∧
        (n.base.isSome ∨ n.used = 0)) ∧
      s.refs.Nodup ∧ s.refs.length = cs.length ∧
      (∀ (k r : Nat) (c : α), s.refs[k]? = some r → cs[k]? = some c → 0 < r ∧ r < 2 ^ 32 ∧
        ∃ n b o, s.alloc.nodes[r / 2 ^ (32 - nodeBits)]? = some n ∧ n.base = some b ∧
          o + 1 = r % 2 ^ (32 - nodeBits) ∧
          s.alloc.deref nodeBits r = .ok (some ⟨b, o⟩) ∧ s.alloc.read ⟨b, o⟩ = .ok c) ∧
      ((∀ n ∈ s.alloc.nodes, n.used = s.alloc.maxSize) ∧
          step nodeBits objSize zero s .allocate = .ok (s, none) ∨
        (∃ n ∈ s.alloc.nodes, n.used < s.alloc.maxSize) ∧
          ∃ s' r p, step nodeBits objSize zero s .allocate = .ok (s', some r) ∧
            s.alloc.allocate nodeBits objSize zero = .ok (some (s'.alloc, p, r)) ∧
            s'.alloc.deref nodeBits r = .ok (some p)) := by
  obtain ⟨s, ys, hrun, hrefs, hmax, hs⟩ := (tracks_init hbits h).run zero hobj ops
  refine ⟨s, ys, _, hrun, hrefs, rfl, hmax, hs.live.length, fun n hn => ?_, hs.nodup, hs.length,
    fun k r c hr hc => ?_, ?_⟩
  · have hwithin := hs.live.nodes n hn
    exact ⟨hwithin.size, hwithin.used, hwithin.made⟩
  · obtain ⟨i, o, rfl, hat⟩ := hs.names k r c hr hc
    obtain ⟨hi, ho⟩ := hs.live.at_lt hat
    obtain ⟨n, b, hn, hb, hc, hderef⟩ := hs.live.deref_ref hat
    refine ⟨ref_pos nodeBits i o, ref_lt (by omega) hi ho, n, b, o, ?_, hb, ?_, hderef,
      hs.live.read_spec hn hb hc⟩
    · rw [ref_div ho, hn]
    · rw [ref_mod ho]
  · rcases hs.allocate zero hobj with
      ⟨hstep, hfull, -⟩ | ⟨s', r, hstep, hroom, -, -, -, -, p, halloc, hp⟩
    · exact Or.inl ⟨hfull, hstep⟩
    · exact Or.inr ⟨hroom, s', r, p, hstep, halloc, hp⟩

open ObjAlloc in
theorem obj_alloc_run_full :
    ∃ s ys, run (step 1 8 0) ⟨⟨[⟨none, 0, []⟩, ⟨none, 0, []⟩], 1, 2, 0⟩, []⟩
        [.allocate, .store 0 7, .allocate, .allocate, .allocate, .allocate] = .ok (s, ys) ∧
      ys = [some 1, none, some 2, some (2 ^ 31 + 1), some (2 ^ 31 + 2), none] ∧
      s.refs.Nodup ∧ ∃ b o, s.alloc.deref 1 1 = .ok (some ⟨b, o⟩) ∧ s.alloc.read ⟨b, o⟩ = .ok 7 := by
  have hinit : (ObjAlloc.init 1 1 2 : Outcome (ObjAlloc Nat)) =
      .ok ⟨[⟨none, 0, []⟩, ⟨none, 0, []⟩], 1, 2, 0⟩ := rfl
  obtain ⟨s, ys, cs, hrun, -, rfl, -, -, -, hnodup, -, hderef, -⟩ :=
    obj_alloc_run 0 (by decide) (show 8 < 2 ^ 32 by decide) hinit
      [.allocate, .store 0 7, .allocate, .allocate, .allocate, .allocate]
  obtain ⟨rfl, rfl⟩ := Prod.mk.inj (Except.ok.inj hrun)
  obtain ⟨-, -, n, b, o, -, -, -, hr, hc⟩ := hderef 0 1 7 rfl rfl
  exact ⟨_, _, hrun, rfl, hnodup, b, o, hr, hc⟩

end PathSet
