import PathSet.ByteAlloc
import PathSet.ObjAllocRuns

/-!
Runs of the byte allocator. The block that the search stops at is not always good for the
request: it may be at its limit although it could grow a little, and it may have been
aligned for less than what is asked for now.
-/

namespace PathSet
open Fallible Regions

namespace ByteNode

structure Within (maxSize : Nat) (p : ByteNode) : Prop where
  size : p.size ≤ maxSize
  used : p.used ≤ p.size
  unmade : p.base = none → p.size = 0

def pad (p : ByteNode) (align : Nat) : Nat :=
  match p.base with
  | none => align
  | some base => padding (base + p.used) align

theorem Within.made {maxSize : Nat} {p : ByteNode} (h : p.Within maxSize) :
    p.base.isSome ∨ p.used = 0 := by
  cases hb : p.base with
  | none => exact Or.inr (Nat.le_zero.mp (h.unmade hb ▸ h.used))
  | some b => exact Or.inl rfl

theorem pad_le {p : ByteNode} {align : Nat} (h : 0 < align) : p.pad align ≤ align := by
  unfold pad
  cases p.base with
  | none => exact Nat.le_refl _
  | some base => exact Nat.le_of_lt (padding_lt h)

end ByteNode

namespace ByteAlloc
open ObjAlloc (offsetMax ref ref_pos ref_div ref_mod offsetMax_lt offsetMax_pos init_sizes)

structure Request (c : ByteCall) : Prop where
  size : 0 < c.size
  align : ∃ k, c.align = 2 ^ k
  sum : c.size + c.align ≤ sizeMax
  realloc : c.align ∣ c.addr

theorem Request.pow2 {c : ByteCall} (h : Request c) : SizeIsPow2 c.align := by
  obtain ⟨k, hk⟩ := h.align
  exact hk ▸ sizeIsPow2_two_pow k

theorem Request.align_pos {c : ByteCall} (h : Request c) : 0 < c.align :=
  Nat.pos_of_ne_zero h.pow2.1

theorem Request.align_le {c : ByteCall} (h : Request c) : c.align ≤ 2 ^ 63 := by
  obtain ⟨k, hk⟩ := h.align
  have hlt : 2 ^ k < 2 ^ 64 := by
    have hsum := h.sum
    unfold sizeMax at hsum
    omega
  have hk' : k ≤ 63 := Nat.le_of_lt_succ ((Nat.pow_lt_pow_iff_right (by decide)).mp hlt)
  rw [hk]
  exact Nat.pow_le_pow_right (by decide) hk'

def Usable (nodeBits : Nat) (alloc : ByteAlloc) (c : ByteCall) (p : ByteNode) : Prop :=
  p.base = none ∨ (p.used + p.pad c.align < offsetMax nodeBits ∧
    (p.size - p.used ≥ c.size + p.pad c.align ∨ p.size < alloc.maxSize))

instance (nodeBits : Nat) (alloc : ByteAlloc) (c : ByteCall) (p : ByteNode) :
    Decidable (Usable nodeBits alloc c p) := inferInstanceAs (Decidable (_ ∨ _))

def Takes (alloc : ByteAlloc) (c : ByteCall) (p : ByteNode) : Prop :=
  p.size - p.used ≥ c.size + p.pad c.align ∨
    (p.used + (c.size + p.pad c.align) ≤ alloc.maxSize ∧ ∀ base, p.base = some base → c.align ∣ base)

def FirstTakes (nodeBits : Nat) (alloc : ByteAlloc) (c : ByteCall) : Prop :=
  ∀ p, alloc.nodes.find? (fun p => Usable nodeBits alloc c p) = some p → Takes alloc c p

def serve (nodeBits : Nat) (alloc : ByteAlloc) (c : ByteCall) :
    Outcome (ByteAlloc × ByteCall × Option (Nat × Nat)) := do
  match ← alloc.allocate nodeBits c with
  | none => pure (alloc, c, none)
  | some (alloc, addr, r) => pure (alloc, c, some (addr, r))

def nodeOf (nodeBits r : Nat) : Nat := r / 2 ^ (32 - nodeBits)

def region (nodeBits : Nat) (c : ByteCall) (r : Nat) : Region :=
  ⟨r % 2 ^ (32 - nodeBits) - 1, c.size⟩

/-- What a call is promised to do, after the calls `past`: it changes nothing, or returns
an aligned part of a block that is apart from all earlier ones, and its reference. -/
def Promised (nodeBits : Nat) (past : List (ByteCall × Option (Nat × Nat)))
    (alloc alloc' : ByteAlloc) : ByteCall × Option (Nat × Nat) → Prop
  | (_, none) => alloc' = alloc
  | (c, some (addr, r)) =>
      r ≠ 0 ∧ alloc'.deref nodeBits r = .ok (some addr) ∧ c.align ∣ addr ∧
      (∃ p base, alloc'.nodes[nodeOf nodeBits r]? = some p ∧ p.base = some base ∧
        addr = base + (region nodeBits c r).start ∧ (region nodeBits c r).stop ≤ p.used ∧
        p.used ≤ p.size ∧ p.size ≤ alloc'.maxSize) ∧
      ∀ d addr' r', (d, some (addr', r')) ∈ past → nodeOf nodeBits r' = nodeOf nodeBits r →
        (region nodeBits d r').Apart (region nodeBits c r)

structure Sound (nodeBits : Nat) (alloc : ByteAlloc) : Prop where
  init : 0 < alloc.initSize ∧ alloc.initSize ≤ alloc.maxSize
  top : alloc.maxSize ≤ offsetMax nodeBits
  nodes : ∀ p ∈ alloc.nodes, p.Within alloc.maxSize

structure Served (nodeBits : Nat) (past : List (ByteCall × Option (Nat × Nat)))
    (alloc : ByteAlloc) : Prop where
  sound : Sound nodeBits alloc
  owned : ∀ d addr r, (d, some (addr, r)) ∈ past →
    ∃ p, alloc.nodes[nodeOf nodeBits r]? = some p ∧ (region nodeBits d r).stop ≤ p.used

theorem served_init {nodeBits initSize maxSize : Nat} {alloc : ByteAlloc} (hbits : nodeBits ≤ 4)
    (h : init nodeBits initSize maxSize = .ok alloc) : Served nodeBits [] alloc := by
  have hpos := offsetMax_pos hbits
  unfold init at h
  by_cases hinit : initSize > offsetMax nodeBits
  · rw [if_pos hinit] at h
    cases h
  by_cases hmax : maxSize > offsetMax nodeBits
  · rw [if_neg hinit, if_pos hmax] at h
    cases h
  rw [if_neg hinit, if_neg hmax] at h
  obtain rfl := Except.ok.inj h
  refine ⟨⟨?_, ?_, fun p hp => ?_⟩, fun d addr r hy => nomatch hy⟩
  · exact (init_sizes hpos hinit hmax).1
  · exact (init_sizes hpos hinit hmax).2
  · obtain rfl := List.eq_of_mem_replicate hp
    exact ⟨Nat.zero_le _, Nat.zero_le _, fun _ => rfl⟩

section
variable {nodeBits : Nat} {alloc : ByteAlloc} {c : ByteCall} {p : ByteNode}
  {past : List (ByteCall × Option (Nat × Nat))}

theorem Sound.max_lt (h : Sound nodeBits alloc) : alloc.maxSize < 2 ^ 32 :=
  Nat.lt_of_le_of_lt h.top (offsetMax_lt nodeBits)

theorem assertInvariants_of (h : p.Within alloc.maxSize) : alloc.assertInvariants p = .ok () := by
  rw [assertInvariants, assert_of h.size, ok_bind, assert_of h.used, ok_bind, assert_of h.made]

theorem pick_spec (hc : Request c) (hmax : alloc.maxSize < 2 ^ 32) {ps : List ByteNode}
    (hps : ∀ p ∈ ps, p.Within alloc.maxSize) (i : Nat) :
    (pick nodeBits alloc c.size c.align ps i = .ok none ∧
        ps.find? (fun p => Usable nodeBits alloc c p) = none) ∨
      ∃ j p, pick nodeBits alloc c.size c.align ps i = .ok (some (i + j, p, p.pad c.align)) ∧
        ps[j]? = some p ∧ ps.find? (fun p => Usable nodeBits alloc c p) = some p := by
  induction ps generalizing i with
  | nil => exact Or.inl ⟨rfl, rfl⟩
  | cons p ps ih =>
    have hp := hps p (by simp)
    have hpick : pick nodeBits alloc c.size c.align (p :: ps) i =
        if Usable nodeBits alloc c p then .ok (some (i, p, p.pad c.align))
        else pick nodeBits alloc c.size c.align ps (i + 1) := by
      rw [pick, assertInvariants_of hp, ok_bind]
      cases hb : p.base with
      | none =>
        have hu : Usable nodeBits alloc c p := Or.inl hb
        rw [if_pos hu, ByteNode.pad, hb]
        rfl
      | some base =>
        have hpad : p.pad c.align = padding (base + p.used) c.align := by rw [ByteNode.pad, hb]
        have hle := @ByteNode.pad_le p c.align hc.align_pos
        have halign := hc.align_le
        have hsum := hc.sum
        have hused := Nat.le_trans hp.used hp.size
        have hnone : ¬p.base = none := by simp [hb]
        have hadd : p.used + p.pad c.align ≤ sizeMax := by
          unfold sizeMax
          omega
        simp only [ptrAlignSize_of hc.pow2, ok_bind, ← hpad, assert_of hadd, Usable, hnone,
          false_or, assert_of (show c.size + p.pad c.align ≤ sizeMax by omega)]
        by_cases hmax : p.used + p.pad c.align ≥ offsetMax nodeBits
        · rw [if_pos hmax, if_neg fun h => absurd h.1 (Nat.not_lt.mpr hmax)]
        · rw [if_neg hmax]
          simp only [Nat.lt_of_not_le hmax, true_and]
          rfl
    by_cases hu : Usable nodeBits alloc c p
    · exact Or.inr ⟨0, p, by rw [hpick, if_pos hu]; rfl, rfl, by simp [hu]⟩
    · rw [hpick, if_neg hu, List.find?_cons_of_neg (by simpa using hu)]
      rcases ih (fun q hq => hps q (by simp [hq])) (i + 1) with hnone | ⟨j, q, hrun, hj, hq⟩
      · exact Or.inl hnone
      · refine Or.inr ⟨j + 1, q, ?_, hj, hq⟩
        rw [hrun, Nat.add_assoc, Nat.add_comm 1 j]

theorem double_spec {used n fuel s : Nat} (hused : used ≤ s) (hs : s ≤ sizeMax)
    (hfuel : sizeMax < s * 2 ^ fuel) :
    (∃ t, double used n fuel s = .ok t ∧ s ≤ t ∧ used + n ≤ t) ∨
      (double used n fuel s = .error .verify ∧ sizeMax < (used + n) * 2) := by
  induction fuel generalizing s with
  | zero => omega
  | succ fuel ih =>
    rw [double, verify_of hused, ok_bind]
    by_cases hroom : s - used < n
    · rw [if_pos hroom]
      by_cases htwice : s * 2 ≤ sizeMax
      · rw [verify_of htwice, ok_bind]
        have hfuel' : sizeMax < s * 2 * 2 ^ fuel := by
          rwa [Nat.mul_assoc, ← Nat.pow_succ']
        rcases ih (by omega) htwice hfuel' with ⟨t, ht, hle, hn⟩ | herr
        · exact Or.inl ⟨t, ht, by omega, hn⟩
        · exact Or.inr herr
      · refine Or.inr ⟨?_, by omega⟩
        rw [verify, if_neg htwice]
        rfl
    · rw [if_neg hroom]
      exact Or.inl ⟨s, rfl, Nat.le_refl _, by omega⟩

theorem Sound.grow (h : Sound nodeBits alloc) (hp : p.Within alloc.maxSize) {n : Nat}
    (hfull : p.size - p.used < n) (addr : Nat) :
    (∃ s, alloc.grow p n addr = .ok ⟨some addr, s, p.used⟩ ∧ p.used + n ≤ s ∧ s ≤ alloc.maxSize ∧
        p.used + n ≤ alloc.maxSize) ∨
      ((∃ e, alloc.grow p n addr = .error e) ∧ alloc.maxSize < p.used + n) := by
  have hmax := h.max_lt
  have hsize := hp.size
  have hused := hp.used
  generalize hs : (if p.size = 0 then alloc.initSize else p.size) = s
  have hs' : 0 < s ∧ p.used ≤ s ∧ s ≤ alloc.maxSize := by
    have hinit := h.init
    rw [← hs]
    split_ifs <;> omega
  have hfuel : sizeMax < s * 2 ^ 65 := by
    unfold sizeMax
    omega
  have htop : s ≤ sizeMax := by
    unfold sizeMax
    omega
  simp only [ByteAlloc.grow, hs, assert_of hs'.1, ok_bind]
  rcases @double_spec p.used n 65 s hs'.2.1 htop hfuel with ⟨t, ht, hle, hn⟩ | ⟨herr, hlt⟩
  · rw [ht, ok_bind]
    by_cases hfits : p.used + n ≤ alloc.maxSize
    · left
      refine ⟨if t > alloc.maxSize then alloc.maxSize else t, ?_, ?_, ?_, hfits⟩
      · rw [assert_of (by split_ifs <;> omega)]
        rfl
      · split_ifs <;> omega
      · split_ifs <;> omega
    · right
      refine ⟨⟨.assertion, ?_⟩, Nat.lt_of_not_le hfits⟩
      rw [if_pos (by omega), assert, if_neg (by omega)]
      rfl
  · right
    rw [herr]
    refine ⟨⟨.verify, rfl⟩, ?_⟩
    unfold sizeMax at hlt
    omega

def shift (p : ByteNode) (base align a : Nat) : Nat :=
  if p.base = none then padding (base + p.used) align else a

theorem shift_le (hc : Request c) (base : Nat) :
    shift p base c.align (p.pad c.align) ≤ p.pad c.align := by
  unfold shift
  by_cases hb : p.base = none
  · rw [if_pos hb, ByteNode.pad, hb]
    exact Nat.le_of_lt (padding_lt hc.align_pos)
  · rw [if_neg hb]

theorem place_ok (hc : Request c) {a b i : Nat} {q : ByteNode}
    (hmax : p.used + a < offsetMax nodeBits)
    (hready : alloc.ready p (c.size + a) c.addr = .ok q) (hb : q.base = some b)
    (hused : q.used = p.used) :
    alloc.place nodeBits c i p a =
      .ok ({ alloc with nodes := alloc.nodes.set i { q with used := p.used + (c.size + a) } },
        b + (p.used + shift p b c.align a), ref nodeBits i (p.used + shift p b c.align a)) := by
  rw [place, assert_of hmax, ok_bind]
  have hshift : (if p.base = none then ptrAlignSize (b + p.used) c.align else pure a) =
      .ok (shift p b c.align a) := by
    by_cases hnone : p.base = none
    · rw [if_pos hnone, ptrAlignSize_of hc.pow2, shift, if_pos hnone]
    · rw [if_neg hnone, shift, if_neg hnone]
      rfl
  have hle (hnone : p.base = none) : shift p b c.align a ≤ c.align := by
    rw [shift, if_pos hnone]
    exact Nat.le_of_lt (padding_lt hc.align_pos)
  simp only [hready, ok_bind, hb, hused, hshift, assert_of hle]
  rfl

theorem Served.promised (h : Served nodeBits past alloc) {i b r : Nat} {q : ByteNode}
    (hi : alloc.nodes[i]? = some p) (hb : q.base = some b) (hle : p.used ≤ r)
    (hstop : r + c.size ≤ q.used) (hsize : 0 < c.size) (hused : q.used ≤ q.size)
    (hmax : q.size ≤ alloc.maxSize) (hdvd : c.align ∣ b + r) :
    Promised nodeBits past alloc { alloc with nodes := alloc.nodes.set i q }
        (c, some (b + r, ref nodeBits i r)) ∧
      Served nodeBits (past ++ [(c, some (b + r, ref nodeBits i r))])
        { alloc with nodes := alloc.nodes.set i q } := by
  have hr : r < offsetMax nodeBits := by
    have htop := h.sound.top
    omega
  have hlt := (List.getElem?_eq_some_iff.mp hi).1
  have hq : (alloc.nodes.set i q)[i]? = some q := List.getElem?_set_self hlt
  have hnode : nodeOf nodeBits (ref nodeBits i r) = i := ref_div hr i
  have hregion : region nodeBits c (ref nodeBits i r) = ⟨r, c.size⟩ := by
    rw [region, ref_mod hr]
    rfl
  have hwithin : q.Within alloc.maxSize := ⟨hmax, hused, fun hnone => by simp [hb] at hnone⟩
  refine ⟨⟨(ref_pos nodeBits i r).ne', ?_, hdvd, ⟨q, b, ?_, hb, ?_, ?_, hused, hmax⟩, ?_⟩,
    ⟨h.sound.init, h.sound.top, fun m hm => ?_⟩, fun d addr r' hy => ?_⟩
  · have hassert : assertInvariants { alloc with nodes := alloc.nodes.set i q } q = .ok () :=
      assertInvariants_of hwithin
    rw [deref, if_neg (ref_pos nodeBits i r).ne', ref_div hr, ref_mod hr]
    simp only [hq, hassert, ok_bind, assert_of (Nat.succ_pos r), hb,
      assert_of (show r + 1 ≤ q.used by omega), Nat.add_sub_cancel, pure_eq_ok]
  · rw [hnode, hq]
  · rw [hregion]
  · rw [hregion]
    exact hstop
  · -- earlier objects of the block lie below its used part
    intro d addr r' hy heq
    obtain ⟨m, hm, hd⟩ := h.owned d addr r' hy
    rw [heq, hnode] at hm
    obtain rfl := Option.some.inj (hi.symm.trans hm)
    rw [hregion]
    exact Or.inl (Nat.le_trans hd hle)
  · rcases List.mem_or_eq_of_mem_set hm with hm | rfl
    · exact h.sound.nodes m hm
    · exact hwithin
  · rcases List.mem_append.mp hy with hy | hy
    · obtain ⟨m, hm, hd⟩ := h.owned d addr r' hy
      by_cases heq : nodeOf nodeBits r' = i
      · rw [heq] at hm ⊢
        obtain rfl := Option.some.inj (hi.symm.trans hm)
        exact ⟨q, hq, by omega⟩
      · exact ⟨m, (List.getElem?_set_ne (Ne.symm heq)).trans hm, hd⟩
    · obtain ⟨rfl, heq⟩ := Prod.mk.inj (List.mem_singleton.mp hy)
      obtain ⟨-, rfl⟩ := Prod.mk.inj (Option.some.inj heq)
      refine ⟨q, by rw [hnode, hq], ?_⟩
      rw [hregion]
      exact hstop

theorem Served.place_room (h : Served nodeBits past alloc) (hc : Request c) {i : Nat}
    (hi : alloc.nodes[i]? = some p) (husable : Usable nodeBits alloc c p)
    (hroom : p.size - p.used ≥ c.size + p.pad c.align) :
    ∃ alloc' x, alloc.place nodeBits c i p (p.pad c.align) = .ok (alloc', x) ∧
      Promised nodeBits past alloc alloc' (c, some x) ∧
      Served nodeBits (past ++ [(c, some x)]) alloc' := by
  have hp := h.sound.nodes p (List.mem_of_getElem? hi)
  have hsize := hc.size
  cases hb : p.base with
  | none =>
    have hzero := hp.unmade hb
    omega
  | some b =>
    have hnone : ¬p.base = none := by simp [hb]
    have hmax := (husable.resolve_left hnone).1
    have hready : alloc.ready p (c.size + p.pad c.align) c.addr = .ok p :=
      if_neg (Nat.not_lt.mpr hroom)
    have hused := hp.used
    have hdvd : c.align ∣ b + (p.used + p.pad c.align) := by
      rw [ByteNode.pad, hb, ← Nat.add_assoc]
      exact dvd_add_padding hc.align_pos
    have hplace := @place_ok nodeBits alloc c p hc _ b i p hmax hready hb rfl
    rw [shift, if_neg hnone] at hplace
    let q : ByteNode := { p with used := p.used + (c.size + p.pad c.align) }
    have hstop : p.used + p.pad c.align + c.size ≤ q.used := by
      simp only [q]
      omega
    have hfit : q.used ≤ q.size := by
      simp only [q]
      omega
    exact ⟨_, _, hplace, h.promised hi (show q.base = some b from hb) (Nat.le_add_right _ _) hstop
      hsize hfit hp.size hdvd⟩

theorem Sound.place_grown (h : Sound nodeBits alloc) (hc : Request c) {i : Nat}
    (hp : p.Within alloc.maxSize) (hfull : p.size - p.used < c.size + p.pad c.align)
    (hfits : p.used + (c.size + p.pad c.align) ≤ alloc.maxSize) :
    ∃ s, p.used + (c.size + p.pad c.align) ≤ s ∧ s ≤ alloc.maxSize ∧
      alloc.place nodeBits c i p (p.pad c.align) = .ok ({ alloc with
          nodes := alloc.nodes.set i ⟨some c.addr, s, p.used + (c.size + p.pad c.align)⟩ },
        c.addr + (p.used + shift p c.addr c.align (p.pad c.align)),
        ref nodeBits i (p.used + shift p c.addr c.align (p.pad c.align))) := by
  have hsize := hc.size
  have htop := h.top
  have hmax : p.used + p.pad c.align < offsetMax nodeBits := by omega
  rcases h.grow hp hfull c.addr with ⟨s, hgrow, hle, hs, -⟩ | ⟨-, hlt⟩
  · have hready : alloc.ready p (c.size + p.pad c.align) c.addr = .ok ⟨some c.addr, s, p.used⟩ := by
      rw [ready, if_pos hfull, hgrow]
    exact ⟨s, hle, hs, place_ok hc hmax hready rfl rfl⟩
  · omega

theorem dvd_shift (hc : Request c) :
    c.align ∣ c.addr + (p.used + shift p c.addr c.align (p.pad c.align)) ↔
      ∀ base, p.base = some base → c.align ∣ base := by
  rw [shift, Nat.dvd_add_right hc.realloc]
  cases hb : p.base with
  | none =>
    rw [if_pos rfl]
    have hdvd := @dvd_add_padding (c.addr + p.used) c.align hc.align_pos
    rw [Nat.add_assoc, Nat.dvd_add_right hc.realloc] at hdvd
    exact ⟨fun _ base h => (nomatch h), fun _ => hdvd⟩
  | some base =>
    have hdvd : c.align ∣ base + (p.used + p.pad c.align) := by
      rw [ByteNode.pad, hb, ← Nat.add_assoc]
      exact dvd_add_padding hc.align_pos
    have hne : ¬some base = none := by simp
    rw [if_neg hne]
    constructor
    · rintro h base' heq
      obtain rfl := Option.some.inj heq
      exact (Nat.dvd_add_left h).mp hdvd
    · intro h
      exact (Nat.dvd_add_right (h base rfl)).mp hdvd

theorem serve_none (hc : Request c)
    (h : pick nodeBits alloc c.size c.align alloc.nodes 0 = .ok none) :
    serve nodeBits alloc c = .ok (alloc, c, none) := by
  rw [serve, allocate, assert_of hc.size, ok_bind, assert_of hc.pow2, ok_bind, h]
  rfl

theorem serve_some (hc : Request c) {i a : Nat}
    (h : pick nodeBits alloc c.size c.align alloc.nodes 0 = .ok (some (i, p, a))) :
    serve nodeBits alloc c =
      alloc.place nodeBits c i p a >>= fun x => .ok (x.1, c, some x.2) := by
  rw [serve, allocate, assert_of hc.size, ok_bind, assert_of hc.pow2, ok_bind, h, ok_bind,
    bind_assoc]
  rfl

theorem serve_good (past : List (ByteCall × Option (Nat × Nat))) (alloc : ByteAlloc)
    (c : ByteCall) (h : Served nodeBits past alloc) (hc : Request c)
    (hfits : FirstTakes nodeBits alloc c) :
    ∃ alloc' y, serve nodeBits alloc c = .ok (alloc', y) ∧ Promised nodeBits past alloc alloc' y ∧
      Served nodeBits (past ++ [y]) alloc' := by
  rcases @pick_spec nodeBits alloc c hc h.sound.max_lt alloc.nodes h.sound.nodes 0 with
    ⟨hnone, -⟩ | ⟨i, p, hpick, hi, hfind⟩
  · refine ⟨alloc, (c, none), serve_none hc hnone, rfl, h.sound, fun d addr r hy => ?_⟩
    rcases List.mem_append.mp hy with hy | hy
    · exact h.owned d addr r hy
    · cases List.mem_singleton.mp hy
  rw [Nat.zero_add] at hpick
  have hp := h.sound.nodes p (List.mem_of_getElem? hi)
  have husable : Usable nodeBits alloc c p := by simpa using List.find?_some hfind
  obtain ⟨alloc', x, hplace, hmet, hserved⟩ : ∃ alloc' x,
      alloc.place nodeBits c i p (p.pad c.align) = .ok (alloc', x) ∧
      Promised nodeBits past alloc alloc' (c, some x) ∧
      Served nodeBits (past ++ [(c, some x)]) alloc' := by
    by_cases hroom : p.size - p.used ≥ c.size + p.pad c.align
    · exact h.place_room hc hi husable hroom
    · obtain ⟨hfit, hdvd⟩ := (hfits p hfind).resolve_left hroom
      obtain ⟨s, hle, hs, hplace⟩ :=
        h.sound.place_grown hc hp (Nat.lt_of_not_le hroom) hfit
      have hshift := @shift_le c p hc c.addr
      have hstop : p.used + shift p c.addr c.align (p.pad c.align) + c.size ≤
          p.used + (c.size + p.pad c.align) := by omega
      exact ⟨_, _, hplace, h.promised hi rfl (Nat.le_add_right _ _) hstop hc.size hle hs
        ((dvd_shift hc).mpr hdvd)⟩
  refine ⟨alloc', (c, some x), ?_, hmet, hserved⟩
  rw [serve_some hc hpick, hplace, ok_bind]

theorem serve_bad (past : List (ByteCall × Option (Nat × Nat))) (alloc : ByteAlloc)
    (c : ByteCall) (alloc' : ByteAlloc) (y : ByteCall × Option (Nat × Nat))
    (h : Served nodeBits past alloc) (hc : Request c)
    (hserve : serve nodeBits alloc c = .ok (alloc', y))
    (hmet : Promised nodeBits past alloc alloc' y) : FirstTakes nodeBits alloc c := by
  intro p hfind
  rcases @pick_spec nodeBits alloc c hc h.sound.max_lt alloc.nodes h.sound.nodes 0 with
    ⟨-, hnone⟩ | ⟨i, p', hpick, hi, hfind'⟩
  · rw [hnone] at hfind
    cases hfind
  obtain rfl := Option.some.inj (hfind'.symm.trans hfind)
  rw [Nat.zero_add] at hpick
  have hp := h.sound.nodes p' (List.mem_of_getElem? hi)
  by_cases hroom : p'.size - p'.used ≥ c.size + p'.pad c.align
  · exact Or.inl hroom
  have hfull := Nat.lt_of_not_le hroom
  rw [serve_some hc hpick] at hserve
  by_cases hfits : p'.used + (c.size + p'.pad c.align) ≤ alloc.maxSize
  · obtain ⟨s, -, -, hplace⟩ := h.sound.place_grown hc hp hfull hfits
    rw [hplace, ok_bind] at hserve
    obtain ⟨rfl, rfl⟩ := Prod.mk.inj (Except.ok.inj hserve)
    exact Or.inr ⟨hfits, (dvd_shift hc).mp hmet.2.2.1⟩
  · exfalso
    obtain ⟨x, hplace, -⟩ := bind_eq_ok.mp hserve
    obtain ⟨u, -, hplace⟩ := bind_eq_ok.mp hplace
    obtain ⟨q, hready, -⟩ := bind_eq_ok.mp hplace
    rw [ready, if_pos hfull] at hready
    rcases h.sound.grow hp hfull c.addr with ⟨-, -, -, -, hle⟩ | ⟨⟨e, he⟩, -⟩
    · exact hfits hle
    · rw [he] at hready
      cases hready

end

end ByteAlloc

open ByteAlloc in
/-- All calls of a run are answered as promised if and only if in each of them the first
usable block takes the request. -/
theorem byte_alloc_run_iff {nodeBits initSize maxSize : Nat} {alloc : ByteAlloc}
    (hbits : nodeBits ≤ 4) (h : ByteAlloc.init nodeBits initSize maxSize = .ok alloc)
    {cs : List ByteCall} (hcs : ∀ c ∈ cs, Request c) :
    Meets (serve nodeBits) (Promised nodeBits) [] alloc cs ↔
      Along (serve nodeBits) (FirstTakes nodeBits) alloc cs :=
  meets_iff_along serve_good serve_bad (served_init hbits h) hcs

open ByteAlloc in
theorem byte_alloc_run_grown :
    ∃ alloc, ByteAlloc.init 0 8 32 = .ok alloc ∧
      Meets (serve 0) (Promised 0) [] alloc [⟨7, 1, 4096⟩, ⟨9, 4, 8192⟩] := by
  have hinit : ByteAlloc.init 0 8 32 = .ok ⟨[⟨none, 0, 0⟩], 8, 32⟩ := rfl
  have hcs : ∀ c ∈ [(⟨7, 1, 4096⟩ : ByteCall), ⟨9, 4, 8192⟩], Request c := by
    intro c hc
    simp only [List.mem_cons, List.not_mem_nil, or_false] at hc
    rcases hc with rfl | rfl
    · exact ⟨by decide, ⟨0, rfl⟩, by decide, by decide⟩
    · exact ⟨by decide, ⟨2, rfl⟩, by decide, by decide⟩
  have h₁ : serve 0 ⟨[⟨none, 0, 0⟩], 8, 32⟩ ⟨7, 1, 4096⟩ =
      .ok (⟨[⟨some 4096, 8, 8⟩], 8, 32⟩, ⟨7, 1, 4096⟩, some (4096, 1)) := rfl
  have h₂ : serve 0 ⟨[⟨some 4096, 8, 8⟩], 8, 32⟩ ⟨9, 4, 8192⟩ =
      .ok (⟨[⟨some 8192, 32, 17⟩], 8, 32⟩, ⟨9, 4, 8192⟩, some (8200, 9)) := rfl
  have hfits₁ : FirstTakes 0 ⟨[⟨none, 0, 0⟩], 8, 32⟩ ⟨7, 1, 4096⟩ := by
    intro p hp
    obtain rfl := Option.some.inj hp
    exact Or.inr ⟨by decide, fun base h => nomatch h⟩
  have hfits₂ : FirstTakes 0 ⟨[⟨some 4096, 8, 8⟩], 8, 32⟩ ⟨9, 4, 8192⟩ := by
    intro p hp
    obtain rfl := Option.some.inj hp
    refine Or.inr ⟨by decide, fun base h => ?_⟩
    obtain rfl := Option.some.inj h
    decide
  exact ⟨_, hinit, (byte_alloc_run_iff (by decide) hinit hcs).mpr
    (.cons h₁ hfits₁ (.cons h₂ hfits₂ trivial))⟩

open ByteAlloc in
/-- The first of two blocks can grow, but not far enough, and the second one is not tried. -/
theorem byte_alloc_run_stopped :
    ∃ alloc alloc', ByteAlloc.init 1 8 16 = .ok alloc ∧
      Request ⟨7, 1, 4096⟩ ∧ Request ⟨9, 1, 8192⟩ ∧
      serve 1 alloc ⟨7, 1, 4096⟩ = .ok (alloc', ⟨7, 1, 4096⟩, some (4096, 1)) ∧
      alloc'.nodes = [⟨some 4096, 8, 8⟩, ⟨none, 0, 0⟩] ∧
      serve 1 alloc' ⟨9, 1, 8192⟩ = .error .assertion ∧
      ¬Meets (serve 1) (Promised 1) [] alloc [⟨7, 1, 4096⟩, ⟨9, 1, 8192⟩] := by
  refine ⟨⟨[⟨none, 0, 0⟩, ⟨none, 0, 0⟩], 8, 16⟩, ⟨[⟨some 4096, 8, 8⟩, ⟨none, 0, 0⟩], 8, 16⟩, rfl,
    ⟨by decide, ⟨0, rfl⟩, by decide, by decide⟩, ⟨by decide, ⟨0, rfl⟩, by decide, by decide⟩, rfl, rfl,
    rfl, ?_⟩
  rintro ⟨alloc₁, y₁, h₁, -, alloc₂, y₂, h₂, -⟩
  obtain ⟨rfl, rfl⟩ := Prod.mk.inj (Except.ok.inj h₁)
  cases h₂

end PathSet
