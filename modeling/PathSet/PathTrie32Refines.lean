import PathSet.PathTrie32
import PathSet.PathTrieRepresents

/-!
The path trie over offsets refines the one over pointers. An offset is the number of
the pointer's node, an insertion point denotes the same link, and its address, once
computed, is that of the link as long as no node is made.
-/

namespace PathSet
open Fallible Pointer LinkedTree TernaryTree FirstSeen

section
variable {σ : Type} {w : Nat}

def PathTrieNode.link (c : PathTrieNode w) : Link → Nat
  | .root => 0
  | .lo _ => c.lo
  | .hi _ => c.hi
  | .eq _ => c.u

def PathTrieNode.setLink (c : PathTrieNode w) (x : Nat) : Link → PathTrieNode w
  | .root => c
  | .lo _ => { c with lo := x }
  | .hi _ => { c with hi := x }
  | .eq _ => { c with u := x }

theorem PathTrieNode.link_setLink (c : PathTrieNode w) (x : Nat) {l : Link} (hl : l ≠ .root) :
    (c.setLink x l).link l = x := by
  cases l with
  | root => exact absurd rfl hl
  | lo p => rfl
  | hi p => rfl
  | eq p => rfl

theorem PathTrie.load_of_ne {v : PathTrie σ w} {l : Link} (hl : l ≠ .root) :
    v.load l = (do pure ((← v.node l.owner).link l) : Outcome Nat) := by
  cases l with
  | root => exact absurd rfl hl
  | lo p => rfl
  | hi p => rfl
  | eq p => rfl

theorem PathTrie.assign_of_ne {v : PathTrie σ w} {l : Link} (hl : l ≠ .root) (x : Nat) :
    v.assign x l = { v with nodes := update v.nodes (fun c => c.setLink x l) l.owner } := by
  cases l with
  | root => exact absurd rfl hl
  | lo p => rfl
  | hi p => rfl
  | eq p => rfl

theorem PathTrie.node_of_deref {v : PathTrie σ w} {p : Nat} {c : PathTrieNode w}
    (h : deref v.nodes p = some c) : v.node p = .ok c := by
  rw [PathTrie.node, h]

theorem PathTrie.load_cases {v : PathTrie σ w} {l : Link} {x : Nat} (h : v.load l = .ok x) :
    (l = .root ∧ x = v.rootNode) ∨
      (l ≠ .root ∧ ∃ c, deref v.nodes l.owner = some c ∧ x = c.link l) := by
  by_cases hl : l = .root
  · subst hl
    exact Or.inl ⟨rfl, (Except.ok.inj h).symm⟩
  · rw [load_of_ne hl, node] at h
    cases hc : deref v.nodes l.owner with
    | none =>
      rw [hc] at h
      cases h
    | some c =>
      rw [hc] at h
      exact Or.inr ⟨hl, c, rfl, (Except.ok.inj h).symm⟩

end

namespace PathTrie32

variable {σ : Type} {w : Nat}

/-- The same trie, its nodes kept by the allocator. -/
structure Refines (t : PathTrie32 σ w) (v : PathTrie σ w) : Prop where
  elemSet : t.elemSet = v.elemSet
  nodes : t.nodeAlloc.Keeps v.nodes
  root : t.rootNode = v.rootNode
  sepSet : t.sepSet = v.sepSet
  stats : t.stats = v.stats
  nodeStruct : t.nodeStruct = v.nodeStruct

def linkName : Link → LinkName
  | .root => .self
  | .lo _ => .lo
  | .hi _ => .hi
  | .eq _ => .eq

structure Denotes (ptr : Ptr2) (l : Link) : Prop where
  link : ptr.link = linkName l
  base : ptr.base = l.owner
  root : l = .root → ptr.self = some .root

def AddrOf (t : PathTrie32 σ w) (l : Link) (a : LinkAddr) : Prop :=
  if l = .root then a = .root
  else ∃ p, t.node l.owner = .ok (some p) ∧ a = .member p (linkName l)

theorem denotes_root : Denotes rootToPtr2 .root := ⟨rfl, rfl, fun _ => rfl⟩

section
variable {t : PathTrie32 σ w} {v : PathTrie σ w}

theorem Refines.nodes_eq (h : Refines t v) : t.nodes = v.nodes := by
  obtain ⟨n, hn, hobjs⟩ := h.nodes
  rw [PathTrie32.nodes, hn.nodes]
  simpa using hobjs

theorem Refines.room (h : Refines t v) : v.nodes.length ≤ 2 ^ 32 - 1 := by
  obtain ⟨n, hn, hobjs⟩ := h.nodes
  rw [← hobjs]
  exact hn.used_le

theorem Refines.node (h : Refines t v) {p : Nat} {c : PathTrieNode w} (hc : deref v.nodes p = some c) :
    ∃ q, t.node p = .ok (some q) ∧ t.nodeAlloc.read q = .ok c := by
  obtain ⟨q, hq, hread, -⟩ := ObjAlloc.deref_spec h.nodes hc
  exact ⟨q, hq, hread⟩

theorem node_zero (t : PathTrie32 σ w) : t.node 0 = .ok none := rfl

theorem load_member (t : PathTrie32 σ w) (p : ObjPtr) {l : Link} (hl : l ≠ .root) :
    t.load (.member p (linkName l)) = (do pure ((← t.nodeAlloc.read p).link l) : Outcome Nat) := by
  cases l with
  | root => exact absurd rfl hl
  | lo q => rfl
  | hi q => rfl
  | eq q => rfl

theorem assign_member (t : PathTrie32 σ w) (p : ObjPtr) {l : Link} (hl : l ≠ .root) (x : Nat) :
    t.assign x (.member p (linkName l)) = t.modify p fun c => c.setLink x l := by
  cases l with
  | root => exact absurd rfl hl
  | lo q => rfl
  | hi q => rfl
  | eq q => rfl

theorem ptr2Deref_spec (h : Refines t v) {ptr : Ptr2} {l : Link} {x : Nat} (hd : Denotes ptr l)
    (hx : v.load l = .ok x) :
    ∃ ptr' a, t.ptr2Deref ptr = .ok ptr' ∧ Denotes ptr' l ∧ ptr'.self = some a ∧ t.AddrOf l a := by
  rcases PathTrie.load_cases hx with ⟨rfl, -⟩ | ⟨hl, c, hc, -⟩
  · have hself : ptr.link = .self := hd.link
    refine ⟨ptr, .root, ?_, hd, hd.root rfl, rfl⟩
    rw [ptr2Deref, if_neg (not_not.mpr hself)]
    rfl
  · obtain ⟨q, hq, -⟩ := h.node hc
    have hself : ptr.link ≠ .self := by
      rw [hd.link]
      cases l <;> simp [linkName] at hl ⊢
    refine ⟨{ ptr with self := some (.member q ptr.link) }, .member q ptr.link, ?_,
      ⟨hd.link, hd.base, fun he => absurd he hl⟩, rfl, ?_⟩
    · rw [ptr2Deref, if_pos hself, hd.base, hq]
      rfl
    · rw [AddrOf, if_neg hl]
      exact ⟨q, hq, by rw [hd.link]⟩

theorem load_addr (h : Refines t v) {l : Link} {a : LinkAddr} {x : Nat} (ha : t.AddrOf l a)
    (hx : v.load l = .ok x) : t.load a = .ok x := by
  rcases PathTrie.load_cases hx with ⟨rfl, rfl⟩ | ⟨hl, c, hc, rfl⟩
  · obtain rfl : a = .root := by simpa [AddrOf] using ha
    rw [load, h.root]
  · obtain ⟨q, hq, hread⟩ := h.node hc
    rw [AddrOf, if_neg hl] at ha
    obtain ⟨q', hq', rfl⟩ := ha
    obtain rfl : q = q' := Option.some.inj (Except.ok.inj (hq.symm.trans hq'))
    rw [load_member t q hl, hread]
    rfl

theorem modify_spec (h : Refines t v) {r : Nat} {p : ObjPtr} (hp : t.node r = .ok (some p))
    (hr : (deref v.nodes r).isSome) (f : PathTrieNode w → PathTrieNode w) :
    ∃ t', t.modify p f = .ok t' ∧ Refines t' { v with nodes := update v.nodes f r } ∧
      ∀ r', t'.node r' = t.node r' := by
  obtain ⟨alloc, hmod, hkeeps, hsame⟩ := ObjAlloc.modify_spec h.nodes f hp hr
  refine ⟨{ t with nodeAlloc := alloc }, ?_,
    ⟨h.elemSet, hkeeps, h.root, h.sepSet, h.stats, h.nodeStruct⟩, hsame⟩
  rw [modify, hmod]
  rfl

theorem assign_addr (h : Refines t v) {l : Link} {a : LinkAddr} {x : Nat} (ha : t.AddrOf l a)
    (hx : v.load l = .ok x) (y : Nat) :
    ∃ t', t.assign y a = .ok t' ∧ Refines t' (v.assign y l) ∧ ∀ r, t'.node r = t.node r := by
  rcases PathTrie.load_cases hx with ⟨rfl, -⟩ | ⟨hl, c, hc, -⟩
  · obtain rfl : a = .root := by simpa [AddrOf] using ha
    exact ⟨_, rfl, ⟨h.elemSet, h.nodes, rfl, h.sepSet, h.stats, h.nodeStruct⟩, fun _ => rfl⟩
  · rw [AddrOf, if_neg hl] at ha
    obtain ⟨q, hq, rfl⟩ := ha
    rw [assign_member t q hl, PathTrie.assign_of_ne hl]
    exact modify_spec h hq (by rw [hc]; rfl) _

end

end PathTrie32

structure PathTrie.Closed {σ : Type} {w : Nat} (v : PathTrie σ w) : Prop where
  root : v.rootNode ≤ v.nodes.length
  links : ∀ p c, deref v.nodes p = some c →
    c.lo ≤ v.nodes.length ∧ c.hi ≤ v.nodes.length ∧ (c.elem ≠ 0 → c.u ≤ v.nodes.length)

namespace PathTrie32

variable {σ : Type} {w : Nat}

section
variable {t : PathTrie32 σ w} {v : PathTrie σ w}

structure Located (t : PathTrie32 σ w) (ptr : Ptr2) (l : Link) : Prop where
  denotes : Denotes ptr l
  addr : ∃ a, ptr.self = some a ∧ t.AddrOf l a

theorem ptr2DerefNode_spec (h : Refines t v) {ptr : Ptr2} {l : Link} {x : Nat}
    (hd : Denotes ptr l) (hx : v.load l = .ok x) (hle : x ≤ v.nodes.length) :
    ∃ ptr' o, t.ptr2DerefNode ptr = .ok (ptr', o) ∧ t.Located ptr' l ∧ t.node x = .ok o ∧
      (x = 0 ∨ ∃ p c, o = some p ∧ deref v.nodes x = some c ∧ t.nodeAlloc.read p = .ok c) := by
  obtain ⟨ptr', a, hderef, hd', hself, ha⟩ := ptr2Deref_spec h hd hx
  have hload := load_addr h ha hx
  have haddr : selfAddr ptr' = .ok a := by rw [selfAddr, hself]
  have hne : ptr'.self ≠ none := by simp [hself]
  have hrun : ∀ o, t.node x = .ok o → t.ptr2DerefNode ptr = .ok (ptr', o) := by
    intro o ho
    rw [ptr2DerefNode, hderef, ok_bind, assert_of hne, ok_bind, haddr, ok_bind, hload, ok_bind, ho]
    rfl
  by_cases hz : x = 0
  · subst hz
    exact ⟨ptr', none, hrun _ rfl, ⟨hd', a, hself, ha⟩, rfl, Or.inl rfl⟩
  · obtain ⟨c, hc⟩ := Option.isSome_iff_exists.mp
      (deref_isSome.mpr ⟨Nat.pos_of_ne_zero hz, hle⟩ : (deref v.nodes x).isSome)
    obtain ⟨q, hq, hread⟩ := h.node hc
    exact ⟨ptr', some q, hrun _ hq, ⟨hd', a, hself, ha⟩, hq, Or.inr ⟨q, c, rfl, hc, hread⟩⟩

theorem linkToPtr2_spec (h : Refines t v) {ptr : Ptr2} {l : Link} {x : Nat} (hp : t.Located ptr l)
    (hx : v.load l = .ok x) (name : LinkName) :
    t.linkToPtr2 name ptr = .ok ⟨name, none, x⟩ := by
  obtain ⟨a, hself, ha⟩ := hp.addr
  rw [linkToPtr2, selfAddr, hself]
  simp only [ok_bind, load_addr h ha hx]
  rfl

inductive Arrives (t : PathTrie32 σ w) (v : PathTrie σ w) : Descent w → PathTrie.Descent w → Prop
  | dup {p : ObjPtr} {node : Nat} (h : t.node node = .ok (some p))
      (hsome : (deref v.nodes node).isSome) : Arrives t v (.dup p) (.dup node)
  | hole {ptr : Ptr2} {l : Link} {cur : PathTrie.Cursor w} (hd : Denotes ptr l)
      (hx : v.load l = .ok 0) : Arrives t v (.hole ptr cur) (.hole l cur)

theorem descend_refines (U : UintHash w) (E : ElemSet σ w) (h : Refines t v) (hclosed : v.Closed)
    {fuel : Nat} {s : σ} {l : Link} {ptr : Ptr2} {cur : PathTrie.Cursor w} {stats : PathTrieStats}
    {x : Nat} (hd : Denotes ptr l) (hx : v.load l = .ok x) (hle : x ≤ v.nodes.length) :
    Agree (fun r r' => Arrives t v r.1 r'.1 ∧ r.2 = r'.2) (descend U E t fuel s ptr cur stats)
      (PathTrie.descend U E v fuel s l cur stats) := by
  induction fuel generalizing s l ptr cur stats x with
  | zero => rfl
  | succ fuel ih =>
    obtain ⟨ptr', o, hderef, hp, ho, hnode⟩ := ptr2DerefNode_spec h hd hx hle
    rw [descend, hderef, ok_bind, PathTrie.descend, hx, ok_bind]
    rcases hnode with rfl | ⟨p, c, rfl, hc, hread⟩
    · obtain rfl : o = none := (Except.ok.inj ho).symm
      exact ⟨.hole hp.denotes hx, rfl⟩
    · have hne : x ≠ 0 := by
        rintro rfl
        simp at hc
      have hvnode : v.node x = .ok c := by rw [PathTrie.node, hc]
      obtain ⟨hlo, hhi, heq⟩ := hclosed.links x c hc
      simp only [if_neg hne, hread, hvnode, ok_bind, h.sepSet, linkToPtr2_spec h hp hx]
      refine agree_bind _ fun p _ => ?_
      obtain ⟨s', cur'⟩ := p
      dsimp only
      split_ifs with he hz
      · exact ⟨.dup ho (Option.isSome_iff_exists.mpr ⟨c, hc⟩), rfl⟩
      · refine ih ⟨rfl, rfl, by simp⟩ ?_ (heq (he ▸ hz))
        rw [PathTrie.load, hvnode]
        rfl
      · refine agree_bind _ fun b _ => ?_
        cases b
        · refine ih ⟨rfl, rfl, by simp⟩ ?_ hhi
          rw [PathTrie.load, hvnode]
          rfl
        · refine ih ⟨rfl, rfl, by simp⟩ ?_ hlo
          rw [PathTrie.load, hvnode]
          rfl

end

end PathTrie32

end PathSet
