import PathSet.PathTrie32Refines
import PathSet.PathTrieDictionary
import PathSet.Sets

/-!
The second loop of an insertion over offsets. Every new node may move the table: the
address of the insertion point is computed after the allocation, and the link it leads
to then holds the offset of the new node.
-/

namespace PathSet
open Fallible Pointer LinkedTree TernaryTree FirstSeen

namespace PathTrie

variable {σ : Type} {w : Nat} {v : PathTrie σ w}

theorem load_newNode {l : Link} {x : Nat} (hx : v.load l = .ok x) (e : BitVec w) :
    (newNode v e l).1.load l = .ok (v.nodes.length + 1) := by
  rcases load_cases hx with ⟨rfl, -⟩ | ⟨hl, c, hc, -⟩
  · rfl
  · have hnew : deref (update v.nodes (fun c => c.setLink (v.nodes.length + 1) l) l.owner) l.owner =
        some (c.setLink (v.nodes.length + 1) l) := by
      rw [deref_update, if_pos rfl, hc]
      rfl
    rw [load_of_ne hl, newNode, assign_of_ne hl, node_of_deref (deref_append_left _ hnew), ok_bind,
      c.link_setLink _ hl]
    rfl

theorem nodes_newNode (v : PathTrie σ w) (e : BitVec w) (l : Link) :
    (newNode v e l).1.nodes =
      update v.nodes (fun c => c.setLink (v.nodes.length + 1) l) l.owner ++ [⟨e, 0, 0, 0⟩] := by
  by_cases hl : l = .root
  · subst hl
    rfl
  · rw [newNode, assign_of_ne hl]

theorem length_newNode (v : PathTrie σ w) (e : BitVec w) (l : Link) :
    (newNode v e l).1.nodes.length = v.nodes.length + 1 := by
  rw [nodes_newNode, List.length_append, length_update, List.length_singleton]

theorem closed_of_holds {U : UintHash w} {T : SearchTree (BitVec w)} (h : Holds U v T) :
    v.Closed := by
  constructor
  · have hroot := rep_root_le h.layout.1
    rwa [length_store] at hroot
  · intro p c hc
    have hcell : deref v.store.cells p = some c.cell := by rw [store, deref_map, hc]; rfl
    have hlinks := rep_links_le h.layout.1 (h.layout.mem_ids hcell) hcell
    rw [length_store] at hlinks
    exact hlinks

end PathTrie

namespace PathTrie32

variable {σ : Type} {w : Nat}

section
variable {t : PathTrie32 σ w} {v : PathTrie σ w}

theorem addrOf_congr {t' : PathTrie32 σ w} (h : ∀ r, t'.node r = t.node r) {l : Link} {a : LinkAddr}
    (ha : t.AddrOf l a) : t'.AddrOf l a := by
  simpa only [AddrOf, h] using ha

def allocated (v : PathTrie σ w) : PathTrie σ w :=
  { v with nodes := v.nodes ++ [⟨0, 0, 0, 0⟩], nodeStruct := v.nodeStruct + 1 }

theorem load_allocated {l : Link} {x : Nat} (hx : v.load l = .ok x) :
    (allocated v).load l = .ok x := by
  rcases PathTrie.load_cases hx with ⟨rfl, rfl⟩ | ⟨hl, c, hc, rfl⟩
  · rfl
  · have hc' : deref (allocated v).nodes l.owner = some c := deref_append_left _ hc
    rw [PathTrie.load_of_ne hl, PathTrie.node_of_deref hc']
    rfl

/-- An allocation, a write to a link and one to the new node make `PATH_TRIE_NEW_NODE`. -/
theorem newNode_eq {l : Link} {x : Nat} (hx : v.load l = .ok x) (e : BitVec w) :
    let v₂ := (allocated v).assign (v.nodes.length + 1) l
    { v₂ with nodes := update v₂.nodes (fun c => { c with elem := e }) (v.nodes.length + 1) } =
      (PathTrie.newNode v e l).1 := by
  rcases PathTrie.load_cases hx with ⟨rfl, -⟩ | ⟨hl, c, hc, -⟩
  · simp only [allocated, PathTrie.assign, PathTrie.newNode, update_append_last]
  · have howner := (deref_le_length hc).2
    have hlast := update_append_last
      (update v.nodes (fun c => c.setLink (v.nodes.length + 1) l) l.owner)
      (⟨0, 0, 0, 0⟩ : PathTrieNode w) fun c => { c with elem := e }
    rw [length_update] at hlast
    simp only [allocated, PathTrie.newNode, PathTrie.assign_of_ne hl, update_append_left _ _ howner,
      hlast]

theorem newNode_refines (h : Refines t v) {ptr : Ptr2} {l : Link} {x objSize : Nat}
    (hd : Denotes ptr l) (hx : v.load l = .ok x) (e : BitVec w) (hobj : objSize ≤ 2 ^ 31)
    (hroom : v.nodes.length < 2 ^ 32 - 1) :
    ∃ t' ptr' p, newNode objSize t e ptr = .ok (t', ptr', p) ∧
      Refines t' (PathTrie.newNode v e l).1 ∧ t'.Located ptr' l ∧
      t'.node (v.nodes.length + 1) = .ok (some p) := by
  obtain ⟨alloc, p, halloc, hkeeps, hp⟩ := ObjAlloc.allocate_room ⟨0, 0, 0, 0⟩ h.nodes hobj hroom
  let t₁ : PathTrie32 σ w := { t with nodeAlloc := alloc, nodeStruct := t.nodeStruct + 1 }
  have h₁ : Refines t₁ (allocated v) :=
    ⟨h.elemSet, hkeeps, h.root, h.sepSet, h.stats, congrArg (· + 1) h.nodeStruct⟩
  have hx₁ := load_allocated hx
  obtain ⟨ptr', a, hderef, hd', hself, ha⟩ := ptr2Deref_spec h₁ hd hx₁
  -- the address is computed after the allocation, and written to before the next one
  obtain ⟨t₂, hassign, h₂, hsame₂⟩ := assign_addr h₁ ha hx₁ (v.nodes.length + 1)
  have hp₂ : t₂.node (v.nodes.length + 1) = .ok (some p) := (hsame₂ _).trans hp
  have hlen₂ : ((allocated v).assign (v.nodes.length + 1) l).nodes.length = v.nodes.length + 1 := by
    cases l <;> simp [PathTrie.assign, allocated]
  obtain ⟨t₃, hmod, h₃, hsame₃⟩ := modify_spec h₂ hp₂
    (deref_isSome.mpr ⟨Nat.succ_pos _, Nat.le_of_eq hlen₂.symm⟩) fun c => { c with elem := e }
  rw [newNode_eq hx e] at h₃
  refine ⟨t₃, ptr', p, ?_, h₃, ⟨hd', a, hself, addrOf_congr hsame₃ (addrOf_congr hsame₂ ha)⟩,
    (hsame₃ _).trans hp₂⟩
  have haddr : selfAddr ptr' = .ok a := by rw [selfAddr, hself]
  rw [newNode, halloc, ok_bind]
  simp only [assert_of (Nat.succ_pos v.nodes.length), ok_bind]
  rw [hderef, ok_bind, haddr, ok_bind, hassign, ok_bind, hmod]
  rfl

theorem newNode_full (h : Refines t v) {ptr : Ptr2} {objSize : Nat} (e : BitVec w)
    (hfull : v.nodes.length = 2 ^ 32 - 1) :
    newNode objSize t e ptr = .error (.ensure "path trie node alloc failed") := by
  rw [newNode, ObjAlloc.allocate_full ⟨0, 0, 0, 0⟩ h.nodes hfull]
  rfl

theorem primaryInvariant_spec (h : Refines t v) {ptr : Ptr2} {l : Link} {x : Nat} {p : ObjPtr}
    (hp : t.Located ptr l) (hx : v.load l = .ok x) (hnode : t.node x = .ok (some p)) :
    t.primaryInvariant ptr p = .ok () := by
  obtain ⟨a, hself, ha⟩ := hp.addr
  rw [primaryInvariant, selfAddr, hself]
  simp only [ok_bind, load_addr h ha hx, hnode, assert_of]

/-- The table is full, and the pointers need more nodes than there are offsets. -/
def Overflows {α β : Type} (count : β → Nat) (x : Outcome α) (y : Outcome β) : Prop :=
  x = .error (.ensure "path trie node alloc failed") ∧ ∀ b, y = .ok b → 2 ^ 32 - 1 < count b

def Tracks {α β : Type} (count : β → Nat) (R : α → β → Prop) (x : Outcome α) (y : Outcome β) : Prop :=
  Overflows count x y ∨ Agree R x y

theorem Tracks.bind {α β γ δ : Type} {count : β → Nat} {count' : δ → Nat} {R : α → β → Prop}
    {S : γ → δ → Prop} {x : Outcome α} {y : Outcome β} {f : α → Outcome γ} {g : β → Outcome δ}
    (h : Tracks count R x y) (hle : ∀ b d, g b = .ok d → count b ≤ count' d)
    (hfg : ∀ a b, R a b → Tracks count' S (f a) (g b)) : Tracks count' S (x >>= f) (y >>= g) := by
  rcases h with ⟨rfl, hy⟩ | h
  · refine Or.inl ⟨rfl, fun d hd => ?_⟩
    obtain ⟨b, hb, hgb⟩ := bind_eq_ok.mp hd
    exact Nat.lt_of_lt_of_le (hy b hb) (hle b d hgb)
  · cases x with
    | error e =>
      cases y with
      | error e' => exact Or.inr h
      | ok b => exact h.elim
    | ok a =>
      cases y with
      | error e' => exact h.elim
      | ok b => exact hfg a b h

theorem Tracks.and_ok {α β : Type} {count : β → Nat} {R : α → β → Prop} {P : β → Prop}
    {x : Outcome α} {y : Outcome β} (h : Tracks count R x y) (hP : ∀ b, y = .ok b → P b) :
    Tracks count (fun a b => R a b ∧ P b) x y := by
  rcases h with h | h
  · exact Or.inl h
  · right
    cases y with
    | error e =>
      cases x with
      | error e' => exact h
      | ok a => exact h.elim
    | ok b =>
      obtain ⟨a, rfl, hab⟩ := h.ok_right
      exact ⟨hab, hP b rfl⟩

theorem tracks_bind {α γ δ : Type} {count : δ → Nat} {S : γ → δ → Prop} (x : Outcome α)
    {f : α → Outcome γ} {g : α → Outcome δ} (h : ∀ a, x = .ok a → Tracks count S (f a) (g a)) :
    Tracks count S (x >>= f) (x >>= g) := by
  cases x with
  | error e => exact Or.inr rfl
  | ok a => exact h a rfl

theorem length_build {E : ElemSet σ w} {fuel : Nat} {v : PathTrie σ w} {l : Link}
    {cur : PathTrie.Cursor w} {r : PathTrie σ w × Nat} (h : PathTrie.build E fuel v l cur = .ok r) :
    v.nodes.length < r.1.nodes.length := by
  induction fuel generalizing v l cur with
  | zero => cases h
  | succ fuel ih =>
    rw [PathTrie.build] at h
    obtain ⟨⟨s, cur'⟩, -, h⟩ := bind_eq_ok.mp h
    have hlen := PathTrie.length_newNode { v with elemSet := s } cur'.elem l
    dsimp only at h hlen
    split_ifs at h with he
    · obtain rfl := Except.ok.inj h
      exact Nat.lt_of_lt_of_eq (Nat.lt_succ_self _) hlen.symm
    · have hlt := ih h
      omega

def Made (r : PathTrie32 σ w × ObjPtr) (r' : PathTrie σ w × Nat) : Prop :=
  Refines r.1 r'.1 ∧ r.1.node r'.2 = .ok (some r.2) ∧ (deref r'.1.nodes r'.2).isSome

theorem build_refines (E : ElemSet σ w) (checked : Bool) {objSize : Nat} (hobj : objSize ≤ 2 ^ 31)
    {fuel : Nat} {t : PathTrie32 σ w} {v : PathTrie σ w} (h : Refines t v) {ptr : Ptr2} {l : Link}
    (hd : Denotes ptr l) (hx : v.load l = .ok 0) (cur : PathTrie.Cursor w) :
    Tracks (fun r => r.1.nodes.length) Made (build E checked objSize fuel t ptr cur)
      (PathTrie.build E fuel v l cur) := by
  induction fuel generalizing t v ptr l cur with
  | zero => exact Or.inr rfl
  | succ fuel ih =>
    rw [build, PathTrie.build]
    cases hnext : PathTrie.putNext E v.sepSet v.elemSet cur with
    | error e =>
      rw [h.elemSet, h.sepSet, hnext]
      exact Or.inr rfl
    | ok q =>
      obtain ⟨s, cur'⟩ := q
      let v₁ : PathTrie σ w := { v with elemSet := s }
      have hs : Refines { t with elemSet := s } v₁ :=
        ⟨rfl, h.nodes, h.root, h.sepSet, h.stats, h.nodeStruct⟩
      have hxs : v₁.load l = .ok 0 := by cases l <;> exact hx
      have hload := PathTrie.load_newNode hxs cur'.elem
      have hnext₃₂ : PathTrie.putNext E t.sepSet t.elemSet cur = .ok (s, cur') := by
        rw [h.elemSet, h.sepSet, hnext]
      simp only [hnext₃₂, ok_bind]
      by_cases hroom : v.nodes.length < 2 ^ 32 - 1
      · obtain ⟨t', ptr', p, hnew, ht', hp, hnode⟩ := newNode_refines hs hd hxs cur'.elem hobj hroom
        have hinv := primaryInvariant_spec ht' hp hload hnode
        have hcheck : (if checked = true then t'.primaryInvariant ptr' p else pure ()) =
            (.ok () : Outcome Unit) := by
          rw [hinv]
          cases checked <;> rfl
        have hlast : deref (PathTrie.newNode v₁ cur'.elem l).1.nodes (v.nodes.length + 1) =
            some ⟨cur'.elem, 0, 0, 0⟩ := by
          rw [PathTrie.nodes_newNode, deref_append, if_pos (by rw [length_update])]
        have hnull : (PathTrie.newNode v₁ cur'.elem l).1.load (.eq (v.nodes.length + 1)) = .ok 0 := by
          rw [PathTrie.load, PathTrie.node_of_deref hlast]
          rfl
        rw [hnew]
        simp only [ok_bind, hcheck]
        split_ifs with he
        · exact Or.inr ⟨ht', hnode, Option.isSome_iff_exists.mpr ⟨_, hlast⟩⟩
        · rw [linkToPtr2_spec ht' hp hload, ok_bind]
          exact ih ht' ⟨rfl, rfl, by simp⟩ hnull _
      · have hfull : v.nodes.length = 2 ^ 32 - 1 := Nat.le_antisymm h.room (Nat.le_of_not_lt hroom)
        left
        rw [newNode_full hs cur'.elem hfull]
        refine ⟨rfl, fun r hr => ?_⟩
        have hstep : PathTrie.build E (fuel + 1) v l cur = .ok r := by
          rw [PathTrie.build, hnext, ok_bind]
          exact hr
        exact hfull ▸ length_build hstep

def Answered (q : PathTrie32 σ w × Bool × ObjPtr) (q' : PathTrie σ w × Bool × Nat) : Prop :=
  q.2.1 = q'.2.1 ∧ Made (q.1, q.2.2) (q'.1, q'.2.2)

theorem insert_refines (U : UintHash w) (E : ElemSet σ w) (checked : Bool) {objSize : Nat}
    (hobj : objSize ≤ 2 ^ 31) (h : Refines t v) (hclosed : v.Closed) (key : Bytes) :
    Tracks (fun r => r.1.nodes.length) Answered (insert U E checked objSize t key)
      (PathTrie.insert U E v key) := by
  have hdescend := @descend_refines σ w t v U E h hclosed (v.nodes.length + 1) v.elemSet .root
    rootToPtr2 ⟨key, true, 0⟩ v.stats v.rootNode denotes_root rfl hclosed.root
  rw [insert, PathTrie.insert, h.nodes_eq, h.elemSet, h.stats]
  have hstart : Tracks (fun _ => 0) _ _ _ := Or.inr hdescend
  refine hstart.bind (fun _ _ _ => Nat.zero_le _) ?_
  rintro ⟨d, s, stats⟩ ⟨d', q⟩ ⟨harr, rfl⟩
  have hs : Refines { t with elemSet := s, stats := stats } { v with elemSet := s, stats := stats } :=
    ⟨rfl, h.nodes, h.root, h.sepSet, rfl, h.nodeStruct⟩
  cases harr with
  | dup hnode hsome => exact Or.inr ⟨rfl, hs, hnode, hsome⟩
  | @hole ptr l cur hden hx =>
    have hx' : ({ v with elemSet := s, stats := stats } : PathTrie σ w).load l = .ok 0 := by
      cases l <;> exact hx
    refine (build_refines E checked hobj hs hden hx' _).bind ?_ ?_
    · intro b d hd
      obtain rfl := Except.ok.inj hd
      exact Nat.le_refl _
    · rintro ⟨t', p⟩ ⟨v', i⟩ ⟨ht', hnode, hsome⟩
      refine Or.inr ⟨rfl, ⟨ht'.elemSet, ht'.nodes, ht'.root, ht'.sepSet, ?_, ht'.nodeStruct⟩, hnode,
        hsome⟩
      rw [ht'.stats]

theorem put_refines (U : UintHash w) (E : ElemSet σ w) (sep : Bytes) (checked : Bool) {size : Nat}
    (hw : w ≤ 64) (hsize : size ≤ 64) (h : Refines t v) (hclosed : v.Closed) (p : Bytes × Nat) :
    Tracks (fun r => r.1.nodes.length) (fun r r' => r.2 = r'.2 ∧ Refines r.1 r'.1)
      (put U E checked size t p) ((PathTrie.set U E sep).put size v p) := by
  have hobj : nodeBytes w size ≤ 2 ^ 31 := by
    unfold nodeBytes
    omega
  rw [put, SetImpl.put]
  refine tracks_bind _ fun _ _ => (insert_refines U E checked hobj h hclosed p.1).bind ?_ ?_
  · rintro ⟨v', b, i⟩ ⟨v'', r⟩ hd
    obtain ⟨_, -, hd⟩ := bind_eq_ok.mp hd
    cases b with
    | false =>
      obtain ⟨rfl, -⟩ := Prod.mk.inj (Except.ok.inj hd)
      exact Nat.le_refl _
    | true =>
      obtain ⟨rfl, -⟩ := Prod.mk.inj (Except.ok.inj hd)
      exact Nat.le_of_eq (length_update ..).symm
  · rintro ⟨t', b, q⟩ ⟨v', b', i⟩ ⟨hb, ht', hnode, hsome⟩
    obtain rfl : b = b' := hb
    obtain ⟨c, hc⟩ := Option.isSome_iff_exists.mp hsome
    have hne : i ≠ 0 := (deref_le_length hc).1.ne'
    right
    simp only [assert_of hne, ok_bind]
    cases b with
    | false =>
      obtain ⟨q', hq', hread⟩ := ht'.node hc
      obtain rfl : q = q' := Option.some.inj (Except.ok.inj (hnode.symm.trans hq'))
      have hval : v'.val i = c.u := by rw [PathTrie.val, hc]; rfl
      simp only [Bool.false_eq_true, if_false, hread, ok_bind]
      exact ⟨hval.symm, ht'⟩
    | true =>
      obtain ⟨t'', hmod, ht'', -⟩ := modify_spec ht' hnode hsome fun c => { c with u := p.2 % 2 ^ size }
      simp only [if_true, hmod, ok_bind]
      exact ⟨rfl, ht''⟩

end

end PathTrie32

end PathSet
