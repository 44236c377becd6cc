import PathSet.PathTrie32Insert
import PathSet.SetValues
import PathSet.Tables

/-!
Runs of a path set over offsets. It answers as the one over pointers does and its table
holds the same tree, until the offsets run out.
-/

namespace PathSet
open Fallible Pointer LinkedTree TernaryTree FirstSeen

namespace PathTrie

variable {σ : Type} {w : Nat} {U : UintHash w} {E : ElemSet σ w}

theorem length_insert {v v' : PathTrie σ w} {key : Bytes} {b : Bool} {i : Nat}
    (h : insert U E v key = .ok (v', b, i)) : v.nodes.length ≤ v'.nodes.length := by
  rw [insert] at h
  obtain ⟨⟨d, s, stats⟩, -, h⟩ := bind_eq_ok.mp h
  cases d with
  | dup node =>
    obtain ⟨rfl, -⟩ := Prod.mk.inj (Except.ok.inj h)
    exact Nat.le_refl _
  | hole l cur =>
    obtain ⟨r, hbuild, h⟩ := bind_eq_ok.mp h
    obtain ⟨rfl, -⟩ := Prod.mk.inj (Except.ok.inj h)
    have hlt := PathTrie32.length_build hbuild
    exact Nat.le_of_lt hlt

theorem length_put {sep : Bytes} {size : Nat} {v v' : PathTrie σ w} {p : Bytes × Nat} {r : Nat}
    (h : (set U E sep).put size v p = .ok (v', r)) : v.nodes.length ≤ v'.nodes.length := by
  rw [SetImpl.put] at h
  obtain ⟨-, -, h⟩ := bind_eq_ok.mp h
  obtain ⟨⟨v₁, b, i⟩, hins, h⟩ := bind_eq_ok.mp h
  obtain ⟨-, -, h⟩ := bind_eq_ok.mp h
  refine Nat.le_trans (length_insert hins) ?_
  cases b with
  | false =>
    obtain ⟨rfl, -⟩ := Prod.mk.inj (Except.ok.inj h)
    exact Nat.le_refl _
  | true =>
    obtain ⟨rfl, -⟩ := Prod.mk.inj (Except.ok.inj h)
    exact Nat.le_of_eq (length_update ..).symm

theorem length_run {sep : Bytes} {size : Nat} {v v' : PathTrie σ w} {ps : List (Bytes × Nat)}
    {rs : List Nat} (h : run ((set U E sep).put size) v ps = .ok (v', rs)) :
    v.nodes.length ≤ v'.nodes.length := by
  induction ps generalizing v rs with
  | nil =>
    obtain ⟨rfl, -⟩ := Prod.mk.inj (Except.ok.inj h)
    exact Nat.le_refl _
  | cons p ps ih =>
    obtain ⟨v₁, r, rs', hput, hrun, -⟩ := run_eq_cons h
    exact Nat.le_trans (length_put hput) (ih hrun)

end PathTrie

namespace PathTrie32

variable {σ : Type} {w : Nat} {U : UintHash w} {E : ElemSet σ w}

theorem init_refines (s : σ) {opt : Options} (hopt : opt.Accepted) :
    ∃ t : PathTrie32 σ w, init s opt.nodeSize opt.sepSet = .ok t ∧
      Refines t (PathTrie.init s opt.sepSet) := by
  have hmax : opt.nodeSize ≤ 32 * 1024 * 1024 := hopt.nodeSize.2
  obtain ⟨alloc, halloc, hkeeps⟩ :=
    @ObjAlloc.init_keeps (PathTrieNode w) opt.nodeSize (by omega)
  refine ⟨⟨s, alloc, 0, opt.sepSet.getD PathTrie.defaultSep, ⟨0, 0, 0, 0, 0⟩, 0⟩, ?_,
    rfl, hkeeps, rfl, rfl, rfl, rfl⟩
  rw [init, if_neg (by omega), halloc]
  rfl

theorem run_refines {sep : Bytes} (checked : Bool) {size : Nat} (hw : w ≤ 64) (hsize : size ≤ 64)
    {ps : List (Bytes × Nat)} (hps : ∀ p ∈ ps, 0 ∉ p.1) {t : PathTrie32 σ w} {v : PathTrie σ w}
    (h : Refines t v) {m : Bytes → Option Nat} (hrep : PathTrie.Holding U E sep v m) :
    Tracks (fun r => r.1.nodes.length)
      (fun r r' => r.2 = r'.2 ∧ Refines r.1 r'.1 ∧ ∃ m', PathTrie.Holding U E sep r'.1 m')
      (run (put U E checked size) t ps) (run ((PathTrie.set U E sep).put size) v ps) := by
  induction ps generalizing t v m with
  | nil => exact Or.inr ⟨rfl, h, m, hrep⟩
  | cons p ps ih =>
    obtain ⟨⟨T, me, hknows⟩, -⟩ := id hrep
    have hclosed := PathTrie.closed_of_holds hknows.holds
    have hkeep : ∀ r, (PathTrie.set U E sep).put size v p = .ok r →
        ∃ m', PathTrie.Holding U E sep r.1 m' :=
      fun r hr => (PathTrie.set U E sep).put_rep hrep (hps p (by simp)) hr
    have hput := (put_refines U E sep checked hw hsize h hclosed p).and_ok hkeep
    rw [run_cons, run_cons]
    refine hput.bind ?_ ?_
    · rintro ⟨v₁, r⟩ ⟨v', rs⟩ hrest
      obtain ⟨⟨v₂, rs'⟩, hrun, heq⟩ := bind_eq_ok.mp hrest
      obtain ⟨rfl, -⟩ := Prod.mk.inj (Except.ok.inj heq)
      exact PathTrie.length_run hrun
    · rintro ⟨t₁, r⟩ ⟨v₁, r'⟩ ⟨⟨hr, h₁⟩, m₁, hrep₁⟩
      obtain rfl : r = r' := hr
      refine (ih (fun q hq => hps q (by simp [hq])) h₁ hrep₁).bind ?_ ?_
      · rintro ⟨v₂, rs⟩ ⟨v', rs'⟩ heq
        obtain ⟨rfl, -⟩ := Prod.mk.inj (Except.ok.inj heq)
        exact Nat.le_refl _
      · rintro ⟨t₂, rs⟩ ⟨v₂, rs'⟩ ⟨hrs, h₂, hrep₂⟩
        obtain rfl : rs = rs' := hrs
        exact Or.inr ⟨rfl, h₂, hrep₂⟩

theorem treeAt_refines {t : PathTrie32 σ w} {v : PathTrie σ w} (h : Refines t v)
    {T : SearchTree (BitVec w)} {r fuel : Nat} (hrep : Rep 0 v.store.cells T r)
    (hfuel : size T < fuel) : t.treeAt fuel r = .ok T := by
  induction T generalizing r fuel with
  | nil =>
    obtain rfl : r = 0 := hrep
    cases fuel with
    | zero => omega
    | succ fuel => rw [treeAt, node_zero]; rfl
  | node id e lo eq hi ihl ihe ihh =>
    obtain ⟨rfl, cell, hcell, rfl, hlo, hhi, heq⟩ := hrep
    obtain ⟨c, -, hc, rfl⟩ := PathTrie.node_of_cell hcell
    obtain ⟨q, hq, hread⟩ := h.node hc
    cases fuel with
    | zero => omega
    | succ fuel =>
      simp only [size] at hfuel
      have heq' : (if c.elem = 0 then pure .nil else t.treeAt fuel c.u :
          Outcome (SearchTree (BitVec w))) = .ok eq := by
        by_cases he : c.elem = 0
        · rw [if_pos he]
          rw [if_pos (show c.cell.sym = 0 from he)] at heq
          rw [heq]
          rfl
        · rw [if_neg he]
          rw [if_neg (show c.cell.sym ≠ 0 from he)] at heq
          exact ihe heq (by omega)
      have hlo' : t.treeAt fuel c.lo = .ok lo := ihl hlo (by omega)
      have hhi' : t.treeAt fuel c.hi = .ok hi := ihh hhi (by omega)
      rw [treeAt, hq]
      simp only [ok_bind, hread, hlo', heq', hhi']
      rfl

theorem tree_refines {t : PathTrie32 σ w} {v : PathTrie σ w} (h : Refines t v)
    {T : SearchTree (BitVec w)} (hT : PathTrie.Holds U v T) : t.tree = .ok v.tree := by
  rw [tree, h.root, h.nodes_eq, PathTrie.tree_eq hT]
  exact treeAt_refines h hT.layout.1 (by rw [hT.size]; exact Nat.lt_succ_self _)

end PathTrie32

/-- Over offsets and over pointers the same lines get the same answers and make the same
tree, each slot of the table being in it once. The run over offsets stops earlier only
when the table has no offset left for a node. No check that the link of the insertion
point leads to the node just made fails. -/
theorem path_trie_offsets_refine {σ : Type} {w : Nat} (U : UintHash w) (E : ElemSet σ w)
    (hw : w ≤ 64) {s₀ : σ} {me₀ : Bytes → Option (BitVec w)} (hE : E.Rep s₀ me₀) {opt : Options}
    (hopt : opt.Accepted) (checked : Bool) {size : Nat} (hsize : size ≤ 64)
    {ps : List (Bytes × Nat)} (hps : ∀ p ∈ ps, 0 ∉ p.1 ∧ 0 < p.2) :
    ∃ t₀, PathTrie32.init s₀ opt.nodeSize opt.sepSet = .ok t₀ ∧
      let offsets := run (PathTrie32.put U E checked size) t₀ ps
      let pointers := run ((PathTrie.set U E (opt.sepSet.getD PathTrie.defaultSep)).put size)
        (PathTrie.init s₀ opt.sepSet) ps
      ((∃ e, E.Exhausted e ∧ offsets = .error e ∧ pointers = .error e) ∨
        (offsets = .error (.ensure "path trie node alloc failed") ∧
          ∀ r, pointers = .ok r → 2 ^ 32 - 1 < r.1.nodes.length) ∨
        ∃ t v rs, offsets = .ok (t, rs) ∧ pointers = .ok (v, rs) ∧ t.tree = .ok v.tree ∧
          (ids v.tree).Perm (List.range' 1 t.nodes.length)) := by
  obtain ⟨t₀, ht₀, h₀⟩ := @PathTrie32.init_refines σ w s₀ opt hopt
  refine ⟨t₀, ht₀, ?_⟩
  have hrep := @PathTrie.holding_init σ w U E s₀ me₀ hE opt.sepSet
  have hrefines := PathTrie32.run_refines checked hw hsize (fun p hp => (hps p hp).1) h₀ hrep
  rcases hrefines with hover | hagree
  · exact Or.inr (Or.inl hover)
  rcases SetImpl.put_run (PathTrie.set U E (opt.sepSet.getD PathTrie.defaultSep)) size
      (Dictionary.recorded_empty _ hrep rfl rfl) hps with ⟨e, he, hrun⟩ | ⟨v, hrun, -⟩
  · rw [hrun] at hagree
    exact Or.inl ⟨e, he, hagree.error_right, hrun⟩
  · rw [hrun] at hagree
    obtain ⟨⟨t, rs⟩, ht, hrs, href, m, ⟨T, me, hknows⟩, -⟩ := hagree.ok_right
    have htree := PathTrie.tree_eq hknows.holds
    obtain rfl : rs = _ := hrs
    refine Or.inr (Or.inr ⟨t, v, _, ht, hrun, PathTrie32.tree_refines href hknows.holds, ?_⟩)
    rw [htree, href.nodes_eq, ← PathTrie.length_store]
    exact hknows.holds.layout.2

def tinyOptions : Options := { defaultOptions with nodeSize := 1 }

theorem tinyOptions_accepted : tinyOptions.Accepted :=
  { defaultOptions_accepted with nodeSize := by decide }

theorem path_trie_offsets_refine_branch :
    ∃ t₀ t v, PathTrie32.init Trie.init 1 none = .ok t₀ ∧
      run (PathTrie32.put .mix64 PathTrie.trieElems true 64) t₀ (branchLines.zipIdx 1) = .ok (t, [0, 0, 1]) ∧
      run ((PathTrie.set .mix64 PathTrie.trieElems PathTrie.defaultSep).put 64) (PathTrie.init Trie.init none)
        (branchLines.zipIdx 1) = .ok (v, [0, 0, 1]) ∧
      t.tree = .ok v.tree ∧ (ids v.tree).Perm (List.range' 1 t.nodes.length) := by
  have hlines : ∀ p ∈ branchLines.zipIdx 1, 0 ∉ p.1 ∧ 0 < p.2 := by decide
  obtain ⟨t₀, ht₀, hcases⟩ := path_trie_offsets_refine .mix64 PathTrie.trieElems (Nat.le_refl _)
    PathTrie.trieElems_empty tinyOptions_accepted true (Nat.le_refl _) hlines
  have hrun : ((PathTrie32.init Trie.init 1 none : Outcome (PathTrie32 Trie 64)) >>= fun t =>
      (run (PathTrie32.put .mix64 PathTrie.trieElems true 64) t (branchLines.zipIdx 1)).map Prod.snd) =
        .ok [0, 0, 1] := by decide +kernel
  rw [show PathTrie32.init Trie.init 1 none = _ from ht₀, ok_bind] at hrun
  rcases hcases with ⟨e, -, he, -⟩ | ⟨he, -⟩ | ⟨t, v, rs, ht, hv, htree, hperm⟩
  · rw [he] at hrun
    cases hrun
  · rw [he] at hrun
    cases hrun
  · rw [ht] at hrun
    obtain rfl := Except.ok.inj hrun
    exact ⟨t₀, t, v, ht₀, ht, hv, htree, hperm⟩

end PathSet
