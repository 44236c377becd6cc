import PathSet.Tables

/-!
The counters that the path sets end with. They follow from the lines, whatever their order
and the table of the elements.
-/

namespace PathSet
open Fallible TernaryTree FirstSeen

namespace Table

theorem nodesFor_congr (k : Table) {els els' : List Bytes} (h : ∀ e, e ∈ els' ↔ e ∈ els) :
    k.nodesFor els' = k.nodesFor els := by
  have hcard : els'.toFinset.card = els.toFinset.card := by
    congr 1
    ext e
    simp only [List.mem_toFinset, h]
  cases k with
  | trie => exact prefixCount_congr fun x => by simp only [List.mem_map, h]
  | lhash => exact hcard
  | ghash => exact hcard

theorem placed_nodeStruct {w : Nat} (addr : Nat → BitVec w) (printOne : Bool) (k : Table)
    {s : k.State} {m : Bytes → Option (BitVec w)} {els : List Bytes}
    (hrep : ((k.nodes printOne).placed addr).Rep s m) (hdom : ∀ e, (m e).isSome ↔ e ∈ els) :
    k.nodeStruct s = k.nodesFor els := by
  obtain ⟨-, m₀, hrep₀, hm⟩ := hrep
  refine k.nodeStruct_eq printOne hrep₀ fun e => ?_
  rw [← hdom, hm, Option.isSome_map]

end Table

/-- A path set over the elements `E` takes the lines and ends with the counters `c`, if memory is
`enough`. -/
def PathTrie.EndsWith {σ : Type} {w : Nat} (U : UintHash w) (E : ElemSet σ w) (elemStruct : σ → Nat)
    (s : σ) (sepSet : Option Bytes) (size : Nat) (lines : List Bytes) (enough : Prop)
    (c : PathCounters) : Prop :=
  (run ((set U E (sepSet.getD defaultSep)).put size) (init s sepSet) (lines.zipIdx 1) =
      .error .alloc ∧ ¬enough) ∨
    ∃ t rs, run ((set U E (sepSet.getD defaultSep)).put size) (init s sepSet) (lines.zipIdx 1) =
      .ok (t, rs) ∧ counters E elemStruct t = c

theorem Table.endsWith_expected (k : Table) {w : Nat} (U : UintHash w) (addr : Nat → BitVec w)
    (printOne : Bool) {opt : Options} (hopt : opt.Accepted) (size : Nat) {lines lines' : List Bytes}
    (hlines : ∀ l ∈ lines, 0 ∉ l) (hperm : lines'.Perm lines) :
    ∃ s, k.create opt = .ok s ∧
      PathTrie.EndsWith U ((k.nodes printOne).placed addr) k.nodeStruct s opt.sepSet size lines'
        (k.Enough addr (lines'.flatMap (elements (opt.sepSet.getD PathTrie.defaultSep))))
        (PathTrie.expectedCounters k.nodesFor (opt.sepSet.getD PathTrie.defaultSep) lines) := by
  have hlines' : ∀ l ∈ lines', 0 ∉ l := fun l hl => hlines l (hperm.subset hl)
  obtain ⟨s, hs, -, hseen, -, hcount⟩ := k.create_spec printOne size hopt
  have hseen := NodeSet.placed_seen _ addr hseen hcount
  obtain ⟨s', hs', htakes⟩ := k.path_takes hopt hlines' U addr printOne size
  obtain rfl : s = s' := Except.ok.inj (hs.symm.trans hs')
  refine ⟨s, hs, ?_⟩
  rcases htakes with hstop | ⟨t, m, hrun, -⟩
  · exact Or.inl hstop
  · refine Or.inr ⟨t, _, hrun, ?_⟩
    have hloaded := PathTrie.loaded_run hseen opt.sepSet hlines' hrun
    rw [PathTrie.loaded_counters (k.placed_nodeStruct addr printOne) hloaded,
      PathTrie.expectedCounters_perm hperm fun _ _ h => k.nodesFor_congr h]

/-- The path sets count the same, in any order of the lines: the two hash tables of
elements in all counters, and the trie of elements but for its nodes. -/
theorem path_sets_counters {w : Nat} (U : UintHash w) (addr : Nat → BitVec w) (printOne : Bool)
    {opt : Options} (hopt : opt.Accepted) (size : Nat) {lines lines' : List Bytes}
    (hlines : ∀ l ∈ lines, 0 ∉ l) (hperm : lines'.Perm lines) :
    let sep := opt.sepSet.getD PathTrie.defaultSep
    let els := lines'.flatMap (elements sep)
    ∃ lhash ghash, LHash.init opt = .ok lhash ∧ GHash.init opt = .ok ghash ∧
      PathTrie.EndsWith U ((LHash.nodeSet LHash.elemKind).placed addr) LHash.nodeStruct lhash
        opt.sepSet size lines' (Table.lhash.Enough addr els)
        (PathTrie.expectedCounters (fun els => els.toFinset.card) sep lines) ∧
      PathTrie.EndsWith U ((GHash.nodeSet GHash.elemKind).placed addr) GHash.nodeStruct ghash
        opt.sepSet size lines' (Table.ghash.Enough addr els)
        (PathTrie.expectedCounters (fun els => els.toFinset.card) sep lines) ∧
      PathTrie.EndsWith U ((Trie.nodeSet printOne).placed addr) Trie.nodeStruct Trie.init
        opt.sepSet size lines' (Table.trie.Enough addr els)
        (PathTrie.expectedCounters (fun els => prefixCount (els.map (· ++ [0]))) sep lines) := by
  intro sep els
  obtain ⟨lhash, hl, hlends⟩ := Table.lhash.endsWith_expected U addr printOne hopt size hlines hperm
  obtain ⟨ghash, hg, hgends⟩ := Table.ghash.endsWith_expected U addr printOne hopt size hlines hperm
  obtain ⟨trie, ht, htends⟩ := Table.trie.endsWith_expected U addr printOne hopt size hlines hperm
  obtain rfl : Trie.init = trie := Except.ok.inj ht
  exact ⟨lhash, ghash, hl, hg, hlends, hgends, htends⟩

theorem path_sets_counters_again :
    ∃ lhash ghash, LHash.init defaultOptions = .ok lhash ∧ GHash.init defaultOptions = .ok ghash ∧
      (∃ t rs, run ((PathTrie.set UintHash.mix64
          ((LHash.nodeSet LHash.elemKind).placed (32 * BitVec.ofNat 64 ·)) PathTrie.defaultSep).put 8)
          (PathTrie.init lhash none) ([[97], [97, 46, 98], [97, 46, 98]].zipIdx 1) = .ok (t, rs) ∧
        PathTrie.counters ((LHash.nodeSet LHash.elemKind).placed (32 * BitVec.ofNat 64 ·))
          LHash.nodeStruct t = ⟨2, 1, 3, 2, 5, 3⟩) ∧
      (∃ t rs, run ((PathTrie.set UintHash.mix64
          ((GHash.nodeSet GHash.elemKind).placed (32 * BitVec.ofNat 64 ·)) PathTrie.defaultSep).put 8)
          (PathTrie.init ghash none) ([[97], [97, 46, 98], [97, 46, 98]].zipIdx 1) = .ok (t, rs) ∧
        PathTrie.counters ((GHash.nodeSet GHash.elemKind).placed (32 * BitVec.ofNat 64 ·))
          GHash.nodeStruct t = ⟨2, 1, 3, 2, 5, 3⟩) ∧
      ∃ t rs, run ((PathTrie.set UintHash.mix64
          ((Trie.nodeSet true).placed (32 * BitVec.ofNat 64 ·)) PathTrie.defaultSep).put 8)
          (PathTrie.init Trie.init none) ([[97], [97, 46, 98], [97, 46, 98]].zipIdx 1) = .ok (t, rs) ∧
        PathTrie.counters ((Trie.nodeSet true).placed (32 * BitVec.ofNat 64 ·)) Trie.nodeStruct t =
          ⟨2, 1, 3, 2, 5, 6⟩ := by
  have hlines : ∀ l ∈ [[97, 46, 98], [97], [97, 46, 98]], (0 : UInt8) ∉ l := by decide
  have hperm : [[97], [97, 46, 98], [97, 46, 98]].Perm ([[97, 46, 98], [97], [97, 46, 98]] :
      List Bytes) := List.Perm.swap _ _ _
  obtain ⟨lhash, ghash, hl, hg, hlends, hgends, htends⟩ := path_sets_counters UintHash.mix64
    (32 * BitVec.ofNat 64 ·) true defaultOptions_accepted 8 hlines hperm
  exact ⟨lhash, ghash, hl, hg, hlends.resolve_left fun h => h.2 (by decide +kernel),
    hgends.resolve_left fun h => h.2 (by decide +kernel),
    htends.resolve_left fun h => h.2 (by decide +kernel)⟩

end PathSet
