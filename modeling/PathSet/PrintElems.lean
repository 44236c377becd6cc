import PathSet.Tables
import PathSet.PathTrieCounts
import PathSet.TrieRuns

/-!
What the path sets print of their elements. Each table has every element of the loaded
lines once, and its own traversal of them.
-/

namespace PathSet
open Fallible Pointer FirstSeen Numbered TernaryTree

namespace Table

/-- `SET_PRINT_ELEMS` prints the table of elements. -/
def printElems : (k : Table) → k.State → Outcome Bytes
  | .trie => Trie.print
  | .lhash => LHash.print
  | .ghash => GHash.print

theorem printElems_keys (k : Table) {printOne : Bool} {s : k.State} {m : Bytes → Option Nat}
    {keys : List Bytes} (h : (k.nodes printOne).Rep s m) (hnd : keys.Nodup)
    (hdom : ∀ e, (m e).isSome ↔ e ∈ keys) (hshort : k = .trie → ∀ e ∈ keys, e.length ≤ 2 ^ 31 - 1) :
    ∃ ls, ls.Perm keys ∧ k.printElems s = .ok (textLines ls) := by
  cases k with
  | trie => exact Trie.print_keys h hnd hdom (hshort rfl)
  | lhash =>
    have hprint := @print_represented _ (LHash.numbered LHash.elemKind) LHash.print
    exact hprint (fun hs => LHash.print_spec hs.1) h hnd hdom
  | ghash =>
    have hprint := @print_represented _ (GHash.numbered GHash.elemKind) GHash.print
    exact hprint (fun hs => GHash.print_spec hs.1) h hnd hdom

theorem printElems_long {k : Table} {printOne : Bool} {s : k.State} {m : Bytes → Option Nat}
    {e : Bytes} (h : (k.nodes printOne).Rep s m) (he : (m e).isSome) (htrie : k = .trie)
    (hlong : ¬e.length ≤ 2 ^ 31 - 1) : k.printElems s = .error .assertion := by
  subst htrie
  exact Trie.print_trouble h he hlong

theorem printElems_iff {k k' : Table} {b b' : Bool} {s : k.State} {s' : k'.State}
    {m m' : Bytes → Option Nat} {keys : List Bytes} (h : (k.nodes b).Rep s m)
    (h' : (k'.nodes b').Rep s' m') (hnd : keys.Nodup) (hdom : ∀ e, (m e).isSome ↔ e ∈ keys)
    (hdom' : ∀ e, (m' e).isSome ↔ e ∈ keys) :
    PrintAlike (k.printElems s) (k'.printElems s') keys ↔
      (k = .trie ∨ k' = .trie → ∀ e ∈ keys, e.length ≤ 2 ^ 31 - 1) := by
  constructor
  · rintro ⟨ls, ls', hls, hls', -, -⟩ htrie e he
    by_contra hlong
    cases htrie with
    | inl htrie =>
      rw [printElems_long h ((hdom e).mpr he) htrie hlong] at hls
      cases hls
    | inr htrie =>
      rw [printElems_long h' ((hdom' e).mpr he) htrie hlong] at hls'
      cases hls'
  · intro hshort
    obtain ⟨ls, hperm, hprint⟩ := k.printElems_keys h hnd hdom fun htrie => hshort (Or.inl htrie)
    obtain ⟨ls', hperm', hprint'⟩ := k'.printElems_keys h' hnd hdom' fun htrie =>
      hshort (Or.inr htrie)
    exact ⟨ls, ls', hprint, hprint', hperm, hperm'⟩

def pathSet (k : Table) (printOne : Bool) {w : Nat} (U : UintHash w) (addr : Nat → BitVec w)
    (sepSet : Option Bytes) : SetImpl (PathTrie k.State w) :=
  PathTrie.set U ((k.nodes printOne).placed addr) (sepSet.getD PathTrie.defaultSep)

theorem load_elems (k : Table) {opt : Options} (hopt : opt.Accepted) (printOne : Bool) {w : Nat}
    (U : UintHash w) (addr : Nat → BitVec w) (sepSet : Option Bytes) (size : Nat)
    {lines : List Bytes} (hlines : ∀ l ∈ lines, 0 ∉ l) :
    ∃ s, k.create opt = .ok s ∧
      ((run ((k.pathSet printOne U addr sepSet).put size) (PathTrie.init s sepSet) (lines.zipIdx 1) =
          .error .alloc ∧
          ¬k.Enough addr (lines.flatMap (elements (sepSet.getD PathTrie.defaultSep)))) ∨
        ∃ t rs m, run ((k.pathSet printOne U addr sepSet).put size) (PathTrie.init s sepSet)
            (lines.zipIdx 1) = .ok (t, rs) ∧ (k.nodes printOne).Rep t.elemSet m ∧
          ∀ e, (m e).isSome ↔ e ∈ lines.flatMap (elements (sepSet.getD PathTrie.defaultSep))) := by
  obtain ⟨s, hs, -, hseen, hrep, hcount⟩ := k.create_spec printOne size hopt
  have hempty := NodeSet.placed_empty _ addr hrep hcount
  have hseen := NodeSet.placed_seen _ addr hseen hcount
  have hstart := Dictionary.recorded_empty (k.pathSet printOne U addr sepSet).toDictionary
    (PathTrie.holding_init hempty sepSet) rfl rfl
  have halloc : ∀ e, (k.pathSet printOne U addr sepSet).Exhausted e → e = .alloc := fun e he =>
    Or.elim he (k.nodes_exhausted printOne) id
  have hroom := @PathTrie.load_supplied _ _ U _ _ (k.placed_supplied addr printOne) _ hseen sepSet
    size _ hlines
  refine ⟨s, hs, ?_⟩
  rcases takes_of_recorded _ size hstart halloc hlines hroom with ha | ⟨t, m, hrun, -⟩
  · exact Or.inl ha
  obtain ⟨me, ⟨-, m₀, hrep₀, hm⟩, hdom, -⟩ := (PathTrie.loaded_run hseen sepSet hlines hrun).2.2
  refine Or.inr ⟨t, _, m₀, hrun, hrep₀, fun e => ?_⟩
  rw [← Option.isSome_map, ← hm, hdom, List.zipIdx_map_fst]

end Table

/-- Two path sets with the same lines print the same elements, each of them once, if and
only if none of them is longer than an `int` where a set has its elements in a trie. -/
theorem print_elems_iff {w w' : Nat} (U : UintHash w) (U' : UintHash w') (addr : Nat → BitVec w)
    (addr' : Nat → BitVec w') (printOne printOne' : Bool) {opt : Options} (hopt : opt.Accepted)
    (sepSet : Option Bytes) (size : Nat) (k k' : Table) {lines : List Bytes}
    (hlines : ∀ l ∈ lines, 0 ∉ l) :
    ∃ s s', k.create opt = .ok s ∧ k'.create opt = .ok s' ∧
      let path := k.pathSet printOne U addr sepSet
      let path' := k'.pathSet printOne' U' addr' sepSet
      let els := lines.flatMap (elements (sepSet.getD PathTrie.defaultSep))
      ((run (path.put size) (PathTrie.init s sepSet) (lines.zipIdx 1) = .error .alloc ∧
          ¬k.Enough addr els) ∨
        (run (path'.put size) (PathTrie.init s' sepSet) (lines.zipIdx 1) = .error .alloc ∧
          ¬k'.Enough addr' els) ∨
        ∃ t rs t' rs',
          run (path.put size) (PathTrie.init s sepSet) (lines.zipIdx 1) = .ok (t, rs) ∧
          run (path'.put size) (PathTrie.init s' sepSet) (lines.zipIdx 1) = .ok (t', rs') ∧
          (PrintAlike (k.printElems t.elemSet) (k'.printElems t'.elemSet) (firsts els) ↔
            (k = .trie ∨ k' = .trie → ∀ e ∈ els, e.length ≤ 2 ^ 31 - 1))) := by
  obtain ⟨s, hs, hload⟩ := k.load_elems hopt printOne U addr sepSet size hlines
  obtain ⟨s', hs', hload'⟩ := k'.load_elems hopt printOne' U' addr' sepSet size hlines
  refine ⟨s, s', hs, hs', ?_⟩
  rcases hload with ha | ⟨t, rs, m, hrun, hrep, hdom⟩
  · exact Or.inl ha
  rcases hload' with ha | ⟨t', rs', m', hrun', hrep', hdom'⟩
  · exact Or.inr (Or.inl ha)
  refine Or.inr (Or.inr ⟨t, rs, t', rs', hrun, hrun', ?_⟩)
  have hfirst : ∀ e, (m e).isSome ↔ e ∈ firsts _ := fun e => (hdom e).trans mem_firsts.symm
  have hfirst' : ∀ e, (m' e).isSome ↔ e ∈ firsts _ := fun e => (hdom' e).trans mem_firsts.symm
  rw [Table.printElems_iff hrep hrep' (nodup_firsts _) hfirst hfirst']
  simp only [mem_firsts]

theorem fits_packed {n : Nat} (h : 40 * n < 2 ^ 64) : Fits packed n := by
  have hvalue : ∀ p, p ≤ n → (packed p).toNat = 40 * p := by
    intro p hp
    rw [packed, BitVec.toNat_ofNat, Nat.mod_eq_of_lt (by omega)]
  refine List.nodup_cons.mpr ⟨?_, List.Nodup.map_on ?_ List.nodup_range'⟩
  · intro hmem
    obtain ⟨p, hp, hz⟩ := List.mem_map.mp hmem
    rw [List.mem_range'_1] at hp
    have hnat := hvalue p (by omega)
    rw [hz] at hnat
    have hzero : 0 = 40 * p := hnat
    omega
  · intro p hp q hq heq
    rw [List.mem_range'_1] at hp hq
    have hnat := hvalue p (by omega)
    rw [heq, hvalue q (by omega)] at hnat
    omega

theorem elements_of_notMem {sepSet key : Bytes} (hne : key ≠ []) (h : ∀ ch ∈ key, ch ∉ sepSet) :
    elements sepSet key = [key] := by
  have hlen : firstLength sepSet key = key.length := by
    rw [firstLength, if_neg]
    rw [List.findIdx_lt_length]
    rintro ⟨ch, hch, hsep⟩
    exact h ch hch (of_decide_eq_true hsep)
  rw [elements_eq_cons hne, hlen, List.take_length, List.drop_length]
  rfl

theorem length_longKey : Trie.longKey.length = 2 ^ 31 := List.length_replicate

theorem longKey_noNul : 0 ∉ Trie.longKey := fun h0 =>
  absurd (List.eq_of_mem_replicate h0) (by decide)

theorem elements_longKey : elements PathTrie.defaultSep Trie.longKey = [Trie.longKey] := by
  refine elements_of_notMem ?_ fun ch hch hsep => ?_
  · intro hnil
    have hlen := length_longKey
    rw [hnil] at hlen
    cases hlen
  · rw [show ch = 97 from List.eq_of_mem_replicate hch] at hsep
    exact absurd hsep (by decide)

theorem enough_longKey :
    Table.trie.Enough packed ([Trie.longKey].flatMap (elements PathTrie.defaultSep)) := by
  have hle := TernaryTree.prefixCount_singleton (Trie.longKey ++ [0])
  rw [List.length_append, length_longKey, List.length_singleton] at hle
  rw [List.flatMap_singleton, elements_longKey]
  refine ⟨trivial, fits_packed ?_⟩
  simp only [Table.nodesFor, List.map_cons, List.map_nil]
  omega

/-- An element that is too long for `printf` stops the printing of the trie. -/
theorem print_elems_long :
    ∃ t rs, run ((Table.trie.pathSet true .mix64 packed none).put 64) (PathTrie.init Trie.init none)
        ([Trie.longKey].zipIdx 1) = .ok (t, rs) ∧
      Table.trie.printElems t.elemSet = .error .assertion := by
  have hlines : ∀ l ∈ [Trie.longKey], 0 ∉ l := fun l hl =>
    List.mem_singleton.mp hl ▸ longKey_noNul
  obtain ⟨s, hs, hload⟩ := Table.trie.load_elems defaultOptions_accepted true .mix64 packed none 64
    hlines
  obtain rfl : Trie.init = s := Except.ok.inj hs
  obtain ⟨t, rs, m, hrun, hrep, hdom⟩ := hload.resolve_left fun h => h.2 enough_longKey
  refine ⟨t, rs, hrun, Table.printElems_long hrep ((hdom Trie.longKey).mpr ?_) rfl ?_⟩
  · rw [List.flatMap_singleton, show (none : Option Bytes).getD PathTrie.defaultSep =
      PathTrie.defaultSep from rfl, elements_longKey]
    exact List.mem_singleton_self _
  · rw [length_longKey]
    decide

def smallOptions : Options := ⟨32, none, none, MB 1, MB 1, none⟩

theorem smallOptions_accepted : smallOptions.Accepted :=
  ⟨by decide, by simp [smallOptions], by simp [smallOptions], by decide, by decide,
    by simp [smallOptions]⟩

theorem print_elems_iff_dotted :
    ∃ t rs t' rs',
      run ((Table.trie.pathSet true .mix64 packed none).put 64) (PathTrie.init Trie.init none)
        ([[97, 46, 98], [97, 47]].zipIdx 1) = .ok (t, rs) ∧
      run ((Table.lhash.pathSet true .mix64 packed none).put 64) (PathTrie.init LHash.table37 none)
        ([[97, 46, 98], [97, 47]].zipIdx 1) = .ok (t', rs') ∧
      PrintAlike (Table.trie.printElems t.elemSet) (Table.lhash.printElems t'.elemSet)
        (firsts [[97, 46], [98], [97, 47]]) := by
  obtain ⟨s, s', hs, hs', hcases⟩ := print_elems_iff .mix64 .mix64 packed packed true true
    smallOptions_accepted none 64 .trie .lhash
    (show ∀ l ∈ ([[97, 46, 98], [97, 47]] : List Bytes), 0 ∉ l by decide)
  obtain rfl : Trie.init = s := Except.ok.inj hs
  obtain rfl : LHash.table37 = s' := Except.ok.inj hs'
  obtain ⟨t, rs, t', rs', hrun, hrun', hiff⟩ := (hcases.resolve_left fun h =>
    h.2 (by decide +kernel)).resolve_left fun h => h.2 (by decide +kernel)
  exact ⟨t, rs, t', rs', hrun, hrun', hiff.mpr fun _ => by decide⟩

end PathSet
