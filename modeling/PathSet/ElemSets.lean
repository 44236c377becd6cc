import PathSet.ElemSet
import PathSet.TrieDictionary
import PathSet.LHashDictionary
import PathSet.GHashDictionary

/-!
The three element sets of the program. Both hash tables keep the length of an element
in its node, the trie has a node for every symbol. A placement gives the nodes of
either their addresses, or their offsets in a build with 32-bit offsets.
-/

namespace PathSet
open Fallible Pointer LinkedTree TernaryTree FirstSeen Numbered

namespace NodeSet

variable {σ : Type}

def ofStore (S : Store σ Bytes Abort) (count : σ → Nat) (hkey : ∀ k, S.Key k ↔ 0 ∉ k)
    (hcount : ∀ s ks, S.Holds s ks → count s = ks.length) : NodeSet σ where
  toFinder := S.finder
  count := count
  key_iff := hkey
  id_bound := by
    rintro s m k p ⟨ks, hs, hm⟩ hk
    rw [hcount s ks hs]
    exact deref_le_length ((hm k p).mp hk)
  count_known := by
    rintro s m k s' p ⟨ks, hs, -⟩ hk hins
    have hins : S.insert s k = .ok (s', false, p) := hins
    rcases S.insert_spec hs hk with
      ⟨t, q, hins', -, ht, -⟩ | ⟨-, ⟨e, -, he⟩ | ⟨t, hins', -⟩⟩
    · rw [hins] at hins'
      obtain ⟨rfl, -⟩ := Prod.mk.inj (Except.ok.inj hins')
      rw [hcount _ ks ht, hcount s ks hs]
    · rw [hins] at he
      cases he
    · rw [hins] at hins'
      cases hins'

theorem placed_empty (N : NodeSet σ) {w : Nat} (addr : Nat → BitVec w) {s : σ}
    (h : N.Rep s (fun _ => none)) (hcount : N.count s = 0) :
    (N.placed addr).Rep s (fun _ => none) := by
  refine ⟨?_, _, h, fun _ => rfl⟩
  rw [hcount]
  exact List.nodup_singleton 0

theorem placed_seen (N : NodeSet σ) {w : Nat} (addr : Nat → BitVec w) {s : σ} (h : N.Seen [] s)
    (hcount : N.count s = 0) : (N.placed addr).Seen [] s := by
  obtain ⟨m, hrep, hdom, hcounts⟩ := h
  refine ⟨fun k => (m k).map addr, ⟨?_, m, hrep, fun _ => rfl⟩, fun k => ?_, hcounts⟩
  · rw [hcount]
    exact List.nodup_singleton 0
  · rw [Option.isSome_map, hdom]

end NodeSet

def LHash.nodeSet (kind : LHashKind) : NodeSet LHash :=
  .ofStore (LHash.numbered kind) (fun h => h.nodes.length) (fun _ => Iff.rfl)
    fun _ _ h => h.1.length

def GHash.nodeSet (kind : GHashKind) : NodeSet GHash :=
  .ofStore (GHash.numbered kind) (fun h => h.nodes.length) (fun _ => Iff.rfl)
    fun _ _ h => h.1.length

def Trie.nodeSet (printOne : Bool) : NodeSet Trie where
  toFinder := Trie.finder printOne
  count t := t.nodes.length
  key_iff _ := Iff.rfl
  id_bound := by
    rintro t m k p ⟨T, hT, -, hm⟩ hk
    have hbound := rep_ids_bound hT.layout.1 (find_mem_ids UInt8.toNat (Trie.find_of_map hm hk).2)
    rwa [Trie.length_store] at hbound
  count_known := by
    rintro t m k t' p ⟨T, hT, -⟩ hk hins
    have hins : t.insert printOne k = .ok (t', false, p) := hins
    rcases Trie.insert_spec printOne hT hk with ⟨i, stats, hins', -⟩ | ⟨t₂, hins', -⟩
    · rw [hins] at hins'
      obtain ⟨rfl, -⟩ := Prod.mk.inj (Except.ok.inj hins')
      rfl
    · rw [hins] at hins'
      cases hins'

def LHash.elemKind : LHashKind := ⟨false, 1⟩

def GHash.elemKind : GHashKind := ⟨false, 16⟩

end PathSet
