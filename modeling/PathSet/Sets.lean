import PathSet.SetImpl
import PathSet.PathTrieHistory

/-!
The structures the sets of lines are made of: the three plain ones, whose keys end by
NUL, and the path trie over each of the element sets.
-/

namespace PathSet
open Fallible Pointer LinkedTree TernaryTree FirstSeen Numbered

def SetImpl.ofStore {σ : Type} (S : Store σ Bytes Abort) (hkey : ∀ k, S.Key k ↔ 0 ∉ k) :
    SetImpl σ where
  toDictionary := S.dictionary
  key_iff := hkey
  id_pos := by
    rintro s m k n ⟨ks, -, hm⟩ hk
    exact (deref_le_length ((hm k n).mp hk)).1

def Trie.plain : SetImpl Trie where
  toDictionary := Trie.dictionary
  key_iff _ := Iff.rfl
  id_pos := by
    rintro t m k n ⟨T, hT, -, hm⟩ hk
    exact (rep_ids_bound hT.layout.1 (find_mem_ids UInt8.toNat (Trie.find_of_map hm hk).2)).1

def LHash.plainKind (size : Nat) : LHashKind := ⟨true, size / 8⟩

def LHash.plain (size : Nat) : SetImpl LHash :=
  .ofStore (LHash.numbered (LHash.plainKind size)) fun _ => Iff.rfl

def GHash.plainKind : GHashKind := ⟨true, 16⟩

def GHash.plain : SetImpl GHash := .ofStore (GHash.numbered GHash.plainKind) fun _ => Iff.rfl

def PathTrie.set {σ : Type} {w : Nat} (U : UintHash w) (E : ElemSet σ w) (sep : Bytes) :
    SetImpl (PathTrie σ w) where
  toDictionary := PathTrie.dictionary U E sep
  key_iff _ := Iff.rfl
  id_pos := by
    rintro t m k n ⟨⟨T, me, h⟩, -⟩ hk
    obtain ⟨-, ids, -, hfind⟩ := (h.keys k n).mp hk
    exact (rep_ids_bound h.holds.layout.1 (find_mem_ids U.rank hfind)).1

end PathSet
