import PathSet.PathTrieDictionary

/-!
What is left of a history of insertions in the element set: it has seen the elements of
all keys, in their order.
-/

namespace PathSet
open Fallible FirstSeen

namespace PathTrie

variable {σ : Type} {w : Nat} {U : UintHash w} {E : ElemSet σ w}

def Interned (U : UintHash w) (E : ElemSet σ w) (sep : Bytes) (keys : List Bytes)
    (t : PathTrie σ w) : Prop :=
  (∃ m, Holding U E sep t m) ∧ E.Seen (keys.flatMap (elements sep)) t.elemSet

theorem interned_init {s : σ} (hE : E.Seen [] s) (sepSet : Option Bytes) :
    Interned U E (sepSet.getD defaultSep) [] (init s sepSet) := by
  obtain ⟨me, hrep, -⟩ := id hE
  exact ⟨⟨_, holding_init hrep sepSet⟩, hE⟩

theorem elements_seen {sep key : Bytes} {keys : List Bytes} {s s' : σ} {ids : List (BitVec w)}
    (hE : E.Seen (keys.flatMap (elements sep)) s) (hkey : 0 ∉ key)
    (hall : E.internAll s (elements sep key) = .ok (s', ids)) :
    E.Seen ((keys ++ [key]).flatMap (elements sep)) s' := by
  rw [List.flatMap_append, List.flatMap_singleton]
  rcases E.seen_run hE (key_of_mem_elements hkey) with ⟨e, -, he⟩ | ⟨s'', is, hrun, hs''⟩
  · rw [hall] at he
    cases he
  · rw [hall] at hrun
    obtain ⟨rfl, -⟩ := Prod.mk.inj (Except.ok.inj hrun)
    exact hs''

theorem interned_insert {sep key : Bytes} {keys : List Bytes} {t t' : PathTrie σ w} {b : Bool}
    {i : Nat} (h : Interned U E sep keys t) (hkey : 0 ∉ key)
    (hins : insert U E t key = .ok (t', b, i)) : Interned U E sep (keys ++ [key]) t' := by
  obtain ⟨⟨m, hrep, hsep⟩, hE⟩ := h
  rcases insert_represents hrep hkey with
    ⟨-, e, -, he⟩ | ⟨t₂, j, hins', -, hrep', hsep', ⟨ids, hall⟩, -⟩ |
      ⟨t₂, j, hins', -, hrep', hsep', ⟨ids, hall⟩, -⟩
  · rw [hins] at he
    cases he
  · rw [hins] at hins'
    obtain ⟨rfl, -⟩ := Prod.mk.inj (Except.ok.inj hins')
    exact ⟨⟨_, hrep', hsep'.trans hsep⟩, elements_seen hE hkey (hsep ▸ hall)⟩
  · rw [hins] at hins'
    obtain ⟨rfl, -⟩ := Prod.mk.inj (Except.ok.inj hins')
    exact ⟨⟨_, hrep', hsep'.trans hsep⟩, elements_seen hE hkey (hsep ▸ hall)⟩

theorem interned_run {s : σ} (hE : E.Seen [] s) (sepSet : Option Bytes) {keys : List Bytes}
    (hkeys : ∀ k ∈ keys, 0 ∉ k) {t : PathTrie σ w} {rs : List (Bool × Nat)}
    (hrun : run (insert U E) (init s sepSet) keys = .ok (t, rs)) :
    Interned U E (sepSet.getD defaultSep) keys t :=
  run_history (fun _ _ _ _ _ h hk hins => interned_insert h hk hins) (interned_init hE sepSet) hkeys
    hrun

end PathTrie

end PathSet
