import PathSet.TriePrint

/-!
The trie as a store of keys: an interner for path elements, and with the values
of its end nodes a dictionary of lines. Its insertions never fail.
-/

namespace PathSet
open Fallible Pointer LinkedTree TernaryTree FirstSeen

namespace Trie

def Represents (printOne : Bool) (t : Trie) (m : Bytes → Option Nat) : Prop :=
  ∃ T, Holds t T ∧ (printOne = true → Climbs t T) ∧
    ∀ k, m k = if 0 ∉ k then find UInt8.toNat T (k ++ [0]) else none

theorem represents_init (printOne : Bool) : Represents printOne init (fun _ => none) :=
  ⟨.nil, holds_init, fun _ => climbs_init, fun k => by simp⟩

theorem find_of_map {m : Bytes → Option Nat} {T : SearchTree UInt8} {k : Bytes} {i : Nat}
    (hm : ∀ k, m k = if 0 ∉ k then find UInt8.toNat T (k ++ [0]) else none)
    (h : m k = some i) : 0 ∉ k ∧ find UInt8.toNat T (k ++ [0]) = some i := by
  rw [hm k] at h
  split_ifs at h with hk
  · exact ⟨hk, h⟩

theorem mem_bodies_of_map {t : Trie} {T : SearchTree UInt8} {m : Bytes → Option Nat} (h : Holds t T)
    (hm : ∀ k, m k = if 0 ∉ k then find UInt8.toNat T (k ++ [0]) else none) {k : Bytes} :
    k ∈ bodies 0 T ↔ (m k).isSome := by
  rw [mem_bodies UInt8.toNat h.ordered, hm]
  split_ifs with hk <;> simp [hk]

def finder (printOne : Bool) : Finder Trie Bytes Nat Abort where
  insert := insert printOne
  lookup := lookup
  uniq t := t.stats.uniqNode
  dups t := t.stats.dupsNode
  Exhausted _ := False
  Key k := 0 ∉ k
  Rep := Represents printOne
  rep_key := by
    rintro t m k i ⟨T, -, -, hm⟩ h
    exact (find_of_map hm h).1
  rep_inj := by
    rintro t m k k' i ⟨T, hT, -, hm⟩ h h'
    have heq := find_inj UInt8.toNat hT.layout.nodup (find_of_map hm h).2
      (find_of_map hm h').2
    exact List.append_cancel_right heq
  lookup_eq := by
    rintro t m k ⟨T, hT, -, hm⟩ hk
    rw [lookup_spec hT hk, hm, if_pos hk]
  insert_known := by
    rintro t m k i ⟨T, hT, hclimbs, hm⟩ h
    obtain ⟨hk, hfind⟩ := find_of_map hm h
    rcases insert_spec printOne hT hk with ⟨j, stats, hins, hj, hu, hd⟩ | ⟨t', -, hnone, -⟩
    · obtain rfl : i = j := Option.some.inj (hfind.symm.trans hj)
      exact ⟨_, hins, ⟨T, ⟨hT.layout, hT.ordered, hT.ended, hT.counted⟩,
        fun hone => climbs_stats (hclimbs hone), hm⟩, hu, hd⟩
    · rw [hfind] at hnone
      simp at hnone
  insert_fresh := by
    rintro t m k ⟨T, hT, hclimbs, hm⟩ hk h
    rw [hm, if_pos hk] at h
    rcases insert_spec printOne hT hk with
      ⟨j, stats, -, hj, -⟩ | ⟨t', hins, -, hT', hfind, -, hu, hd⟩
    · rw [h] at hj
      simp at hj
    · refine Or.inr ⟨t', _, hins, ⟨_, hT', ?_, ?_⟩, hu, hd⟩
      · rintro rfl
        exact climbs_insert hT (hclimbs rfl) hk hins
      · intro q
        by_cases hq : 0 ∉ q
        · rw [if_pos hq, hfind q hq]
          by_cases hqk : q = k
          · simp [hqk]
          · rw [if_neg hqk, Function.update_of_ne hqk, hm, if_pos hq]
        · have hqk : q ≠ k := fun he => hq (he ▸ hk)
          rw [if_neg hq, Function.update_of_ne hqk, hm, if_neg hq]

theorem holds_setVal {t : Trie} {T : SearchTree UInt8} {k : Bytes} {i v : Nat} (h : Holds t T)
    (hk : 0 ∉ k) (hfind : find UInt8.toNat T (k ++ [0]) = some i) : Holds (t.setVal i v) T := by
  obtain ⟨c, hc, hsym⟩ := end_of_find UInt8.toNat h.layout.1 (sentence_key hk) hfind
  refine ⟨?_, h.ordered, h.ended, by simpa [setVal] using h.counted⟩
  rw [setVal_store]
  refine layout_setWord h.layout (fun d hd => ?_)
  rw [hc] at hd
  exact Option.some.inj hd ▸ hsym

def dictionary : Dictionary Trie Bytes Nat Abort where
  toInterner := (finder false).toInterner
  val := val
  setVal := setVal
  rep_setVal := by
    intro t m k i v hrep h
    obtain ⟨T, hT, -, hm⟩ : Represents false t m := hrep
    obtain ⟨hk, hfind⟩ := find_of_map hm h
    exact ⟨T, holds_setVal hT hk hfind, by simp, hm⟩
  val_setVal := by
    intro t m k i v hrep h
    obtain ⟨T, hT, -, hm⟩ : Represents false t m := hrep
    obtain ⟨hk, hfind⟩ := find_of_map hm h
    obtain ⟨c, hc, -⟩ := end_of_find UInt8.toNat hT.layout.1 (sentence_key hk) hfind
    rw [val_eq_word, setVal_store]
    exact word_setWord (by rw [hc]; rfl)
  val_setVal_ne := by
    intro t m k k' i j v _ _ _ hij
    rw [val_eq_word, val_eq_word, setVal_store]
    exact word_setWord_ne hij
  val_insert := by
    intro t m t' b i k k' j hrep hk hins h
    obtain ⟨T, hT, -, hm⟩ : Represents false t m := hrep
    obtain ⟨hk', hfind⟩ := find_of_map hm h
    have hins : t.insert false k = .ok (t', b, i) := hins
    rcases insert_spec false hT hk with
      ⟨x, stats, hins', -⟩ | ⟨t₂, hins', -, -, -, hval, -⟩
    · rw [hins] at hins'
      obtain ⟨rfl, -⟩ := Prod.mk.inj (Except.ok.inj hins')
      rfl
    · rw [hins] at hins'
      obtain ⟨rfl, -⟩ := Prod.mk.inj (Except.ok.inj hins')
      exact hval k' j hk' hfind
  uniq_setVal _ _ _ := rfl
  dups_setVal _ _ _ := rfl

def tree (t : Trie) : SearchTree UInt8 := decode 0 t.store.cells t.nodes.length t.rootNode

theorem tree_eq {t : Trie} {T : SearchTree UInt8} (h : Holds t T) : t.tree = T :=
  decode_eq_of_rep h.layout.1 (le_of_eq h.size)

/-- Every run of insertions keeps the levels sorted, answers each key with the end
node of its first insertion, and is looked up accordingly. -/
theorem trie_insert_run (printOne : Bool) {keys : List Bytes} (hkeys : ∀ k ∈ keys, 0 ∉ k) :
    ∃ (t : Trie) (rs : List (Bool × Nat)) (ident : Bytes → Nat),
      run (insert printOne) init keys = .ok (t, rs) ∧
      Layout 0 t.store t.tree ∧ Ordered UInt8.toNat t.tree ∧
      (∀ (i : Nat) k, keys[i]? = some k → rs[i]? = some (decide (k ∉ keys.take i), ident k)) ∧
      (∀ k ∈ keys, ∃ c, t.node (ident k) = .ok c ∧ c.ch = 0) ∧
      (∀ k ∈ keys, ∀ k' ∈ keys, ident k = ident k' → k = k') ∧
      ∀ q, 0 ∉ q → t.lookup q = .ok (if q ∈ keys then some (ident q) else none) := by
  rcases (finder printOne).run_from_empty (represents_init printOne) hkeys with
    ⟨_, hno, -⟩ | ⟨t, rs, m, ident, hrun, hrep, hknown, hother, hans⟩
  · exact absurd hno id
  obtain ⟨T, hT, -, hm⟩ := id hrep
  refine ⟨t, rs, ident, hrun, tree_eq hT ▸ hT.layout, tree_eq hT ▸ hT.ordered, ?_, ?_, ?_, ?_⟩
  · intro i k hi
    obtain ⟨b, hr, hb⟩ := hans i k hi
    rw [hr, eq_decide_of_iff hb]
  · intro k hk
    obtain ⟨hk', hfind⟩ := find_of_map hm (hknown k hk)
    obtain ⟨c, hc, hsym⟩ := end_of_find UInt8.toNat hT.layout.1 (sentence_key hk') hfind
    obtain ⟨d, hd, -, rfl⟩ := node_of_cell hc
    exact ⟨d, hd, hsym⟩
  · intro k hk k' hk' heq
    exact (finder printOne).rep_inj hrep (hknown k hk) (heq ▸ hknown k' hk')
  · intro q hq
    refine ((finder printOne).lookup_eq hrep hq).trans (congrArg Except.ok ?_)
    split_ifs with hmem
    · exact hknown q hmem
    · exact hother q hmem

theorem trie_insert_run_prefixes :
    ∃ (t : Trie) (rs : List (Bool × Nat)) (ident : Bytes → Nat),
      run (insert false) init [[97, 200], [97], [], [97, 200]] = .ok (t, rs) ∧
      Layout 0 t.store t.tree ∧ Ordered UInt8.toNat t.tree ∧
      (∀ (i : Nat) k, [[97, 200], [97], [], [97, 200]][i]? = some k →
        rs[i]? = some (decide (k ∉ [[97, 200], [97], [], [97, 200]].take i), ident k)) ∧
      (∀ k ∈ [[97, 200], [97], [], [97, 200]], ∃ c, t.node (ident k) = .ok c ∧ c.ch = 0) ∧
      (∀ k ∈ [[97, 200], [97], [], [97, 200]], ∀ k' ∈ [[97, 200], [97], [], [97, 200]],
        ident k = ident k' → k = k') ∧
      ∀ q, 0 ∉ q → t.lookup q =
        .ok (if q ∈ [[97, 200], [97], [], [97, 200]] then some (ident q) else none) :=
  trie_insert_run false (by decide)

end Trie

end PathSet
