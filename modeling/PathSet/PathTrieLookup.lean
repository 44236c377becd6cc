import PathSet.PathTrieHistory

/-!
Lookups in a path trie. The null pointer is read at the end of a key and for an element
that the set does not know, so the walk takes an unknown element for the end of the key.
What is found is the key of the elements before the first unknown one.
-/

namespace PathSet
open Fallible Pointer LinkedTree TernaryTree FirstSeen

namespace PathTrie

variable {σ : Type} {w : Nat} {U : UintHash w} {E : ElemSet σ w}

def knownIds (me : Bytes → Option (BitVec w)) : List Bytes → List (BitVec w)
  | [] => []
  | e :: es =>
      match me e with
      | none => []
      | some i => i :: knownIds me es

theorem knownIds_spec (me : Bytes → Option (BitVec w)) (els : List Bytes) :
    (els.takeWhile fun e => (me e).isSome).map me = (knownIds me els).map some := by
  induction els with
  | nil => rfl
  | cons e es ih =>
    cases he : me e with
    | none => simp [knownIds, he]
    | some i => simp [knownIds, he, ih]

theorem getNext_spec {t : PathTrie σ w} {me : Bytes → Option (BitVec w)} {cur : Cursor w}
    (hE : E.Rep t.elemSet me) (hkey : 0 ∉ cur.key) :
    ∃ cur', getNext E t cur = .ok cur' ∧ cur'.next = false ∧ 0 ∉ cur'.key ∧
      cur.pending (knownIds me (elements t.sepSet cur.key)) =
        cur'.pending (knownIds me (elements t.sepSet cur'.key)) := by
  by_cases hnext : cur.next = true
  swap
  · refine ⟨cur, ?_, by simpa using hnext, hkey, rfl⟩
    rw [getNext, if_neg hnext]
    rfl
  rw [getNext, if_pos hnext, Cursor.pending, if_pos hnext]
  by_cases hnil : cur.key = []
  · refine ⟨⟨[], false, 0⟩, ?_, rfl, by simp, ?_⟩
    · rw [getElem, if_pos hnil, hnil]
      rfl
    · rw [hnil]
      rfl
  · have hcons := @elements_eq_cons t.sepSet cur.key hnil
    have hfirst : E.Key (cur.key.take (firstLength t.sepSet cur.key)) :=
      key_of_mem_elements hkey _ (hcons ▸ List.mem_cons_self)
    have hrest : 0 ∉ cur.key.drop (firstLength t.sepSet cur.key) := fun h =>
      hkey (List.mem_of_mem_drop h)
    rw [getElem, if_neg hnil, split_eq, ok_bind, hcons, knownIds]
    simp only [E.lookup_eq hE hfirst, ok_bind]
    cases he : me (cur.key.take (firstLength t.sepSet cur.key)) with
    | none => exact ⟨⟨_, false, 0⟩, rfl, rfl, hrest, rfl⟩
    | some e =>
      have hne := E.id_ne_zero hE he
      refine ⟨⟨_, false, e⟩, ?_, rfl, hrest, ?_⟩
      · simp only [assert_of hne, ok_bind, pure_eq_ok]
      · rw [Cursor.pending_elem _ hne]
        rfl

theorem lookupFrom_spec {t : PathTrie σ w} {T : SearchTree (BitVec w)} {p fuel : Nat}
    {me : Bytes → Option (BitVec w)} {cur : Cursor w} (hrep : Rep 0 t.store.cells T p)
    (hE : E.Rep t.elemSet me) (hkey : 0 ∉ cur.key) (hfuel : size T < fuel) :
    lookupFrom U E t fuel p cur =
      .ok (find U.rank T (cur.pending (knownIds me (elements t.sepSet cur.key)))) := by
  induction T generalizing p fuel cur with
  | nil =>
    obtain rfl : p = 0 := hrep
    cases fuel with
    | zero => simp [size] at hfuel
    | succ fuel => simp [lookupFrom]
  | node id s lo eq hi ihl ihe ihh =>
    obtain ⟨rfl, c, hc, rfl, hlo, hhi, heq⟩ := hrep
    obtain ⟨d, hnode, -, rfl⟩ := node_of_cell hc
    have hp : p ≠ 0 := by
      rintro rfl
      simp at hc
    cases fuel with
    | zero => simp [size] at hfuel
    | succ fuel =>
      simp only [size] at hfuel
      have hcell : d.cell.sym = d.elem := rfl
      obtain ⟨cur', hnext, hread, hkey', hpend⟩ := getNext_spec hE hkey
      obtain ⟨ks, hks, hend, hgo⟩ :=
        Cursor.pending_cons hread (knownIds me (elements t.sepSet cur'.key))
      simp only [lookupFrom, hp, if_false, hnode, hnext, ok_bind]
      rw [hpend]
      by_cases hk : cur'.elem = d.elem
      · rw [if_pos hk, hks, find, if_pos (hk.trans hcell.symm)]
        by_cases hz : cur'.elem = 0
        · rw [if_pos hz, if_pos (hend hz)]
          rfl
        · have hne : ks ≠ [] := by
            rw [hgo hz, Cursor.pending, if_pos rfl]
            simp
          rw [if_neg (show d.cell.sym ≠ 0 from fun h => hz (hk.trans h))] at heq
          rw [if_neg hz, if_neg hne, hgo hz]
          exact @ihe d.u fuel { cur' with next := true } heq hkey' (by omega)
      · rw [if_neg hk, U.ptrLt_eq, ok_bind, hks, find, if_neg (show cur'.elem ≠ d.cell.sym from hk),
          hcell]
        by_cases hlt : U.rank cur'.elem < U.rank d.elem
        · rw [if_pos (decide_eq_true hlt), if_pos hlt, ← hks]
          exact ihl hlo hkey' (by omega)
        · rw [if_neg (by simpa using hlt), if_neg hlt, ← hks]
          exact ihh hhi hkey' (by omega)

theorem lookup_spec {t : PathTrie σ w} {m : Bytes → Option Nat} {T : SearchTree (BitVec w)}
    {me : Bytes → Option (BitVec w)} (h : Knows U E t m T me) {key : Bytes} (hkey : 0 ∉ key) :
    lookup U E t key =
      .ok (find U.rank T (knownIds me (elements t.sepSet key) ++ [0])) :=
  lookupFrom_spec h.holds.layout.1 h.elems hkey (by rw [h.holds.size]; omega)

theorem lookup_known {t : PathTrie σ w} {m : Bytes → Option Nat} {T : SearchTree (BitVec w)}
    {me : Bytes → Option (BitVec w)} (h : Knows U E t m T me) {key : Bytes} (hkey : 0 ∉ key) :
    lookup U E t key =
      .ok (m ((elements t.sepSet key).takeWhile fun e => (me e).isSome).flatten) := by
  have hnamed : Named me t.sepSet
      ((elements t.sepSet key).takeWhile fun e => (me e).isSome).flatten
      (knownIds me (elements t.sepSet key)) := by
    rw [Named, ← knownIds_spec, List.takeWhile_eq_take_findIdx_not, elements_flatten_take]
  have hnoNul : 0 ∉ ((elements t.sepSet key).takeWhile fun e => (me e).isSome).flatten := by
    intro hmem
    obtain ⟨e, he, h0⟩ := List.mem_flatten.mp hmem
    exact notMem_of_mem_elements hkey ((List.takeWhile_sublist _).subset he) h0
  rw [lookup_spec h hkey]
  refine congrArg Except.ok (Option.ext fun i => ?_)
  rw [h.keys]
  constructor
  · intro hfind
    exact ⟨hnoNul, _, hnamed, hfind⟩
  · rintro ⟨-, ids, hn, hfind⟩
    rwa [hnamed.ids_eq hn]

def familiar (sep : Bytes) (keys : List Bytes) (key : Bytes) : List Bytes :=
  (elements sep key).takeWhile fun e => e ∈ keys.flatMap (elements sep)

theorem familiar_of_mem {sep key : Bytes} {keys : List Bytes} (h : key ∈ keys) :
    familiar sep keys key = elements sep key := by
  rw [familiar, List.takeWhile_eq_self_iff]
  intro e he
  exact decide_eq_true (List.mem_flatMap.mpr ⟨key, h, he⟩)

theorem lookup_familiar {sep : Bytes} {keys : List Bytes} {t : PathTrie σ w}
    {m : Bytes → Option Nat} (hrep : Holding U E sep t m)
    (hE : E.Seen (keys.flatMap (elements sep)) t.elemSet) {key : Bytes} (hkey : 0 ∉ key) :
    lookup U E t key = .ok (m (familiar sep keys key).flatten) := by
  obtain ⟨⟨T, me, h⟩, rfl⟩ := hrep
  obtain ⟨me', hrep', hdom, -⟩ := hE
  obtain rfl : me = me' := E.rep_unique h.elems hrep'
  rw [lookup_known h hkey, familiar]
  congr 4
  funext e
  exact eq_decide_of_iff (hdom e)

/-- After every run of insertions a lookup answers as it should, if and only if the
elements of its key are all known or those before the first unknown one are no key. -/
theorem path_trie_lookup_run (U : UintHash w) (E : ElemSet σ w) {s₀ : σ} (hE : E.Seen [] s₀)
    (sepSet : Option Bytes) {keys : List Bytes} (hkeys : ∀ k ∈ keys, 0 ∉ k) :
    Stops E.Exhausted (run (insert U E) (init s₀ sepSet) keys) ∨
      ∃ t rs, ∃ ident : Bytes → Nat, run (insert U E) (init s₀ sepSet) keys = .ok (t, rs) ∧
        (∀ (i : Nat) k, keys[i]? = some k → rs[i]? = some (decide (k ∉ keys.take i), ident k)) ∧
        ∀ q, 0 ∉ q →
          (lookup U E t q = .ok (if q ∈ keys then some (ident q) else none) ↔
            familiar (sepSet.getD defaultSep) keys q = elements (sepSet.getD defaultSep) q ∨
              (familiar (sepSet.getD defaultSep) keys q).flatten ∉ keys) := by
  obtain ⟨me, hrep₀, -⟩ := id hE
  rcases (interner U E (sepSet.getD defaultSep)).run_from_empty (holding_init hrep₀ sepSet) hkeys with
    hs | ⟨t, rs, m, ident, hrun, hrep, hknown, hother, hans⟩
  · exact Or.inl hs
  have hrun : run (insert U E) (init s₀ sepSet) keys = .ok (t, rs) := hrun
  refine Or.inr ⟨t, rs, ident, hrun, ?_, ?_⟩
  · intro i k hi
    obtain ⟨b, hr, hb⟩ := hans i k hi
    rw [hr, eq_decide_of_iff hb]
  intro q hq
  rw [lookup_familiar hrep (interned_run hE sepSet hkeys hrun).2 hq, Except.ok.injEq]
  generalize sepSet.getD defaultSep = sep
  have hflat : familiar sep keys q = elements sep q → (familiar sep keys q).flatten = q := by
    intro h
    rw [h, flatten_elements]
  by_cases hmem : q ∈ keys
  · have hall := @familiar_of_mem sep q keys hmem
    rw [if_pos hmem, hflat hall, hknown q hmem]
    exact iff_of_true rfl (Or.inl hall)
  · rw [if_neg hmem]
    constructor
    · intro hnone
      refine Or.inr fun hin => ?_
      rw [hknown _ hin] at hnone
      cases hnone
    · rintro (hall | hnot)
      · rw [hflat hall]
        exact hother q hmem
      · exact hother _ hnot

/-- After the insertion of `a/` the key `a/x` is found as well. -/
theorem path_trie_lookup_unknown_element :
    ∃ t, run (insert .mix64 trieElems) (init Trie.init none) [[97, 47]] = .ok (t, [(true, 2)]) ∧
      lookup .mix64 trieElems t [97, 47, 120] = .ok (some 2) ∧ [97, 47, 120] ∉ [[97, 47]] := by
  refine ⟨_, rfl, ?_, by decide⟩
  decide +kernel

theorem path_trie_lookup_run_prefix :
    ∃ t rs, ∃ ident : Bytes → Nat,
      run (insert .mix64 trieElems) (init Trie.init none) [[97, 47], []] = .ok (t, rs) ∧
      lookup .mix64 trieElems t [97, 47] = .ok (some (ident [97, 47])) ∧
      lookup .mix64 trieElems t [97, 47, 97, 47] = .ok none := by
  have hempty : trieElems.Seen [] Trie.init := trieElems.seen_empty trieElems_empty rfl rfl
  have hkeys : ∀ k ∈ ([[97, 47], []] : List Bytes), 0 ∉ k := by decide
  have hvalue : (run (insert .mix64 trieElems) (init Trie.init none) [[97, 47], []]).isOk = true := by
    decide +kernel
  rcases path_trie_lookup_run .mix64 trieElems hempty none hkeys with
    ⟨e, -, he⟩ | ⟨t, rs, ident, hrun, -, hlookup⟩
  · rw [he] at hvalue
    cases hvalue
  · exact ⟨t, rs, ident, hrun, (hlookup [97, 47] (by decide)).mpr (Or.inl (by decide)),
      (hlookup [97, 47, 97, 47] (by decide)).mpr (Or.inl (by decide))⟩

end PathTrie

end PathSet
