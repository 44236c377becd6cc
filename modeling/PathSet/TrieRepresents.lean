import PathSet.Trie

/-!
The nodes of a trie hold a ternary search tree over the bytes of the keys, zero
being the end mark. Each operation is read off the tree: the descent of an
insertion is the tree's `seek`, the nodes built are the tree's `addKey`.
-/

namespace PathSet
open Fallible Pointer LinkedTree TernaryTree

def TrieNode.cell (c : TrieNode) : Cell UInt8 := ⟨c.ch, c.lo, c.hi, c.u⟩

namespace Trie

def store (t : Trie) : Store UInt8 := ⟨t.rootNode, t.nodes.map TrieNode.cell⟩

theorem length_store (t : Trie) : t.store.cells.length = t.nodes.length := by
  simp [store]

theorem node_of_cell {t : Trie} {p : Nat} {c : Cell UInt8} (h : deref t.store.cells p = some c) :
    ∃ d, t.node p = .ok d ∧ deref t.nodes p = some d ∧ d.cell = c := by
  simp only [store, deref_map, Option.map_eq_some_iff] at h
  obtain ⟨d, hd, rfl⟩ := h
  exact ⟨d, by simp [node, hd], hd, rfl⟩

theorem assign_store (t : Trie) (v : Nat) (l : Link) :
    (t.assign v l).store = t.store.assign l v := by
  cases l with
  | root => rfl
  | lo p => exact congrArg (Store.mk t.rootNode) (update_map _ _ _ t.nodes p fun _ => rfl)
  | hi p => exact congrArg (Store.mk t.rootNode) (update_map _ _ _ t.nodes p fun _ => rfl)
  | eq p => exact congrArg (Store.mk t.rootNode) (update_map _ _ _ t.nodes p fun _ => rfl)

theorem setVal_store (t : Trie) (p v : Nat) :
    (t.setVal p v).store =
      ⟨t.rootNode, update t.store.cells (fun c => { c with eq := v }) p⟩ :=
  congrArg (Store.mk t.rootNode) (update_map _ _ _ t.nodes p fun _ => rfl)

theorem newNode_store (printOne : Bool) (t : Trie) (ptr : Link) (ch : UInt8) (up : Nat) :
    (newNode printOne t ptr ch up).1.store = t.store.push ptr ch := by
  have h := assign_store t (t.nodes.length + 1) ptr
  simp only [store, Store.push, newNode, List.map_append, List.map_cons, List.map_nil,
    List.length_map] at h ⊢
  rw [← h]
  rfl

theorem symbol_append {key : Bytes} (h : 0 ∉ key) :
    ∃ k ks, key ++ [0] = k :: ks ∧ symbol key = .ok k ∧ (k = 0 ↔ key = []) ∧
      (key ≠ [] → ks = key.tail ++ [0]) := by
  cases key with
  | nil => exact ⟨0, [], rfl, rfl, by simp, by simp⟩
  | cons ch key =>
    have hne : ch ≠ 0 := by
      rintro rfl
      simp at h
    exact ⟨ch, key ++ [0], rfl, by simp [symbol, hne], by simp [hne], by simp⟩

theorem sentence_key {key : Bytes} (h : 0 ∉ key) : Sentence 0 (key ++ [0]) := ⟨key, rfl, h⟩

/-- The answer of the first loop, read off the tree. `base` becomes the first node
that matches, `up` stays the owner of the link. -/
def Descends (T : SearchTree UInt8) (l : Link) (key : Bytes) (base up : Nat) (stats : TrieStats)
    (r : Outcome (Descent × TrieStats)) : Prop :=
  (∃ i stats', r = .ok (.dup i, stats') ∧
    seek UInt8.toNat 0 T l (key ++ [0]) = .found i ∧
    stats'.uniqNode = stats.uniqNode ∧ stats'.dupsNode = stats.dupsNode + 1) ∨
  (∃ l' key' base' up' stats', r = .ok (.hole l' key' base' up', stats') ∧
    seek UInt8.toNat 0 T l (key ++ [0]) = .hole l' (key' ++ [0]) ∧ 0 ∉ key' ∧
    stats'.uniqNode = stats.uniqNode ∧ stats'.dupsNode = stats.dupsNode ∧
    (up = l.owner → up' = l'.owner) ∧
    base' = if base = 0 then (find UInt8.toNat T ((key ++ [0]).take 1)).getD 0 else base)

theorem Descends.follow {T T' : SearchTree UInt8} {l l' : Link} {key key' : Bytes}
    {base base' up up' : Nat} {stats stats' : TrieStats} {r : Outcome (Descent × TrieStats)}
    (h : Descends T' l' key' base' up' stats' r) (hup : up' = l'.owner)
    (hu : stats'.uniqNode = stats.uniqNode) (hd : stats'.dupsNode = stats.dupsNode)
    (hseek : seek UInt8.toNat 0 T l (key ++ [0]) = seek UInt8.toNat 0 T' l' (key' ++ [0]))
    (hbase : (if base' = 0 then (find UInt8.toNat T' ((key' ++ [0]).take 1)).getD 0 else base') =
      if base = 0 then (find UInt8.toNat T ((key ++ [0]).take 1)).getD 0 else base) :
    Descends T l key base up stats r := by
  rcases h with ⟨i, st, hrun, hs, hu', hd'⟩ | ⟨l₁, k₁, b₁, u₁, st, hrun, hs, hk, hu', hd', hup', hb⟩
  · exact Or.inl ⟨i, st, hrun, hseek.trans hs, hu'.trans hu, by rw [hd', hd]⟩
  · exact Or.inr ⟨l₁, k₁, b₁, u₁, st, hrun, hseek.trans hs, hk, hu'.trans hu, hd'.trans hd,
      fun _ => hup' hup, hb.trans hbase⟩

theorem descend_spec {t : Trie} {T : SearchTree UInt8} {p fuel : Nat} {l : Link} {key : Bytes}
    {base up : Nat} {stats : TrieStats} (hrep : Rep 0 t.store.cells T p)
    (hload : t.load l = .ok p) (hkey : 0 ∉ key) (hfuel : size T < fuel) :
    Descends T l key base up stats (t.descend fuel l key base up stats) := by
  induction T generalizing p fuel l key base up stats with
  | nil =>
    obtain rfl : p = 0 := hrep
    cases fuel with
    | zero => simp [size] at hfuel
    | succ fuel =>
      refine Or.inr ⟨l, key, base, up, stats, ?_, rfl, hkey, rfl, rfl, ?_, ?_⟩
      · simp [descend, hload]
      · exact id
      · by_cases hb : base = 0 <;> simp [hb]
  | node id s lo eq hi ihl ihe ihh =>
    obtain ⟨rfl, c, hc, rfl, hlo, hhi, heq⟩ := hrep
    obtain ⟨d, hnode, -, rfl⟩ := node_of_cell hc
    obtain ⟨k, ks, happ, hsym, hend, htail⟩ := symbol_append hkey
    have hp : p ≠ 0 := by
      rintro rfl
      simp at hc
    have hload_lo : t.load (.lo p) = .ok d.lo := by simp [load, hnode]
    have hload_hi : t.load (.hi p) = .ok d.hi := by simp [load, hnode]
    have hload_eq : t.load (.eq p) = .ok d.u := by simp [load, hnode]
    cases fuel with
    | zero => simp [size] at hfuel
    | succ fuel =>
      simp only [size] at hfuel
      simp only [descend, hload, ok_bind, hp, if_false, hsym, hnode, pure_eq_ok]
      have hcell : d.cell.sym = d.ch := rfl
      by_cases hk : k = d.ch
      · simp only [hk, if_true]
        by_cases hz : d.ch = 0
        · simp only [hz, if_true]
          refine Or.inl ⟨p, _, rfl, ?_, rfl, rfl⟩
          rw [happ, hcell, hk, hz]
          simp [seek]
        · have hne : key ≠ [] := fun he => hz (hk ▸ hend.mpr he)
          rw [if_neg (show d.cell.sym ≠ 0 from hz)] at heq
          simp only [hz, if_false]
          have hseek : seek UInt8.toNat 0 (.node p d.cell.sym lo eq hi) l (key ++ [0]) =
              seek UInt8.toNat 0 eq (.eq p) (key.tail ++ [0]) := by
            rw [happ, hcell, htail hne, hk]
            simp [seek, hz]
          have hfind : find UInt8.toNat (.node p d.cell.sym lo eq hi) ((key ++ [0]).take 1) =
              some p := by
            rw [happ, hcell, hk]
            simp [find]
          refine (ihe heq hload_eq (fun hm => hkey (List.mem_of_mem_tail hm))
            (show size eq < fuel by omega)).follow rfl rfl rfl hseek ?_
          rw [hfind]
          by_cases hb0 : base = 0 <;> simp [hb0, hp]
      · simp only [hk, if_false]
        by_cases hlt : k < d.ch
        · simp only [hlt, if_true]
          have hseek : seek UInt8.toNat 0 (.node p d.cell.sym lo eq hi) l (key ++ [0]) =
              seek UInt8.toNat 0 lo (.lo p) (key ++ [0]) := by
            rw [happ, hcell]
            simp [seek, hk, UInt8.lt_iff_toNat_lt.mp hlt]
          have hfind : find UInt8.toNat (.node p d.cell.sym lo eq hi) ((key ++ [0]).take 1) =
              find UInt8.toNat lo ((key ++ [0]).take 1) := by
            rw [happ, hcell]
            simp [find, hk, UInt8.lt_iff_toNat_lt.mp hlt]
          exact (ihl hlo hload_lo hkey (show size lo < fuel by omega)).follow rfl rfl rfl hseek
            (by rw [hfind])
        · simp only [hlt, if_false]
          have hnlt : ¬ k.toNat < d.ch.toNat := fun h => hlt (UInt8.lt_iff_toNat_lt.mpr h)
          have hseek : seek UInt8.toNat 0 (.node p d.cell.sym lo eq hi) l (key ++ [0]) =
              seek UInt8.toNat 0 hi (.hi p) (key ++ [0]) := by
            rw [happ, hcell]
            simp [seek, hk, hnlt]
          have hfind : find UInt8.toNat (.node p d.cell.sym lo eq hi) ((key ++ [0]).take 1) =
              find UInt8.toNat hi ((key ++ [0]).take 1) := by
            rw [happ, hcell]
            simp [find, hk, hnlt]
          exact (ihh hhi hload_hi hkey (show size hi < fuel by omega)).follow rfl rfl rfl hseek
            (by rw [hfind])

def upChain (n up : Nat) : Bytes → List Nat
  | [] => [up]
  | _ :: key => up :: upChain (n + 1) (n + 1) key

theorem length_newNode (printOne : Bool) (t : Trie) (ptr : Link) (ch : UInt8) (up : Nat) :
    (newNode printOne t ptr ch up).1.nodes.length = t.nodes.length + 1 := by
  cases ptr <;> simp [newNode, assign]

theorem stats_newNode (printOne : Bool) (t : Trie) (ptr : Link) (ch : UInt8) (up : Nat) :
    (newNode printOne t ptr ch up).1.stats = t.stats := by
  cases ptr <;> rfl

theorem nodeStruct_newNode (printOne : Bool) (t : Trie) (ptr : Link) (ch : UInt8) (up : Nat) :
    (newNode printOne t ptr ch up).1.nodeStruct = t.nodeStruct + 1 := by
  cases ptr <;> rfl

theorem ups_update {nodes : List TrieNode} {f : TrieNode → TrieNode} (p : Nat)
    (hf : ∀ c, (f c).up = c.up) :
    (update nodes f p).map TrieNode.up = nodes.map TrieNode.up := by
  rw [update_map TrieNode.up f id nodes p hf]
  cases p <;> simp [update]

theorem ups_newNode (t : Trie) (ptr : Link) (ch : UInt8) (up : Nat) :
    (newNode true t ptr ch up).1.nodes.map TrieNode.up = t.nodes.map TrieNode.up ++ [up] := by
  cases ptr <;> simp [newNode, assign, ups_update]

theorem build_nil (printOne : Bool) (t : Trie) (ptr : Link) (base up : Nat) :
    build printOne t ptr base up [] =
      .ok (if printOne then (newNode printOne t ptr 0 up).1.setVal (t.nodes.length + 1)
          (if base = 0 then t.nodes.length + 1 else base)
        else (newNode printOne t ptr 0 up).1, t.nodes.length + 1) := rfl

theorem build_cons (printOne : Bool) (t : Trie) (ptr : Link) (base up : Nat) {ch : UInt8}
    (key : Bytes) (hne : ch ≠ 0) :
    build printOne t ptr base up (ch :: key) =
      build printOne (newNode printOne t ptr ch up).1 (.eq (t.nodes.length + 1))
        (if base = 0 then t.nodes.length + 1 else base) (t.nodes.length + 1) key := by
  rw [build, assert_of hne, ok_bind]
  rfl

theorem build_spec (printOne : Bool) {t : Trie} {ptr : Link} {base up : Nat} {key : Bytes}
    (hkey : 0 ∉ key) :
    ∃ t', build printOne t ptr base up key = .ok (t', t.nodes.length + key.length + 1) ∧
      t'.stats = t.stats ∧ t'.nodeStruct = t.nodeStruct + key.length + 1 ∧
      t'.nodes.length = t.nodes.length + key.length + 1 ∧
      t'.store = (if printOne then
        (t.store.grow ptr (key ++ [0])).setWord (t.nodes.length + key.length + 1)
          (if base = 0 then t.nodes.length + 1 else base)
        else t.store.grow ptr (key ++ [0])) ∧
      (printOne = true → t'.nodes.map TrieNode.up =
        t.nodes.map TrieNode.up ++ upChain t.nodes.length up key) := by
  induction key generalizing t ptr base up with
  | nil =>
    have hlen := length_newNode printOne t ptr 0 up
    have hstore := newNode_store printOne t ptr 0 up
    have hstats := stats_newNode printOne t ptr 0 up
    have hcount := nodeStruct_newNode printOne t ptr 0 up
    refine ⟨_, build_nil printOne t ptr base up, ?_⟩
    cases printOne with
    | false => exact ⟨hstats, hcount, hlen, hstore, by simp⟩
    | true =>
      refine ⟨hstats, hcount, by simpa [setVal] using hlen, ?_, fun _ => ?_⟩
      · simp only [if_true, setVal_store, List.nil_append, Store.grow, Store.setWord]
        rw [← hstore]
        rfl
      · simp only [if_true, setVal, ups_update, implies_true, ups_newNode, upChain]
  | cons ch key ih =>
    have hne : ch ≠ 0 := by
      rintro rfl
      simp at hkey
    have hlen := length_newNode printOne t ptr ch up
    obtain ⟨t', hrun, hstats, hcount, hlen', hstore, hups⟩ :=
      @ih (newNode printOne t ptr ch up).1 (.eq (t.nodes.length + 1))
        (if base = 0 then t.nodes.length + 1 else base) (t.nodes.length + 1)
        (fun h => hkey (List.mem_cons_of_mem _ h))
    rw [hlen] at hrun hlen' hstore
    have hlast : t.nodes.length + 1 + key.length + 1 = t.nodes.length + (ch :: key).length + 1 := by
      rw [List.length_cons]
      omega
    have hbase : (if (if base = 0 then t.nodes.length + 1 else base) = 0 then
        t.nodes.length + 1 + 1 else if base = 0 then t.nodes.length + 1 else base) =
        if base = 0 then t.nodes.length + 1 else base := by
      by_cases hb : base = 0 <;> simp [hb]
    have hgrow : (newNode printOne t ptr ch up).1.store.grow (.eq (t.nodes.length + 1))
        (key ++ [0]) = t.store.grow ptr (ch :: key ++ [0]) := by
      rw [newNode_store, List.cons_append, Store.grow, length_store]
    rw [hlast] at hrun hlen'
    rw [hlast, hbase, hgrow] at hstore
    refine ⟨t', (build_cons printOne t ptr base up key hne).trans hrun,
      hstats.trans (stats_newNode printOne t ptr ch up), ?_, hlen', hstore, ?_⟩
    · rw [hcount, nodeStruct_newNode, List.length_cons]
      omega
    · rintro rfl
      rw [hups rfl, ups_newNode, hlen, List.append_assoc]
      rfl

/-- The nodes hold the tree `T`, and every one of them is in it. -/
structure Holds (t : Trie) (T : SearchTree UInt8) : Prop where
  layout : Layout 0 t.store T
  ordered : Ordered UInt8.toNat T
  ended : Ended 0 T
  counted : t.nodeStruct = t.nodes.length

theorem holds_init : Holds init .nil := ⟨layout_empty 0, trivial, trivial, rfl⟩

theorem Holds.size {t : Trie} {T : SearchTree UInt8} (h : Holds t T) :
    size T = t.nodes.length := by
  rw [h.layout.size, length_store]

theorem lookupFrom_spec {t : Trie} {T : SearchTree UInt8} {p fuel : Nat} {key : Bytes}
    (hrep : Rep 0 t.store.cells T p) (hkey : 0 ∉ key) (hfuel : size T < fuel) :
    t.lookupFrom fuel p key = .ok (find UInt8.toNat T (key ++ [0])) := by
  induction T generalizing p fuel key with
  | nil =>
    obtain rfl : p = 0 := hrep
    cases fuel with
    | zero => simp [TernaryTree.size] at hfuel
    | succ fuel => simp [lookupFrom]
  | node id s lo eq hi ihl ihe ihh =>
    obtain ⟨rfl, c, hc, rfl, hlo, hhi, heq⟩ := hrep
    obtain ⟨d, hnode, -, rfl⟩ := node_of_cell hc
    obtain ⟨k, ks, happ, hsym, hend, htail⟩ := symbol_append hkey
    have hp : p ≠ 0 := by
      rintro rfl
      simp at hc
    cases fuel with
    | zero => simp [TernaryTree.size] at hfuel
    | succ fuel =>
      simp only [TernaryTree.size] at hfuel
      have hcell : d.cell.sym = d.ch := rfl
      have hl := ihl hlo hkey (show TernaryTree.size lo < fuel by omega)
      have hh := ihh hhi hkey (show TernaryTree.size hi < fuel by omega)
      simp only [lookupFrom, hp, if_false, hsym, hnode, ok_bind, pure_eq_ok]
      rw [happ, hcell]
      rw [happ] at hl hh
      simp only [find, ← UInt8.lt_iff_toNat_lt]
      by_cases hk : k = d.ch
      · simp only [hk, if_true]
        by_cases hz : d.ch = 0
        · have hks : ks = [] := by
            have hnil := hend.mp (hk.trans hz)
            subst hnil
            simpa using (List.cons.inj happ).2.symm
          simp [hz, hks]
        · have hne : key ≠ [] := fun he => hz (hk ▸ hend.mpr he)
          rw [if_neg (show d.cell.sym ≠ 0 from hz)] at heq
          simp only [hz, if_false, htail hne]
          rw [if_neg (by simp)]
          exact ihe heq (fun hm => hkey (List.mem_of_mem_tail hm))
            (show TernaryTree.size eq < fuel by omega)
      · simp only [hk, if_false]
        split_ifs
        · exact hl
        · exact hh

theorem lookup_spec {t : Trie} {T : SearchTree UInt8} {key : Bytes} (h : Holds t T) (hkey : 0 ∉ key) :
    t.lookup key = .ok (find UInt8.toNat T (key ++ [0])) :=
  lookupFrom_spec h.layout.1 hkey (by rw [h.size]; omega)

theorem insert_cases (printOne : Bool) {t : Trie} {T : SearchTree UInt8} {key : Bytes}
    (h : Holds t T) (hkey : 0 ∉ key) :
    (∃ i stats, t.insert printOne key = .ok ({ t with stats := stats }, false, i) ∧
      find UInt8.toNat T (key ++ [0]) = some i ∧
      stats.uniqNode = t.stats.uniqNode ∧ stats.dupsNode = t.stats.dupsNode + 1) ∨
    (∃ t' l key' base, t.insert printOne key = .ok (t', true, t'.nodes.length) ∧
      seek UInt8.toNat 0 T .root (key ++ [0]) = .hole l (key' ++ [0]) ∧
      t'.nodes.length = t.nodes.length + key'.length + 1 ∧
      (base = match find UInt8.toNat T ((key ++ [0]).take 1) with
        | some b => b
        | none => t.nodes.length + 1) ∧
      t'.store = (if printOne then
        (t.store.grow l (key' ++ [0])).setWord t'.nodes.length base
        else t.store.grow l (key' ++ [0])) ∧
      (printOne = true → t'.nodes.map TrieNode.up =
        t.nodes.map TrieNode.up ++ upChain t.nodes.length l.owner key') ∧
      t'.nodeStruct = t'.nodes.length ∧
      t'.stats.uniqNode = t.stats.uniqNode + 1 ∧ t'.stats.dupsNode = t.stats.dupsNode) := by
  have hfuel : TernaryTree.size T < t.nodes.length + 1 := by rw [h.size]; omega
  rcases descend_spec h.layout.1 (show t.load .root = .ok t.rootNode from rfl) hkey hfuel with
    ⟨i, stats, hrun, hs, hu, hd⟩ | ⟨l, key', base, up, stats, hrun, hs, hk', hu, hd, hup, hb⟩
  · refine Or.inl ⟨i, stats, ?_, (seek_found_iff UInt8.toNat (sentence_key hkey)).mp hs, hu, hd⟩
    rw [insert, hrun, ok_bind]
    rfl
  · right
    obtain ⟨t', hbuild, hstats, hcount, hlen, hstore, hups⟩ :=
      @build_spec printOne { t with stats := stats } l base up key' hk'
    refine ⟨{ t' with stats := { t'.stats with uniqNode := t'.stats.uniqNode + 1 } }, l, key',
      if base = 0 then t.nodes.length + 1 else base, ?_, hs, hlen, ?_, ?_, ?_, ?_, ?_, ?_⟩
    · rw [insert, hrun, ok_bind]
      simp only [hbuild, ok_bind, hlen, pure_eq_ok]
    · rw [hb, if_pos rfl]
      cases hf : find UInt8.toNat T ((key ++ [0]).take 1) with
      | none => simp
      | some b =>
        have hpos := (rep_ids_bound h.layout.1 (find_mem_ids UInt8.toNat hf)).1
        simp [Nat.ne_of_gt hpos]
    · rw [hlen]
      exact hstore
    · intro hone
      rw [← hup rfl]
      exact hups hone
    · rw [hlen]
      refine hcount.trans ?_
      show t.nodeStruct + key'.length + 1 = t.nodes.length + key'.length + 1
      rw [h.counted]
    · simp only [hstats, hu]
    · simp only [hstats, hd]

theorem val_eq_word (t : Trie) (p : Nat) : t.val p = t.store.word p := by
  rw [val, Store.word, store, deref_map, Option.map_map]
  rfl

theorem insert_spec (printOne : Bool) {t : Trie} {T : SearchTree UInt8} {key : Bytes}
    (h : Holds t T) (hkey : 0 ∉ key) :
    (∃ i stats, t.insert printOne key = .ok ({ t with stats := stats }, false, i) ∧
      find UInt8.toNat T (key ++ [0]) = some i ∧
      stats.uniqNode = t.stats.uniqNode ∧ stats.dupsNode = t.stats.dupsNode + 1) ∨
    (∃ t', t.insert printOne key = .ok (t', true, t'.nodes.length) ∧
      find UInt8.toNat T (key ++ [0]) = none ∧
      Holds t' (addKey UInt8.toNat t.nodes.length T (key ++ [0])) ∧
      (∀ q, 0 ∉ q → find UInt8.toNat (addKey UInt8.toNat t.nodes.length T (key ++ [0])) (q ++ [0]) =
        if q = key then some t'.nodes.length else find UInt8.toNat T (q ++ [0])) ∧
      (∀ q i, 0 ∉ q → find UInt8.toNat T (q ++ [0]) = some i → t'.val i = t.val i) ∧
      t'.stats.uniqNode = t.stats.uniqNode + 1 ∧ t'.stats.dupsNode = t.stats.dupsNode) := by
  rcases insert_cases printOne h hkey with
    hdup | ⟨t', l, key', base, hins, hs, hlen, -, hstore, -, hcount, hu, hd⟩
  · exact Or.inl hdup
  · right
    have hsent := sentence_key hkey
    have hgrow := layout_grow UInt8.toNat h.layout hsent hs
    have hfind : ∀ q, 0 ∉ q →
        find UInt8.toNat (addKey UInt8.toNat t.nodes.length T (key ++ [0])) (q ++ [0]) =
          if q = key then some t'.nodes.length else find UInt8.toNat T (q ++ [0]) := by
      intro q hq
      have hgrown := @find_grown _ _ _ _ UInt8.toNat 0 t.store T l _ _ _ hsent hs (sentence_key hq)
      rw [length_store] at hgrown
      rw [hgrown, hlen, List.length_append, List.length_singleton]
      simp only [List.append_left_inj, ← Nat.add_assoc]
    rw [length_store] at hgrow
    obtain ⟨c, hc, hsym⟩ := end_of_find UInt8.toNat hgrow.1 hsent (by rw [hfind key hkey, if_pos rfl])
    have hlayout : Layout 0 t'.store (addKey UInt8.toNat t.nodes.length T (key ++ [0])) := by
      rw [hstore]
      cases printOne with
      | false => exact hgrow
      | true =>
        refine layout_setWord hgrow (fun d hd => ?_)
        rw [hc] at hd
        exact Option.some.inj hd ▸ hsym
    refine ⟨t', hins, find_of_hole UInt8.toNat hsent hs, ⟨hlayout, ?_, ?_, hcount⟩, hfind, ?_, hu, hd⟩
    · exact ordered_addKey UInt8.toNat (fun _ _ => UInt8.toNat.inj) h.ordered
    · exact ended_addKey UInt8.toNat h.ended hsent
    · intro q i hq hqi
      have hword := word_grow UInt8.toNat h.layout hsent hs (sentence_key hq) hqi
      have hbound := (rep_ids_bound h.layout.1 (find_mem_ids UInt8.toNat hqi)).2
      rw [length_store] at hbound
      rw [val_eq_word, val_eq_word, hstore]
      cases printOne with
      | false => exact hword
      | true =>
        rw [if_pos rfl, word_setWord_ne (by omega), hword]

end Trie

end PathSet
