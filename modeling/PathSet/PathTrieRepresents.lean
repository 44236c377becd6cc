import PathSet.PathTrie

/-!
The nodes of a path trie hold a ternary search tree over the pointers of the elements,
the null pointer being the end mark. What an insertion does to the tree and to the
element set is read off two runs: all elements of the key are interned in order, and
the sentence of their pointers is sought in the tree.
-/

namespace PathSet
open Fallible Pointer LinkedTree TernaryTree FirstSeen

variable {σ : Type} {w : Nat}

def PathTrieNode.cell (c : PathTrieNode w) : Cell (BitVec w) := ⟨c.elem, c.lo, c.hi, c.u⟩

namespace PathTrie

def store (t : PathTrie σ w) : Store (BitVec w) := ⟨t.rootNode, t.nodes.map PathTrieNode.cell⟩

theorem length_store (t : PathTrie σ w) : t.store.cells.length = t.nodes.length := by
  simp [store]

theorem node_of_cell {t : PathTrie σ w} {p : Nat} {c : Cell (BitVec w)}
    (h : deref t.store.cells p = some c) :
    ∃ d, t.node p = .ok d ∧ deref t.nodes p = some d ∧ d.cell = c := by
  simp only [store, deref_map, Option.map_eq_some_iff] at h
  obtain ⟨d, hd, rfl⟩ := h
  exact ⟨d, by simp [node, hd], hd, rfl⟩

theorem assign_store (t : PathTrie σ w) (v : Nat) (l : Link) :
    (t.assign v l).store = t.store.assign l v := by
  cases l with
  | root => rfl
  | lo p => exact congrArg (Store.mk t.rootNode) (update_map _ _ _ t.nodes p fun _ => rfl)
  | hi p => exact congrArg (Store.mk t.rootNode) (update_map _ _ _ t.nodes p fun _ => rfl)
  | eq p => exact congrArg (Store.mk t.rootNode) (update_map _ _ _ t.nodes p fun _ => rfl)

theorem setVal_store (t : PathTrie σ w) (p v : Nat) : (t.setVal p v).store = t.store.setWord p v :=
  congrArg (Store.mk t.rootNode) (update_map _ _ _ t.nodes p fun _ => rfl)

theorem val_eq_word (t : PathTrie σ w) (p : Nat) : t.val p = t.store.word p := by
  rw [val, Store.word, store, deref_map, Option.map_map]
  rfl

theorem newNode_store (t : PathTrie σ w) (e : BitVec w) (ptr : Link) :
    (newNode t e ptr).1.store = t.store.push ptr e := by
  have h := assign_store t (t.nodes.length + 1) ptr
  simp only [store, Store.push, newNode, List.map_append, List.map_cons, List.map_nil,
    List.length_map] at h ⊢
  rw [← h]
  rfl

theorem newNode_frame (t : PathTrie σ w) (e : BitVec w) (ptr : Link) :
    (newNode t e ptr).1.nodes.length = t.nodes.length + 1 ∧
      (newNode t e ptr).1.nodeStruct = t.nodeStruct + 1 ∧
      (newNode t e ptr).1.stats = t.stats ∧ (newNode t e ptr).1.sepSet = t.sepSet ∧
      (newNode t e ptr).1.elemSet = t.elemSet := by
  cases ptr <;> simp [newNode, assign]

namespace Cursor

def pending (cur : Cursor w) (ids : List (BitVec w)) : List (BitVec w) :=
  if cur.next then ids ++ [0] else if cur.elem = 0 then [0] else cur.elem :: (ids ++ [0])

def steps (cur : Cursor w) : Nat := cur.key.length + if cur.next then 1 else 2

structure Sane (cur : Cursor w) : Prop where
  noNul : 0 ∉ cur.key
  done : cur.next = false → cur.elem = 0 → cur.key = []

theorem sane_start {key : Bytes} (h : 0 ∉ key) : (⟨key, true, 0⟩ : Cursor w).Sane :=
  ⟨h, by simp⟩

theorem Sane.advance {cur : Cursor w} (h : cur.Sane) : ({ cur with next := true } : Cursor w).Sane :=
  ⟨h.noNul, by simp⟩

theorem pending_elem (key : Bytes) {e : BitVec w} (he : e ≠ 0) (ids : List (BitVec w)) :
    (⟨key, false, e⟩ : Cursor w).pending ids = e :: (ids ++ [0]) := by
  rw [pending, if_neg (by simp), if_neg he]

theorem pending_cons {cur : Cursor w} (hnext : cur.next = false) (ids : List (BitVec w)) :
    ∃ ks, cur.pending ids = cur.elem :: ks ∧ (cur.elem = 0 → ks = []) ∧
      (cur.elem ≠ 0 → ks = ({ cur with next := true } : Cursor w).pending ids) := by
  obtain ⟨key, next, e⟩ := cur
  obtain rfl : next = false := hnext
  by_cases he : e = 0
  · exact ⟨[], by rw [he]; rfl, fun _ => rfl, fun h => absurd he h⟩
  · exact ⟨ids ++ [0], pending_elem key he ids, fun h => absurd h he, fun _ => rfl⟩

end Cursor

section
variable {E : ElemSet σ w}

def Reads (E : ElemSet σ w) (sepSet : Bytes) (s : σ) (key : Bytes) (s' : σ) (key' : Bytes)
    (pre : List (BitVec w)) : Prop :=
  E.internAll s (elements sepSet key) =
    E.internAll s' (elements sepSet key') >>= fun q => .ok (q.1, pre ++ q.2)

theorem Reads.refl (sepSet : Bytes) (s : σ) (key : Bytes) : Reads E sepSet s key s key [] := by
  rw [Reads]
  cases E.internAll s (elements sepSet key) <;> rfl

theorem Reads.trans {sepSet key key' key'' : Bytes} {s s' s'' : σ} {pre pre' : List (BitVec w)}
    (h : Reads E sepSet s key s' key' pre) (h' : Reads E sepSet s' key' s'' key'' pre') :
    Reads E sepSet s key s'' key'' (pre ++ pre') := by
  rw [Reads] at *
  rw [h, h', Fallible.bind_assoc]
  refine Fallible.bind_congr fun q _ => ?_
  rw [ok_bind, List.append_assoc]

theorem Reads.nil {sepSet key' : Bytes} {s s' : σ} {pre : List (BitVec w)}
    (h : Reads E sepSet s [] s' key' pre) : key' = [] ∧ pre = [] := by
  rw [Reads, elements, Interner.internAll_nil] at h
  obtain ⟨q, hq, heq⟩ := bind_eq_ok.mp h.symm
  obtain ⟨hpre, hq2⟩ := List.append_eq_nil_iff.mp (Prod.mk.inj (Except.ok.inj heq)).2
  have hlen := run_length hq
  rw [hq2, List.length_nil] at hlen
  exact ⟨elements_eq_nil (List.length_eq_zero_iff.mp hlen.symm), hpre⟩

theorem Reads.end {sepSet key : Bytes} {s s' : σ} {pre : List (BitVec w)}
    (h : Reads E sepSet s key s' [] pre) :
    E.internAll s (elements sepSet key) = .ok (s', pre) := by
  rw [h, elements, Interner.internAll_nil, ok_bind, List.append_nil]

/-- The element set ran out of memory over the elements of a key. -/
def Full (E : ElemSet σ w) (sepSet : Bytes) (s : σ) (key : Bytes) : Prop :=
  Stops E.Exhausted (E.internAll s (elements sepSet key))

theorem Full.of_reads {sepSet key key' : Bytes} {s s' : σ} {pre : List (BitVec w)}
    (hreads : Reads E sepSet s key s' key' pre) (h : Full E sepSet s' key') :
    Full E sepSet s key := by
  rw [Full, hreads]
  exact h.bind _

theorem putElem_spec {sepSet key : Bytes} {s : σ} {m : Bytes → Option (BitVec w)} (hE : E.Rep s m)
    (hkey : 0 ∉ key) :
    (Stops E.Exhausted (putElem E sepSet s key) ∧ Full E sepSet s key) ∨
      (key = [] ∧ putElem E sepSet s key = .ok (s, 0, [])) ∨
      ∃ s' m' e rest, putElem E sepSet s key = .ok (s', e, rest) ∧ E.Rep s' m' ∧ e ≠ 0 ∧
        0 ∉ rest ∧ rest.length < key.length ∧ Reads E sepSet s key s' rest [e] := by
  by_cases hnil : key = []
  · exact Or.inr (Or.inl ⟨hnil, by simp [putElem, hnil]⟩)
  · have hels : elements sepSet key = _ := elements_eq_cons hnil
    have hfirst : E.Key (key.take (firstLength sepSet key)) := by
      rw [E.key_iff]
      exact fun h => hkey (List.mem_of_mem_take h)
    simp only [putElem, if_neg hnil, split_eq, ok_bind]
    rcases E.insert_spec hE hfirst with h | ⟨s', e, m', hins, hE', -, he, -⟩
    · refine Or.inl ⟨h.bind _, ?_⟩
      rw [Full, hels, Interner.internAll_cons]
      exact h.bind _
    · have hne := E.id_ne_zero hE' he
      refine Or.inr (Or.inr ⟨s', m', e, key.drop (firstLength sepSet key), ?_, hE', hne,
        fun h => hkey (List.mem_of_mem_drop h), length_drop_firstLength hnil, ?_⟩)
      · rw [hins, ok_bind, assert_of hne]
        rfl
      · rw [Reads, hels, Interner.internAll_cons, hins, ok_bind]
        rfl

theorem putNext_spec {sepSet : Bytes} {s : σ} {m : Bytes → Option (BitVec w)} {cur : Cursor w}
    (hE : E.Rep s m) (hcur : cur.Sane) :
    (Stops E.Exhausted (putNext E sepSet s cur) ∧ Full E sepSet s cur.key) ∨
      ∃ s' m' cur' pre, putNext E sepSet s cur = .ok (s', cur') ∧ E.Rep s' m' ∧ cur'.Sane ∧
        cur'.next = false ∧ Reads E sepSet s cur.key s' cur'.key pre ∧
        (∀ ids, (cur'.key = [] → ids = []) → cur.pending (pre ++ ids) = cur'.pending ids) ∧
        (cur'.elem ≠ 0 → cur'.steps ≤ cur.steps) := by
  by_cases hnext : cur.next = true
  swap
  · refine Or.inr ⟨s, m, cur, [], ?_, hE, hcur, by simpa using hnext, Reads.refl _ _ _,
      fun _ _ => rfl, fun _ => le_refl _⟩
    rw [putNext, if_neg hnext]
    rfl
  rw [putNext, if_pos hnext]
  rcases putElem_spec hE hcur.noNul with
    ⟨h, hfull⟩ | ⟨hnil, hput⟩ | ⟨s', m', e, rest, hput, hE', hne, hrest, hlt, hreads⟩
  · exact Or.inl ⟨h.bind _, hfull⟩
  · refine Or.inr ⟨s, m, ⟨[], false, 0⟩, [], by rw [hput]; rfl, hE, ⟨by simp, by simp⟩, rfl,
      hnil ▸ Reads.refl _ _ _, ?_, fun h => absurd rfl h⟩
    intro ids hids
    rw [Cursor.pending, if_pos hnext, hids rfl]
    rfl
  · refine Or.inr ⟨s', m', ⟨rest, false, e⟩, [e], by rw [hput]; rfl, hE',
      ⟨hrest, fun _ h => absurd h hne⟩, rfl, hreads, ?_, fun _ => ?_⟩
    swap
    · rw [Cursor.steps, Cursor.steps, if_pos hnext]
      show rest.length + 2 ≤ cur.key.length + 1
      omega
    intro ids _
    rw [Cursor.pending_elem rest hne, Cursor.pending, if_pos hnext]
    rfl

variable {U : UintHash w}

def Duplicate (U : UintHash w) (E : ElemSet σ w) (t : PathTrie σ w) (T : SearchTree (BitVec w)) (s : σ)
    (l : Link) (cur : Cursor w) (stats : PathTrieStats)
    (r : Outcome (Descent w × σ × PathTrieStats)) : Prop :=
  ∃ i s' stats' ids, r = .ok (.dup i, s', stats') ∧ (∃ m', E.Rep s' m') ∧
    E.internAll s (elements t.sepSet cur.key) = .ok (s', ids) ∧
    seek U.rank 0 T l (cur.pending ids) = .found i ∧
    stats'.uniqNode = stats.uniqNode ∧ stats'.dupsNode = stats.dupsNode + 1

/-- The walk left the tree at a null link, before the symbols that are still pending. -/
def Hole (U : UintHash w) (E : ElemSet σ w) (t : PathTrie σ w) (T : SearchTree (BitVec w)) (s : σ)
    (l : Link) (cur : Cursor w) (stats : PathTrieStats)
    (r : Outcome (Descent w × σ × PathTrieStats)) : Prop :=
  ∃ l' cur' s' stats' pre, r = .ok (.hole l' cur', s', stats') ∧ (∃ m', E.Rep s' m') ∧ cur'.Sane ∧
    Reads E t.sepSet s cur.key s' cur'.key pre ∧
    (∀ ids, (cur'.key = [] → ids = []) →
      seek U.rank 0 T l (cur.pending (pre ++ ids)) = .hole l' (cur'.pending ids)) ∧
    stats'.uniqNode = stats.uniqNode ∧ stats'.dupsNode = stats.dupsNode

def Descends (U : UintHash w) (E : ElemSet σ w) (t : PathTrie σ w) (T : SearchTree (BitVec w)) (s : σ)
    (l : Link) (cur : Cursor w) (stats : PathTrieStats)
    (r : Outcome (Descent w × σ × PathTrieStats)) : Prop :=
  (Stops E.Exhausted r ∧ Full E t.sepSet s cur.key) ∨ Duplicate U E t T s l cur stats r ∨
    Hole U E t T s l cur stats r

theorem Descends.step {t : PathTrie σ w} {T T' : SearchTree (BitVec w)} {s s' : σ} {l l' : Link}
    {cur cur' : Cursor w} {stats stats' : PathTrieStats}
    {r : Outcome (Descent w × σ × PathTrieStats)} {pre : List (BitVec w)}
    (hreads : Reads E t.sepSet s cur.key s' cur'.key pre)
    (hseek : ∀ ids, (cur'.key = [] → ids = []) →
      seek U.rank 0 T l (cur.pending (pre ++ ids)) = seek U.rank 0 T' l' (cur'.pending ids))
    (hu : stats'.uniqNode = stats.uniqNode) (hd : stats'.dupsNode = stats.dupsNode)
    (h : Descends U E t T' s' l' cur' stats' r) : Descends U E t T s l cur stats r := by
  rcases h with ⟨h, hfull⟩ | ⟨i, s'', st, ids, hrun, hE, hall, hfound, hu', hd'⟩ |
    ⟨l'', cur'', s'', st, pre', hrun, hE, hsane, hreads', hhole, hu', hd'⟩
  · exact Or.inl ⟨h, hfull.of_reads hreads⟩
  · have hnil : cur'.key = [] → ids = [] := by
      intro he
      rw [he, elements, Interner.internAll_nil] at hall
      exact (Prod.mk.inj (Except.ok.inj hall)).2.symm
    refine Or.inr (Or.inl ⟨i, s'', st, pre ++ ids, hrun, hE, ?_, ?_, hu'.trans hu, by omega⟩)
    · rw [hreads, hall]
      rfl
    · rw [hseek ids hnil, hfound]
  · refine Or.inr (Or.inr ⟨l'', cur'', s'', st, pre ++ pre', hrun, hE, hsane,
      hreads.trans hreads', ?_, hu'.trans hu, hd'.trans hd⟩)
    intro ids hids
    have hnil : cur'.key = [] → pre' ++ ids = [] := by
      intro he
      rw [he] at hreads'
      obtain ⟨hkey, hpre⟩ := hreads'.nil
      rw [hpre, hids hkey, List.append_nil]
    rw [List.append_assoc, hseek _ hnil, hhole ids hids]

theorem Descends.follow {t : PathTrie σ w} {T T' : SearchTree (BitVec w)} {s : σ} {l l' : Link}
    {cur cur' : Cursor w} {stats stats' : PathTrieStats}
    {r : Outcome (Descent w × σ × PathTrieStats)}
    (h : Descends U E t T' s l' cur' stats' r) (hkey : cur'.key = cur.key)
    (hu : stats'.uniqNode = stats.uniqNode) (hd : stats'.dupsNode = stats.dupsNode)
    (hseek : ∀ ids, seek U.rank 0 T l (cur.pending ids) = seek U.rank 0 T' l' (cur'.pending ids)) :
    Descends U E t T s l cur stats r := by
  have hreads : Reads E t.sepSet s cur.key s cur'.key [] := hkey ▸ Reads.refl _ _ _
  exact Descends.step hreads (fun ids _ => hseek ids) hu hd h

theorem descend_spec {t : PathTrie σ w} {T : SearchTree (BitVec w)} {p fuel : Nat} {s : σ} {l : Link}
    {cur : Cursor w} {stats : PathTrieStats} {m : Bytes → Option (BitVec w)}
    (hrep : Rep 0 t.store.cells T p) (hload : t.load l = .ok p) (hE : E.Rep s m) (hcur : cur.Sane)
    (hfuel : size T < fuel) :
    Descends U E t T s l cur stats (descend U E t fuel s l cur stats) := by
  induction T generalizing p fuel s l cur stats m with
  | nil =>
    obtain rfl : p = 0 := hrep
    cases fuel with
    | zero => simp [size] at hfuel
    | succ fuel =>
      refine Or.inr (Or.inr ⟨l, cur, s, stats, [], ?_, ⟨m, hE⟩, hcur, Reads.refl _ _ _, ?_, rfl, rfl⟩)
      · simp [descend, hload]
      · exact fun ids _ => rfl
  | node id sym lo eq hi ihl ihe ihh =>
    obtain ⟨rfl, c, hc, rfl, hlo, hhi, heq⟩ := hrep
    obtain ⟨d, hnode, -, rfl⟩ := node_of_cell hc
    have hp : p ≠ 0 := by
      rintro rfl
      simp at hc
    have hload_lo : t.load (.lo p) = .ok d.lo := by simp [load, hnode]
    have hload_hi : t.load (.hi p) = .ok d.hi := by simp [load, hnode]
    have hload_eq : t.load (.eq p) = .ok d.u := by simp [load, hnode]
    cases fuel with
    | zero => simp [size] at hfuel
    | succ fuel =>
      simp only [size] at hfuel
      simp only [descend, hload, ok_bind, if_neg hp, hnode]
      rcases putNext_spec hE hcur with
        ⟨h, hfull⟩ | ⟨s', m', cur', pre, hput, hE', hcur', hnext, hreads, hpend, -⟩
      · exact Or.inl ⟨h.bind _, hfull⟩
      rw [hput, ok_bind]
      -- after the element is read the walk goes on from `cur'`
      refine Descends.step hreads (fun ids hids => congrArg (seek U.rank 0 _ l) (hpend ids hids))
        rfl rfl ?_
      have hcell : d.cell.sym = d.elem := rfl
      by_cases hk : cur'.elem = d.elem
      · simp only [if_pos hk]
        by_cases hz : cur'.elem = 0
        · simp only [if_pos hz]
          have hkey := hcur'.done hnext hz
          refine Or.inr (Or.inl ⟨p, s', _, [], rfl, ⟨m', hE'⟩, ?_, ?_, rfl, rfl⟩)
          · rw [hkey]
            rfl
          · obtain ⟨ks, hks, hnil, -⟩ := Cursor.pending_cons hnext []
            rw [hks, hnil hz, hcell, hk, ← hk, hz]
            simp [seek]
        · simp only [if_neg hz]
          rw [if_neg (show d.cell.sym ≠ 0 from fun h => hz (hk.trans h))] at heq
          refine (@ihe d.u fuel s' (.eq p) { cur' with next := true } _ m' heq hload_eq hE'
            hcur'.advance (by omega)).follow rfl rfl rfl ?_
          intro ids
          obtain ⟨ks, hks, -, hcons⟩ := Cursor.pending_cons hnext ids
          rw [hks, hcell, ← hcons hz, seek, if_pos hk, if_neg hz]
      · simp only [if_neg hk, U.ptrLt_eq, ok_bind]
        by_cases hlt : U.rank cur'.elem < U.rank d.elem
        · rw [if_pos (decide_eq_true hlt)]
          refine (@ihl d.lo fuel s' (.lo p) cur' _ m' hlo hload_lo hE' hcur'
            (by omega)).follow rfl rfl rfl ?_
          intro ids
          obtain ⟨ks, hks, -⟩ := Cursor.pending_cons hnext ids
          rw [hks, hcell, seek, if_neg hk, if_pos hlt]
        · rw [if_neg (by simpa using hlt)]
          refine (@ihh d.hi fuel s' (.hi p) cur' _ m' hhi hload_hi hE' hcur'
            (by omega)).follow rfl rfl rfl ?_
          intro ids
          obtain ⟨ks, hks, -⟩ := Cursor.pending_cons hnext ids
          rw [hks, hcell, seek, if_neg hk, if_neg hlt]

theorem build_spec {fuel : Nat} {t : PathTrie σ w} {ptr : Link} {cur : Cursor w}
    {m : Bytes → Option (BitVec w)} (hE : E.Rep t.elemSet m) (hcur : cur.Sane)
    (hfuel : cur.steps ≤ fuel) :
    (Stops E.Exhausted (build E fuel t ptr cur) ∧ Full E t.sepSet t.elemSet cur.key) ∨
      ∃ t' ids, build E fuel t ptr cur = .ok (t', t'.nodes.length) ∧
        E.internAll t.elemSet (elements t.sepSet cur.key) = .ok (t'.elemSet, ids) ∧
        (∃ m', E.Rep t'.elemSet m') ∧ t'.store = t.store.grow ptr (cur.pending ids) ∧
        t'.nodeStruct = t.nodeStruct + (cur.pending ids).length ∧
        t'.nodes.length = t.nodes.length + (cur.pending ids).length ∧
        t'.stats = t.stats ∧ t'.sepSet = t.sepSet := by
  induction fuel generalizing t ptr cur m with
  | zero =>
    have hpos : 0 < cur.steps := by
      rw [Cursor.steps]
      split_ifs <;> omega
    omega
  | succ fuel ih =>
    rw [build]
    rcases putNext_spec hE hcur with
      ⟨h, hfull⟩ | ⟨s', m', cur', pre, hput, hE', hcur', hnext, hreads, hpend, hsteps⟩
    · exact Or.inl ⟨h.bind _, hfull⟩
    rw [hput, ok_bind]
    obtain ⟨hlen, hcount, hstats, hsep, hset⟩ :=
      newNode_frame { t with elemSet := s' } cur'.elem ptr
    have hstore : (newNode { t with elemSet := s' } cur'.elem ptr).1.store =
        t.store.push ptr cur'.elem := newNode_store _ _ _
    by_cases hz : cur'.elem = 0
    · have hkey := hcur'.done hnext hz
      have hnil : cur.pending (pre ++ []) = [0] := by
        rw [hpend [] fun _ => rfl, Cursor.pending, if_neg (by simp [hnext]), if_pos hz]
      rw [List.append_nil] at hnil
      rw [hkey] at hreads
      refine Or.inr ⟨(newNode { t with elemSet := s' } cur'.elem ptr).1, pre, ?_, ?_, ?_, ?_, ?_, ?_,
        hstats, hsep⟩
      · rw [hlen]
        simp only [if_pos hz]
        rfl
      · rw [hset]
        exact hreads.end
      · rw [hset]
        exact ⟨m', hE'⟩
      · rw [hstore, hnil, hz]
        rfl
      · rw [hcount, hnil]
        rfl
      · rw [hlen, hnil]
        rfl
    · have hstep : ({ cur' with next := true } : Cursor w).steps ≤ fuel := by
        have hle := hsteps hz
        rw [Cursor.steps, if_neg (by simp [hnext])] at hle
        rw [Cursor.steps, if_pos rfl]
        show cur'.key.length + 1 ≤ fuel
        omega
      simp only [if_neg hz]
      rcases @ih (newNode { t with elemSet := s' } cur'.elem ptr).1 (.eq (t.nodes.length + 1))
          { cur' with next := true } m' (hset ▸ hE') hcur'.advance hstep with
        ⟨h, hfull⟩ | ⟨t', ids, hrun, hall, hE'', hstore', hcount', hlen', hstats', hsep'⟩
      · rw [hset, hsep] at hfull
        exact Or.inl ⟨h, Full.of_reads hreads hfull⟩
      · right
        rw [hset, hsep] at hall
        have hids : cur'.key = [] → ids = [] := by
          intro he
          have hcur : E.internAll s' (elements t.sepSet cur'.key) = .ok (t'.elemSet, ids) := hall
          rw [he, elements, Interner.internAll_nil] at hcur
          exact (Prod.mk.inj (Except.ok.inj hcur)).2.symm
        have hpending : cur.pending (pre ++ ids) = cur'.elem :: (ids ++ [0]) := by
          rw [hpend ids hids, Cursor.pending, if_neg (by simp [hnext]), if_neg hz]
        refine ⟨t', pre ++ ids, hrun, ?_, hE'', ?_, ?_, ?_, hstats'.trans hstats, hsep'.trans hsep⟩
        · rw [hreads]
          exact congrArg (· >>= fun q => Except.ok (q.1, pre ++ q.2)) hall
        · rw [hstore', hstore, hpending, Store.grow, length_store]
          rfl
        · rw [hcount', hcount, hpending, List.length_cons]
          exact Nat.add_right_comm _ _ _
        · rw [hlen', hlen, hpending, List.length_cons]
          exact Nat.add_right_comm _ _ _

structure Holds (U : UintHash w) (t : PathTrie σ w) (T : SearchTree (BitVec w)) : Prop where
  layout : Layout 0 t.store T
  ordered : Ordered U.rank T
  ended : Ended 0 T
  counted : t.nodeStruct = t.nodes.length

theorem holds_init (elemSet : σ) (sepSet : Option Bytes) : Holds U (init elemSet sepSet) .nil :=
  ⟨layout_empty 0, trivial, trivial, rfl⟩

theorem Holds.size {t : PathTrie σ w} {T : SearchTree (BitVec w)} (h : Holds U t T) :
    size T = t.nodes.length := by
  rw [h.layout.size, length_store]

theorem sentence_ids {ids : List (BitVec w)} (h : ∀ i ∈ ids, i ≠ 0) : Sentence 0 (ids ++ [0]) :=
  ⟨ids, rfl, fun h0 => h 0 h0 rfl⟩

theorem ne_zero_of_map {s : σ} {m : Bytes → Option (BitVec w)} (hE : E.Rep s m) {els : List Bytes}
    {ids : List (BitVec w)} (h : els.map m = ids.map some) : ∀ i ∈ ids, i ≠ 0 := by
  intro i hi
  have hmem : some i ∈ els.map m := h ▸ List.mem_map_of_mem hi
  obtain ⟨e, -, he⟩ := List.mem_map.mp hmem
  exact E.id_ne_zero hE he

theorem key_of_mem_elements {sepSet key : Bytes} (hkey : 0 ∉ key) :
    ∀ e ∈ elements sepSet key, E.Key e := fun e he =>
  (E.key_iff e).mpr (notMem_of_mem_elements hkey he)

theorem insert_cases {t : PathTrie σ w} {T : SearchTree (BitVec w)} {m : Bytes → Option (BitVec w)}
    {key : Bytes} (h : Holds U t T) (hE : E.Rep t.elemSet m) (hkey : 0 ∉ key) :
    (Stops E.Exhausted (insert U E t key) ∧ Full E t.sepSet t.elemSet key) ∨
      ∃ s' ids, E.internAll t.elemSet (elements t.sepSet key) = .ok (s', ids) ∧
        ((∃ i stats, insert U E t key = .ok ({ t with elemSet := s', stats := stats }, false, i) ∧
          seek U.rank 0 T .root (ids ++ [0]) = .found i ∧
          stats.uniqNode = t.stats.uniqNode ∧ stats.dupsNode = t.stats.dupsNode + 1) ∨
        (∃ t' l ks, insert U E t key = .ok (t', true, t'.nodes.length) ∧
          seek U.rank 0 T .root (ids ++ [0]) = .hole l ks ∧ t'.elemSet = s' ∧
          t'.sepSet = t.sepSet ∧ t'.store = t.store.grow l ks ∧
          t'.nodes.length = t.nodes.length + ks.length ∧ t'.nodeStruct = t'.nodes.length ∧
          t'.stats.uniqNode = t.stats.uniqNode + 1 ∧ t'.stats.dupsNode = t.stats.dupsNode)) := by
  have hfuel : TernaryTree.size T < t.nodes.length + 1 := by rw [h.size]; omega
  rcases @descend_spec σ w E U t T t.rootNode _ t.elemSet .root ⟨key, true, 0⟩ t.stats m h.layout.1
      rfl hE (Cursor.sane_start hkey) hfuel with
    ⟨hs, hfull⟩ | ⟨i, s', stats, ids, hrun, -, hall, hfound, hu, hd⟩ |
    ⟨l, cur, s', stats, pre, hrun, ⟨m', hE'⟩, hcur, hreads, hhole, hu, hd⟩
  · exact Or.inl ⟨hs.bind _, hfull⟩
  · refine Or.inr ⟨s', ids, hall, Or.inl ⟨i, stats, ?_, hfound, hu, hd⟩⟩
    rw [insert, hrun, ok_bind]
    rfl
  · rw [insert, hrun, ok_bind]
    have hsteps : cur.steps ≤ cur.key.length + 2 := by
      rw [Cursor.steps]
      split_ifs <;> omega
    rcases @build_spec σ w E _ { t with elemSet := s', stats := stats } l cur m' hE' hcur hsteps with
      ⟨hs, hfull⟩ | ⟨t', ids, hbuild, hall, -, hstore, hcount, hlen, hstats, hsep⟩
    · exact Or.inl ⟨hs.bind _, Full.of_reads hreads hfull⟩
    · have hall : E.internAll s' (elements t.sepSet cur.key) = .ok (t'.elemSet, ids) := hall
      have hids : cur.key = [] → ids = [] := by
        intro he
        rw [he, elements, Interner.internAll_nil] at hall
        exact (Prod.mk.inj (Except.ok.inj hall)).2.symm
      refine Or.inr ⟨t'.elemSet, pre ++ ids, ?_, Or.inr
        ⟨{ t' with stats := { t'.stats with uniqNode := t'.stats.uniqNode + 1 } }, l,
          cur.pending ids, ?_, hhole ids hids, rfl, hsep, hstore, hlen, ?_, ?_, ?_⟩⟩
      · rw [hreads, hall]
        rfl
      · simp only [hbuild, ok_bind, pure_eq_ok]
      · show t'.nodeStruct = t'.nodes.length
        rw [hcount, hlen]
        show t.nodeStruct + _ = t.nodes.length + _
        rw [h.counted]
      · simp only [hstats, hu]
      · simp only [hstats, hd]

theorem insert_spec {t : PathTrie σ w} {T : SearchTree (BitVec w)} {m : Bytes → Option (BitVec w)}
    {key : Bytes} (h : Holds U t T) (hE : E.Rep t.elemSet m) (hkey : 0 ∉ key) :
    (Stops E.Exhausted (insert U E t key) ∧ Full E t.sepSet t.elemSet key) ∨
      ∃ s' ids m', E.internAll t.elemSet (elements t.sepSet key) = .ok (s', ids) ∧ E.Rep s' m' ∧
        Extends m m' ∧ (elements t.sepSet key).map m' = ids.map some ∧
        ((∃ i stats, insert U E t key = .ok ({ t with elemSet := s', stats := stats }, false, i) ∧
          find U.rank T (ids ++ [0]) = some i ∧
          stats.uniqNode = t.stats.uniqNode ∧ stats.dupsNode = t.stats.dupsNode + 1) ∨
        (∃ t', insert U E t key = .ok (t', true, t'.nodes.length) ∧
          find U.rank T (ids ++ [0]) = none ∧ t'.elemSet = s' ∧ t'.sepSet = t.sepSet ∧
          Holds U t' (addKey U.rank t.nodes.length T (ids ++ [0])) ∧
          (∀ qs, Sentence 0 qs → find U.rank (addKey U.rank t.nodes.length T (ids ++ [0])) qs =
            if qs = ids ++ [0] then some t'.nodes.length else find U.rank T qs) ∧
          (∀ qs i, Sentence 0 qs → find U.rank T qs = some i → t'.val i = t.val i) ∧
          t'.stats.uniqNode = t.stats.uniqNode + 1 ∧ t'.stats.dupsNode = t.stats.dupsNode)) := by
  rcases insert_cases h hE hkey with hs | ⟨s', ids, hall, hcases⟩
  · exact Or.inl hs
  rcases E.internAll_spec hE (key_of_mem_elements hkey) with
    ⟨e, -, he⟩ | ⟨s'', ids'', m', hall', hE', hext, hmap, -, -⟩
  · rw [hall] at he
    cases he
  rw [hall] at hall'
  obtain ⟨rfl, rfl⟩ := Prod.mk.inj (Except.ok.inj hall')
  have hsent := sentence_ids (ne_zero_of_map hE' hmap)
  refine Or.inr ⟨s', ids, m', hall, hE', hext, hmap, ?_⟩
  rcases hcases with ⟨i, stats, hins, hfound, hu, hd⟩ |
    ⟨t', l, ks, hins, hhole, hset, hsep, hstore, hlen, hcount, hu, hd⟩
  · exact Or.inl ⟨i, stats, hins, (seek_found_iff U.rank hsent).mp hfound, hu, hd⟩
  · have hgrow := layout_grow U.rank h.layout hsent hhole
    rw [length_store, ← hstore] at hgrow
    refine Or.inr ⟨t', hins, find_of_hole U.rank hsent hhole, hset, hsep,
      ⟨hgrow, ordered_addKey U.rank U.rank_injective h.ordered, ended_addKey U.rank h.ended hsent,
        hcount⟩, ?_, ?_, hu, hd⟩
    · intro qs hqs
      have hgrown := @find_grown _ _ _ _ U.rank 0 t.store T l _ _ _ hsent hhole hqs
      rw [length_store] at hgrown
      rw [hgrown, hlen]
    · intro qs i hqs hi
      rw [val_eq_word, val_eq_word, hstore]
      exact word_grow U.rank h.layout hsent hhole hqs hi

end

end PathTrie

end PathSet
