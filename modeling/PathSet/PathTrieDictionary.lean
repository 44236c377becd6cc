import PathSet.PathTrieRepresents
import PathSet.ElemSets

/-!
The path trie over any element set is an interner of keys, and with the values of
its end nodes a dictionary of lines. A key is known when its elements have pointers
and the tree has their sentence.
-/

namespace PathSet
open Fallible Pointer LinkedTree TernaryTree FirstSeen Numbered

namespace PathTrie

variable {σ : Type} {w : Nat} {U : UintHash w} {E : ElemSet σ w}

def Named (me : Bytes → Option (BitVec w)) (sepSet key : Bytes) (ids : List (BitVec w)) : Prop :=
  (elements sepSet key).map me = ids.map some

theorem Named.mono {me me' : Bytes → Option (BitVec w)} {sepSet key : Bytes}
    {ids : List (BitVec w)} (h : Named me sepSet key ids) (hext : Extends me me') :
    Named me' sepSet key ids := by
  rw [Named] at *
  rw [← h]
  refine List.map_congr_left fun e he => ?_
  have hmem : me e ∈ ids.map some := h ▸ List.mem_map_of_mem he
  obtain ⟨i, -, hi⟩ := List.mem_map.mp hmem
  rw [← hi, hext e i hi.symm]

theorem Named.ids_eq {me : Bytes → Option (BitVec w)} {sepSet key : Bytes}
    {ids ids' : List (BitVec w)} (h : Named me sepSet key ids) (h' : Named me sepSet key ids') :
    ids = ids' :=
  List.map_injective_iff.mpr (Option.some_injective _) (h.symm.trans h')

theorem Named.known {me : Bytes → Option (BitVec w)} {sepSet key : Bytes} {ids : List (BitVec w)}
    (h : Named me sepSet key ids) : ∀ e ∈ elements sepSet key, (me e).isSome := by
  intro e he
  have hmem : me e ∈ ids.map some := h ▸ List.mem_map_of_mem he
  obtain ⟨i, -, hi⟩ := List.mem_map.mp hmem
  rw [← hi]
  rfl

theorem eq_of_map_eq {s : σ} {me : Bytes → Option (BitVec w)} (hE : E.Rep s me)
    {els els' : List Bytes} {ids : List (BitVec w)} (h : els.map me = ids.map some)
    (h' : els'.map me = ids.map some) : els = els' := by
  induction ids generalizing els els' with
  | nil => rw [List.map_eq_nil_iff.mp h, List.map_eq_nil_iff.mp h']
  | cons i ids ih =>
    obtain ⟨e, els, rfl, he, hels⟩ := List.map_eq_cons_iff.mp h
    obtain ⟨e', els', rfl, he', hels'⟩ := List.map_eq_cons_iff.mp h'
    rw [E.rep_inj hE he he', ih hels hels']

theorem Named.key_eq {s : σ} {me : Bytes → Option (BitVec w)} (hE : E.Rep s me)
    {sepSet key key' : Bytes} {ids : List (BitVec w)} (h : Named me sepSet key ids)
    (h' : Named me sepSet key' ids) : key = key' :=
  elements_injective sepSet (eq_of_map_eq hE h h')

theorem Named.sentence {s : σ} {me : Bytes → Option (BitVec w)} (hE : E.Rep s me)
    {sepSet key : Bytes} {ids : List (BitVec w)} (h : Named me sepSet key ids) :
    Sentence 0 (ids ++ [0]) :=
  sentence_ids (ne_zero_of_map hE h)

structure Knows (U : UintHash w) (E : ElemSet σ w) (t : PathTrie σ w) (m : Bytes → Option Nat)
    (T : SearchTree (BitVec w)) (me : Bytes → Option (BitVec w)) : Prop where
  holds : Holds U t T
  elems : E.Rep t.elemSet me
  keys : ∀ k i, m k = some i ↔
    0 ∉ k ∧ ∃ ids, Named me t.sepSet k ids ∧ find U.rank T (ids ++ [0]) = some i
  known : ∀ ids i, 0 ∉ ids → find U.rank T (ids ++ [0]) = some i →
    ∃ k, 0 ∉ k ∧ Named me t.sepSet k ids

def Represents (U : UintHash w) (E : ElemSet σ w) (t : PathTrie σ w) (m : Bytes → Option Nat) :
    Prop := ∃ T me, Knows U E t m T me

theorem represents_init {s : σ} {me : Bytes → Option (BitVec w)} (hE : E.Rep s me)
    (sepSet : Option Bytes) : Represents U E (init s sepSet) (fun _ => none) :=
  ⟨.nil, me, holds_init s sepSet, hE, fun k i => by simp, fun ids i _ h => by simp at h⟩

theorem Knows.extend {t : PathTrie σ w} {m : Bytes → Option Nat} {T : SearchTree (BitVec w)}
    {me me' : Bytes → Option (BitVec w)} (h : Knows U E t m T me) {s' : σ} (hE : E.Rep s' me')
    (hext : Extends me me') (stats : PathTrieStats) :
    Knows U E { t with elemSet := s', stats := stats } m T me' := by
  refine ⟨⟨h.holds.layout, h.holds.ordered, h.holds.ended, h.holds.counted⟩, hE, ?_, ?_⟩
  · intro k i
    rw [h.keys]
    constructor
    · rintro ⟨hk, ids, hn, hf⟩
      exact ⟨hk, ids, hn.mono hext, hf⟩
    · rintro ⟨hk, ids, hn, hf⟩
      have hne := ne_zero_of_map hE hn
      obtain ⟨k', hk', hn'⟩ := h.known ids i (fun h0 => hne 0 h0 rfl) hf
      obtain rfl := Named.key_eq hE hn (hn'.mono hext)
      exact ⟨hk, ids, hn', hf⟩
  · intro ids i hids hf
    obtain ⟨k, hk, hn⟩ := h.known ids i hids hf
    exact ⟨k, hk, hn.mono hext⟩

theorem Knows.add {t t' : PathTrie σ w} {m : Bytes → Option Nat} {T T' : SearchTree (BitVec w)}
    {me me' : Bytes → Option (BitVec w)} (h : Knows U E t m T me) (hE : E.Rep t'.elemSet me')
    (hext : Extends me me') {key : Bytes} (hkey : 0 ∉ key) {ids : List (BitVec w)} {n : Nat}
    (hsep : t'.sepSet = t.sepSet) (hn : Named me' t.sepSet key ids) (hT' : Holds U t' T')
    (hfind : ∀ qs, Sentence 0 qs →
      find U.rank T' qs = if qs = ids ++ [0] then some n else find U.rank T qs) :
    Knows U E t' (Function.update m key (some n)) T' me' := by
  have hold := h.extend hE hext t.stats
  refine ⟨hT', hE, ?_, ?_⟩
  · intro k i
    rw [hsep]
    by_cases hk : k = key
    · subst hk
      rw [Function.update_self]
      constructor
      · rintro heq
        exact ⟨hkey, ids, hn, by rw [hfind _ (hn.sentence hE), if_pos rfl, heq]⟩
      · rintro ⟨-, ids', hn', hf⟩
        rw [hn'.ids_eq hn, hfind _ (hn.sentence hE), if_pos rfl] at hf
        exact hf
    · have hne : ∀ ids', Named me' t.sepSet k ids' → ids' ++ [0] ≠ ids ++ [0] := by
        rintro ids' hn' heq
        rw [List.append_cancel_right heq] at hn'
        exact hk (hn'.key_eq hE hn)
      rw [Function.update_of_ne hk, hold.keys]
      constructor
      · rintro ⟨hk0, ids', hn', hf⟩
        exact ⟨hk0, ids', hn', by rwa [hfind _ (hn'.sentence hE), if_neg (hne ids' hn')]⟩
      · rintro ⟨hk0, ids', hn', hf⟩
        rw [hfind _ (hn'.sentence hE), if_neg (hne ids' hn')] at hf
        exact ⟨hk0, ids', hn', hf⟩
  · intro ids' i hids' hf
    rw [hsep]
    rw [hfind _ ⟨ids', rfl, hids'⟩] at hf
    split_ifs at hf with heq
    · rw [List.append_cancel_right heq]
      exact ⟨key, hkey, hn⟩
    · exact hold.known ids' i hids' hf

theorem insert_represents {t : PathTrie σ w} {m : Bytes → Option Nat} {key : Bytes}
    (hrep : Represents U E t m) (hkey : 0 ∉ key) :
    (m key = none ∧ Stops E.Exhausted (insert U E t key)) ∨
    (∃ t' i, insert U E t key = .ok (t', false, i) ∧ m key = some i ∧ Represents U E t' m ∧
      t'.sepSet = t.sepSet ∧ (∃ ids, E.internAll t.elemSet (elements t.sepSet key) =
        .ok (t'.elemSet, ids)) ∧
      (∀ j, t'.val j = t.val j) ∧
      t'.stats.uniqNode = t.stats.uniqNode ∧ t'.stats.dupsNode = t.stats.dupsNode + 1) ∨
    (∃ t' i, insert U E t key = .ok (t', true, i) ∧ m key = none ∧
      Represents U E t' (Function.update m key (some i)) ∧
      t'.sepSet = t.sepSet ∧ (∃ ids, E.internAll t.elemSet (elements t.sepSet key) =
        .ok (t'.elemSet, ids)) ∧
      (∀ k j, m k = some j → t'.val j = t.val j) ∧
      t'.stats.uniqNode = t.stats.uniqNode + 1 ∧ t'.stats.dupsNode = t.stats.dupsNode) := by
  obtain ⟨T, me, hknows⟩ := hrep
  rcases insert_spec hknows.holds hknows.elems hkey with
    ⟨hs, hfull⟩ | ⟨s', ids, me', hall, hE', hext, hmap, hcases⟩
  · refine Or.inl ⟨?_, hs⟩
    cases hm : m key with
    | none => rfl
    | some i =>
      -- the elements of a known key take no memory
      obtain ⟨-, ids, hn, -⟩ := (hknows.keys key i).mp hm
      obtain ⟨s', is, hrun, -⟩ := E.internAll_known hknows.elems hn.known
      obtain ⟨e, -, he⟩ := hfull
      rw [hrun] at he
      cases he
  · have hn : Named me' t.sepSet key ids := hmap
    have hids := ne_zero_of_map hE' hmap
    rcases hcases with ⟨i, stats, hins, hfind, hu, hd⟩ |
      ⟨t', hins, hnone, hset, hsep, hT', hfind, hval, hu, hd⟩
    · have hold := hknows.extend hE' hext stats
      exact Or.inr (Or.inl ⟨_, i, hins, (hold.keys key i).mpr ⟨hkey, ids, hn, hfind⟩, ⟨T, me', hold⟩,
        rfl, ⟨ids, hall⟩, fun _ => rfl, hu, hd⟩)
    · refine Or.inr (Or.inr ⟨t', _, hins, ?_, ⟨_, me', hknows.add (hset ▸ hE') hext hkey hsep hn hT'
        hfind⟩, hsep, ⟨ids, hset ▸ hall⟩, ?_, hu, hd⟩)
      · cases hm : m key with
        | none => rfl
        | some i =>
          obtain ⟨-, ids', hn', hf⟩ := (hknows.keys key i).mp hm
          rw [(hn'.mono hext).ids_eq hn, hnone] at hf
          cases hf
      · intro k j hk
        obtain ⟨-, ids', hn', hf⟩ := (hknows.keys k j).mp hk
        exact hval _ j (hn'.sentence hknows.elems) hf

def Holding (U : UintHash w) (E : ElemSet σ w) (sep : Bytes) (t : PathTrie σ w)
    (m : Bytes → Option Nat) : Prop := Represents U E t m ∧ t.sepSet = sep

theorem holding_init {s : σ} {me : Bytes → Option (BitVec w)} (hE : E.Rep s me)
    (sepSet : Option Bytes) :
    Holding U E (sepSet.getD defaultSep) (init s sepSet) (fun _ => none) :=
  ⟨represents_init hE sepSet, rfl⟩

def interner (U : UintHash w) (E : ElemSet σ w) (sep : Bytes) :
    Interner (PathTrie σ w) Bytes Nat Abort where
  insert := insert U E
  uniq t := t.stats.uniqNode
  dups t := t.stats.dupsNode
  Exhausted := E.Exhausted
  Key k := 0 ∉ k
  Rep := Holding U E sep
  rep_key := by
    rintro t m k i ⟨⟨T, me, h⟩, -⟩ hk
    exact ((h.keys k i).mp hk).1
  rep_inj := by
    rintro t m k k' i ⟨⟨T, me, h⟩, -⟩ hk hk'
    obtain ⟨-, ids, hn, hf⟩ := (h.keys k i).mp hk
    obtain ⟨-, ids', hn', hf'⟩ := (h.keys k' i).mp hk'
    obtain rfl := List.append_cancel_right (find_inj U.rank h.holds.layout.nodup hf hf')
    exact hn.key_eq h.elems hn'
  insert_known := by
    rintro t m k i ⟨hrep, hsep⟩ hk
    obtain ⟨T, me, h⟩ := id hrep
    rcases insert_represents hrep ((h.keys k i).mp hk).1 with
      ⟨hnone, -⟩ | ⟨t', j, hins, hj, hrep', hsep', -, -, hu, hd⟩ | ⟨t', j, -, hnone, -⟩
    · rw [hk] at hnone
      cases hnone
    · obtain rfl : i = j := Option.some.inj (hk.symm.trans hj)
      exact ⟨t', hins, ⟨hrep', hsep'.trans hsep⟩, hu, hd⟩
    · rw [hk] at hnone
      cases hnone
  insert_fresh := by
    rintro t m k ⟨hrep, hsep⟩ hkey hk
    rcases insert_represents hrep hkey with
      ⟨-, hs⟩ | ⟨t', j, -, hj, -⟩ | ⟨t', j, hins, -, hrep', hsep', -, -, hu, hd⟩
    · exact Or.inl hs
    · rw [hk] at hj
      cases hj
    · exact Or.inr ⟨t', j, hins, ⟨hrep', hsep'.trans hsep⟩, hu, hd⟩

theorem Knows.end_node {t : PathTrie σ w} {m : Bytes → Option Nat} {T : SearchTree (BitVec w)}
    {me : Bytes → Option (BitVec w)} (h : Knows U E t m T me) {k : Bytes} {i : Nat}
    (hk : m k = some i) : ∃ c, deref t.store.cells i = some c ∧ c.sym = 0 := by
  obtain ⟨-, ids, hn, hf⟩ := (h.keys k i).mp hk
  exact end_of_find U.rank h.holds.layout.1 (hn.sentence h.elems) hf

theorem Knows.set_val {t : PathTrie σ w} {m : Bytes → Option Nat} {T : SearchTree (BitVec w)}
    {me : Bytes → Option (BitVec w)} (h : Knows U E t m T me) {k : Bytes} {i : Nat}
    (hk : m k = some i) (v : Nat) : Knows U E (t.setVal i v) m T me := by
  obtain ⟨c, hc, hsym⟩ := h.end_node hk
  have hlayout : Layout 0 (t.setVal i v).store T := by
    rw [setVal_store]
    refine layout_setWord h.holds.layout (fun d hd => ?_)
    rw [hc] at hd
    exact Option.some.inj hd ▸ hsym
  have hcount : (t.setVal i v).nodeStruct = (t.setVal i v).nodes.length := by
    simpa [setVal] using h.holds.counted
  exact ⟨⟨hlayout, h.holds.ordered, h.holds.ended, hcount⟩, h.elems, h.keys, h.known⟩

def dictionary (U : UintHash w) (E : ElemSet σ w) (sep : Bytes) :
    Dictionary (PathTrie σ w) Bytes Nat Abort where
  toInterner := interner U E sep
  val := val
  setVal := setVal
  rep_setVal := by
    rintro t m k i v ⟨⟨T, me, h⟩, hsep⟩ hk
    exact ⟨⟨T, me, h.set_val hk v⟩, hsep⟩
  val_setVal := by
    rintro t m k i v ⟨⟨T, me, h⟩, -⟩ hk
    obtain ⟨c, hc, -⟩ := h.end_node hk
    rw [val_eq_word, setVal_store]
    exact word_setWord (by rw [hc]; rfl)
  val_setVal_ne := by
    intro t m k k' i j v _ _ _ hij
    rw [val_eq_word, val_eq_word, setVal_store]
    exact word_setWord_ne hij
  val_insert := by
    rintro t m t' b i k k' j ⟨hrep, -⟩ hkey hins hk'
    have hins : insert U E t k = .ok (t', b, i) := hins
    rcases insert_represents hrep hkey with
      ⟨-, e, -, he⟩ | ⟨t₂, x, hins', -, -, -, -, hval, -⟩ | ⟨t₂, x, hins', -, -, -, -, hval, -⟩
    · rw [hins] at he
      cases he
    · rw [hins] at hins'
      obtain ⟨rfl, -⟩ := Prod.mk.inj (Except.ok.inj hins')
      exact hval j
    · rw [hins] at hins'
      obtain ⟨rfl, -⟩ := Prod.mk.inj (Except.ok.inj hins')
      exact hval k' j hk'
  uniq_setVal _ _ _ := rfl
  dups_setVal _ _ _ := rfl

def insertVal (U : UintHash w) (E : ElemSet σ w) (t : PathTrie σ w) (p : Bytes × Nat) :
    Outcome (PathTrie σ w × Bool × Nat × Nat) := do
  let (t, b, node) ← insert U E t p.1
  if b then do
    let t := t.setVal node p.2
    pure (t, b, node, t.val node)
  else pure (t, b, node, t.val node)

theorem insertVal_eq_enter (U : UintHash w) (E : ElemSet σ w) (sep : Bytes) :
    insertVal U E = (dictionary U E sep).enter := rfl

def tree (t : PathTrie σ w) : SearchTree (BitVec w) := decode 0 t.store.cells t.nodes.length t.rootNode

theorem tree_eq {t : PathTrie σ w} {T : SearchTree (BitVec w)} (h : Holds U t T) : t.tree = T :=
  decode_eq_of_rep h.layout.1 (le_of_eq h.size)

theorem Knows.named {t : PathTrie σ w} {m : Bytes → Option Nat} {T : SearchTree (BitVec w)}
    {me : Bytes → Option (BitVec w)} (h : Knows U E t m T me) {k : Bytes} (hk : (m k).isSome) :
    ∃ ids, Named me t.sepSet k ids := by
  obtain ⟨i, hi⟩ := Option.isSome_iff_exists.mp hk
  obtain ⟨-, ids, hn, -⟩ := (h.keys k i).mp hi
  exact ⟨ids, hn⟩

theorem Knows.body_of_key {t : PathTrie σ w} {m : Bytes → Option Nat} {T : SearchTree (BitVec w)}
    {me : Bytes → Option (BitVec w)} (h : Knows U E t m T me) {k : Bytes} (hk : (m k).isSome) :
    ∃ ids ∈ bodies 0 T, Named me t.sepSet k ids := by
  obtain ⟨i, hi⟩ := Option.isSome_iff_exists.mp hk
  obtain ⟨-, ids, hn, hfind⟩ := (h.keys k i).mp hi
  have hne := ne_zero_of_map h.elems hn
  refine ⟨ids, (mem_bodies U.rank h.holds.ordered).mpr ⟨fun h0 => hne 0 h0 rfl, ?_⟩, hn⟩
  rw [hfind]
  rfl

theorem Knows.body_named {t : PathTrie σ w} {m : Bytes → Option Nat} {T : SearchTree (BitVec w)}
    {me : Bytes → Option (BitVec w)} (h : Knows U E t m T me) {ids : List (BitVec w)}
    (hids : ids ∈ bodies 0 T) : ∃ k, (m k).isSome ∧ Named me t.sepSet k ids := by
  obtain ⟨hnot, hfind⟩ := (mem_bodies U.rank h.holds.ordered).mp hids
  obtain ⟨i, hi⟩ := Option.isSome_iff_exists.mp hfind
  obtain ⟨k, hk, hn⟩ := h.known ids i hnot hi
  have hki : m k = some i := (h.keys k i).mpr ⟨hk, ids, hn, hi⟩
  exact ⟨k, by rw [hki]; rfl, hn⟩

theorem Knows.bodies_perm {t : PathTrie σ w} {m : Bytes → Option Nat} {T : SearchTree (BitVec w)}
    {me : Bytes → Option (BitVec w)} (h : Knows U E t m T me) {keys : List Bytes}
    (hdom : ∀ k, (m k).isSome ↔ k ∈ keys) :
    ((bodies 0 T).map fun ids => ids.map some).Perm
      ((firsts keys).map fun k => (elements t.sepSet k).map me) := by
  have hleft : ((bodies 0 T).map fun ids => ids.map some).Nodup :=
    (nodup_bodies U.rank h.holds.ordered).map (List.map_injective_iff.mpr (Option.some_injective _))
  have hright : ((firsts keys).map fun k => (elements t.sepSet k).map me).Nodup := by
    refine List.Nodup.map_on ?_ (nodup_firsts keys)
    intro k hk k' hk' heq
    obtain ⟨ids, hn⟩ := h.named ((hdom k).mpr (mem_firsts.mp hk))
    exact hn.key_eq h.elems (heq.symm.trans hn)
  rw [List.perm_ext_iff_of_nodup hleft hright]
  intro xs
  simp only [List.mem_map]
  constructor
  · rintro ⟨ids, hids, rfl⟩
    obtain ⟨k, hk, hn⟩ := h.body_named hids
    exact ⟨k, mem_firsts.mpr ((hdom k).mp hk), hn⟩
  · rintro ⟨k, hk, rfl⟩
    obtain ⟨ids, hids, hn⟩ := h.body_of_key ((hdom k).mpr (mem_firsts.mp hk))
    exact ⟨ids, hids, hn.symm⟩

/-- Every run of insertions keeps the levels sorted by the mixed pointers, gives each
stored key one end node, and answers a key with the end node of its first insertion and
the value stored there. -/
theorem path_trie_insert_run (U : UintHash w) (E : ElemSet σ w) {s₀ : σ}
    {me₀ : Bytes → Option (BitVec w)} (hE : E.Rep s₀ me₀) (sepSet : Option Bytes)
    {ps : List (Bytes × Nat)} (hps : ∀ p ∈ ps, 0 ∉ p.1) :
    Stops E.Exhausted (run (insertVal U E) (init s₀ sepSet) ps) ∨
      ∃ t rs me, ∃ ident : Bytes → Nat,
        run (insertVal U E) (init s₀ sepSet) ps = .ok (t, rs) ∧
        t.sepSet = sepSet.getD defaultSep ∧ E.Rep t.elemSet me ∧
        Layout 0 t.store t.tree ∧ Ordered U.rank t.tree ∧ Ended 0 t.tree ∧
        ((bodies 0 t.tree).map fun ids => ids.map some).Perm
          ((firsts (ps.map Prod.fst)).map fun k => (elements t.sepSet k).map me) ∧
        (∀ k ∈ ps.map Prod.fst, ∃ ids, Named me t.sepSet k ids ∧
          find U.rank t.tree (ids ++ [0]) = some (ident k) ∧
          ∃ c, t.node (ident k) = .ok c ∧ c.elem = 0) ∧
        ∀ (i : Nat) p, ps[i]? = some p →
          rs[i]? = some ((firstValue (ps.take i) p.1).isNone, ident p.1,
            (firstValue (ps.take i) p.1).getD p.2) := by
  rw [insertVal_eq_enter U E (sepSet.getD defaultSep)]
  have hstart := (dictionary U E (sepSet.getD defaultSep)).recorded_empty
    (holding_init hE sepSet) rfl rfl
  rcases (dictionary U E (sepSet.getD defaultSep)).enter_run hstart hps with
    hs | ⟨t, rs, m, hrun, hrec, -, hans⟩
  · exact Or.inl hs
  obtain ⟨⟨⟨T, me, h⟩, hsep⟩, hvals, -, -⟩ := hrec
  rw [List.nil_append] at hvals
  have hdom : ∀ k, (m k).isSome ↔ k ∈ ps.map Prod.fst := by
    intro k
    rw [← firstValue_isSome, ← hvals, Option.isSome_map]
  refine Or.inr ⟨t, rs, me, fun k => (m k).getD 0, hrun, hsep, h.elems, ?_⟩
  rw [tree_eq h.holds]
  refine ⟨h.holds.layout, h.holds.ordered, h.holds.ended, h.bodies_perm hdom, ?_, ?_⟩
  · intro k hk
    obtain ⟨i, hi⟩ := Option.isSome_iff_exists.mp ((hdom k).mpr hk)
    obtain ⟨-, ids, hn, hfind⟩ := (h.keys k i).mp hi
    obtain ⟨c, hc, hsym⟩ := h.end_node hi
    obtain ⟨d, hd, -, rfl⟩ := node_of_cell hc
    simp only [hi, Option.getD_some]
    exact ⟨ids, hn, hfind, d, hd, hsym⟩
  · intro i p hi
    obtain ⟨x, hx, hr⟩ := hans i p hi
    rw [hr, List.nil_append]
    simp only [hx, Option.getD_some]

def trieElems : ElemSet Trie 64 := (Trie.nodeSet true).placed fun p => BitVec.ofNat 64 (40 * p)

theorem trieElems_empty : trieElems.Rep Trie.init (fun _ => none) :=
  NodeSet.placed_empty _ _ (Trie.represents_init true) rfl

def slashLines : List (Bytes × Nat) := [([97, 47], 1), ([97, 47, 47], 2), ([], 3), ([97, 47], 4)]

theorem path_trie_insert_run_slashes :
    ∃ t, run (insertVal .mix64 trieElems) (init Trie.init none) slashLines =
        .ok (t, [(true, 2, 1), (true, 4, 2), (true, 5, 3), (false, 2, 1)]) ∧
      Layout 0 t.store t.tree ∧ Ordered UintHash.mix64.rank t.tree ∧ Ended 0 t.tree := by
  have hvalue : (run (insertVal .mix64 trieElems) (init Trie.init none) slashLines).map Prod.snd =
      .ok [(true, 2, 1), (true, 4, 2), (true, 5, 3), (false, 2, 1)] := by decide +kernel
  rcases path_trie_insert_run .mix64 trieElems trieElems_empty none
      (show ∀ p ∈ slashLines, 0 ∉ p.1 by decide) with
    ⟨e, -, hrun⟩ | ⟨t, rs, me, ident, hrun, -, -, hlayout, hordered, hended, -⟩
  · rw [hrun] at hvalue
    cases hvalue
  · rw [hrun] at hvalue
    obtain rfl : rs = _ := Except.ok.inj hvalue
    exact ⟨t, hrun, hlayout, hordered, hended⟩

end PathTrie

end PathSet
