import PathSet.TrieRepresents
import PathSet.Library.TreeWalk

/-!
The two printers of a trie. `printerPrintOne` climbs the `up` links from the node
that ends a key to the first node of the key and writes what it collected in
reverse. `printerPrint` walks the nodes in order with a stack of symbols.
-/

namespace PathSet
open Fallible Pointer LinkedTree TernaryTree TreeWalk

namespace Trie

/-- Climb from the node `child` and push the symbols passed on `eq` links. -/
def climb (t : Trie) (val : Nat) : Nat → Nat → Bytes → Outcome Bytes
  | 0, _, _ => .error .hang
  | fuel + 1, child, str => do
      let q := (← t.node child).up
      assert (q ≠ 0)
      let c ← t.node q
      let str := if c.ch ≠ 0 ∧ c.u = child then str ++ [c.ch] else str
      if q ≠ val then climb t val fuel q str else pure str

def printerPrintOne (t : Trie) (node : Nat) : Outcome Bytes := do
  assert (node ≠ 0)
  let c ← t.node node
  assert (c.ch = 0)
  assert (c.u ≠ 0)
  let str ← t.climb c.u (t.nodes.length + 1) node []
  pure (← stackBegRef str).reverse

/-- The line of a key, `fprintf (file, "%.*s", ..)` and a newline. -/
def printLine (str : Bytes) : Outcome Bytes := do
  let n ← sizeAsInt str.length
  let text ← (if n ≠ 0 then stackBegRef str else pure [] : Outcome Bytes)
  pure (text ++ [10])

def printerPrint (t : Trie) : Nat → Bytes → Nat → Outcome Bytes
  | 0, _, _ => .error .hang
  | fuel + 1, str, node => do
      let c ← t.node node
      let lo ← onLink c.lo (printerPrint t fuel str c.lo)
      let own ← (if c.ch = 0 then printLine str
        else onLink c.u (printerPrint t fuel (str ++ [c.ch]) c.u) : Outcome Bytes)
      let hi ← onLink c.hi (printerPrint t fuel str c.hi)
      pure (lo ++ own ++ hi)

def print (t : Trie) : Outcome Bytes :=
  if t.rootNode = 0 then .ok []
  else t.printerPrint t.nodes.length [] t.rootNode

def ups (t : Trie) (p : Nat) : Nat := (deref (t.nodes.map TrieNode.up) p).getD 0

/-- Every `up` link names the owner of the link its node hangs on. -/
def UpLinked (ups : Nat → Nat) : SearchTree UInt8 → Nat → Prop
  | .nil, _ => True
  | .node id _ lo eq hi, u =>
      ups id = u ∧ UpLinked ups lo id ∧ UpLinked ups eq id ∧ UpLinked ups hi id

structure Climbs (t : Trie) (T : SearchTree UInt8) : Prop where
  upLinked : UpLinked t.ups T 0
  based : ∀ q i, 0 ∉ q → find UInt8.toNat T (q ++ [0]) = some i →
    find UInt8.toNat T ((q ++ [0]).take 1) = some (t.val i)

theorem climbs_init : Climbs init .nil := ⟨trivial, fun _ _ _ h => by simp at h⟩

theorem upLinked_chain {pre : List Nat} {n u : Nat} (key : Bytes) (hpre : pre.length = n) :
    UpLinked (fun p => (deref (pre ++ upChain n u key) p).getD 0) (chain n (key ++ [0])) u := by
  induction key generalizing pre n u with
  | nil => simp [chain, UpLinked, upChain, deref, ← hpre]
  | cons ch key ih =>
    have hrest := @ih (pre ++ [u]) (n + 1) (n + 1) (by simp [hpre])
    rw [List.append_assoc] at hrest
    refine ⟨?_, trivial, hrest, trivial⟩
    simp [upChain, deref, ← hpre]

theorem upLinked_congr {f g : Nat → Nat} {T : SearchTree UInt8} {u : Nat} (h : UpLinked f T u)
    (same : ∀ i ∈ ids T, g i = f i) : UpLinked g T u := by
  induction T generalizing u with
  | nil => trivial
  | node id s lo eq hi ihl ihe ihh =>
    obtain ⟨hid, hlo, heq, hhi⟩ := h
    refine ⟨(same id (by simp [ids])).trans hid, ?_, ?_, ?_⟩
    · exact ihl hlo (fun i hi => same i (by simp [ids, hi]))
    · exact ihe heq (fun i hi => same i (by simp [ids, hi]))
    · exact ihh hhi (fun i hi => same i (by simp [ids, hi]))

theorem upLinked_addKey {f : Nat → Nat} {T : SearchTree UInt8} {u n : Nat} {l l' : Link}
    {ks ks' : List UInt8} (h : UpLinked f T u) (hu : u = l.owner)
    (hhole : seek UInt8.toNat 0 T l ks = .hole l' ks') (hks : Sentence 0 ks)
    (hchain : UpLinked f (chain n ks') l'.owner) :
    UpLinked f (addKey UInt8.toNat n T ks) u := by
  induction T generalizing u l ks with
  | nil =>
    obtain ⟨rfl, rfl⟩ : l = l' ∧ ks = ks' := by simpa [seek] using hhole
    simpa [hu] using hchain
  | node id s lo eq hi ihl ihe ihh =>
    obtain ⟨hid, hlo, heq, hhi⟩ := h
    cases ks with
    | nil => exact absurd rfl hks.ne_nil
    | cons k ks =>
      simp only [seek] at hhole
      simp only [addKey]
      split_ifs at hhole ⊢ with hk hke hlt
      · rcases sentence_cons.mp hks with ⟨rfl, -⟩ | ⟨-, hks⟩
        · exact absurd rfl hke
        · exact ⟨hid, hlo, ihe heq rfl hhole hks, hhi⟩
      · exact ⟨hid, ihl hlo rfl hhole hks, heq, hhi⟩
      · exact ⟨hid, hlo, heq, ihh hhi rfl hhole hks⟩

theorem climbs_stats {t : Trie} {T : SearchTree UInt8} {stats : TrieStats} (h : Climbs t T) :
    Climbs { t with stats := stats } T := ⟨h.upLinked, h.based⟩

theorem climbs_insert {t t' : Trie} {T : SearchTree UInt8} {key : Bytes} {i : Nat} (h : Holds t T)
    (hc : Climbs t T) (hkey : 0 ∉ key) (hins : t.insert true key = .ok (t', true, i)) :
    Climbs t' (addKey UInt8.toNat t.nodes.length T (key ++ [0])) := by
  have hsent := sentence_key hkey
  rcases insert_spec true h hkey with
    ⟨j, stats, hins', -⟩ | ⟨t₂, hins', hnone, hholds, hfind, hval, -, -⟩
  · simp [hins] at hins'
  obtain rfl : t' = t₂ := by
    rw [hins] at hins'
    exact (Prod.mk.inj (Except.ok.inj hins')).1
  rcases insert_cases true h hkey with
    ⟨j, stats, hins', -⟩ | ⟨t₂, l, key', base, hins', hs, hlen, hbase, hstore, hups, -⟩
  · simp [hins] at hins'
  obtain rfl : t' = t₂ := by
    rw [hins] at hins'
    exact (Prod.mk.inj (Except.ok.inj hins')).1
  have hups := hups rfl
  constructor
  · refine upLinked_addKey (upLinked_congr hc.upLinked fun j hj => ?_) rfl hs hsent ?_
    · have hb := rep_ids_bound h.layout.1 hj
      rw [length_store] at hb
      cases j with
      | zero => rfl
      | succ j =>
        have hj : j < t.nodes.length := by omega
        simp only [ups, hups, deref]
        rw [List.getElem?_append_left (by simpa using hj)]
    · have hchain := @upLinked_chain (t.nodes.map TrieNode.up) t.nodes.length l.owner key' (by simp)
      rw [← hups] at hchain
      exact hchain
  · intro q j hq hqj
    rw [hfind q hq] at hqj
    by_cases hqk : q = key
    · subst hqk
      rw [if_pos rfl] at hqj
      obtain rfl : t'.nodes.length = j := by simpa using hqj
      have hgrow := layout_grow UInt8.toNat h.layout hsent hs
      have hlast : find UInt8.toNat (addKey UInt8.toNat t.store.cells.length T (q ++ [0]))
          (q ++ [0]) = some t'.nodes.length := by
        rw [length_store, hfind q hq, if_pos rfl]
      obtain ⟨c, hcell, -⟩ := end_of_find UInt8.toNat hgrow.1 hsent hlast
      have hval : t'.val t'.nodes.length = base := by
        rw [val_eq_word, hstore, if_pos rfl, word_setWord (by rw [hcell]; rfl)]
      rw [hval, hbase]
      cases hfirst : find UInt8.toNat T ((q ++ [0]).take 1) with
      | some b => exact find_addKey_of_find UInt8.toNat _ _ hfirst
      | none =>
        have hprefix : (q ++ [0]).take 1 <+: q ++ [0] := List.take_prefix 1 _
        have hone : ((q ++ [0]).take 1).length = 1 := by simp
        have hne : (q ++ [0]).take 1 ≠ [] := by simp
        have hdepth : depth UInt8.toNat T (q ++ [0]) = 0 := by
          have hle : (find UInt8.toNat T ((q ++ [0]).take 1)).isSome ↔
              ((q ++ [0]).take 1).length ≤ depth UInt8.toNat T (q ++ [0]) :=
            find_isSome_iff_le_depth UInt8.toNat hne hprefix
          rw [hfirst, hone] at hle
          have hlt := hle.not.mp (by simp)
          omega
        rw [find_addKey_of_none UInt8.toNat _ _ hfirst, if_pos ⟨hne, hprefix⟩, hone, hdepth]
    · rw [if_neg hqk] at hqj
      rw [hval q j hq hqj]
      exact find_addKey_of_find UInt8.toNat _ _ (hc.based q j hq hqj)

theorem ups_node {t : Trie} {p : Nat} {c : TrieNode} (h : t.node p = .ok c) : t.ups p = c.up := by
  unfold node at h
  split at h
  · simp at h
  · obtain rfl : _ = c := Except.ok.inj h
    rename_i hc
    simp [ups, deref_map, hc]

theorem climb_step {t : Trie} {val fuel child q : Nat} {c d : TrieNode} {str : Bytes}
    (hc : t.node child = .ok c) (hup : c.up = q) (hq : q ≠ 0) (hd : t.node q = .ok d) :
    t.climb val (fuel + 1) child str =
      if q ≠ val then
        t.climb val fuel q (if d.ch ≠ 0 ∧ d.u = child then str ++ [d.ch] else str)
      else .ok (if d.ch ≠ 0 ∧ d.u = child then str ++ [d.ch] else str) := by
  simp only [climb, hc, ok_bind, hup, assert_of hq, hd, pure_eq_ok]

theorem root_node {t : Trie} {T : SearchTree UInt8} {p : Nat} (hrep : Rep 0 t.store.cells T p)
    (hne : T ≠ .nil) : p ∈ ids T ∧ ∃ c, t.node p = .ok c := by
  cases T with
  | nil => exact absurd rfl hne
  | node id s lo eq hi =>
    obtain ⟨rfl, c, hc, -⟩ := hrep
    obtain ⟨d, hd, -⟩ := node_of_cell hc
    exact ⟨by simp [ids], d, hd⟩

theorem ups_root {t : Trie} {T : SearchTree UInt8} {p u : Nat} (hrep : Rep 0 t.store.cells T p)
    (hne : T ≠ .nil) (hup : UpLinked t.ups T u) {c : TrieNode} (hc : t.node p = .ok c) :
    c.up = u := by
  cases T with
  | nil => exact absurd rfl hne
  | node id s lo eq hi =>
    obtain ⟨rfl, -⟩ := hrep
    rw [← ups_node hc]
    exact hup.1

theorem climb_spec {t : Trie} {T : SearchTree UInt8} {p u val i : Nat} {ks : List UInt8}
    (hrep : Rep 0 t.store.cells T p) (hend : Ended 0 T) (hnd : (ids T).Nodup)
    (hup : UpLinked t.ups T u) (hval : val ∉ ids T) (hfind : find UInt8.toNat T ks = some i) :
    ∃ n, n < size T ∧ ∀ fuel str,
      t.climb val (n + fuel) i str = t.climb val fuel p (str ++ ks.dropLast.reverse) := by
  induction T generalizing p u ks with
  | nil => simp at hfind
  | node id s lo eq hi ihl ihe ihh =>
    obtain ⟨rfl, cell, hcell, rfl, hlo, hhi, heq⟩ := hrep
    obtain ⟨d, hd, -, rfl⟩ := node_of_cell hcell
    obtain ⟨hends, hendlo, hendeq, hendhi⟩ := hend
    obtain ⟨hid, huplo, hupeq, huphi⟩ := hup
    simp only [ids, List.nodup_cons, List.mem_append, not_or, List.nodup_append] at hnd
    obtain ⟨⟨⟨hidlo, hideq⟩, hidhi⟩, ⟨hndlo, hndeq, hdle⟩, hndhi, hdh⟩ := hnd
    simp only [ids, List.mem_cons, List.mem_append, not_or] at hval
    obtain ⟨hvalp, ⟨hvallo, hvaleq⟩, hvalhi⟩ := hval
    have hp : p ≠ 0 := by
      rintro rfl
      simp at hcell
    have hsym : d.cell.sym = d.ch := rfl
    -- one more step leads from the root of a part to this node
    have last : ∀ {S : SearchTree UInt8} {q : Nat}, Rep 0 t.store.cells S q → S ≠ .nil →
        UpLinked t.ups S p → ∀ fuel str, t.climb val (fuel + 1) q str =
          t.climb val fuel p (if d.ch ≠ 0 ∧ d.u = q then str ++ [d.ch] else str) := by
      intro S q hS hne hupS fuel str
      obtain ⟨-, c, hc⟩ := root_node hS hne
      rw [climb_step hc (ups_root hS hne hupS hc) hp hd, if_pos (Ne.symm hvalp)]
    -- the `eq` link of this node leads to no other part
    have aside : ∀ {S : SearchTree UInt8} {q : Nat}, Rep 0 t.store.cells S q → S ≠ .nil →
        (∀ x ∈ ids S, x ∉ ids eq) → ¬ (d.ch ≠ 0 ∧ d.u = q) := by
      rintro S q hS hne hdisj ⟨hch, rfl⟩
      rw [hsym, if_neg hch] at heq
      have heqne : eq ≠ .nil := fun h => hch (hends.mpr h)
      exact hdisj _ (root_node hS hne).1 (root_node heq heqne).1
    cases ks with
    | nil => simp at hfind
    | cons k ks =>
      rcases find_node_cases UInt8.toNat hfind with ⟨rfl, rfl, rfl⟩ | ⟨rfl, h⟩ | h | h
      · exact ⟨0, by simp [size], fun fuel str => by simp⟩
      · have heqne : eq ≠ .nil := by
          rintro rfl
          simp at h
        have hch : d.ch ≠ 0 := fun hz => heqne (hends.mp hz)
        rw [hsym, if_neg hch] at heq
        obtain ⟨n, hn, hclimb⟩ := ihe heq hendeq hndeq hupeq hvaleq h
        have hks : ks ≠ [] := by
          rintro rfl
          simp at h
        refine ⟨n + 1, by simp only [size]; omega, fun fuel str => ?_⟩
        rw [Nat.add_right_comm, Nat.add_assoc, hclimb (fuel + 1) str, last heq heqne hupeq,
          if_pos ⟨hch, rfl⟩, hsym, List.dropLast_cons_of_ne_nil hks, List.reverse_cons,
          List.append_assoc]
      · have hne : lo ≠ .nil := by
          rintro rfl
          simp at h
        obtain ⟨n, hn, hclimb⟩ := ihl hlo hendlo hndlo huplo hvallo h
        refine ⟨n + 1, by simp only [size]; omega, fun fuel str => ?_⟩
        rw [Nat.add_right_comm, Nat.add_assoc, hclimb (fuel + 1) str, last hlo hne huplo,
          if_neg (aside hlo hne fun x hx hx' => hdle x hx x hx' rfl)]
      · have hne : hi ≠ .nil := by
          rintro rfl
          simp at h
        obtain ⟨n, hn, hclimb⟩ := ihh hhi hendhi hndhi huphi hvalhi h
        refine ⟨n + 1, by simp only [size]; omega, fun fuel str => ?_⟩
        rw [Nat.add_right_comm, Nat.add_assoc, hclimb (fuel + 1) str, last hhi hne huphi,
          if_neg (aside hhi hne fun x hx hx' => hdh x (Or.inr hx') x hx rfl)]

theorem climb_key {t : Trie} {T : SearchTree UInt8} {p u val i fuel : Nat} {ch : UInt8} {key : Bytes}
    (hrep : Rep 0 t.store.cells T p) (hend : Ended 0 T) (hnd : (ids T).Nodup)
    (hup : UpLinked t.ups T u) (hch : ch ≠ 0)
    (hfirst : find UInt8.toNat T [ch] = some val)
    (hfind : find UInt8.toNat T (ch :: (key ++ [0])) = some i) (hfuel : size T ≤ fuel) :
    t.climb val fuel i [] = .ok (ch :: key).reverse := by
  induction T generalizing p u with
  | nil => simp at hfind
  | node id s lo eq hi ihl ihe ihh =>
    obtain ⟨rfl, cell, hcell, rfl, hlo, hhi, heq⟩ := hrep
    obtain ⟨d, hd, -, rfl⟩ := node_of_cell hcell
    obtain ⟨hends, hendlo, hendeq, hendhi⟩ := hend
    obtain ⟨hid, huplo, hupeq, huphi⟩ := hup
    simp only [ids, List.nodup_cons, List.mem_append, not_or, List.nodup_append] at hnd
    obtain ⟨⟨⟨hidlo, hideq⟩, hidhi⟩, ⟨hndlo, hndeq, hdle⟩, hndhi, hdh⟩ := hnd
    have hsym : d.cell.sym = d.ch := rfl
    simp only [size] at hfuel
    simp only [find] at hfirst hfind
    by_cases hk : ch = d.cell.sym
    · simp only [hk, if_true, Option.some.injEq] at hfirst
      subst hfirst
      rw [if_pos hk, if_neg (by simp)] at hfind
      rw [hsym] at hk
      subst hk
      rw [hsym, if_neg hch] at heq
      have heqne : eq ≠ .nil := by
        rintro rfl
        simp at hfind
      have hp : p ≠ 0 := by
        rintro rfl
        simp at hcell
      obtain ⟨n, hn, hclimb⟩ := climb_spec heq hendeq hndeq hupeq hideq hfind
      obtain ⟨-, c, hc⟩ := root_node heq heqne
      obtain ⟨m, rfl⟩ : ∃ m, fuel = n + (m + 1) := ⟨fuel - n - 1, by omega⟩
      have hu : d.cell.eq = d.u := rfl
      rw [hclimb (m + 1) [], climb_step hc (ups_root heq heqne hupeq hc) hp hd]
      simp [hch, hu]
    · rw [if_neg hk] at hfirst hfind
      by_cases hlt : ch.toNat < d.cell.sym.toNat
      · rw [if_pos hlt] at hfirst hfind
        exact ihl hlo hendlo hndlo huplo hfirst hfind (by omega)
      · rw [if_neg hlt] at hfirst hfind
        exact ihh hhi hendhi hndhi huphi hfirst hfind (by omega)

theorem printerPrintOne_spec {t : Trie} {T : SearchTree UInt8} {key : Bytes} {i : Nat} (h : Holds t T)
    (hc : Climbs t T) (hkey : 0 ∉ key) (hne : key ≠ [])
    (hfind : find UInt8.toNat T (key ++ [0]) = some i) : t.printerPrintOne i = .ok key := by
  obtain ⟨ch, key, rfl⟩ := List.exists_cons_of_ne_nil hne
  have hch : ch ≠ 0 := by
    rintro rfl
    simp at hkey
  have hfirst := hc.based _ _ hkey hfind
  obtain ⟨cell, hcell, hzero⟩ := end_of_find UInt8.toNat h.layout.1 (sentence_key hkey) hfind
  obtain ⟨d, hd, hderef, rfl⟩ := node_of_cell hcell
  have hi : i ≠ 0 := by
    rintro rfl
    simp at hcell
  have hval : t.val i = d.u := by simp [val, hderef]
  have hu : d.u ≠ 0 := by
    have hb := (rep_ids_bound h.layout.1 (find_mem_ids UInt8.toNat hfirst)).1
    rw [hval] at hb
    exact Nat.ne_of_gt hb
  have hfuel : size T ≤ t.nodes.length + 1 := by rw [h.size]; omega
  have hclimb := climb_key h.layout.1 h.ended h.layout.nodup hc.upLinked hch hfirst hfind hfuel
  rw [hval] at hclimb
  rw [printerPrintOne, assert_of hi, ok_bind, hd, ok_bind, assert_of (show d.ch = 0 from hzero),
    ok_bind, assert_of hu, ok_bind, hclimb, ok_bind, stackBegRef_of_ne_nil (by simp), ok_bind,
    List.reverse_reverse]
  rfl

theorem printLine_short {str : Bytes} (h : str.length ≤ 2 ^ 31 - 1) :
    printLine str = .ok (str ++ [10]) := by
  cases str with
  | nil => rfl
  | cons ch str =>
    have hne : (ch :: str).length ≠ 0 := by simp
    rw [printLine, sizeAsInt, assert_of h, ok_bind, pure_eq_ok, ok_bind, if_pos hne,
      stackBegRef_of_ne_nil (by simp)]
    rfl

theorem printLine_long {str : Bytes} (h : ¬str.length ≤ 2 ^ 31 - 1) :
    printLine str = .error .assertion := by
  rw [printLine, sizeAsInt, assert, if_neg h]
  rfl

def readCell (t : Trie) (p : Nat) : Outcome (Cell UInt8) := do pure (← t.node p).cell

theorem readCell_of_deref {t : Trie} {p : Nat} {c : Cell UInt8}
    (h : deref t.store.cells p = some c) : t.readCell p = .ok c := by
  obtain ⟨d, hd, -, rfl⟩ := node_of_cell h
  rw [readCell, hd]
  rfl

theorem printerPrint_eq_walk (t : Trie) (fuel : Nat) (str : Bytes) (p : Nat) :
    t.printerPrint fuel str p = walk .hang t.readCell 0 printLine fuel str p := by
  induction fuel generalizing str p with
  | zero => rfl
  | succ fuel ih =>
    rw [printerPrint, walk, readCell, Fallible.bind_assoc]
    refine bind_congr fun c _ => ?_
    simp only [ih]
    rfl

theorem print_spec {t : Trie} {T : SearchTree UInt8} (h : Holds t T) :
    t.print = writeAll printLine (bodies 0 T) := by
  have hrep : Rep 0 t.store.cells T t.rootNode := h.layout.1
  by_cases hnil : T = .nil
  · subst hnil
    have hroot : t.rootNode = 0 := hrep
    rw [print, if_pos hroot]
    rfl
  · have hroot : t.rootNode ≠ 0 := by
      intro hz
      have hpos := (rep_ids_bound hrep (root_node hrep hnil).1).1
      exact absurd (hz ▸ hpos : 0 < 0) (lt_irrefl 0)
    rw [print, if_neg hroot, printerPrint_eq_walk,
      walk_spec (fun _ _ => readCell_of_deref) hrep h.ended hnil (le_of_eq h.size)]
    rfl

end Trie

end PathSet
