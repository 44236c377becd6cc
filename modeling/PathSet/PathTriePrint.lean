import PathSet.SetPrint

/-!
The printer of a path trie. It walks the nodes with a stack of element pointers, and at
the end of a key prints the elements on the stack. The stack of the empty key is empty,
and its bottom must not be asked for.
-/

namespace PathSet
open Fallible Pointer LinkedTree TernaryTree FirstSeen Numbered TreeWalk

/-- An element set with its `PRINT_ONE`. -/
structure PrintElems (σ : Type) (w : Nat) extends ElemSet σ w where
  printOne : σ → BitVec w → Outcome Bytes
  printOne_eq : ∀ {s m k i}, Rep s m → m k = some i → k ≠ [] → printOne s i = .ok k

structure PrintNodes (σ : Type) extends NodeSet σ where
  printOne : σ → Nat → Outcome Bytes
  printOne_eq : ∀ {s m k p}, Rep s m → m k = some p → k ≠ [] → printOne s p = .ok k

namespace PrintNodes
variable {σ : Type} {w : Nat} (N : PrintNodes σ) (addr : Nat → BitVec w)

def nodeAt (s : σ) (i : BitVec w) : Option Nat :=
  (List.range' 1 (N.count s)).find? fun p => addr p = i

def placedPrintOne (s : σ) (i : BitVec w) : Outcome Bytes :=
  match N.nodeAt addr s i with
  | none => .error .stray
  | some p => N.printOne s p

theorem nodeAt_eq {s : σ} {p : Nat} (h : Fits addr (N.count s)) (hp : 0 < p ∧ p ≤ N.count s) :
    N.nodeAt addr s (addr p) = some p := by
  cases hfind : N.nodeAt addr s (addr p) with
  | none =>
    have hmem : p ∈ List.range' 1 (N.count s) := by
      rw [List.mem_range'_1]
      omega
    have hno := List.find?_eq_none.mp hfind p hmem
    simp at hno
  | some q =>
    have hmem := List.mem_range'_1.mp (List.mem_of_find?_eq_some hfind)
    have haddr : addr q = addr p := by simpa using List.find?_some hfind
    rw [h.inj (by omega : 0 < q ∧ q ≤ N.count s) hp haddr]

def placed : PrintElems σ w where
  toElemSet := N.toNodeSet.placed addr
  printOne := N.placedPrintOne addr
  printOne_eq := by
    rintro s m k i ⟨hfits, m₀, hrep, hm⟩ hk hne
    rw [hm, Option.map_eq_some_iff] at hk
    obtain ⟨p, hp, rfl⟩ := hk
    rw [placedPrintOne, N.nodeAt_eq addr hfits (N.id_bound hrep hp)]
    exact N.printOne_eq hrep hp hne

end PrintNodes

def LHash.printableNodes (kind : LHashKind) : PrintNodes LHash where
  toNodeSet := nodeSet kind
  printOne := printOne
  printOne_eq := by
    rintro h m k p ⟨ks, ⟨hh, -⟩, hm⟩ hk -
    exact printOne_of_holds hh ((hm k p).mp hk)

def GHash.printableNodes (kind : GHashKind) : PrintNodes GHash where
  toNodeSet := nodeSet kind
  printOne := printOne
  printOne_eq := by
    rintro h m k p ⟨ks, ⟨hh, -⟩, hm⟩ hk -
    exact printOne_of_holds hh ((hm k p).mp hk)

def Trie.printableNodes : PrintNodes Trie where
  toNodeSet := nodeSet true
  printOne := printerPrintOne
  printOne_eq := by
    rintro t m k p ⟨T, hT, hclimbs, hm⟩ hk hne
    obtain ⟨hnul, hfind⟩ := find_of_map hm hk
    exact printerPrintOne_spec hT (hclimbs rfl) hnul hne hfind

namespace PathTrie
variable {σ : Type} {w : Nat} (U : UintHash w) (P : PrintElems σ w)

def printLine (elemSet : σ) (stack : List (BitVec w)) : Outcome Bytes := do
  let elems ← stackBegRef stack
  let text ← writeAll (P.printOne elemSet) elems
  pure (text ++ [10])

def printerPrint (t : PathTrie σ w) : Nat → List (BitVec w) → Nat → Outcome Bytes
  | 0, _, _ => .error .hang
  | fuel + 1, stack, node => do
      let c ← t.node node
      let lo ← onLink c.lo (printerPrint t fuel stack c.lo)
      let own ← (if c.elem = 0 then printLine P t.elemSet stack
        else onLink c.u (printerPrint t fuel (stack ++ [c.elem]) c.u) : Outcome Bytes)
      let hi ← onLink c.hi (printerPrint t fuel stack c.hi)
      pure (lo ++ own ++ hi)

def print (t : PathTrie σ w) : Outcome Bytes :=
  if t.rootNode = 0 then .ok []
  else printerPrint P t t.nodes.length [] t.rootNode

def readCell (t : PathTrie σ w) (p : Nat) : Outcome (Cell (BitVec w)) := do
  pure (← t.node p).cell

theorem readCell_of_deref {t : PathTrie σ w} {p : Nat} {c : Cell (BitVec w)}
    (h : deref t.store.cells p = some c) : t.readCell p = .ok c := by
  obtain ⟨d, hd, -, rfl⟩ := node_of_cell h
  rw [readCell, hd]
  rfl

theorem printerPrint_eq_walk (t : PathTrie σ w) (fuel : Nat) (stack : List (BitVec w)) (p : Nat) :
    printerPrint P t fuel stack p = walk .hang t.readCell 0 (printLine P t.elemSet) fuel stack p := by
  induction fuel generalizing stack p with
  | zero => rfl
  | succ fuel ih =>
    rw [printerPrint, walk, readCell, Fallible.bind_assoc]
    refine bind_congr fun c _ => ?_
    simp only [ih]
    rfl

theorem print_spec {t : PathTrie σ w} {T : SearchTree (BitVec w)} (h : Holds U t T) :
    print P t = writeAll (printLine P t.elemSet) (bodies 0 T) := by
  have hrep : Rep 0 t.store.cells T t.rootNode := h.layout.1
  cases T with
  | nil =>
    have hroot : t.rootNode = 0 := hrep
    rw [print, if_pos hroot]
    rfl
  | node id s lo eq hi =>
    have hroot : t.rootNode ≠ 0 := by
      obtain ⟨rfl, c, hc, -⟩ := hrep
      rintro hz
      simp [hz] at hc
    rw [print, if_neg hroot, printerPrint_eq_walk,
      walk_spec (fun _ _ => readCell_of_deref) hrep h.ended (by simp) (le_of_eq h.size)]
    rfl

variable {U P}

theorem writeAll_printOne {s : σ} {me : Bytes → Option (BitVec w)} (hE : P.Rep s me)
    {els : List Bytes} {ids : List (BitVec w)} (h : els.map me = ids.map some)
    (hne : ∀ e ∈ els, e ≠ []) : writeAll (P.printOne s) ids = .ok els.flatten := by
  induction ids generalizing els with
  | nil =>
    rw [List.map_eq_nil_iff.mp h]
    rfl
  | cons i ids ih =>
    obtain ⟨e, els, rfl, he, hels⟩ := List.map_eq_cons_iff.mp h
    rw [writeAll, P.printOne_eq hE he (hne e (by simp)),
      ih hels fun x hx => hne x (by simp [hx])]
    rfl

theorem Named.printed {s : σ} {me : Bytes → Option (BitVec w)} (hE : P.Rep s me)
    {sepSet key : Bytes} {ids : List (BitVec w)} (h : Named me sepSet key ids) :
    writeAll (P.printOne s) ids = .ok key := by
  rw [writeAll_printOne hE h fun e he => ne_nil_of_mem_elements he, flatten_elements]

theorem Named.nil_iff {me : Bytes → Option (BitVec w)} {sepSet key : Bytes}
    {ids : List (BitVec w)} (h : Named me sepSet key ids) : ids = [] ↔ key = [] := by
  constructor
  · rintro rfl
    exact elements_eq_nil (List.map_eq_nil_iff.mp h)
  · rintro rfl
    exact List.map_eq_nil_iff.mp h.symm

theorem printLine_of_named {s : σ} {me : Bytes → Option (BitVec w)} (hE : P.Rep s me)
    {sepSet key : Bytes} {ids : List (BitVec w)} (h : Named me sepSet key ids) :
    printLine P s ids =
      if key = [] then .error (.ensure "stack is empty") else .ok (key ++ [10]) := by
  by_cases hkey : key = []
  · rw [if_pos hkey, h.nil_iff.mpr hkey]
    rfl
  · rw [if_neg hkey, printLine, stackBegRef_of_ne_nil (mt h.nil_iff.mp hkey), ok_bind,
      h.printed hE]
    rfl

/-- The key whose elements are printed for the pointers. -/
def keyOf (P : PrintElems σ w) (s : σ) (ids : List (BitVec w)) : Bytes :=
  (writeAll (P.printOne s) ids).toOption.getD []

theorem Named.keyOf_eq {s : σ} {me : Bytes → Option (BitVec w)} (hE : P.Rep s me)
    {sepSet key : Bytes} {ids : List (BitVec w)} (h : Named me sepSet key ids) :
    keyOf P s ids = key := by
  rw [keyOf, h.printed hE]
  rfl

theorem Knows.keys_perm {t : PathTrie σ w} {m : Bytes → Option Nat} {T : SearchTree (BitVec w)}
    {me : Bytes → Option (BitVec w)} (h : Knows U P.toElemSet t m T me) {keys : List Bytes}
    (hnd : keys.Nodup) (hdom : ∀ k, (m k).isSome ↔ k ∈ keys) :
    ((bodies 0 T).map (keyOf P t.elemSet)).Perm keys := by
  have hperm := (h.bodies_perm hdom).map fun xs => keyOf P t.elemSet xs.reduceOption
  rw [List.map_map, List.map_map] at hperm
  have hleft : (bodies 0 T).map ((fun xs => keyOf P t.elemSet xs.reduceOption) ∘ List.map some) =
      (bodies 0 T).map (keyOf P t.elemSet) :=
    List.map_congr_left fun ids _ => by simp [List.reduceOption]
  have hright : (firsts keys).map ((fun xs => keyOf P t.elemSet xs.reduceOption) ∘
      fun k => (elements t.sepSet k).map me) = firsts keys := by
    refine Eq.trans (List.map_congr_left fun k hk => ?_) (List.map_id _)
    obtain ⟨ids, hn⟩ := h.named ((hdom k).mpr (mem_firsts.mp hk))
    have hids : ((elements t.sepSet k).map me).reduceOption = ids := by
      rw [hn]
      simp [List.reduceOption]
    exact (congrArg (keyOf P t.elemSet) hids).trans (hn.keyOf_eq h.elems)
  rw [hleft, hright] at hperm
  exact hperm.trans ((List.perm_ext_iff_of_nodup (nodup_firsts keys) hnd).mpr fun k => mem_firsts)

def printSet (U : UintHash w) (P : PrintElems σ w) (sep : Bytes) : PrintSet (PathTrie σ w) where
  toSetImpl := set U P.toElemSet sep
  print := print P
  Printable k := k ≠ []
  trouble := .ensure "stack is empty"
  print_keys := by
    rintro t m keys ⟨⟨T, me, h⟩, -⟩ hnd hdom hne
    refine ⟨_, h.keys_perm hnd hdom, ?_⟩
    rw [print_spec U P h.holds, textLines, List.flatMap_map]
    refine writeAll_ok fun ids hids => ?_
    obtain ⟨k, hk, hn⟩ := h.body_named hids
    rw [printLine_of_named h.elems hn, if_neg (hne k ((hdom k).mp hk)), hn.keyOf_eq h.elems]
  print_trouble := by
    rintro t m k ⟨⟨T, me, h⟩, -⟩ hk hempty
    obtain rfl : k = [] := not_not.mp hempty
    rw [print_spec U P h.holds]
    obtain ⟨ids, hmem, hnil⟩ := h.body_of_key hk
    refine writeAll_error (fun ids hids => ?_) ⟨ids, hmem, ?_⟩
    · obtain ⟨k, -, hn⟩ := h.body_named hids
      rw [printLine_of_named h.elems hn]
      split_ifs
      · exact Or.inl rfl
      · exact Or.inr ⟨_, rfl⟩
    · rw [printLine_of_named h.elems hnil, if_pos rfl]

end PathTrie

end PathSet
