import PathSet.ElemSet
import PathSet.PathElements
import PathSet.Library.LinkedTree

/-!
The path trie: a ternary search tree over the elements of its keys. The elements are
interned while a key is walked, the null pointer stands for the end of the key. A
node is named by its allocation number, zero is `NULL`.

The word `u` is the union of `eq` and `val`: the link of a node with an element, the
value of a node without one.
-/

namespace PathSet
open Fallible Pointer LinkedTree FirstSeen

structure PathTrieNode (w : Nat) where
  elem : BitVec w
  lo : Nat
  hi : Nat
  u : Nat
  deriving DecidableEq, Repr

structure PathTrieStats where
  insertEq : Nat
  insertLt : Nat
  insertGt : Nat
  uniqNode : Nat
  dupsNode : Nat
  deriving DecidableEq, Repr

structure PathTrie (σ : Type) (w : Nat) where
  elemSet : σ
  nodes : List (PathTrieNode w)
  rootNode : Nat
  sepSet : Bytes
  stats : PathTrieStats
  /-- The counter of the set's `SET_ALLOCATE_STRUCT`. -/
  nodeStruct : Nat

namespace PathTrie

variable {σ : Type} {w : Nat}

/-- `path_trie_default_sep`, the string `/.-` -/
def defaultSep : Bytes := [47, 46, 45]

def init (elemSet : σ) (sepSet : Option Bytes) : PathTrie σ w :=
  ⟨elemSet, [], 0, sepSet.getD defaultSep, ⟨0, 0, 0, 0, 0⟩, 0⟩

def node (t : PathTrie σ w) (p : Nat) : Outcome (PathTrieNode w) :=
  match deref t.nodes p with
  | none => .error .stray
  | some c => .ok c

def load (t : PathTrie σ w) : Link → Outcome Nat
  | .root => .ok t.rootNode
  | .lo p => do pure (← t.node p).lo
  | .hi p => do pure (← t.node p).hi
  | .eq p => do pure (← t.node p).u

def assign (t : PathTrie σ w) (v : Nat) : Link → PathTrie σ w
  | .root => { t with rootNode := v }
  | .lo p => { t with nodes := update t.nodes (fun c => { c with lo := v }) p }
  | .hi p => { t with nodes := update t.nodes (fun c => { c with hi := v }) p }
  | .eq p => { t with nodes := update t.nodes (fun c => { c with u := v }) p }

def val (t : PathTrie σ w) (p : Nat) : Nat := ((deref t.nodes p).map PathTrieNode.u).getD 0

def setVal (t : PathTrie σ w) (p v : Nat) : PathTrie σ w :=
  { t with nodes := update t.nodes (fun c => { c with u := v }) p }

variable (U : UintHash w) (E : ElemSet σ w)

/-- What a walk has read of its key. When `next` is set, the element is stale. -/
structure Cursor (w : Nat) where
  key : Bytes
  next : Bool
  elem : BitVec w
  deriving DecidableEq, Repr

def getElem (t : PathTrie σ w) (key : Bytes) : Outcome (BitVec w × Bytes) := do
  if key = [] then pure (0, key)
  else do
    let (d, rest) ← split t.sepSet key
    match ← E.lookup t.elemSet (key.take d) with
    | some e => do
        assert (e ≠ 0)
        pure (e, rest)
    | none => pure (0, rest)

def putElem (sepSet : Bytes) (elemSet : σ) (key : Bytes) : Outcome (σ × BitVec w × Bytes) := do
  if key = [] then pure (elemSet, 0, key)
  else do
    let (d, rest) ← split sepSet key
    let (elemSet, _, e) ← E.insert elemSet (key.take d)
    assert (e ≠ 0)
    pure (elemSet, e, rest)

def getNext (t : PathTrie σ w) (cur : Cursor w) : Outcome (Cursor w) := do
  if cur.next then do
    let (e, key) ← getElem E t cur.key
    pure ⟨key, false, e⟩
  else pure cur

def putNext (sepSet : Bytes) (elemSet : σ) (cur : Cursor w) : Outcome (σ × Cursor w) := do
  if cur.next then do
    let (elemSet, e, key) ← putElem E sepSet elemSet cur.key
    pure (elemSet, ⟨key, false, e⟩)
  else pure (elemSet, cur)

def lookupFrom (t : PathTrie σ w) : Nat → Nat → Cursor w → Outcome (Option Nat)
  | 0, _, _ => .error .hang
  | fuel + 1, ptr, cur =>
      if ptr = 0 then .ok none
      else do
        let c ← t.node ptr
        let cur ← getNext E t cur
        if cur.elem = c.elem then
          if cur.elem = 0 then pure (some ptr)
          else lookupFrom t fuel c.u { cur with next := true }
        else do
          if ← U.ptrLt cur.elem c.elem then lookupFrom t fuel c.lo cur
          else lookupFrom t fuel c.hi cur

def lookup (t : PathTrie σ w) (key : Bytes) : Outcome (Option Nat) :=
  lookupFrom U E t (t.nodes.length + 1) t.rootNode ⟨key, true, 0⟩

/-- How the first loop of an insertion ends. -/
inductive Descent (w : Nat) where
  | dup (node : Nat)
  | hole (ptr : Link) (cur : Cursor w)

def descend (t : PathTrie σ w) :
    Nat → σ → Link → Cursor w → PathTrieStats → Outcome (Descent w × σ × PathTrieStats)
  | 0, _, _, _, _ => .error .hang
  | fuel + 1, elemSet, ptr, cur, stats => do
      let node ← t.load ptr
      if node = 0 then pure (.hole ptr cur, elemSet, stats)
      else do
        let c ← t.node node
        let (elemSet, cur) ← putNext E t.sepSet elemSet cur
        if cur.elem = c.elem then
          let stats := { stats with insertEq := stats.insertEq + 1 }
          if cur.elem = 0 then
            pure (.dup node, elemSet, { stats with dupsNode := stats.dupsNode + 1 })
          else descend t fuel elemSet (.eq node) { cur with next := true } stats
        else do
          if ← U.ptrLt cur.elem c.elem then
            descend t fuel elemSet (.lo node) cur { stats with insertLt := stats.insertLt + 1 }
          else descend t fuel elemSet (.hi node) cur { stats with insertGt := stats.insertGt + 1 }

/-- `PATH_TRIE_NEW_NODE` -/
def newNode (t : PathTrie σ w) (e : BitVec w) (ptr : Link) : PathTrie σ w × Nat :=
  let p := t.nodes.length + 1
  let t := t.assign p ptr
  ({ t with nodes := t.nodes ++ [⟨e, 0, 0, 0⟩], nodeStruct := t.nodeStruct + 1 }, p)

/-- The second loop of an insertion: a node for each element left, and one for the end. -/
def build : Nat → PathTrie σ w → Link → Cursor w → Outcome (PathTrie σ w × Nat)
  | 0, _, _, _ => .error .hang
  | fuel + 1, t, ptr, cur => do
      let (elemSet, cur) ← putNext E t.sepSet t.elemSet cur
      let (t, node) := newNode { t with elemSet := elemSet } cur.elem ptr
      if cur.elem = 0 then pure (t, node)
      else build fuel t (.eq node) { cur with next := true }

def insert (t : PathTrie σ w) (key : Bytes) : Outcome (PathTrie σ w × Bool × Nat) := do
  let (d, elemSet, stats) ←
    descend U E t (t.nodes.length + 1) t.elemSet .root ⟨key, true, 0⟩ t.stats
  let t := { t with elemSet := elemSet, stats := stats }
  match d with
  | .dup node => pure (t, false, node)
  | .hole ptr cur => do
      let (t, node) ← build E (cur.key.length + 2) t ptr cur
      pure ({ t with stats := { t.stats with uniqNode := t.stats.uniqNode + 1 } }, true, node)

end PathTrie

end PathSet
