import PathSet.Machine
import PathSet.Library.LinkedTree
import PathSet.Library.FirstSeen

/-!
The ternary search trie of byte strings. A node is named by its allocation number
counted from one, zero is `NULL`. The nodes are never moved, so a pointer to a
link is the name of its node and the link's field.

The word `u` is the union of `eq` and `val`: the link of a node with a symbol, the
value of a node that ends a key. Builds with `TRIE_NEED_PRINT_ONE` keep `up` links
and store the first node of a key in its `val`.
-/

namespace PathSet
open Fallible Pointer LinkedTree TernaryTree

structure TrieNode where
  ch : UInt8
  up : Nat
  lo : Nat
  hi : Nat
  u : Nat
  deriving DecidableEq, Repr

structure TrieStats where
  insertEq : Nat
  insertLt : Nat
  insertGt : Nat
  uniqNode : Nat
  dupsNode : Nat
  deriving DecidableEq, Repr

structure Trie where
  nodes : List TrieNode
  rootNode : Nat
  stats : TrieStats
  /-- The counter of the set's `SET_ALLOCATE_STRUCT`. -/
  nodeStruct : Nat
  deriving DecidableEq, Repr

namespace Trie

def init : Trie := ⟨[], 0, ⟨0, 0, 0, 0, 0⟩, 0⟩

def node (t : Trie) (p : Nat) : Outcome TrieNode :=
  match deref t.nodes p with
  | none => .error .stray
  | some c => .ok c

def load (t : Trie) : Link → Outcome Nat
  | .root => .ok t.rootNode
  | .lo p => do pure (← t.node p).lo
  | .hi p => do pure (← t.node p).hi
  | .eq p => do pure (← t.node p).u

def assign (t : Trie) (v : Nat) : Link → Trie
  | .root => { t with rootNode := v }
  | .lo p => { t with nodes := update t.nodes (fun c => { c with lo := v }) p }
  | .hi p => { t with nodes := update t.nodes (fun c => { c with hi := v }) p }
  | .eq p => { t with nodes := update t.nodes (fun c => { c with u := v }) p }

def val (t : Trie) (p : Nat) : Nat := ((deref t.nodes p).map TrieNode.u).getD 0

def setVal (t : Trie) (p v : Nat) : Trie :=
  { t with nodes := update t.nodes (fun c => { c with u := v }) p }

def symbol : Bytes → Outcome UInt8
  | [] => .ok 0
  | ch :: _ => do
      assert (ch ≠ 0)
      pure ch

def lookupFrom (t : Trie) : Nat → Nat → Bytes → Outcome (Option Nat)
  | 0, _, _ => .error .hang
  | fuel + 1, node, key =>
      if node = 0 then .ok none
      else do
        let ch ← symbol key
        let c ← t.node node
        if ch = c.ch then
          if ch = 0 then pure (some node)
          else lookupFrom t fuel c.u key.tail
        else if ch < c.ch then lookupFrom t fuel c.lo key
        else lookupFrom t fuel c.hi key

def lookup (t : Trie) (key : Bytes) : Outcome (Option Nat) :=
  lookupFrom t (t.nodes.length + 1) t.rootNode key

/-- How the first loop of an insertion ends. -/
inductive Descent where
  | dup (node : Nat)
  | hole (ptr : Link) (key : Bytes) (base up : Nat)

def descend (t : Trie) :
    Nat → Link → Bytes → Nat → Nat → TrieStats → Outcome (Descent × TrieStats)
  | 0, _, _, _, _, _ => .error .hang
  | fuel + 1, ptr, key, base, up, stats => do
      let node ← t.load ptr
      if node = 0 then pure (.hole ptr key base up, stats)
      else
        let ch ← symbol key
        let c ← t.node node
        if ch = c.ch then
          let base := if base = 0 then node else base
          let stats := { stats with insertEq := stats.insertEq + 1 }
          if ch = 0 then pure (.dup node, { stats with dupsNode := stats.dupsNode + 1 })
          else descend t fuel (.eq node) key.tail base node stats
        else if ch < c.ch then
          descend t fuel (.lo node) key base node { stats with insertLt := stats.insertLt + 1 }
        else
          descend t fuel (.hi node) key base node { stats with insertGt := stats.insertGt + 1 }

def newNode (printOne : Bool) (t : Trie) (ptr : Link) (ch : UInt8) (up : Nat) : Trie × Nat :=
  let p := t.nodes.length + 1
  let t := t.assign p ptr
  ({ t with
      nodes := t.nodes ++ [⟨ch, if printOne then up else 0, 0, 0, 0⟩]
      nodeStruct := t.nodeStruct + 1 }, p)

/-- The second loop of an insertion: a node for each symbol left. -/
def build (printOne : Bool) (t : Trie) (ptr : Link) (base up : Nat) :
    Bytes → Outcome (Trie × Nat)
  | [] =>
      let (t, node) := newNode printOne t ptr 0 up
      let base := if base = 0 then node else base
      .ok (if printOne then t.setVal node base else t, node)
  | ch :: key => do
      assert (ch ≠ 0)
      let (t, node) := newNode printOne t ptr ch up
      let base := if base = 0 then node else base
      build printOne t (.eq node) base node key

def insert (printOne : Bool) (t : Trie) (key : Bytes) : Outcome (Trie × Bool × Nat) := do
  let (d, stats) ← t.descend (t.nodes.length + 1) .root key 0 0 t.stats
  match d with
  | .dup node => pure ({ t with stats := stats }, false, node)
  | .hole ptr key base up => do
      let (t, node) ← build printOne { t with stats := stats } ptr base up key
      pure ({ t with stats := { t.stats with uniqNode := t.stats.uniqNode + 1 } }, true, node)

end Trie

end PathSet
