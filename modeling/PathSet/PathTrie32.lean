import PathSet.PathTrie
import PathSet.ObjAlloc
import PathSet.Options

/-!
The path trie of the builds whose nodes are named by 32-bit offsets. The nodes are the
objects of an allocator. A link is denoted by the offset of the node it is in and its
name, and the place it is stored at is computed anew whenever it is read or written.
-/

namespace PathSet
open Fallible TernaryTree

structure PathTrie32 (σ : Type) (w : Nat) where
  elemSet : σ
  nodeAlloc : ObjAlloc (PathTrieNode w)
  rootNode : Nat
  sepSet : Bytes
  stats : PathTrieStats
  nodeStruct : Nat

inductive LinkName where
  | self
  | lo
  | hi
  | eq
  deriving DecidableEq, Repr

/-- The address of a link: that of the root, or of a member of a node. -/
inductive LinkAddr where
  | root
  | member (p : ObjPtr) (name : LinkName)
  deriving DecidableEq, Repr

/-- `ptr2_t` -/
structure Ptr2 where
  link : LinkName
  self : Option LinkAddr
  base : Nat
  deriving DecidableEq, Repr

namespace PathTrie32

variable {σ : Type} {w : Nat}

def init (elemSet : σ) (nodeSize : Nat) (sepSet : Option Bytes) : Outcome (PathTrie32 σ w) := do
  if nodeSize ≥ 2 ^ 32 - 1 then .error .invalidArg
  else
    let alloc ← ObjAlloc.init 0 nodeSize 0
    pure ⟨elemSet, alloc, 0, sepSet.getD PathTrie.defaultSep, ⟨0, 0, 0, 0, 0⟩, 0⟩

/-- `PATH_TRIE_NODE` -/
def node (t : PathTrie32 σ w) (r : Nat) : Outcome (Option ObjPtr) := t.nodeAlloc.deref 0 r

def nodes (t : PathTrie32 σ w) : List (PathTrieNode w) := t.nodeAlloc.nodes.flatMap AllocNode.objs

def load (t : PathTrie32 σ w) : LinkAddr → Outcome Nat
  | .root => .ok t.rootNode
  | .member p .lo => do pure (← t.nodeAlloc.read p).lo
  | .member p .hi => do pure (← t.nodeAlloc.read p).hi
  | .member p .eq => do pure (← t.nodeAlloc.read p).u
  | .member _ .self => .error .stray

def modify (t : PathTrie32 σ w) (p : ObjPtr) (f : PathTrieNode w → PathTrieNode w) :
    Outcome (PathTrie32 σ w) := do
  let alloc ← t.nodeAlloc.modify p f
  pure { t with nodeAlloc := alloc }

def assign (t : PathTrie32 σ w) (v : Nat) : LinkAddr → Outcome (PathTrie32 σ w)
  | .root => .ok { t with rootNode := v }
  | .member p .lo => t.modify p fun c => { c with lo := v }
  | .member p .hi => t.modify p fun c => { c with hi := v }
  | .member p .eq => t.modify p fun c => { c with u := v }
  | .member _ .self => .error .stray

/-- `PATH_TRIE_ROOT_TO_PTR2` -/
def rootToPtr2 : Ptr2 := ⟨.self, some .root, 0⟩

def selfAddr (ptr : Ptr2) : Outcome LinkAddr :=
  match ptr.self with
  | none => .error .stray
  | some a => .ok a

/-- `PATH_TRIE_LINK_TO_PTR2`, a link of the node at `ptr`. -/
def linkToPtr2 (t : PathTrie32 σ w) (name : LinkName) (ptr : Ptr2) : Outcome Ptr2 := do
  let base ← t.load (← selfAddr ptr)
  pure ⟨name, none, base⟩

/-- `PATH_TRIE_PTR2_DEREF` -/
def ptr2Deref (t : PathTrie32 σ w) (ptr : Ptr2) : Outcome Ptr2 := do
  if ptr.link ≠ .self then
    match ← t.node ptr.base with
    | none => .error .stray
    | some p => pure { ptr with self := some (.member p ptr.link) }
  else pure ptr

/-- `PATH_TRIE_PTR2_DEREF_NODE` -/
def ptr2DerefNode (t : PathTrie32 σ w) (ptr : Ptr2) : Outcome (Ptr2 × Option ObjPtr) := do
  let ptr ← t.ptr2Deref ptr
  assert (ptr.self ≠ none)
  let r ← t.load (← selfAddr ptr)
  let node ← t.node r
  pure (ptr, node)

inductive Descent (w : Nat) where
  | dup (node : ObjPtr)
  | hole (ptr : Ptr2) (cur : PathTrie.Cursor w)

section
variable (U : UintHash w) (E : ElemSet σ w)

def descend (t : PathTrie32 σ w) :
    Nat → σ → Ptr2 → PathTrie.Cursor w → PathTrieStats → Outcome (Descent w × σ × PathTrieStats)
  | 0, _, _, _, _ => .error .hang
  | fuel + 1, elemSet, ptr, cur, stats => do
      let (ptr, node) ← t.ptr2DerefNode ptr
      match node with
      | none => pure (.hole ptr cur, elemSet, stats)
      | some node => do
          let c ← t.nodeAlloc.read node
          let (elemSet, cur) ← PathTrie.putNext E t.sepSet elemSet cur
          if cur.elem = c.elem then
            let stats := { stats with insertEq := stats.insertEq + 1 }
            if cur.elem = 0 then
              pure (.dup node, elemSet, { stats with dupsNode := stats.dupsNode + 1 })
            else do
              let ptr ← t.linkToPtr2 .eq ptr
              descend t fuel elemSet ptr { cur with next := true } stats
          else do
            if ← U.ptrLt cur.elem c.elem then do
              let ptr ← t.linkToPtr2 .lo ptr
              descend t fuel elemSet ptr cur { stats with insertLt := stats.insertLt + 1 }
            else do
              let ptr ← t.linkToPtr2 .hi ptr
              descend t fuel elemSet ptr cur { stats with insertGt := stats.insertGt + 1 }

/-- `PATH_TRIE_NEW_NODE`. The link is written after the table has moved. -/
def newNode (objSize : Nat) (t : PathTrie32 σ w) (e : BitVec w) (ptr : Ptr2) :
    Outcome (PathTrie32 σ w × Ptr2 × ObjPtr) := do
  match ← t.nodeAlloc.allocate 0 objSize ⟨0, 0, 0, 0⟩ with
  | none => .error (.ensure "path trie node alloc failed")
  | some (alloc, node, b) => do
      assert (b > 0)
      let t := { t with nodeAlloc := alloc, nodeStruct := t.nodeStruct + 1 }
      let ptr ← t.ptr2Deref ptr
      let t ← t.assign b (← selfAddr ptr)
      let t ← t.modify node fun c => { c with elem := e }
      pure (t, ptr, node)

/-- The primary invariant of the second loop: the link leads to the new node. -/
def primaryInvariant (t : PathTrie32 σ w) (ptr : Ptr2) (node : ObjPtr) : Outcome Unit := do
  let r ← t.load (← selfAddr ptr)
  assert ((← t.node r) = some node)

/-- The second loop of an insertion, with its invariant asserted when `checked`. -/
def build (checked : Bool) (objSize : Nat) :
    Nat → PathTrie32 σ w → Ptr2 → PathTrie.Cursor w → Outcome (PathTrie32 σ w × ObjPtr)
  | 0, _, _, _ => .error .hang
  | fuel + 1, t, ptr, cur => do
      let (elemSet, cur) ← PathTrie.putNext E t.sepSet t.elemSet cur
      let (t, ptr, node) ← newNode objSize { t with elemSet := elemSet } cur.elem ptr
      (if checked then t.primaryInvariant ptr node else pure () : Outcome Unit)
      if cur.elem = 0 then pure (t, node)
      else do
        let ptr ← t.linkToPtr2 .eq ptr
        build checked objSize fuel t ptr { cur with next := true }

def insert (checked : Bool) (objSize : Nat) (t : PathTrie32 σ w) (key : Bytes) :
    Outcome (PathTrie32 σ w × Bool × ObjPtr) := do
  let (d, elemSet, stats) ←
    descend U E t (t.nodes.length + 1) t.elemSet rootToPtr2 ⟨key, true, 0⟩ t.stats
  let t := { t with elemSet := elemSet, stats := stats }
  match d with
  | .dup node => pure (t, false, node)
  | .hole ptr cur => do
      let (t, node) ← build E checked objSize (cur.key.length + 2) t ptr cur
      pure ({ t with stats := { t.stats with uniqNode := t.stats.uniqNode + 1 } }, true, node)

def nodeBytes (w size : Nat) : Nat := w / 8 + 4 + 4 + max 4 (size / 8)

/-- `SET_PUT` of a path set over offsets. -/
def put (checked : Bool) (size : Nat) (t : PathTrie32 σ w) (p : Bytes × Nat) :
    Outcome (PathTrie32 σ w × Nat) := do
  assert (0 < p.2)
  let (t, b, node) ← insert U E checked (nodeBytes w size) t p.1
  if b then do
    let t ← t.modify node fun c => { c with u := p.2 % 2 ^ size }
    pure (t, 0)
  else do
    let c ← t.nodeAlloc.read node
    pure (t, c.u)

end

/-- The tree below a reference, read through `OBJ_ALLOC_DEREF`. -/
def treeAt (t : PathTrie32 σ w) : Nat → Nat → Outcome (SearchTree (BitVec w))
  | 0, _ => .error .hang
  | fuel + 1, r => do
      match ← t.node r with
      | none => pure .nil
      | some p => do
          let c ← t.nodeAlloc.read p
          let lo ← treeAt t fuel c.lo
          let eq ← (if c.elem = 0 then pure .nil else treeAt t fuel c.u :
            Outcome (SearchTree (BitVec w)))
          let hi ← treeAt t fuel c.hi
          pure (.node r c.elem lo eq hi)

def tree (t : PathTrie32 σ w) : Outcome (SearchTree (BitVec w)) :=
  t.treeAt (t.nodes.length + 1) t.rootNode

end PathTrie32

end PathSet
