import PathSet.Options
import PathSet.Library.Pointer
import PathSet.Library.ProbeTable
import PathSet.Library.FirstSeen

/-!
The linear hash table. Slots are probed downward from `hash % size`, slot zero is
followed by the last one. Nodes are named by their allocation number counted from
one. The variant of plain sets ends its keys by NUL, the one of path elements
stores the length of short keys in a byte.

An insertion may grow the table. `Growth` stands for the expressions with the load
and size factors, so that a run may choose them anew for every insertion.
-/

namespace PathSet
open Fallible Pointer ProbeTable

structure LHashNode where
  val : Nat
  len : Nat
  str : Bytes
  deriving DecidableEq, Repr

structure LHashStats where
  rehashOp : Nat
  rehashHit : Nat
  insertHit : Nat
  insertNe : Nat
  insertEq : Nat
  uniqNode : Nat
  dupsNode : Nat
  deriving DecidableEq, Repr

structure LHash where
  nodes : List LHashNode
  table : List (Option Nat)
  size : Nat
  used : Nat
  rehashSize : ℚ
  rehashLoad : ℚ
  stats : LHashStats
  /-- The counters of the set's `SET_ALLOCATE_VAR_STRUCT`. -/
  nodeStruct : Nat
  nodeMem : Nat
  deriving DecidableEq

structure LHashKind where
  nullTermKey : Bool
  nodeSize : Nat

structure Growth where
  threshold : Nat → Outcome Nat
  grown : Nat → Outcome Nat

namespace LHash

def strlen (str : Bytes) : Nat := (str.takeWhile (· ≠ 0)).length

def node (h : LHash) (p : Nat) : Outcome LHashNode :=
  match deref h.nodes p with
  | none => .error .stray
  | some c => .ok c

/-- One byte of `LHASH_HASH`. A `char` is signed. -/
def hashStep (r : BitVec 64) (ch : UInt8) : BitVec 64 :=
  ch.toBitVec.signExtend 64 + ((r <<< 9) ||| (r >>> 55))

def hash (key : Bytes) : BitVec 64 := key.foldl hashStep (BitVec.ofNat 64 key.length)

def slot (size : Nat) (key : Bytes) : Nat := (hash key).toNat % size

/-- `LHASH_KEY_LENGTH` -/
def keyLength (kind : LHashKind) (c : LHashNode) : Nat :=
  if kind.nullTermKey then strlen c.str
  else if c.len = 0 then strlen c.str else c.len

/-- `LHASH_EQ` -/
def eq (kind : LHashKind) (h : LHash) (p : Nat) (key : Bytes) : Outcome Bool := do
  let c ← h.node p
  if kind.nullTermKey then
    pure (c.str.takeWhile (· ≠ 0) = key.takeWhile (· ≠ 0))
  else
    let n := if c.len = 0 then strlen c.str else c.len
    pure (n = key.length ∧ c.str.take key.length = key)

def assertInvariants (h : LHash) : Outcome Unit := do
  assert (0 < h.size)
  assert (h.used < h.size)

def lookup (kind : LHashKind) (h : LHash) (key : Bytes) : Outcome (Option Nat) := do
  h.assertInvariants
  let (_, r, _) ← probe .hang (h.eq kind · key) h.table h.table.length (slot h.size key) 0
  pure r

def refill (kind : LHashKind) (h : LHash) :
    List (Option Nat) → List (Option Nat) → Nat → Outcome (List (Option Nat) × Nat)
  | t, [], hit => .ok (t, hit)
  | t, none :: slots, hit => refill kind h t slots hit
  | t, some p :: slots, hit => do
      let c ← h.node p
      let key := c.str.take (keyLength kind c)
      let (q, _, hit) ← probe .hang (fun _ => .ok false) t t.length (slot t.length key) hit
      refill kind h (t.set q (some p)) slots hit

def rehash (kind : LHashKind) (growth : Growth) (h : LHash) : Outcome LHash := do
  h.assertInvariants
  let s ← growth.grown h.size
  verify (h.size < s)
  let t ← calloc s 8 none
  let (t, hit) ← refill kind h t h.table h.stats.rehashHit
  pure { h with
    table := t
    size := s
    stats := { h.stats with rehashHit := hit, rehashOp := h.stats.rehashOp + 1 } }

/-- `LHASH_NEW_NODE` in the free slot `p`, and the end of the insertion. -/
def newNode (kind : LHashKind) (h : LHash) (p : Nat) (key : Bytes) :
    Outcome (LHash × Bool × Nat) := do
  assert (h.used < h.size - 1)
  poolAllocate (kind.nodeSize + (key.length + 1)) kind.nodeSize
  let len := if kind.nullTermKey then 0 else if key.length ≤ 255 then key.length else 0
  let n := h.nodes.length + 1
  pure ({ h with
    nodes := h.nodes ++ [⟨0, len, key ++ [0]⟩]
    table := h.table.set p (some n)
    used := h.used + 1
    stats := { h.stats with uniqNode := h.stats.uniqNode + 1 }
    nodeStruct := h.nodeStruct + 1
    nodeMem := h.nodeMem + (key.length + 1) }, true, n)

def insertWith (kind : LHashKind) (growth : Growth) (h : LHash) (key : Bytes) :
    Outcome (LHash × Bool × Nat) := do
  h.assertInvariants
  let (p, r, ne) ←
    probe .hang (h.eq kind · key) h.table h.table.length (slot h.size key) h.stats.insertNe
  let h := { h with stats := { h.stats with insertNe := ne } }
  match r with
  | some n =>
      pure ({ h with stats := { h.stats with
        dupsNode := h.stats.dupsNode + 1, insertEq := h.stats.insertEq + 1 } }, false, n)
  | none => do
      let s ← growth.threshold h.size
      verify (0 < s ∧ s < h.size)
      if h.used < s then newNode kind h p key
      else do
        let h ← rehash kind growth h
        let (p, _, hit) ←
          probe .hang (fun _ => .ok false) h.table h.table.length (slot h.size key)
            h.stats.insertHit
        newNode kind { h with stats := { h.stats with insertHit := hit } } p key

def val (h : LHash) (p : Nat) : Nat := ((deref h.nodes p).map LHashNode.val).getD 0

def setVal (h : LHash) (p v : Nat) : LHash :=
  { h with nodes := update h.nodes (fun c => { c with val := v }) p }

/-- The loop of `lhash_is_prime` at a divisor `d` and its square `s`. -/
def isPrimeFrom (n : Nat) : Nat → Nat → Nat → Outcome Bool
  | 0, _, _ => .error .hang
  | fuel + 1, d, s =>
      if s < n ∧ n % d ≠ 0 then do
        verify (d ≤ sizeMax - 2)
        let d := d + 1
        verify (d ≤ sizeMax / 4)
        let i := d * 4
        verify (s ≤ sizeMax - i)
        isPrimeFrom n fuel (d + 1) (s + i)
      else .ok (n ≤ s)

def isPrime (n : Nat) : Outcome Bool := isPrimeFrom n (n + 1) 3 9

def primeLimit : Nat := 4294967291

/-- The loop of `lhash_next_prime`. -/
def nextPrimeFrom : Nat → Nat → Outcome Nat
  | 0, _ => .error .hang
  | fuel + 1, n =>
      if n < primeLimit then do
        if ← isPrime n then pure n else nextPrimeFrom fuel (n + 2)
      else .ok n

def nextPrime (n : Nat) : Outcome Nat := nextPrimeFrom (primeLimit + 1) (n ||| 1)

/-- `LHASH_INIT` with its `FLOAT_EPSILON` of 0.1. -/
def init (opt : Options) : Outcome LHash := do
  let load := opt.rehashLoad.getD (3 / 4)
  let grow := opt.rehashSize.getD 2
  if opt.rehashLoad.isSome ∧ ¬ (1 / 10 < load - 0 ∧ 1 / 10 < 1 - load) then .error .invalidArg
  else if opt.rehashSize.isSome ∧ ¬ (1 / 10 < grow - 0 ∧ grow ≤ 4) then .error .invalidArg
  else do
    let s ← nextPrime
      (if opt.hashSize = 0 then 1024 else if opt.hashSize < 32 then 32 else opt.hashSize)
    let table ← calloc s 8 none
    pure ⟨[], table, s, 0, grow, load, ⟨0, 0, 0, 0, 0, 0, 0⟩, 0, 0⟩

def growth (h : LHash) : Growth where
  threshold size := sizeMulFloat size h.rehashLoad
  grown size := do nextPrime (← sizeMulFloat size h.rehashSize)

def insert (kind : LHashKind) (h : LHash) (key : Bytes) : Outcome (LHash × Bool × Nat) :=
  insertWith kind h.growth h key

/-- `LHASH_PRINT_ONE` -/
def printOne (h : LHash) (p : Nat) : Outcome Bytes := do
  let c ← h.node p
  pure (c.str.takeWhile (· ≠ 0))

def printSlots (h : LHash) : List (Option Nat) → Outcome Bytes
  | [] => .ok []
  | none :: slots => printSlots h slots
  | some p :: slots => do
      let text ← h.printOne p
      let rest ← printSlots h slots
      pure (text ++ [10] ++ rest)

/-- `LHASH_PRINT` -/
def print (h : LHash) : Outcome Bytes := printSlots h h.table

end LHash

end PathSet
