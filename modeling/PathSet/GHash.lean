import PathSet.LHash
import PathSet.Library.Buckets
import PathSet.Library.Rounding

/-!
The chained hash table of gnulib, and the tables of strings made from it. A bucket
is the list of the nodes in its head and its overflow entries. Overflow entries are
allocated one by one, the free ones are counted.

The insertion of this gnulib leaves the slot of a new entry to its caller, and it
aborts when memory for a larger table cannot be had. Every operation on floats is
rounded to `float`, none is kept in more digits.
-/

namespace PathSet
open Fallible Pointer Buckets

/-- A conversion to `float`, or the result of an operation on floats. -/
def toFloat (q : ℚ) : ℚ := Rounding.roundTo 24 q

structure GHashNode where
  val : Nat
  len : Nat
  str : Bytes
  deriving DecidableEq, Repr

/-- `Hash_tuning` -/
structure HashTuning where
  shrinkThreshold : ℚ
  shrinkFactor : ℚ
  growthThreshold : ℚ
  growthFactor : ℚ
  isNBuckets : Bool
  deriving DecidableEq

structure GHashStats where
  nAllocEntries : Nat
  nDuplicateEntries : Nat
  nInsertNotEqualHits : Nat
  nInsertEqualHits : Nat
  nRehashNotEqualHits : Nat
  nRehashEqualHits : Nat
  nRehashOps : Nat
  deriving DecidableEq, Repr

structure GHash where
  nodes : List GHashNode
  bucket : List (List Nat)
  nBuckets : Nat
  nBucketsUsed : Nat
  nEntries : Nat
  /-- The length of `free_entry_list`. -/
  freeEntries : Nat
  tuning : HashTuning
  stats : GHashStats
  /-- The counters of the set's `SET_ALLOCATE_STRUCT` and `SET_ALLOCATE_ARRAY`. -/
  nodeStruct : Nat
  nodeMem : Nat
  deriving DecidableEq

structure GHashKind where
  nullTermKey : Bool
  nodeSize : Nat

namespace GHash

def node (h : GHash) (p : Nat) : Outcome GHashNode :=
  match deref h.nodes p with
  | none => .error .stray
  | some c => .ok c

/-- The loop of `is_prime` at a divisor and its square, which may wrap. -/
def isPrimeFrom (candidate : Nat) : Nat → Nat → Nat → Outcome Bool
  | 0, _, _ => .error .hang
  | fuel + 1, divisor, square =>
      if square < candidate ∧ candidate % divisor ≠ 0 then
        let divisor := divisor + 1
        let square := (square + 4 * divisor) % 2 ^ 64
        isPrimeFrom candidate fuel (divisor + 1) square
      else .ok (candidate % divisor ≠ 0)

def isPrime (candidate : Nat) : Outcome Bool := isPrimeFrom candidate (candidate + 1) 3 9

/-- The loop of `next_prime`. -/
def nextPrimeFrom : Nat → Nat → Outcome Nat
  | 0, _ => .error .hang
  | fuel + 1, candidate =>
      if sizeMax ≠ candidate then do
        if ← isPrime candidate then pure candidate else nextPrimeFrom fuel (candidate + 2)
      else .ok candidate

def nextPrime (candidate : Nat) : Outcome Nat :=
  nextPrimeFrom (sizeMax + 1) ((if candidate < 10 then 10 else candidate) ||| 1)

/-- `check_tuning` for a tuning of the user. -/
def checkTuning (tuning : HashTuning) : Bool :=
  let epsilon := toFloat (1 / 10)
  epsilon < tuning.growthThreshold
    ∧ tuning.growthThreshold < toFloat (1 - epsilon)
    ∧ toFloat (1 + epsilon) < tuning.growthFactor
    ∧ 0 ≤ tuning.shrinkThreshold
    ∧ toFloat (tuning.shrinkThreshold + epsilon) < tuning.shrinkFactor
    ∧ tuning.shrinkFactor ≤ 1
    ∧ toFloat (tuning.shrinkThreshold + epsilon) < tuning.growthThreshold

def defaultTuning : HashTuning := ⟨0, 1, toFloat (4 / 5), toFloat (1414 / 1000), false⟩

def computeBucketSize (candidate : Nat) (tuning : HashTuning) : Outcome Nat := do
  let newCandidate := toFloat (toFloat candidate / tuning.growthThreshold)
  if ¬tuning.isNBuckets ∧ toFloat sizeMax ≤ newCandidate then pure 0
  else do
    let candidate ←
      nextPrime (if tuning.isNBuckets then candidate else newCandidate.floor.toNat)
    if sizeMax / 8 < candidate then pure 0 else pure candidate

def keyLength (kind : GHashKind) (c : GHashNode) : Nat :=
  if kind.nullTermKey then LHash.strlen c.str else c.len

/-- `GHASH_HASH` is the hash function of the linear table. -/
def hash (kind : GHashKind) (c : GHashNode) (tableSize : Nat) : Nat :=
  (LHash.hash (c.str.take (keyLength kind c))).toNat % tableSize

/-- `GHASH_EQ` -/
def eq (kind : GHashKind) (src dest : GHashNode) : Bool :=
  if kind.nullTermKey then src.str.takeWhile (· ≠ 0) = dest.str.takeWhile (· ≠ 0)
  else src.len = dest.len ∧ src.str.take src.len = dest.str.take src.len

def keyNode (kind : GHashKind) (key : Bytes) : GHashNode :=
  ⟨0, if kind.nullTermKey then 0 else key.length, key⟩

/-- `safe_hasher`, with the bucket it selects. -/
def safeHasher (kind : GHashKind) (bucket : List (List Nat)) (c : GHashNode) :
    Outcome (Nat × List Nat) :=
  let n := hash kind c bucket.length
  match bucket[n]? with
  | none => .error .abort
  | some b => .ok (n, b)

def lookup (kind : GHashKind) (h : GHash) (key : Bytes) : Outcome (Option Nat) := do
  let entry := keyNode kind key
  let (_, b) ← safeHasher kind h.bucket entry
  let (r, _) ← scan (fun p => do pure (eq kind entry (← h.node p))) b 0
  pure r

/-- `hash_find_entry`, without deletion: the bucket, the match and how many entries
were not equal. -/
def hashFindEntry (kind : GHashKind) (h : GHash) (entry : GHashNode) (ne : Nat) :
    Outcome (Nat × Option Nat × Nat) := do
  let (j, b) ← safeHasher kind h.bucket entry
  let (r, ne) ← scan (fun p => do pure (eq kind entry (← h.node p))) b ne
  pure (j, r, ne)

/-- The new table while entries are moved into it. -/
structure Dest where
  bucket : List (List Nat)
  nBucketsUsed : Nat
  freeEntries : Nat

/-- Move an overflow entry. One that becomes a head is freed. -/
def moveOverflow (kind : GHashKind) (h : GHash) (dst : Dest) (p : Nat) : Outcome Dest := do
  let c ← h.node p
  let (j, b) ← safeHasher kind dst.bucket c
  if b ≠ [] then pure { dst with bucket := dst.bucket.set j (chain p b) }
  else pure { dst with
    bucket := dst.bucket.set j (chain p b)
    nBucketsUsed := dst.nBucketsUsed + 1
    freeEntries := dst.freeEntries + 1 }

/-- Move a bucket head. One that becomes an overflow entry takes a free entry, or a
new one, which only the new table counts. -/
def moveHead (kind : GHashKind) (h : GHash) (dst : Dest) (p : Nat) : Outcome Dest := do
  let c ← h.node p
  let (j, b) ← safeHasher kind dst.bucket c
  if b ≠ [] then pure { dst with
    bucket := dst.bucket.set j (chain p b)
    freeEntries := dst.freeEntries - 1 }
  else pure { dst with
    bucket := dst.bucket.set j (chain p b)
    nBucketsUsed := dst.nBucketsUsed + 1 }

def transferOverflow (kind : GHashKind) (h : GHash) : Dest → List Nat → Outcome Dest
  | dst, [] => .ok dst
  | dst, p :: ps => do transferOverflow kind h (← moveOverflow kind h dst p) ps

def transferEntries (kind : GHashKind) (h : GHash) : Dest → List (List Nat) → Outcome Dest
  | dst, [] => .ok dst
  | dst, [] :: bs => transferEntries kind h dst bs
  | dst, (p :: ps) :: bs => do
      let dst ← transferOverflow kind h dst ps
      let dst ← moveHead kind h dst p
      transferEntries kind h dst bs

/-- `hash_rehash`. The table it fails on is never used again. -/
def hashRehash (kind : GHashKind) (h : GHash) (candidate : Nat) : Outcome GHash := do
  let newSize ← computeBucketSize candidate h.tuning
  if newSize = 0 then .error .alloc
  else if newSize = h.nBuckets then pure h
  else do
    let bucket ← calloc newSize 16 []
    let dst ← transferEntries kind h ⟨bucket, 0, h.freeEntries⟩ h.bucket
    pure { h with
      bucket := dst.bucket
      nBuckets := newSize
      nBucketsUsed := dst.nBucketsUsed
      freeEntries := dst.freeEntries
      stats := { h.stats with nRehashOps := h.stats.nRehashOps + 1 } }

def loaded (h : GHash) : Bool :=
  toFloat (h.tuning.growthThreshold * toFloat h.nBuckets) < toFloat h.nBucketsUsed

def growthCandidate (h : GHash) : ℚ :=
  let grown := toFloat (toFloat h.nBuckets * h.tuning.growthFactor)
  if h.tuning.isNBuckets then grown else toFloat (grown * h.tuning.growthThreshold)

def grow (kind : GHashKind) (h : GHash) (entry : GHashNode) (j : Nat) : Outcome (GHash × Nat) := do
  let h := if checkTuning h.tuning then h else { h with tuning := defaultTuning }
  if h.loaded then do
    let candidate := growthCandidate h
    if toFloat sizeMax ≤ candidate then .error .alloc
    else do
      let h ← hashRehash kind h candidate.floor.toNat
      let (j, r, ne) ← hashFindEntry kind h entry h.stats.nRehashNotEqualHits
      match r with
      | some _ => .error .abort
      | none => pure ({ h with stats := { h.stats with nRehashNotEqualHits := ne } }, j)
  else pure (h, j)

/-- The node of a new key, in the slot `hash_insert` made for it. -/
def newNode (kind : GHashKind) (h : GHash) (j : Nat) (key : Bytes) :
    Outcome (GHash × Bool × Nat) := do
  let b ← (match h.bucket[j]? with
    | none => .error .stray
    | some b => .ok b : Outcome (List Nat))
  poolAllocate kind.nodeSize 8
  poolAllocate (key.length + 1) 1
  let n := h.nodes.length + 1
  let overflow := b ≠ []
  pure ({ h with
    nodes := h.nodes ++ [⟨0, if kind.nullTermKey then 0 else key.length, key ++ [0]⟩]
    bucket := h.bucket.set j (chain n b)
    nEntries := h.nEntries + 1
    nBucketsUsed := if overflow then h.nBucketsUsed else h.nBucketsUsed + 1
    freeEntries := if overflow then h.freeEntries - 1 else h.freeEntries
    stats := { h.stats with
      nAllocEntries :=
        if overflow ∧ h.freeEntries = 0 then h.stats.nAllocEntries + 1
        else h.stats.nAllocEntries }
    nodeStruct := h.nodeStruct + 1
    nodeMem := h.nodeMem + (key.length + 1) }, true, n)

/-- `GHASH_INSERT` over `hash_insert`. -/
def insert (kind : GHashKind) (h : GHash) (key : Bytes) : Outcome (GHash × Bool × Nat) := do
  let entry := keyNode kind key
  let (j, r, ne) ← hashFindEntry kind h entry h.stats.nInsertNotEqualHits
  let h := { h with stats := { h.stats with nInsertNotEqualHits := ne } }
  match r with
  | some n =>
      pure ({ h with stats := { h.stats with
        nDuplicateEntries := h.stats.nDuplicateEntries + 1
        nInsertEqualHits := h.stats.nInsertEqualHits + 1 } }, false, n)
  | none => do
      let (h, j) ← (if h.loaded then grow kind h entry j else pure (h, j) : Outcome (GHash × Nat))
      newNode kind h j key

/-- `GHASH_INIT` -/
def init (opt : Options) : Outcome GHash := do
  let tuning : HashTuning :=
    ⟨0, 1, opt.rehashLoad.getD (toFloat (4 / 5)), opt.rehashSize.getD (toFloat (1414 / 1000)),
      false⟩
  ensure "table initialization failed" (checkTuning tuning)
  let n ← computeBucketSize opt.hashSize tuning
  ensure "table initialization failed" (n ≠ 0)
  let bucket ← calloc n 16 []
  pure ⟨[], bucket, n, 0, 0, 0, tuning, ⟨0, 0, 0, 0, 0, 0, 0⟩, 0, 0⟩

def val (h : GHash) (p : Nat) : Nat := ((deref h.nodes p).map GHashNode.val).getD 0

def setVal (h : GHash) (p v : Nat) : GHash :=
  { h with nodes := update h.nodes (fun c => { c with val := v }) p }

/-- `GHASH_PRINT_ONE` -/
def printOne (h : GHash) (p : Nat) : Outcome Bytes := do
  let c ← h.node p
  pure (c.str.takeWhile (· ≠ 0))

/-- `GHASH_PRINT_NODE` for every entry in the order of `hash_do_for_each`. -/
def printNodes (h : GHash) : List Nat → Outcome Bytes
  | [] => .ok []
  | p :: ps => do
      let text ← h.printOne p
      let rest ← printNodes h ps
      pure (text ++ [10] ++ rest)

/-- `GHASH_PRINT` -/
def print (h : GHash) : Outcome Bytes := printNodes h (items h.bucket)

end GHash

end PathSet
