import PathSet.GHashTable
import PathSet.Library.Recycled

/-!
The chained table with its overflow entries as cells of their own, and its deletion.
`allocate_entry` counts what it takes from the store, `free_entry` clears an entry and
keeps it for later. The altered `hash_find_entry` answers an entry, not its data, also
when it has just unlinked and freed that entry.

The program sets the threshold of shrinking to zero, so no deletion rehashes. Entries
are small, and there is always memory for one.
-/

namespace PathSet
open Fallible Pointer Recycled

structure EntryBucket where
  data : Option Nat
  next : List Nat
  deriving DecidableEq, Repr

/-- What `hash_find_entry` answers: the static copy, a bucket head or an overflow entry. -/
inductive HashEntry where
  | copy (data : Option Nat)
  | head (j : Nat)
  | overflow (e : Nat)
  deriving DecidableEq, Repr

structure GHashEntries where
  nodes : List GHashNode
  /-- The `data` of the overflow entries, with `free_entry_list`. -/
  entry : Heap (Option Nat)
  bucket : List EntryBucket
  nBuckets : Nat
  nBucketsUsed : Nat
  nEntries : Nat
  nAllocEntries : Nat
  deriving DecidableEq

namespace GHashEntries

def fresh (n : Nat) : GHashEntries := ⟨[], ⟨[], []⟩, List.replicate n ⟨none, []⟩, n, 0, 0, 0⟩

def node (t : GHashEntries) (d : Option Nat) : Outcome GHashNode :=
  match d.bind (deref t.nodes) with
  | none => .error .stray
  | some c => .ok c

def readEntry (entry : Heap (Option Nat)) (e : Nat) : Outcome (Option Nat) :=
  match entry.read e with
  | none => .error .stray
  | some d => .ok d

def readData (t : GHashEntries) : HashEntry → Outcome (Option Nat)
  | .copy d => .ok d
  | .head j =>
      match t.bucket[j]? with
      | none => .error .stray
      | some b => .ok b.data
  | .overflow e => readEntry t.entry e

def writeData (t : GHashEntries) (p : Nat) : HashEntry → GHashEntries
  | .copy _ => t
  | .head j => { t with bucket := t.bucket.modify j fun b => { b with data := some p } }
  | .overflow e => { t with entry := t.entry.write (some p) e }

/-- `allocate_entry`, with the counter of the table it is for. -/
def allocateEntry (entry : Heap (Option Nat)) (nAlloc : Nat) : Heap (Option Nat) × Nat × Nat :=
  let (entry', e) := entry.allocate none
  (entry', if entry.free = [] then nAlloc + 1 else nAlloc, e)

def freeEntry (entry : Heap (Option Nat)) (e : Nat) : Heap (Option Nat) := entry.release none e

variable (mix : Bytes → Nat) (kind : GHashKind)

def safeHasher (bucket : List EntryBucket) (c : GHashNode) : Outcome (Nat × EntryBucket) :=
  let n := GHashTable.hash mix kind c bucket.length
  match bucket[n]? with
  | none => .error .abort
  | some b => .ok (n, b)

def scanNext (t : GHashEntries) (c : GHashNode) : List Nat → Outcome (Option Nat)
  | [] => .ok none
  | e :: es => do
      let d ← readEntry t.entry e
      if GHash.eq kind c (← t.node d) then pure (some e) else scanNext t c es

def deleteHead (t : GHashEntries) (j : Nat) (b : EntryBucket) : Outcome GHashEntries :=
  match b.next with
  | [] => .ok { t with bucket := t.bucket.set j { b with data := none } }
  | e :: es => do
      let d ← readEntry t.entry e
      pure { t with
        bucket := t.bucket.set j ⟨d, es⟩
        entry := freeEntry t.entry e }

/-- `hash_find_entry`: the bucket of an entry, and one that is equal. With `delete` set
the equal one is unlinked and freed. -/
def hashFindEntry (delete : Bool) (t : GHashEntries) (c : GHashNode) :
    Outcome (GHashEntries × Nat × Option HashEntry) := do
  let (j, b) ← safeHasher mix kind t.bucket c
  if b.data = none then pure (t, j, none)
  else if GHash.eq kind c (← t.node b.data) then
    if delete then do
      let t ← deleteHead t j b
      pure (t, j, some (.copy b.data))
    else pure (t, j, some (.head j))
  else do
    match ← scanNext kind t c b.next with
    | none => pure (t, j, none)
    | some e =>
        if delete then
          pure ({ t with
            bucket := t.bucket.set j { b with next := b.next.erase e }
            entry := freeEntry t.entry e }, j, some (.overflow e))
        else pure (t, j, some (.overflow e))

/-- The new table. It shares the entries of the old one, and has a counter of its own. -/
structure Dest where
  entry : Heap (Option Nat)
  bucket : List EntryBucket
  nBucketsUsed : Nat
  nAllocEntries : Nat

def moveOverflow (t : GHashEntries) (dst : Dest) (e : Nat) : Outcome Dest := do
  let d ← readEntry dst.entry e
  let c ← t.node d
  let (j, b) ← safeHasher mix kind dst.bucket c
  if b.data = none then
    pure { dst with
      entry := freeEntry dst.entry e
      bucket := dst.bucket.set j { b with data := d }
      nBucketsUsed := dst.nBucketsUsed + 1 }
  else pure { dst with bucket := dst.bucket.set j { b with next := e :: b.next } }

def moveHead (t : GHashEntries) (dst : Dest) (d : Option Nat) : Outcome Dest := do
  let c ← t.node d
  let (j, b) ← safeHasher mix kind dst.bucket c
  if b.data = none then
    pure { dst with
      bucket := dst.bucket.set j { b with data := d }
      nBucketsUsed := dst.nBucketsUsed + 1 }
  else
    let (entry, n, e) := allocateEntry dst.entry dst.nAllocEntries
    pure { dst with
      entry := entry.write d e
      bucket := dst.bucket.set j { b with next := e :: b.next }
      nAllocEntries := n }

def transferOverflow (t : GHashEntries) : Dest → List Nat → Outcome Dest
  | dst, [] => .ok dst
  | dst, e :: es => do transferOverflow t (← moveOverflow mix kind t dst e) es

def transferEntries (t : GHashEntries) : Dest → List EntryBucket → Outcome Dest
  | dst, [] => .ok dst
  | dst, b :: bs =>
      if b.data = none then transferEntries t dst bs
      else do
        let dst ← transferOverflow mix kind t dst b.next
        let dst ← moveHead mix kind t dst b.data
        transferEntries t dst bs

/-- `hash_rehash` to the size it has computed. A failure is fatal to its caller. The
counter of the new table is not set, and is not copied back. -/
def hashRehash (t : GHashEntries) (newSize : Nat) : Outcome GHashEntries := do
  if newSize = 0 then .error .abort
  else if newSize = t.nBuckets then pure t
  else do
    let bucket ← calloc newSize 16 ⟨none, []⟩
    let dst ← transferEntries mix kind t ⟨t.entry, bucket, 0, 0⟩ t.bucket
    pure { t with
      entry := dst.entry
      bucket := dst.bucket
      nBuckets := newSize
      nBucketsUsed := dst.nBucketsUsed }

def grow (newSize : Option Nat) (t : GHashEntries) (c : GHashNode) (j : Nat) :
    Outcome (GHashEntries × Nat) :=
  match newSize with
  | none => .ok (t, j)
  | some n => do
      let t ← hashRehash mix kind t n
      let (t, j, r) ← hashFindEntry mix kind false t c
      if r ≠ none then .error .abort else pure (t, j)

/-- `hash_insert`. The new entry is still without data. -/
def hashInsert (newSize : Option Nat) (t : GHashEntries) (c : GHashNode) :
    Outcome (GHashEntries × Bool × HashEntry) := do
  let (t, j, r) ← hashFindEntry mix kind false t c
  match r with
  | some previous => pure (t, false, previous)
  | none => do
      let (t, j) ← grow mix kind newSize t c j
      match t.bucket[j]? with
      | none => .error .stray
      | some b =>
          if b.data = none then
            pure ({ t with
              nEntries := t.nEntries + 1
              nBucketsUsed := t.nBucketsUsed + 1 }, true, .head j)
          else
            let (entry, n, e) := allocateEntry t.entry t.nAllocEntries
            pure ({ t with
              entry := entry
              bucket := t.bucket.set j { b with next := e :: b.next }
              nEntries := t.nEntries + 1
              nAllocEntries := n }, true, .overflow e)

/-- `GHASH_NEW_NODE` -/
def newNode (t : GHashEntries) (key : Bytes) : Outcome (GHashEntries × Nat) := do
  poolAllocate kind.nodeSize 8
  poolAllocate (key.length + 1) 1
  pure ({ t with
    nodes := t.nodes ++ [⟨0, if kind.nullTermKey then 0 else key.length, key ++ [0]⟩] },
    t.nodes.length + 1)

/-- `GHASH_INSERT` of a key, with the size the table grows to if it does. -/
def insert (t : GHashEntries) (input : Bytes × Option Nat) : Outcome (GHashEntries × Bool × Nat) := do
  let (t, new, previous) ← hashInsert mix kind input.2 t (GHash.keyNode kind input.1)
  if new then do
    let (t, n) ← newNode kind t input.1
    pure (t.writeData n previous, true, n)
  else do
    let d ← t.readData previous
    pure (t, false, d.getD 0)

/-- `hash_delete` of the node on the stack of a caller. -/
def hashDelete (t : GHashEntries) (key : Bytes) : Outcome (GHashEntries × Option Nat) := do
  let (t, j, r) ← hashFindEntry mix kind true t (GHash.keyNode kind key)
  match r with
  | none => pure (t, none)
  | some previous => do
      let t := { t with nEntries := t.nEntries - 1 }
      match t.bucket[j]? with
      | none => .error .stray
      | some b => do
          let t := if b.data = none then { t with nBucketsUsed := t.nBucketsUsed - 1 } else t
          let d ← t.readData previous
          pure (t, d)

def nodesOf (entry : Heap (Option Nat)) (b : EntryBucket) : List Nat :=
  (b.data :: b.next.map fun e => (entry.read e).join).reduceOption

def stored (t : GHashEntries) : List Nat := t.bucket.flatMap (nodesOf t.entry)

def overflow (bucket : List EntryBucket) : List Nat := bucket.flatMap (·.next)

/-- `hash_get_struct_mem` -/
def hashGetStructMem (tableSize : Nat) (t : GHashEntries) : Nat :=
  ((t.nBuckets + t.nAllocEntries) * 16 + tableSize) % 2 ^ 64

end GHashEntries

end PathSet
