import PathSet.GHashHolds

/-!
The altered insertion of the chained table, slot by slot. `hash_insert` hands out the
slot of a new entry before there is anything in it, and `GHASH_INSERT` puts the new node
there. The function that mixes the bytes of a key and the sizes the table grows to are
arbitrary.
-/

namespace PathSet
open Fallible Pointer Buckets

/-- A bucket head, and its overflow entries by their data. `none` is `NULL`. -/
structure HashBucket where
  data : Option Nat
  next : List (Option Nat)
  deriving DecidableEq, Repr

inductive Slot where
  | head (j : Nat)
  | overflow (j i : Nat)
  deriving DecidableEq, Repr

structure GHashTable where
  nodes : List GHashNode
  bucket : List HashBucket
  nBuckets : Nat
  nBucketsUsed : Nat
  nEntries : Nat
  freeEntries : Nat

namespace GHashTable

def fresh (n : Nat) : GHashTable := ⟨[], List.replicate n ⟨none, []⟩, n, 0, 0, 0⟩

def node (t : GHashTable) (d : Option Nat) : Outcome GHashNode :=
  match d.bind (deref t.nodes) with
  | none => .error .stray
  | some c => .ok c

def readSlot (t : GHashTable) : Slot → Outcome (Option Nat)
  | .head j =>
      match t.bucket[j]? with
      | none => .error .stray
      | some b => .ok b.data
  | .overflow j i =>
      match t.bucket[j]?.bind fun b => b.next[i]? with
      | none => .error .stray
      | some d => .ok d

def writeSlot (t : GHashTable) (p : Nat) : Slot → GHashTable
  | .head j => { t with bucket := t.bucket.modify j fun b => { b with data := some p } }
  | .overflow j i =>
      { t with bucket := t.bucket.modify j fun b => { b with next := b.next.set i (some p) } }

variable (mix : Bytes → Nat) (kind : GHashKind)

/-- `GHASH_HASH` -/
def hash (c : GHashNode) (tableSize : Nat) : Nat :=
  mix (c.str.take (GHash.keyLength kind c)) % tableSize

def safeHasher (bucket : List HashBucket) (c : GHashNode) : Outcome (Nat × HashBucket) :=
  let n := hash mix kind c bucket.length
  match bucket[n]? with
  | none => .error .abort
  | some b => .ok (n, b)

def scanNext (t : GHashTable) (c : GHashNode) (j : Nat) :
    Nat → List (Option Nat) → Outcome (Option Slot)
  | _, [] => .ok none
  | i, d :: ds => do
      if GHash.eq kind c (← t.node d) then pure (some (.overflow j i))
      else scanNext t c j (i + 1) ds

/-- `hash_find_entry`: the bucket of an entry, and the slot of one that is equal. -/
def hashFindEntry (t : GHashTable) (c : GHashNode) : Outcome (Nat × Option Slot) := do
  let (j, b) ← safeHasher mix kind t.bucket c
  if b.data = none then pure (j, none)
  else if GHash.eq kind c (← t.node b.data) then pure (j, some (.head j))
  else do
    let r ← scanNext kind t c j 0 b.next
    pure (j, r)

structure Dest where
  bucket : List HashBucket
  nBucketsUsed : Nat
  freeEntries : Nat

def moveOverflow (t : GHashTable) (dst : Dest) (d : Option Nat) : Outcome Dest := do
  let c ← t.node d
  let (j, b) ← safeHasher mix kind dst.bucket c
  if b.data = none then
    pure ⟨dst.bucket.set j { b with data := d }, dst.nBucketsUsed + 1, dst.freeEntries + 1⟩
  else pure { dst with bucket := dst.bucket.set j { b with next := d :: b.next } }

def moveHead (t : GHashTable) (dst : Dest) (d : Option Nat) : Outcome Dest := do
  let c ← t.node d
  let (j, b) ← safeHasher mix kind dst.bucket c
  if b.data = none then
    pure { dst with
      bucket := dst.bucket.set j { b with data := d }
      nBucketsUsed := dst.nBucketsUsed + 1 }
  else pure { dst with
    bucket := dst.bucket.set j { b with next := d :: b.next }
    freeEntries := dst.freeEntries - 1 }

def transferOverflow (t : GHashTable) : Dest → List (Option Nat) → Outcome Dest
  | dst, [] => .ok dst
  | dst, d :: ds => do transferOverflow t (← moveOverflow mix kind t dst d) ds

def transferEntries (t : GHashTable) : Dest → List HashBucket → Outcome Dest
  | dst, [] => .ok dst
  | dst, b :: bs =>
      if b.data = none then transferEntries t dst bs
      else do
        let dst ← transferOverflow mix kind t dst b.next
        let dst ← moveHead mix kind t dst b.data
        transferEntries t dst bs

/-- `hash_rehash` to the size it has computed. A failure is fatal to its caller. -/
def hashRehash (t : GHashTable) (newSize : Nat) : Outcome GHashTable := do
  if newSize = 0 then .error .abort
  else if newSize = t.nBuckets then pure t
  else do
    let bucket ← calloc newSize 16 ⟨none, []⟩
    let dst ← transferEntries mix kind t ⟨bucket, 0, t.freeEntries⟩ t.bucket
    pure { t with
      bucket := dst.bucket
      nBuckets := newSize
      nBucketsUsed := dst.nBucketsUsed
      freeEntries := dst.freeEntries }

def grow (newSize : Option Nat) (t : GHashTable) (c : GHashNode) (j : Nat) :
    Outcome (GHashTable × Nat) :=
  match newSize with
  | none => .ok (t, j)
  | some n => do
      let t ← hashRehash mix kind t n
      let (j, r) ← hashFindEntry mix kind t c
      if r ≠ none then .error .abort else pure (t, j)

/-- `hash_insert`. The slot of a new entry is still empty. -/
def hashInsert (newSize : Option Nat) (t : GHashTable) (c : GHashNode) :
    Outcome (GHashTable × Bool × Slot) := do
  let (j, r) ← hashFindEntry mix kind t c
  match r with
  | some slot => pure (t, false, slot)
  | none => do
      let (t, j) ← grow mix kind newSize t c j
      match t.bucket[j]? with
      | none => .error .stray
      | some b =>
          if b.data = none then
            pure ({ t with
              nEntries := t.nEntries + 1
              nBucketsUsed := t.nBucketsUsed + 1 }, true, .head j)
          else
            pure ({ t with
              bucket := t.bucket.set j { b with next := none :: b.next }
              nEntries := t.nEntries + 1
              freeEntries := t.freeEntries - 1 }, true, .overflow j 0)

/-- `GHASH_NEW_NODE` -/
def newNode (t : GHashTable) (key : Bytes) : Outcome (GHashTable × Nat) := do
  poolAllocate kind.nodeSize 8
  poolAllocate (key.length + 1) 1
  pure ({ t with
    nodes := t.nodes ++ [⟨0, if kind.nullTermKey then 0 else key.length, key ++ [0]⟩] },
    t.nodes.length + 1)

/-- `GHASH_INSERT`, with the slot it was handed. -/
def insert (t : GHashTable) (input : Bytes × Option Nat) :
    Outcome (GHashTable × Bool × Slot × Nat) := do
  let (t, b, slot) ← hashInsert mix kind input.2 t (GHash.keyNode kind input.1)
  if b then do
    let (t, n) ← newNode kind t input.1
    pure (t.writeSlot n slot, true, slot, n)
  else do
    let d ← t.readSlot slot
    pure (t, false, slot, d.getD 0)

end GHashTable

end PathSet
