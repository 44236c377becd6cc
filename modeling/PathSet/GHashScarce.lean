import PathSet.GHashWalk

/-!
The chained table where memory can run out. The store answers each request, and the moves
of a rehash end at the first entry that cannot be had. The rehash then moves everything
back, at first the overflow entries alone.
-/

namespace PathSet
open Fallible Recycled

namespace GHashEntries

abbrev Supply := List Bool

namespace Scarce

def request : Supply → Bool × Supply
  | [] => (false, [])
  | granted :: supply => (granted, supply)

/-- `allocate_entry`, which asks the store only when there is no free entry. -/
def allocateEntry (entry : Heap (Option Nat)) (nAlloc : Nat) (supply : Supply) :
    Supply × Option (Heap (Option Nat) × Nat × Nat) :=
  if entry.free ≠ [] then (supply, some (GHashEntries.allocateEntry entry nAlloc))
  else
    let (granted, supply) := request supply
    (supply, if granted then some (GHashEntries.allocateEntry entry nAlloc) else none)

variable (mix : Bytes → Nat) (kind : GHashKind)

def moveHead (t : GHashEntries) (dst : Dest) (supply : Supply) (d : Option Nat) :
    Outcome (Supply × Option Dest) := do
  let c ← t.node d
  let (j, b) ← safeHasher mix kind dst.bucket c
  if b.data = none then
    pure (supply, some { dst with
      bucket := dst.bucket.set j { b with data := d }
      nBucketsUsed := dst.nBucketsUsed + 1 })
  else
    match allocateEntry dst.entry dst.nAllocEntries supply with
    | (supply, none) => pure (supply, none)
    | (supply, some (entry, n, e)) =>
        pure (supply, some { dst with
          entry := entry.write d e
          bucket := dst.bucket.set j { b with next := e :: b.next }
          nAllocEntries := n })

structure Transfer where
  done : Bool
  dst : Dest
  supply : Supply
  /-- The buckets of the source. -/
  bucket : List EntryBucket
  nBucketsUsed : Nat

/-- `transfer_entries`. A safe transfer leaves the bucket heads where they are. -/
def transferEntries (safe : Bool) (t : GHashEntries) :
    Dest → Supply → List EntryBucket → Nat → Outcome Transfer
  | dst, supply, [], used => .ok ⟨true, dst, supply, [], used⟩
  | dst, supply, b :: bs, used =>
      if b.data = none then do
        let r ← transferEntries safe t dst supply bs used
        pure { r with bucket := b :: r.bucket }
      else do
        let dst ← transferOverflow mix kind t dst b.next
        if safe then do
          let r ← transferEntries safe t dst supply bs used
          pure { r with bucket := ⟨b.data, []⟩ :: r.bucket }
        else do
          match ← moveHead mix kind t dst supply b.data with
          | (supply, none) => pure ⟨false, dst, supply, ⟨b.data, []⟩ :: bs, used⟩
          | (supply, some dst) => do
              let r ← transferEntries safe t dst supply bs (used - 1)
              pure { r with bucket := ⟨none, []⟩ :: r.bucket }

def moveBack (t : GHashEntries) (r : Transfer) : Outcome (GHashEntries × Supply) := do
  let back ← transferEntries mix kind true t ⟨r.dst.entry, r.bucket, r.nBucketsUsed, t.nAllocEntries⟩
    r.supply r.dst.bucket r.dst.nBucketsUsed
  if ¬back.done then .error .abort
  else do
    let heads ← transferEntries mix kind false t back.dst back.supply back.bucket back.nBucketsUsed
    if ¬heads.done then .error .abort
    else
      pure ({ t with
        entry := heads.dst.entry
        bucket := heads.dst.bucket
        nBucketsUsed := heads.dst.nBucketsUsed
        nAllocEntries := heads.dst.nAllocEntries }, heads.supply)

/-- `hash_rehash` to the size it has computed, and whether it succeeded. -/
def hashRehash (t : GHashEntries) (supply : Supply) (newSize : Nat) :
    Outcome (GHashEntries × Supply × Bool) := do
  if newSize = 0 then pure (t, supply, false)
  else if newSize = t.nBuckets then pure (t, supply, true)
  else
    match request supply with
    | (false, supply) => pure (t, supply, false)
    | (true, supply) =>
      if sizeMax < newSize * 16 then pure (t, supply, false)
      else do
        let r ← transferEntries mix kind false t
          ⟨t.entry, List.replicate newSize ⟨none, []⟩, 0, 0⟩ supply t.bucket t.nBucketsUsed
        if r.done then
          pure ({ t with
            entry := r.dst.entry
            bucket := r.dst.bucket
            nBuckets := newSize
            nBucketsUsed := r.dst.nBucketsUsed }, r.supply, true)
        else do
          let (t, supply) ← moveBack mix kind t r
          pure (t, supply, false)

/-- The growth that was decided on. The `abort ()` of a table that has no memory to grow is
`.alloc`, that of a key found after all is `.abort`. -/
def grow (newSize : Option Nat) (t : GHashEntries) (supply : Supply) (c : GHashNode) (j : Nat) :
    Outcome (GHashEntries × Supply × Nat) :=
  match newSize with
  | none => .ok (t, supply, j)
  | some n => do
      let (t, supply, grown) ← hashRehash mix kind t supply n
      if ¬grown then .error .alloc
      else do
        let (t, j, r) ← hashFindEntry mix kind false t c
        if r ≠ none then .error .abort else pure (t, supply, j)

/-- `hash_insert`, which aborts upon memory allocation failure. -/
def hashInsert (newSize : Option Nat) (t : GHashEntries) (supply : Supply) (c : GHashNode) :
    Outcome (GHashEntries × Supply × Bool × HashEntry) := do
  let (t, j, r) ← hashFindEntry mix kind false t c
  match r with
  | some previous => pure (t, supply, false, previous)
  | none => do
      let (t, supply, j) ← grow mix kind newSize t supply c j
      match t.bucket[j]? with
      | none => .error .stray
      | some b =>
          if b.data = none then
            pure ({ t with
              nEntries := t.nEntries + 1
              nBucketsUsed := t.nBucketsUsed + 1 }, supply, true, .head j)
          else
            match allocateEntry t.entry t.nAllocEntries supply with
            | (_, none) => .error .alloc
            | (supply, some (entry, n, e)) =>
                pure ({ t with
                  entry := entry
                  bucket := t.bucket.set j { b with next := e :: b.next }
                  nEntries := t.nEntries + 1
                  nAllocEntries := n }, supply, true, .overflow e)

/-- `GHASH_INSERT` of a key. -/
def insert (t : GHashEntries) (supply : Supply) (input : Bytes × Option Nat) :
    Outcome (GHashEntries × Supply × Bool × Nat) := do
  let (t, supply, new, previous) ←
    hashInsert mix kind input.2 t supply (GHash.keyNode kind input.1)
  if new then do
    let (t, n) ← newNode kind t input.1
    pure (t.writeData n previous, supply, true, n)
  else do
    let d ← t.readData previous
    pure (t, supply, false, d.getD 0)

end Scarce

end GHashEntries

end PathSet
