import PathSet.Align

/-!
The pool allocator of the sets. It cuts objects off the first block with room, and puts a
new block in front when there is none. Where `malloc` puts its blocks is an input of each
call.
-/

namespace PathSet
open Fallible Regions

structure PoolNode where
  addr : Nat
  size : Nat
  used : Nat
  deriving DecidableEq, Repr

/-- `sizeof (struct pool_alloc_node_t)` -/
def PoolNode.headSize : Nat := 24

def PoolNode.pool (p : PoolNode) : Nat := p.addr + headSize

structure PoolAlloc where
  base : List PoolNode
  initSize : Nat
  maxSize : Nat
  deriving DecidableEq, Repr

structure PoolCall where
  size : Nat
  align : Nat
  addr : Nat
  deriving DecidableEq, Repr

namespace PoolAlloc

def init (initSize maxSize : Nat) : PoolAlloc :=
  let m := sizeMax / 2
  let maxSize := if maxSize = 0 ∨ maxSize > m then m else maxSize
  let initSize := if initSize = 0 then 1024 else initSize
  let initSize := if initSize > maxSize then maxSize else initSize
  ⟨[], initSize, maxSize⟩

def search (size align : Nat) : List PoolNode → Nat → Outcome (Option (Nat × PoolNode × Nat))
  | [], _ => pure none
  | p :: ps, i => do
      assert (p.used ≤ p.size)
      let a ← ptrAlignSize (p.pool + p.used) align
      assert (size + a ≤ sizeMax)
      if p.size - p.used ≥ size + a then pure (some (i, p, a)) else search size align ps (i + 1)

def newSize (alloc : PoolAlloc) (size align : Nat) : Nat :=
  if alloc.initSize < size + align then size + align else alloc.initSize

def newBlock (alloc : PoolAlloc) (size align addr : Nat) : Outcome (PoolAlloc × PoolNode) := do
  let n := alloc.newSize size align
  verify (n + PoolNode.headSize ≤ sizeMax)
  verify (n * 2 ≤ sizeMax)
  let initSize := if n * 2 > alloc.maxSize then alloc.maxSize else n * 2
  let p : PoolNode := ⟨addr, n, 0⟩
  pure ({ alloc with base := p :: alloc.base, initSize := initSize }, p)

def take (alloc : PoolAlloc) (size i : Nat) (p : PoolNode) (a : Nat) : Outcome (PoolAlloc × Nat) := do
  let n := size + a
  assert (p.size - p.used ≥ n)
  let r := p.used + a
  pure ({ alloc with base := alloc.base.set i { p with used := p.used + n } }, p.pool + r)

/-- `pool_alloc_allocate` -/
def allocate (alloc : PoolAlloc) (c : PoolCall) : Outcome (PoolAlloc × Nat) := do
  assert (0 < c.size)
  assert (SizeIsPow2 c.align)
  assert (alloc.initSize ≤ alloc.maxSize)
  verify (c.size + c.align ≤ sizeMax)
  if c.size + c.align > alloc.maxSize then .error .invalidArg
  else
    match ← search c.size c.align alloc.base 0 with
    | some (i, p, a) => alloc.take c.size i p a
    | none => do
        let (alloc, p) ← alloc.newBlock c.size c.align c.addr
        let a ← ptrAlignSize p.pool c.align
        alloc.take c.size 0 p a

end PoolAlloc

end PathSet
