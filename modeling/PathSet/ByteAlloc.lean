import PathSet.ObjAlloc
import PathSet.Align

/-!
The allocator of 32-bit references without an object size. Its blocks are counted in
bytes, and each request has its own size and alignment. Where `realloc` puts a block is an
input of each call.
-/

namespace PathSet
open Fallible Regions

/-- A block of bytes at an address, `none` for `NULL`. -/
structure ByteNode where
  base : Option Nat
  size : Nat
  used : Nat
  deriving DecidableEq, Repr

structure ByteAlloc where
  nodes : List ByteNode
  initSize : Nat
  maxSize : Nat
  deriving DecidableEq, Repr

/-- The arguments of an allocation, and the address `realloc` would return in it. -/
structure ByteCall where
  size : Nat
  align : Nat
  addr : Nat
  deriving DecidableEq, Repr

namespace ByteAlloc
open ObjAlloc (offsetMax)

/-- `OBJ_ALLOC_INIT` -/
def init (nodeBits initSize maxSize : Nat) : Outcome ByteAlloc := do
  if initSize > offsetMax nodeBits then .error .invalidArg
  else if maxSize > offsetMax nodeBits then .error .invalidArg
  else
    let maxSize := if maxSize = 0 then offsetMax nodeBits else maxSize
    let initSize := if initSize = 0 ∨ initSize > maxSize then maxSize else initSize
    pure ⟨List.replicate (2 ^ nodeBits) ⟨none, 0, 0⟩, initSize, maxSize⟩

def assertInvariants (alloc : ByteAlloc) (p : ByteNode) : Outcome Unit := do
  assert (p.size ≤ alloc.maxSize)
  assert (p.used ≤ p.size)
  assert (p.base.isSome ∨ p.used = 0)

/-- The block the search stops at, with its place and the padding. The padding of a block
that is not made yet is guessed. -/
def pick (nodeBits : Nat) (alloc : ByteAlloc) (size align : Nat) :
    List ByteNode → Nat → Outcome (Option (Nat × ByteNode × Nat))
  | [], _ => pure none
  | p :: ps, i => do
      alloc.assertInvariants p
      match p.base with
      | none => pure (some (i, p, align))
      | some base => do
          let a ← ptrAlignSize (base + p.used) align
          assert (p.used + a ≤ sizeMax)
          if p.used + a ≥ offsetMax nodeBits then pick nodeBits alloc size align ps (i + 1)
          else do
            assert (size + a ≤ sizeMax)
            if p.size - p.used ≥ size + a ∨ p.size < alloc.maxSize then pure (some (i, p, a))
            else pick nodeBits alloc size align ps (i + 1)

def double (used n : Nat) : Nat → Nat → Outcome Nat
  | 0, _ => .error .hang
  | fuel + 1, s => do
      verify (used ≤ s)
      if s - used < n then do
        verify (s * 2 ≤ sizeMax)
        double used n fuel (s * 2)
      else pure s

def grow (alloc : ByteAlloc) (p : ByteNode) (n addr : Nat) : Outcome ByteNode := do
  let s := if p.size = 0 then alloc.initSize else p.size
  assert (s > 0)
  let s ← double p.used n 65 s
  let s := if s > alloc.maxSize then alloc.maxSize else s
  assert (s - p.used ≥ n)
  pure ⟨some addr, s, p.used⟩

def ready (alloc : ByteAlloc) (p : ByteNode) (n addr : Nat) : Outcome ByteNode :=
  if p.size - p.used < n then alloc.grow p n addr else pure p

def place (nodeBits : Nat) (alloc : ByteAlloc) (c : ByteCall) (i : Nat) (p : ByteNode) (a : Nat) :
    Outcome (ByteAlloc × Nat × Nat) := do
  assert (p.used + a < offsetMax nodeBits)
  let n := c.size + a
  let q ← alloc.ready p n c.addr
  match q.base with
  | none => .error .stray
  | some base => do
      -- the padding of a block that was made just now is known only here
      let a ← (if p.base = none then ptrAlignSize (base + q.used) c.align else pure a : Outcome Nat)
      assert (p.base = none → a ≤ c.align)
      let r := q.used + a
      pure ({ alloc with nodes := alloc.nodes.set i { q with used := q.used + n } },
        base + r, (i <<< (32 - nodeBits)) ||| (r + 1))

/-- `OBJ_ALLOC_ALLOCATE`: the address of the object, and its reference. -/
def allocate (nodeBits : Nat) (alloc : ByteAlloc) (c : ByteCall) :
    Outcome (Option (ByteAlloc × Nat × Nat)) := do
  assert (0 < c.size)
  assert (SizeIsPow2 c.align)
  match ← pick nodeBits alloc c.size c.align alloc.nodes 0 with
  | none => pure none
  | some (i, p, a) => do
      let placed ← alloc.place nodeBits c i p a
      pure (some placed)

/-- `OBJ_ALLOC_DEREF` -/
def deref (nodeBits : Nat) (alloc : ByteAlloc) (r : Nat) : Outcome (Option Nat) :=
  if r = 0 then pure none
  else do
    let o := r % 2 ^ (32 - nodeBits)
    match alloc.nodes[r / 2 ^ (32 - nodeBits)]? with
    | none => .error .assertion
    | some p => do
        alloc.assertInvariants p
        assert (o > 0)
        assert (o ≤ p.used)
        match p.base with
        | none => .error .assertion
        | some base => pure (some (base + (o - 1)))

end ByteAlloc

end PathSet
