import PathSet.LHashMemory
import PathSet.Program
import PathSet.StatParams

/-!
The statistics of the six sets. Each has a table of its parameters, in the order in which
they are printed.
-/

namespace PathSet
open Fallible

structure TypeSizes where
  table : Nat
  hashTable : Nat
  pathTrie : Nat

/-- The size of a node of a plain set. A value is no larger than the pointer it shares its
place with, or is aligned with. -/
def Table.plainNodeSize (B : Build) : Table → Nat
  | .trie => 32
  | .lhash => (LHash.plainKind B.valueSize).nodeSize
  | .ghash => GHash.plainKind.nodeSize

def Table.elemNodeSize (B : Build) : Table → Nat
  | .trie => if B.triePrintSet then 40 else 32
  | .lhash => LHash.elemKind.nodeSize
  | .ghash => GHash.elemKind.nodeSize

def Build.pathNodeSize (B : Build) : Nat := B.w / 8 + 24

/-- `hash_get_struct_mem`. It does not check for an overflow. -/
def GHash.hashGetStructMem (hashTable : Nat) (h : GHash) : Nat :=
  ((h.nBuckets + h.stats.nAllocEntries) * 16 + hashTable) % 2 ^ 64

def GHash.getStructMem (sizes : TypeSizes) (h : GHash) : Outcome Nat :=
  sizeAdd (h.hashGetStructMem sizes.hashTable) sizes.table

namespace Table

/-- `TRIE_GET_STRUCT_MEM`, `LHASH_GET_STRUCT_MEM` and `GHASH_GET_STRUCT_MEM`. -/
def getStructMem (sizes : TypeSizes) : (k : Table) → k.State → Outcome Nat
  | .trie, _ => pure sizes.table
  | .lhash, h => h.getStructMem sizes.table
  | .ghash, h => h.getStructMem sizes

def getParamNodeMem (nodeSize : Nat) : (k : Table) → k.State → Outcome Nat
  | .trie, t => sizeMul t.nodeStruct nodeSize
  | .lhash, h => do
      let n ← sizeMul h.nodeStruct nodeSize
      sizeAdd n h.nodeMem
  | .ghash, h => do
      let n ← sizeMul h.nodeStruct nodeSize
      sizeAdd n h.nodeMem

def getParamTotalMem (sizes : TypeSizes) (nodeSize : Nat) (k : Table) (s : k.State) :
    Outcome Nat := do
  let n ← k.getParamNodeMem nodeSize s
  let s ← k.getStructMem sizes s
  sizeAdd n s

end Table

namespace PathTrie
variable {w : Nat} (sizes : TypeSizes) (nodeSize elemSize : Nat) (k : Table)

/-- `PATH_TRIE_GET_STRUCT_MEM` -/
def getStructMem (t : PathTrie k.State w) : Outcome Nat := do
  let e ← k.getStructMem sizes t.elemSet
  sizeAdd sizes.pathTrie e

def getParamNodeMem (t : PathTrie k.State w) : Outcome Nat := sizeMul t.nodeStruct nodeSize

def getParamElemMem (t : PathTrie k.State w) : Outcome Nat := k.getParamNodeMem elemSize t.elemSet

def getParamTotalNodeMem (t : PathTrie k.State w) : Outcome Nat := do
  let n ← t.getParamNodeMem nodeSize k
  let e ← t.getParamElemMem elemSize k
  sizeAdd n e

def getParamTotalMem (t : PathTrie k.State w) : Outcome Nat := do
  let n ← t.getParamTotalNodeMem nodeSize elemSize k
  let s ← t.getStructMem sizes k
  sizeAdd n s

end PathTrie

def getParamHashLoad (used size : Nat) : Outcome SizeFrac := do
  match ← computeSizeFrac used size with
  | some r => pure r
  | none => .error .verify

structure TimedSet (σ : Type) where
  set : SetState σ
  time : StatParamName → Clocks

section
variable {σ : Type}

def fsize (n : StatParamName) (field : TimedSet σ → Nat) : StatParamInfo (TimedSet σ) :=
  ⟨n, .sizeField field⟩

def ftime (n : StatParamName) : StatParamInfo (TimedSet σ) := ⟨n, .timeField fun x => x.time n⟩

def sfunc (n : StatParamName) (func : σ → Outcome Nat) : StatParamInfo (TimedSet σ) :=
  ⟨n, .sizeFunc fun obj => do func (← fieldOf obj fun x => x.set.impl)⟩

/-- `SET_GET_NODE_SIZE` and `SET_GET_ELEM_SIZE`, which read nothing. -/
def sconst (n : StatParamName) (size : Nat) : StatParamInfo (TimedSet σ) :=
  ⟨n, .sizeFunc fun _ => pure size⟩

def ffunc (n : StatParamName) (func : σ → Outcome SizeFrac) : StatParamInfo (TimedSet σ) :=
  ⟨n, .fracFunc fun obj => do func (← fieldOf obj fun x => x.set.impl)⟩

end

structure InsertNames where
  eq : StatParamName
  lt : StatParamName
  gt : StatParamName
  ne : StatParamName
  hit : StatParamName

def nodeNames : InsertNames :=
  ⟨.nodeInsertEq, .nodeInsertLt, .nodeInsertGt, .nodeInsertNe, .nodeInsertHit⟩

def elemNames : InsertNames :=
  ⟨.elemInsertEq, .elemInsertLt, .elemInsertGt, .elemInsertNe, .elemInsertHit⟩

namespace Table

def dupsNode : (k : Table) → k.State → Nat
  | .trie, t => t.stats.dupsNode
  | .lhash, h => h.stats.dupsNode
  | .ghash, h => h.stats.nDuplicateEntries

def uniqNode : (k : Table) → k.State → Nat
  | .trie, t => t.stats.uniqNode
  | .lhash, h => h.stats.uniqNode
  | .ghash, h => h.nEntries

/-- The parameters that only one kind of table has. Those of the gnulib table are read by
`hash_get_stats_info`. -/
def params {σ : Type} (N : InsertNames) : (k : Table) → (σ → k.State) →
    List (StatParamInfo (TimedSet σ))
  | .trie, get =>
      [fsize N.eq fun x => (get x.set.impl).stats.insertEq,
        fsize N.lt fun x => (get x.set.impl).stats.insertLt,
        fsize N.gt fun x => (get x.set.impl).stats.insertGt]
  | .lhash, get =>
      [fsize N.eq fun x => (get x.set.impl).stats.insertEq,
        fsize N.ne fun x => (get x.set.impl).stats.insertNe,
        fsize N.hit fun x => (get x.set.impl).stats.insertHit,
        fsize .rehashOp fun x => (get x.set.impl).stats.rehashOp,
        fsize .rehashHit fun x => (get x.set.impl).stats.rehashHit,
        ftime .rehashTime,
        fsize .hashSize fun x => (get x.set.impl).size,
        fsize .hashUsed fun x => (get x.set.impl).used,
        ffunc .hashLoad fun s => getParamHashLoad (get s).used (get s).size]
  | .ghash, get =>
      [fsize N.eq fun x => (get x.set.impl).stats.nInsertEqualHits,
        fsize N.ne fun x => (get x.set.impl).stats.nInsertNotEqualHits,
        fsize .rehashEq fun x => (get x.set.impl).stats.nRehashEqualHits,
        fsize .rehashNe fun x => (get x.set.impl).stats.nRehashNotEqualHits,
        fsize .rehashOp fun x => (get x.set.impl).stats.nRehashOps,
        ftime .rehashTime,
        fsize .hashSize fun x => (get x.set.impl).nBuckets,
        fsize .hashUsed fun x => (get x.set.impl).nBucketsUsed,
        ffunc .hashLoad fun s => getParamHashLoad (get s).nBucketsUsed (get s).nBuckets]

end Table

namespace Build
variable (B : Build) (sizes : TypeSizes)

def plainParams (k : Table) : List (StatParamInfo (TimedSet k.State)) :=
  let nodeSize := k.plainNodeSize B
  [fsize .dupsLine fun x => x.set.dupsLine,
    fsize .uniqLine fun x => x.set.uniqLine,
    fsize .lineMem fun x => x.set.lineMem,
    fsize .dupsNode fun x => k.dupsNode x.set.impl,
    fsize .uniqNode fun x => k.uniqNode x.set.impl] ++
  k.params nodeNames id ++
  [sconst .nodeStructSize nodeSize,
    fsize .nodeStruct fun x => k.nodeStruct x.set.impl,
    sfunc .nodeMem (k.getParamNodeMem nodeSize),
    sfunc .totalNodeMem (k.getParamNodeMem nodeSize),
    sfunc .totalMem (k.getParamTotalMem sizes nodeSize),
    ftime .insertTime]

def pathParams (k : Table) : List (StatParamInfo (TimedSet (PathTrie k.State B.w))) :=
  let elemSize := k.elemNodeSize B
  [fsize .dupsLine fun x => x.set.dupsLine,
    fsize .uniqLine fun x => x.set.uniqLine,
    fsize .lineMem fun x => x.set.lineMem,
    fsize .dupsNode fun x => x.set.impl.stats.dupsNode,
    fsize .uniqNode fun x => x.set.impl.stats.uniqNode,
    fsize .dupsElem fun x => k.dupsNode x.set.impl.elemSet,
    fsize .uniqElem fun x => k.uniqNode x.set.impl.elemSet,
    fsize .nodeInsertEq fun x => x.set.impl.stats.insertEq,
    fsize .nodeInsertLt fun x => x.set.impl.stats.insertLt,
    fsize .nodeInsertGt fun x => x.set.impl.stats.insertGt] ++
  k.params elemNames PathTrie.elemSet ++
  [sconst .nodeStructSize B.pathNodeSize,
    sconst .elemStructSize elemSize,
    fsize .nodeStruct fun x => x.set.impl.nodeStruct,
    fsize .elemStruct fun x => k.nodeStruct x.set.impl.elemSet,
    sfunc .nodeMem (PathTrie.getParamNodeMem B.pathNodeSize k),
    sfunc .elemMem (PathTrie.getParamElemMem elemSize k),
    sfunc .totalNodeMem (PathTrie.getParamTotalNodeMem B.pathNodeSize elemSize k),
    sfunc .totalMem (PathTrie.getParamTotalMem sizes B.pathNodeSize elemSize k),
    ftime .insertTime]

def triePlainParams : List (StatParamInfo (TimedSet Trie)) := B.plainParams sizes .trie

def lhashPlainParams : List (StatParamInfo (TimedSet LHash)) := B.plainParams sizes .lhash

def ghashPlainParams : List (StatParamInfo (TimedSet GHash)) := B.plainParams sizes .ghash

def triePathParams : List (StatParamInfo (TimedSet (PathTrie Trie B.w))) :=
  B.pathParams sizes .trie

def lhashPathParams : List (StatParamInfo (TimedSet (PathTrie LHash B.w))) :=
  B.pathParams sizes .lhash

def ghashPathParams : List (StatParamInfo (TimedSet (PathTrie GHash B.w))) :=
  B.pathParams sizes .ghash

def params : (n : SetIntfType) → List (StatParamInfo (TimedSet (B.State n)))
  | .pathTrie => B.triePathParams sizes
  | .pathLhash => B.lhashPathParams sizes
  | .pathGhash => B.ghashPathParams sizes
  | .plainTrie => B.triePlainParams sizes
  | .plainLhash => B.lhashPlainParams sizes
  | .plainGhash => B.ghashPlainParams sizes

/-- `SET_PRINT_STATS` with the times of the clocks. -/
def printStats (time : StatParamName → Clocks) : Report B := fun n set =>
  statParamsPrint (B.params sizes n) (some ⟨set, time⟩) false

/-- `print_names` -/
def printNames (n : SetIntfType) : Outcome Bytes := statParamsPrint (B.params sizes n) none true

/-- `SET_PRINT_SIZES` -/
def printSizes (n : SetIntfType) : Outcome Bytes :=
  statParamsPrint (if n.isPath then
    [sconst .nodeStructSize B.pathNodeSize, sconst .elemStructSize (n.table.elemNodeSize B)]
    else [sconst .nodeStructSize (n.table.plainNodeSize B)] : List (StatParamInfo (TimedSet Unit)))
    none false

end Build

end PathSet
