import PathSet.OptionsDump
import PathSet.PrintElems
import PathSet.SetLoad

/-!
The interface of the program to its sets. An object has the tag of its set and the
functions of one, and each function asserts the tag before it takes the set out.
-/

namespace PathSet
open Fallible FirstSeen

inductive SetIntfType where
  | pathTrie
  | pathLhash
  | pathGhash
  | plainTrie
  | plainLhash
  | plainGhash
  deriving DecidableEq, Repr

def SetIntfType.isPath : SetIntfType → Bool
  | .pathTrie | .pathLhash | .pathGhash => true
  | .plainTrie | .plainLhash | .plainGhash => false

def SetIntfType.table : SetIntfType → Table
  | .pathTrie | .plainTrie => .trie
  | .pathLhash | .plainLhash => .lhash
  | .pathGhash | .plainGhash => .ghash

structure Build where
  w : Nat
  uintHash : UintHash w
  addr : Nat → BitVec w
  /-- `CONFIG_VALUE_TYPE_SIZE` -/
  valueSize : Nat
  /-- `CONFIG_TRIE_PATH_SET_PRINT_SET` -/
  triePrintSet : Bool

def Build.printOne (B : Build) : Table → Bool
  | .trie => B.triePrintSet
  | .lhash => true
  | .ghash => true

inductive ProgramWarning where
  | load (w : Warning)
  /-- `%s: CONFIG_TRIE_PATH_SET_PRINT_SET not defined: function not implemented` -/
  | notImplemented
  deriving DecidableEq, Repr

/-- What is written to `stdout` and warned of. -/
structure Output where
  text : Bytes
  warnings : List ProgramWarning
  deriving DecidableEq, Repr

def Output.of (text : Bytes) : Output := ⟨text, []⟩

structure SetFuncs (σ : Type) where
  create : Options → Outcome σ
  put : σ → Bytes × Nat → Outcome (σ × Nat)
  isEmpty : σ → Bool
  printSet : σ → Outcome Output
  printElems : σ → Outcome Output

def Table.isEmpty : (k : Table) → k.State → Bool
  | .trie, t => decide (t.rootNode = 0)
  | .lhash, h => decide (h.used = 0)
  | .ghash, h => decide (h.nEntries = 0)

namespace Build
variable (B : Build)

def plainFuncs (k : Table) : SetFuncs k.State where
  create := k.create
  put := (k.plain B.valueSize).put B.valueSize
  isEmpty := k.isEmpty
  printSet s := Output.of <$> (k.plain B.valueSize).print s
  printElems s := Output.of <$> (k.plain B.valueSize).print s

def pathFuncs (k : Table) : SetFuncs (PathTrie k.State B.w) where
  create opt := do
    let elemSet ← k.create opt
    pure (PathTrie.init elemSet opt.sepSet)
  put := (k.pathSet (B.printOne k) B.uintHash B.addr none).put B.valueSize
  isEmpty t := decide (t.rootNode = 0)
  printSet t :=
    if B.printOne k then Output.of <$> PathTrie.print (k.printableNodes.placed B.addr) t
    else pure ⟨[], [.notImplemented]⟩
  printElems t := Output.of <$> k.printElems t.elemSet

def State : SetIntfType → Type
  | .pathTrie => PathTrie Trie B.w
  | .pathLhash => PathTrie LHash B.w
  | .pathGhash => PathTrie GHash B.w
  | .plainTrie => Trie
  | .plainLhash => LHash
  | .plainGhash => GHash

def funcs : (n : SetIntfType) → SetFuncs (B.State n)
  | .pathTrie => B.pathFuncs .trie
  | .pathLhash => B.pathFuncs .lhash
  | .pathGhash => B.pathFuncs .ghash
  | .plainTrie => B.plainFuncs .trie
  | .plainLhash => B.plainFuncs .lhash
  | .plainGhash => B.plainFuncs .ghash

end Build

/-- `struct set_intf_t`, with the type whose functions it has. -/
structure SetIntf (B : Build) where
  type : SetIntfType
  set : SetState (B.State type)
  funcs : SetIntfType

namespace SetIntf
variable {B : Build}

/-- `SET_INTF_INIT_OBJ` -/
def initObj (B : Build) (n : SetIntfType) (opt : Options) : Outcome (SetIntf B) := do
  let s ← (B.funcs n).create opt
  pure ⟨n, ⟨s, 0, 0, 0⟩, n⟩

def create (B : Build) (opt : ProgramOptions) : Outcome (SetIntf B) :=
  match opt.structType, opt.setType with
  | .plain, .ternaryTree => initObj B .plainTrie opt.toOptions
  | .plain, .linearHash => initObj B .plainLhash opt.toOptions
  | .plain, .gnulibHash => initObj B .plainGhash opt.toOptions
  | .path, .ternaryTree => initObj B .pathTrie opt.toOptions
  | .path, .linearHash => initObj B .pathLhash opt.toOptions
  | .path, .gnulibHash => initObj B .pathGhash opt.toOptions

/-- `SET_INTF_OBJ` -/
def obj (intf : SetIntf B) (n : SetIntfType) : Outcome (SetState (B.State n)) :=
  if h : intf.type = n then .ok (h ▸ intf.set) else .error .assertion

def load (intf : SetIntf B) (bs : List LineBuffer) (verbose : Bool) :
    Outcome (SetIntf B × List Warning) := do
  let set ← intf.obj intf.funcs
  let st ← PathSet.load (B.funcs intf.funcs).put verbose set bs
  pure (⟨intf.funcs, st.set, intf.funcs⟩, st.warnings)

def isEmpty (intf : SetIntf B) : Outcome Bool := do
  pure ((B.funcs intf.funcs).isEmpty (← intf.obj intf.funcs).impl)

def printSet (intf : SetIntf B) : Outcome Output := do
  (B.funcs intf.funcs).printSet (← intf.obj intf.funcs).impl

def printElems (intf : SetIntf B) : Outcome Output := do
  (B.funcs intf.funcs).printElems (← intf.obj intf.funcs).impl

end SetIntf

end PathSet
