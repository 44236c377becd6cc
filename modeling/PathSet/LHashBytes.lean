import PathSet.LHashHolds

/-!
The nodes of the linear hash table byte by byte. A key that is handed to the table may have
any bytes behind it in memory, in the variant with keys ended by NUL behind that NUL. The
memory that a node is made in may have any content. The macros read the same of a node there
as the functions of the table do.
-/

namespace PathSet
open Fallible Pointer ProbeTable CString

/-- A node by its length byte, and the memory from its `str` on. There is no length byte
in the variant with keys ended by NUL, and it is zero here. -/
structure LHashBytes where
  len : UInt8
  str : Memory
  deriving DecidableEq, Repr

namespace LHashBytes

/-- `LHASH_NEW_NODE`, in a block for the string that has just been allocated. -/
def newNode (nullTermKey : Bool) (block s : Memory) (l : Nat) : Option LHashBytes := do
  let str ← memcpy block s l
  let str ← store str l 0
  pure ⟨if nullTermKey then 0 else UInt8.ofNat (if l ≤ 255 then l else 0), str⟩

/-- `LHASH_KEY_LENGTH` -/
def keyLength (nullTermKey : Bool) (b : LHashBytes) : Option Nat :=
  if nullTermKey then strlen b.str
  else if b.len = 0 then strlen b.str else some b.len.toNat

/-- `LHASH_EQ` -/
def eq (nullTermKey : Bool) (b : LHashBytes) (s : Memory) (l : Nat) : Option Bool :=
  if nullTermKey then do
    let r ← strcmp b.str s
    pure (r = .eq)
  else do
    let n ← (if b.len = 0 then strlen b.str else some b.len.toNat)
    if n = l then do
      let r ← memcmp b.str s l
      pure (r = .eq)
    else pure false

/-- The loop of `LHASH_HASH` -/
def hashFrom : BitVec 64 → Memory → Nat → Option (BitVec 64)
  | r, _, 0 => some r
  | r, ch :: s, n + 1 => hashFrom (LHash.hashStep r ch) s n
  | _, [], _ + 1 => none

/-- `LHASH_HASH` -/
def hash (s : Memory) (l : Nat) : Option (BitVec 64) := hashFrom (BitVec.ofNat 64 l) s l

/-- The hash that `LHASH_REHASH` takes of a node. -/
def rehash (nullTermKey : Bool) (b : LHashBytes) : Option (BitVec 64) := do
  let l ← b.keyLength nullTermKey
  hash b.str l

theorem hashFrom_append (r : BitVec 64) (key after : Bytes) :
    hashFrom r (key ++ after) key.length = some (key.foldl LHash.hashStep r) := by
  induction key generalizing r with
  | nil => cases after <;> rfl
  | cons ch key ih => exact ih (LHash.hashStep r ch)

theorem hash_append (key after : Bytes) : hash (key ++ after) key.length = some (LHash.hash key) :=
  hashFrom_append _ key after

structure LaysOut (b : LHashBytes) (c : LHashNode) : Prop where
  len : b.len.toNat = c.len
  str : c.str <+: b.str

variable {kind : LHashKind} {b : LHashBytes} {c : LHashNode} {key : Bytes}

theorem newNode_laysOut (kind : LHashKind) {block : Memory} (after : Bytes)
    (hblock : key.length < block.length) :
    ∃ b, newNode kind.nullTermKey block (key ++ after) key.length = some b ∧
      LaysOut b ⟨0, if kind.nullTermKey then 0 else if key.length ≤ 255 then key.length else 0,
        key ++ [0]⟩ := by
  have hcopy := memcpy_spec hblock.le (by simp : key.length ≤ (key ++ after).length)
  obtain ⟨d, rest, hdrop⟩ := List.exists_cons_of_length_pos
    (by simpa using hblock : 0 < (block.drop key.length).length)
  rw [List.take_left, hdrop] at hcopy
  let len : UInt8 := if kind.nullTermKey then 0
    else UInt8.ofNat (if key.length ≤ 255 then key.length else 0)
  refine ⟨⟨len, key ++ 0 :: rest⟩, ?_, ?_, rest, by simp⟩
  · rw [newNode, hcopy, Option.bind_eq_bind, Option.bind_some, store_append]
    rfl
  · show len.toNat = _
    unfold len
    split_ifs with hnull hfit
    · rfl
    · exact UInt8.toNat_ofNat_of_lt' (Nat.lt_succ_of_le hfit)
    · rfl

theorem LaysOut.str_of_stores (hb : LaysOut b c) (hs : LHash.Stores kind c key) :
    ∃ rest, b.str = key ++ 0 :: rest := by
  obtain ⟨rest, hrest⟩ := hb.str
  refine ⟨rest, ?_⟩
  rw [← hrest, hs.str, List.append_assoc]
  rfl

theorem LaysOut.keyLength_eq (hb : LaysOut b c) (hs : LHash.Stores kind c key) :
    b.keyLength kind.nullTermKey = some (LHash.keyLength kind c) := by
  obtain ⟨rest, hstr⟩ := hb.str_of_stores hs
  have hlen : strlen b.str = some (LHash.strlen c.str) := by
    rw [hstr, strlen_spec (by simp), text_append hs.noNul, LHash.strlen_of_stores hs]
  have hzero : b.len = 0 ↔ c.len = 0 := by
    rw [← hb.len]
    exact UInt8.toNat_inj.symm
  simp only [keyLength, LHash.keyLength, hlen, hzero, hb.len]
  split_ifs <;> rfl

def Follows (nullTermKey : Bool) (after : Memory) : Prop :=
  nullTermKey = true → after.head? = some 0

theorem LaysOut.eq_eq (hb : LaysOut b c) (hs : LHash.Stores kind c key) {probe : Bytes}
    (hprobe : 0 ∉ probe) {after : Memory} (hafter : Follows kind.nullTermKey after) :
    b.eq kind.nullTermKey (probe ++ after) probe.length = some (decide (key = probe)) := by
  obtain ⟨rest, hstr⟩ := hb.str_of_stores hs
  have hlength := hb.keyLength_eq hs
  rw [LHash.keyLength_of_stores hs, keyLength] at hlength
  rw [eq]
  by_cases hnull : kind.nullTermKey = true
  · obtain ⟨after, rfl⟩ := List.head?_eq_some_iff.mp (hafter hnull)
    have hnode : 0 ∈ b.str := by simp [hstr]
    have hkey : 0 ∈ probe ++ 0 :: after := by simp
    obtain ⟨o, hrun, ho⟩ := strcmp_spec hnode hkey
    rw [hstr, text_append hs.noNul, text_append hprobe] at ho
    rw [if_pos hnull, hrun, Option.bind_eq_bind, Option.bind_some]
    exact congrArg some (decide_eq_decide.mpr ho)
  · rw [if_neg hnull] at hlength ⊢
    rw [hlength, Option.bind_eq_bind, Option.bind_some]
    by_cases hlen : key.length = probe.length
    · have hnode : probe.length ≤ b.str.length := by simp [hstr, hlen]
      have hkey : probe.length ≤ (probe ++ after).length := by simp
      obtain ⟨o, hrun, ho⟩ := memcmp_spec hnode hkey
      rw [hstr, ← hlen, List.take_left, hlen, List.take_left] at ho
      rw [if_pos hlen, hrun, Option.bind_eq_bind, Option.bind_some]
      exact congrArg some (decide_eq_decide.mpr ho)
    · rw [if_neg hlen]
      refine congrArg some (decide_eq_false fun heq => hlen (congrArg _ heq)).symm

theorem LaysOut.rehash_eq (hb : LaysOut b c) (hs : LHash.Stores kind c key) :
    b.rehash kind.nullTermKey = some (LHash.hash key) := by
  obtain ⟨rest, hstr⟩ := hb.str_of_stores hs
  rw [rehash, hb.keyLength_eq hs, LHash.keyLength_of_stores hs, Option.bind_eq_bind,
    Option.bind_some, hstr, hash_append]

structure Decodes (nullTermKey : Bool) (b : LHashBytes) (key : Bytes) : Prop where
  keyLength : b.keyLength nullTermKey = some key.length
  bytes : b.str.take key.length = key
  eq : ∀ probe after, 0 ∉ probe → Follows nullTermKey after →
    b.eq nullTermKey (probe ++ after) probe.length = some (decide (key = probe))
  rehash : ∃ r, b.rehash nullTermKey = some r ∧ ∀ after, hash (key ++ after) key.length = some r

theorem LaysOut.decodes (hb : LaysOut b c) (hs : LHash.Stores kind c key) :
    Decodes kind.nullTermKey b key := by
  refine ⟨?_, ?_, fun probe after hprobe hafter => hb.eq_eq hs hprobe hafter,
    LHash.hash key, hb.rehash_eq hs, hash_append key⟩
  · rw [hb.keyLength_eq hs, LHash.keyLength_of_stores hs]
  · obtain ⟨rest, hstr⟩ := hb.str_of_stores hs
    rw [hstr, List.take_left]

end LHashBytes

namespace LHash

variable {kind : LHashKind} {h h' : LHash} {p : Nat} {key : Bytes}

structure Decodes (kind : LHashKind) (h : LHash) (p : Nat) (key : Bytes) : Prop where
  node : ∃ c, h.node p = .ok c ∧ keyLength kind c = key.length ∧ c.str.take (keyLength kind c) = key
  eq : ∀ probe, 0 ∉ probe → h.eq kind p probe = .ok (decide (key = probe))
  refill : ∀ t slots hit, refill kind h t (some p :: slots) hit =
    probe .hang (fun _ => .ok false) t t.length (slot t.length key) hit >>= fun r =>
      refill kind h (t.set r.1 (some p)) slots r.2.2

def Has (kind : LHashKind) (h : LHash) (p : Nat) (key : Bytes) : Prop :=
  ∃ c, deref h.nodes p = some c ∧ Stores kind c key

theorem Has.decodes (hh : Has kind h p key) : Decodes kind h p key := by
  obtain ⟨c, hc, hs⟩ := hh
  have hnode : h.node p = .ok c := by simp [node, hc]
  refine ⟨⟨c, hnode, keyLength_of_stores hs, take_of_stores hs⟩, fun probe hprobe =>
    eq_of_stores hc hs hprobe, fun t slots hit => ?_⟩
  simp only [LHash.refill, hnode, ok_bind, take_of_stores hs]

theorem Has.of_prefix (hh : Has kind h p key) (hnodes : h.nodes <+: h'.nodes) :
    Has kind h' p key := by
  obtain ⟨c, hc, hs⟩ := hh
  obtain ⟨new, hnew⟩ := hnodes
  exact ⟨c, by rw [← hnew, deref_append_left new hc], hs⟩

theorem newNode_has {j : Nat} {new : Bool} (hkey : 0 ∉ key)
    (hnew : h.newNode kind j key = .ok (h', new, p)) : Has kind h' p key := by
  obtain ⟨-, rfl, hmade⟩ := newNode_frame hnew
  exact ⟨_, by rw [hmade, deref_append, if_pos rfl], rfl, rfl, hkey⟩

inductive Step (kind : LHashKind) (h : LHash) : LHash → Prop
  | insert {growth : Growth} {key : Bytes} {h' : LHash} {r : Bool × Nat}
      (hins : h.insertWith kind growth key = .ok (h', r)) : Step kind h h'
  | setVal (p v : Nat) : Step kind h (h.setVal p v)

theorem insertWith_nodes {growth : Growth} {r : Bool × Nat}
    (hins : h.insertWith kind growth key = .ok (h', r)) : h.nodes <+: h'.nodes := by
  rcases insertWith_cases hins with ⟨-, hsame, -⟩ | ⟨-, h₁, j, hframe, hnew⟩
  · rw [hsame]
  · obtain ⟨-, -, hmade⟩ := newNode_frame hnew
    rw [hmade, hframe]
    exact List.prefix_append _ _

theorem Step.has (hstep : Step kind h h') (hh : Has kind h p key) : Has kind h' p key := by
  cases hstep with
  | insert hins => exact hh.of_prefix (insertWith_nodes hins)
  | setVal q v =>
    obtain ⟨c, hc, hs⟩ := hh
    exact stores_setVal hc hs q v

theorem has_later (hh : Has kind h p key) (hlater : Relation.ReflTransGen (Step kind) h h') :
    Has kind h' p key := by
  induction hlater with
  | refl => exact hh
  | tail _ hstep ih => exact hstep.has ih

end LHash

/-- A new node decodes to its key, whatever the memory around it and around the keys it is
compared with. In the table it does so ever after. -/
theorem lhash_node_decodes (kind : LHashKind) {key : Bytes} (hkey : 0 ∉ key) :
    (∀ block after, key.length < block.length →
      ∃ b, LHashBytes.newNode kind.nullTermKey block (key ++ after) key.length = some b ∧
        (255 < key.length → b.len = 0) ∧ LHashBytes.Decodes kind.nullTermKey b key) ∧
    ∀ (h : LHash) (j : Nat) (h' : LHash) (new : Bool) (p : Nat),
      h.newNode kind j key = .ok (h', new, p) →
      ∀ later, Relation.ReflTransGen (LHash.Step kind) h' later → LHash.Decodes kind later p key := by
  constructor
  · intro block after hblock
    obtain ⟨b, hnew, hb⟩ := LHashBytes.newNode_laysOut kind after hblock
    refine ⟨b, hnew, fun hlong => ?_, hb.decodes ⟨rfl, rfl, hkey⟩⟩
    have hlen := hb.len
    rw [if_neg (Nat.not_le.mpr hlong), ite_self] at hlen
    exact UInt8.toNat_inj.mp hlen
  · intro h j h' new p hnew later hlater
    exact (LHash.has_later (LHash.newNode_has hkey hnew) hlater).decodes

def LHash.longKey : Bytes := List.replicate 256 97

def LHash.threeSlots : LHash :=
  ⟨[], [none, none, none], 3, 0, 2, 3 / 4, ⟨0, 0, 0, 0, 0, 0, 0⟩, 0, 0⟩

set_option maxRecDepth 8000 in
open LHash in
theorem lhash_node_decodes_long :
    (∃ b, LHashBytes.newNode false (List.replicate 300 1) longKey 256 = some b ∧ b.len = 0 ∧
      b.keyLength false = some 256 ∧ b.eq false (longKey ++ [47]) 256 = some true ∧
      b.eq false (List.replicate 255 97 ++ [97, 97]) 255 = some false) ∧
    ∃ h later, threeSlots.newNode ⟨false, 1⟩ 0 longKey = .ok (h, true, 1) ∧
      h.insertWith ⟨false, 1⟩ ⟨fun _ => .ok 1, fun _ => .ok 5⟩ [98] = .ok (later, true, 2) ∧
      later.eq ⟨false, 1⟩ 1 longKey = .ok true ∧
      later.eq ⟨false, 1⟩ 1 (List.replicate 255 97) = .ok false := by
  have hnul : ∀ n, 0 ∉ List.replicate n (97 : UInt8) := fun n h =>
    absurd (List.eq_of_mem_replicate h) (by decide)
  have hlen : longKey.length = 256 := List.length_replicate
  have hne : longKey ≠ List.replicate 255 97 := fun heq => by
    have hlen' := congrArg List.length heq
    rw [hlen, List.length_replicate] at hlen'
    omega
  have hkey : 0 ∉ longKey := hnul 256
  obtain ⟨hmem, htable⟩ := lhash_node_decodes ⟨false, 1⟩ hkey
  have hfollows : ∀ after, LHashBytes.Follows false after := fun _ h => absurd h (by decide)
  constructor
  · have hblock : longKey.length < (List.replicate 300 (1 : UInt8)).length := by
      rw [hlen, List.length_replicate]
      omega
    obtain ⟨b, hnew, hzero, hdec⟩ := hmem (List.replicate 300 1) [] hblock
    rw [List.append_nil, hlen] at hnew
    refine ⟨b, hnew, hzero (by omega), hlen ▸ hdec.keyLength, ?_, ?_⟩
    · have heq := hdec.eq longKey [47] hkey (hfollows _)
      rwa [decide_eq_true rfl, hlen] at heq
    · have heq := hdec.eq (List.replicate 255 97) [97, 97] (hnul 255) (hfollows _)
      rwa [decide_eq_false hne, List.length_replicate] at heq
  · obtain ⟨h, later, hnew, hins⟩ :
        ∃ h later, threeSlots.newNode ⟨false, 1⟩ 0 longKey = .ok (h, true, 1) ∧
          h.insertWith ⟨false, 1⟩ ⟨fun _ => .ok 1, fun _ => .ok 5⟩ [98] = .ok (later, true, 2) :=
      ⟨_, _, rfl, rfl⟩
    have hdec := htable threeSlots 0 h true 1 hnew later (.single (.insert hins))
    refine ⟨h, later, hnew, hins, ?_, ?_⟩
    · rw [hdec.eq longKey hkey, decide_eq_true rfl]
    · rw [hdec.eq _ (hnul 255), decide_eq_false hne]

end PathSet
