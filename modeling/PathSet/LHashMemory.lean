import PathSet.LHashRuns

/-!
The bytes a linear table claims, and the bytes its statistics tell. `LHASH_GET_STRUCT_MEM`
counts the free slots only, so a slot is no longer told once a node is in it.
-/

namespace PathSet
open Fallible Pointer ProbeTable FirstSeen Numbered

namespace LHash

/-- `LHASH_GET_STRUCT_MEM` with slots of eight bytes. The size of the structure itself
is a parameter. -/
def getStructMem (typeSize : Nat) (h : LHash) : Outcome Nat := do
  h.assertInvariants
  let r ← sizeMul (h.size - h.used) 8
  sizeAdd r typeSize

def getParamNodeMem (kind : LHashKind) (h : LHash) : Outcome Nat := do
  let n ← sizeMul h.nodeStruct kind.nodeSize
  sizeAdd n h.nodeMem

def getParamTotalNodeMem (kind : LHashKind) (h : LHash) : Outcome Nat := h.getParamNodeMem kind

def getParamTotalMem (kind : LHashKind) (typeSize : Nat) (h : LHash) : Outcome Nat := do
  let n ← h.getParamTotalNodeMem kind
  let s ← h.getStructMem typeSize
  sizeAdd n s

/-- The bytes that are claimed: the nodes, all slots, and the structure. -/
def claimed (kind : LHashKind) (typeSize : Nat) (h : LHash) : Nat :=
  h.nodeStruct * kind.nodeSize + h.nodeMem + (h.size * 8 + typeSize)

theorem totalMem_spec {kind : LHashKind} {typeSize m : Nat} {h : LHash}
    (hm : h.getParamTotalMem kind typeSize = .ok m) : m + h.used * 8 = h.claimed kind typeSize := by
  obtain ⟨n, hn, hm⟩ := bind_eq_ok.mp hm
  obtain ⟨s, hs, hm⟩ := bind_eq_ok.mp hm
  obtain ⟨nodes, hnodes, hn⟩ := bind_eq_ok.mp hn
  obtain ⟨u, hassert, hs⟩ := bind_eq_ok.mp hs
  obtain ⟨slots, hslots, hs⟩ := bind_eq_ok.mp hs
  have hused : h.used < h.size := by
    obtain ⟨-, -, hassert⟩ := bind_eq_ok.mp hassert
    exact of_assert hassert
  have hfree : (h.size - h.used) * 8 + h.used * 8 = h.size * 8 := by
    rw [← Nat.add_mul, Nat.sub_add_cancel hused.le]
  rw [eq_of_sizeAdd hm, eq_of_sizeAdd hn, eq_of_sizeAdd hs, eq_of_sizeMul hnodes,
    eq_of_sizeMul hslots, claimed]
  omega

theorem insert_cases {kind : LHashKind} {h h' : LHash} {key : Bytes} {new : Bool} {p : Nat}
    (hins : h.insert kind key = .ok (h', new, p)) :
    (new = false ∧ h' = { h with stats := h'.stats } ∧ h.lookup kind key = .ok (some p)) ∨
      (new = true ∧ h.lookup kind key = .ok none ∧ h'.used = h.used + 1 ∧
        h'.nodeStruct = h.nodeStruct + 1 ∧ h'.nodeMem = h.nodeMem + (key.length + 1)) := by
  rcases insertWith_cases hins with hfound | ⟨hlookup, h₁, j, hframe, hnew⟩
  · exact Or.inl hfound
  · right
    obtain ⟨hnew, -, hmade⟩ := newNode_frame hnew
    refine ⟨hnew, hlookup, ?_, ?_, ?_⟩
    all_goals rw [hmade, hframe]

def insertKey (kind : LHashKind) (h : LHash) (key : Bytes) : Outcome (LHash × Bytes × Bool) := do
  let (h, new, _) ← h.insert kind key
  pure (h, key, new)

/-- The total changes by the bytes of the new node, if any, and of the slots that are new. -/
def Accounts (kind : LHashKind) (typeSize : Nat) (h h' : LHash) (y : Bytes × Bool) : Prop :=
  ∃ m m', h.getParamTotalMem kind typeSize = .ok m ∧ h'.getParamTotalMem kind typeSize = .ok m' ∧
    (m' : Int) = m + (if y.2 then kind.nodeSize + (y.1.length + 1) else 0) +
      8 * ((h'.size : Int) - h.size)

theorem accounts_iff {kind : LHashKind} {typeSize m : Nat} {h h' : LHash} {key : Bytes}
    {y : Bytes × Bool} (hm : h.getParamTotalMem kind typeSize = .ok m)
    (hins : h.insertKey kind key = .ok (h', y)) :
    Accounts kind typeSize h h' y ↔ ∃ p, h.lookup kind key = .ok (some p) := by
  obtain ⟨⟨h₁, new, p⟩, hrun, hy⟩ := bind_eq_ok.mp hins
  obtain ⟨rfl, rfl⟩ := Prod.mk.inj (Except.ok.inj hy)
  rcases insert_cases hrun with ⟨rfl, heq, hlook⟩ | ⟨rfl, hlook, hused, hstruct, hmem⟩
  · have hm' : h₁.getParamTotalMem kind typeSize = .ok m := by
      rw [heq]
      exact hm
    have hsize : h₁.size = h.size := by rw [heq]
    exact iff_of_true ⟨m, m, hm, hm', by simp [hsize]⟩ ⟨p, hlook⟩
  · refine iff_of_false ?_ fun ⟨q, hq⟩ => ?_
    · -- the new node is counted, and the slot it is in no longer
      rintro ⟨m₀, m', hm₀, hm', hchange⟩
      have hbefore := totalMem_spec hm₀
      have hafter := totalMem_spec hm'
      rw [claimed, hused, hstruct, hmem, Nat.add_mul, Nat.add_mul] at hafter
      rw [claimed] at hbefore
      simp only [if_true] at hchange
      omega
    · rw [hlook] at hq
      cases hq

theorem insert_of_lookup {kind : LHashKind} {h : LHash} {key : Bytes} {p : Nat}
    (hlook : h.lookup kind key = .ok (some p)) :
    ∃ stats, h.insertKey kind key = .ok ({ h with stats := stats }, key, false) := by
  obtain ⟨⟨⟩, hassert, hlook⟩ := bind_eq_ok.mp hlook
  obtain ⟨⟨j, r, n⟩, hprobe, hr⟩ := bind_eq_ok.mp hlook
  obtain rfl : r = some p := Except.ok.inj hr
  obtain ⟨ne, hrun⟩ := (probe_ends hprobe).2 h.stats.insertNe
  refine ⟨{ h.stats with
    insertNe := ne, dupsNode := h.stats.dupsNode + 1, insertEq := h.stats.insertEq + 1 }, ?_⟩
  simp only [insertKey, insert, insertWith, hassert, ok_bind, hrun, pure_eq_ok]

theorem meets_accounts_iff {kind : LHashKind} {typeSize m : Nat} {h : LHash}
    (hm : h.getParamTotalMem kind typeSize = .ok m) (past : List (Bytes × Bool))
    (keys : List Bytes) :
    Meets (insertKey kind) (fun _ => Accounts kind typeSize) past h keys ↔
      ∀ key ∈ keys, ∃ p, h.lookup kind key = .ok (some p) := by
  induction keys generalizing h past with
  | nil => simp [Meets]
  | cons key keys ih =>
    rw [List.forall_mem_cons]
    constructor
    · rintro ⟨h', y, hins, hacc, hrest⟩
      obtain ⟨p, hp⟩ := (accounts_iff hm hins).mp hacc
      obtain ⟨stats, hins'⟩ := insert_of_lookup hp
      obtain ⟨rfl, -⟩ := Prod.mk.inj (Except.ok.inj (hins.symm.trans hins'))
      exact ⟨⟨p, hp⟩, (ih (h := { h with stats := stats }) hm _).mp hrest⟩
    · rintro ⟨⟨p, hp⟩, hkeys⟩
      obtain ⟨stats, hins⟩ := insert_of_lookup hp
      exact ⟨_, _, hins, (accounts_iff hm hins).mpr ⟨p, hp⟩,
        (ih (h := { h with stats := stats }) hm _).mpr hkeys⟩

theorem used_le_of_run {kind : LHashKind} {h h' : LHash} {keys : List Bytes}
    {rs : List (Bool × Nat)} (hrun : run (insert kind) h keys = .ok (h', rs)) :
    h.used ≤ h'.used := by
  have keep : ∀ (_past : List Bytes) (s : LHash) (key : Bytes) (s' : LHash) (y : Bool × Nat),
      h.used ≤ s.used → True → s.insert kind key = .ok (s', y) → h.used ≤ s'.used := by
    intro _ s key s' y hle _ hins
    rcases insert_cases hins with ⟨-, heq, -⟩ | ⟨-, -, hused, -⟩
    · rw [heq]
      exact hle
    · omega
  exact @run_history _ _ _ _ _ (fun _ s => h.used ≤ s.used) _ keep [] _ _ _ _ (le_refl _)
    (fun _ _ => trivial) hrun

theorem used_eq_zero_iff {kind : LHashKind} {h₀ h : LHash} (hh : Holds kind h₀ [])
    {past : List Bytes} {rs : List (Bool × Nat)}
    (hrun : run (insert kind) h₀ past = .ok (h, rs)) : h.used = 0 ↔ past = [] := by
  cases past with
  | nil =>
    obtain ⟨rfl, -⟩ := Prod.mk.inj (Except.ok.inj hrun)
    exact iff_of_true hh.used rfl
  | cons key past =>
    obtain ⟨h₁, ⟨new, p⟩, _, hins, hrest, -⟩ := run_eq_cons hrun
    have hle := used_le_of_run hrest
    refine iff_of_false ?_ (List.cons_ne_nil _ _)
    rcases insert_cases hins with ⟨-, -, hlook⟩ | ⟨-, -, hused, -⟩
    · obtain ⟨⟨j, r, n⟩, hprobe, hr⟩ := bind_eq_ok.mp (bind_eq_ok.mp hlook).choose_spec.2
      obtain rfl : r = some p := Except.ok.inj hr
      have hmem : p ∈ items h₀.table := mem_items.mpr ⟨j, (probe_ends hprobe).1⟩
      obtain ⟨k, hk⟩ := hh.mem_items.mp hmem
      simp at hk
    · omega

theorem lookup_iff {kind : LHashKind} {opt : Options} (hopt : opt.Accepted) {h₀ h : LHash}
    (hinit : init opt = .ok h₀) {past : List Bytes} {rs : List (Bool × Nat)}
    (hrun : run (insert kind) h₀ past = .ok (h, rs)) (hpast : ∀ k ∈ past, 0 ∉ k) {key : Bytes}
    (hkey : 0 ∉ key) : (∃ p, h.lookup kind key = .ok (some p)) ↔ key ∈ past := by
  obtain ⟨h₁, hinit₁, hholds, -⟩ := init_numbered kind hopt
  obtain rfl := Except.ok.inj (hinit.symm.trans hinit₁)
  have keep : ∀ (past : List Bytes) s k s' y, (numbered kind).Holds s (firsts past) → 0 ∉ k →
      s.insert kind k = .ok (s', y) → (numbered kind).Holds s' (firsts (past ++ [k])) := by
    intro past s k s' y hs hk hins
    rw [firsts_concat]
    rcases (numbered kind).insert_spec hs hk with
      ⟨t, p, hins', hp, ht, -⟩ | ⟨hnew, ⟨e, -, he⟩ | ⟨t, hins', ht, -⟩⟩
    · obtain ⟨rfl, -⟩ := Prod.mk.inj (Except.ok.inj (hins.symm.trans hins'))
      rwa [if_pos (mem_firsts.mp (mem_of_deref hp))]
    · cases hins.symm.trans he
    · obtain ⟨rfl, -⟩ := Prod.mk.inj (Except.ok.inj (hins.symm.trans hins'))
      rwa [if_neg fun hin => hnew (mem_firsts.mpr hin)]
  have hs : (numbered kind).Holds h (firsts ([] ++ past)) := run_history keep hholds hpast hrun
  rw [lookup_holds hs.1 hkey]
  by_cases hin : key ∈ past
  · simp [hin]
  · simp [hin]

end LHash

open LHash in
/-- The total tells the bytes that are claimed just as long as the table is empty. From
any table a run of insertions makes, further ones account for their bytes just when they
find all their keys, that is, when these have been inserted before. -/
theorem lhash_total_mem_iff (kind : LHashKind) (typeSize : Nat) {opt : Options}
    (hopt : opt.Accepted) {h₀ : LHash} (hinit : init opt = .ok h₀) {past : List Bytes} {h : LHash}
    {rs : List (Bool × Nat)} (hrun : run (insert kind) h₀ past = .ok (h, rs)) {m : Nat}
    (hm : h.getParamTotalMem kind typeSize = .ok m) :
    (m = h.claimed kind typeSize ↔ past = []) ∧
      (∀ keys, Meets (insertKey kind) (fun _ => Accounts kind typeSize) [] h keys ↔
        ∀ key ∈ keys, ∃ p, h.lookup kind key = .ok (some p)) ∧
      ((∀ k ∈ past, 0 ∉ k) → ∀ key, 0 ∉ key →
        ((∃ p, h.lookup kind key = .ok (some p)) ↔ key ∈ past)) := by
  refine ⟨?_, meets_accounts_iff hm [], fun hpast key hkey => lookup_iff hopt hinit hrun hpast hkey⟩
  have htotal := totalMem_spec hm
  rw [← used_eq_zero_iff (init_holds kind hinit).1 hrun]
  omega

def LHash.table37Used : LHash :=
  ⟨[⟨0, 0, [97, 0]⟩], (List.replicate 37 none).set 17 (some 1), 37, 1, 2, 3 / 4,
    ⟨0, 0, 0, 0, 0, 1, 0⟩, 1, 2⟩

open LHash in
theorem lhash_total_mem_again :
    Meets (insertKey ⟨true, 8⟩) (fun _ => Accounts ⟨true, 8⟩ 96) [] table37Used [[97], [97]] := by
  have hopt : (⟨32, none, none, MB 1, MB 1, none⟩ : Options).Accepted :=
    ⟨by decide, by simp, by simp, by decide, by decide, by simp⟩
  have hrun : run (LHash.insert ⟨true, 8⟩) table37 [[97]] = .ok (table37Used, [(true, 1)]) := by
    decide +kernel
  refine ((lhash_total_mem_iff ⟨true, 8⟩ 96 hopt rfl hrun (m := 394) rfl).2.1 _).mpr ?_
  intro key hkey
  obtain rfl : key = [97] := by simpa using hkey
  exact ⟨1, by decide +kernel⟩

open LHash in
/-- The first node claims ten bytes and changes the total by two. The size of `struct lhash_t` is a
parameter, here 96. -/
theorem lhash_total_mem_first : init ⟨32, none, none, MB 1, MB 1, none⟩ = .ok table37 ∧
    table37.insertKey ⟨true, 8⟩ [97] = .ok (table37Used, [97], true) ∧
    table37.getParamTotalMem ⟨true, 8⟩ 96 = .ok 392 ∧
    table37Used.getParamTotalMem ⟨true, 8⟩ 96 = .ok 394 ∧
    table37Used.claimed ⟨true, 8⟩ 96 = 402 ∧
    ¬Accounts ⟨true, 8⟩ 96 table37 table37Used ([97], true) := by
  refine ⟨rfl, by decide +kernel, rfl, rfl, rfl, ?_⟩
  rintro ⟨m, m', hm, hm', hchange⟩
  obtain rfl : 392 = m := Except.ok.inj hm
  obtain rfl : 394 = m' := Except.ok.inj hm'
  simp [table37, table37Used] at hchange

end PathSet
