import PathSet.Sets

/-!
The sets of lines that print themselves. What is printed has one line for each stored
key, in an order of the structure's own.
-/

namespace PathSet
open Fallible Pointer FirstSeen Numbered TernaryTree

def textLines (ls : List Bytes) : Bytes := ls.flatMap (· ++ [10])

/-- A set with its `SET_PRINT`. It prints a text of its keys, but stops with `trouble`
when one of them is not `Printable`. -/
structure PrintSet (σ : Type) extends SetImpl σ where
  print : σ → Outcome Bytes
  Printable : Bytes → Prop
  trouble : Abort
  print_keys : ∀ {s m keys}, Rep s m → keys.Nodup → (∀ k, (m k).isSome ↔ k ∈ keys) →
    (∀ k ∈ keys, Printable k) → ∃ ls, ls.Perm keys ∧ print s = .ok (textLines ls)
  print_trouble : ∀ {s m k}, Rep s m → (m k).isSome → ¬Printable k → print s = .error trouble

def PrintAlike (x y : Outcome Bytes) (keys : List Bytes) : Prop :=
  ∃ ls ls', x = .ok (textLines ls) ∧ y = .ok (textLines ls') ∧ ls.Perm keys ∧ ls'.Perm keys

namespace PrintSet
variable {σ τ : Type} (S : PrintSet σ) (S' : PrintSet τ)

theorem printAlike_iff {s : σ} {s' : τ} {m m' : Bytes → Option Nat} {keys : List Bytes}
    (h : S.Rep s m) (h' : S'.Rep s' m') (hnd : keys.Nodup) (hm : ∀ k, (m k).isSome ↔ k ∈ keys)
    (hm' : ∀ k, (m' k).isSome ↔ k ∈ keys) :
    PrintAlike (S.print s) (S'.print s') keys ↔ ∀ k ∈ keys, S.Printable k ∧ S'.Printable k := by
  constructor
  · rintro ⟨ls, ls', hls, hls', -, -⟩ k hk
    constructor
    · by_contra hno
      rw [S.print_trouble h ((hm k).mpr hk) hno] at hls
      cases hls
    · by_contra hno
      rw [S'.print_trouble h' ((hm' k).mpr hk) hno] at hls'
      cases hls'
  · intro hall
    obtain ⟨ls, hperm, hprint⟩ := S.print_keys h hnd hm fun k hk => (hall k hk).1
    obtain ⟨ls', hperm', hprint'⟩ := S'.print_keys h' hnd hm' fun k hk => (hall k hk).2
    exact ⟨ls, ls', hprint, hprint', hperm, hperm'⟩

end PrintSet

theorem print_represented {σ : Type} {S : Store σ Bytes Abort} {print : σ → Outcome Bytes}
    (hprint : ∀ {s ks}, S.Holds s ks → ∃ ls, ls.Perm ks ∧ print s = .ok (textLines ls)) {s : σ}
    {m : Bytes → Option Nat} {keys : List Bytes} (h : S.Represents s m) (hnd : keys.Nodup)
    (hdom : ∀ k, (m k).isSome ↔ k ∈ keys) : ∃ ls, ls.Perm keys ∧ print s = .ok (textLines ls) := by
  obtain ⟨ks, hs, hm⟩ := h
  obtain ⟨ls, hperm, hout⟩ := hprint hs
  have hkeys : ks.Perm keys := by
    rw [List.perm_ext_iff_of_nodup hm.nodup hnd]
    intro k
    rw [← hm.isSome_iff, hdom]
  exact ⟨ls, hperm.trans hkeys, hout⟩

def PrintSet.ofStore {σ : Type} (S : Store σ Bytes Abort) (hkey : ∀ k, S.Key k ↔ 0 ∉ k)
    (print : σ → Outcome Bytes)
    (hprint : ∀ {s ks}, S.Holds s ks → ∃ ls, ls.Perm ks ∧ print s = .ok (textLines ls)) :
    PrintSet σ where
  toSetImpl := .ofStore S hkey
  print := print
  Printable _ := True
  trouble := .assertion
  print_keys h hnd hdom _ := print_represented hprint h hnd hdom
  print_trouble _ _ hno := absurd trivial hno

theorem print_items {ks : List Bytes} {ps : List Nat} (hps : ps.Perm (List.range' 1 ks.length))
    {write : Nat → Outcome Bytes} (hwrite : ∀ p k, deref ks p = some k → write p = .ok (k ++ [10])) :
    ∃ ls, ls.Perm ks ∧ writeAll write ps = .ok (textLines ls) := by
  refine ⟨ps.map fun p => (deref ks p).getD [], ?_, ?_⟩
  · have hmap := hps.map fun p => (deref ks p).getD []
    rwa [map_deref_range] at hmap
  · have hall : ∀ p ∈ ps, write p = .ok ((deref ks p).getD [] ++ [10]) := by
      intro p hp
      rw [hps.mem_iff, List.mem_range'_1] at hp
      have hbound : 0 < p ∧ p ≤ ks.length := by omega
      obtain ⟨k, hk⟩ := Option.isSome_iff_exists.mp (deref_isSome.mpr hbound)
      rw [hwrite p k hk, hk, Option.getD_some]
    rw [writeAll_ok hall, textLines, List.flatMap_map]

namespace LHash

theorem printOne_of_holds {kind : LHashKind} {h : LHash} {ks : List Bytes} (hh : Holds kind h ks)
    {p : Nat} {k : Bytes} (hp : deref ks p = some k) : h.printOne p = .ok k := by
  obtain ⟨c, hc, hs⟩ := hh.stores p k hp
  rw [printOne, node, hc, ok_bind, hs.str, takeWhile_terminated hs.noNul]
  rfl

theorem printSlots_eq (h : LHash) (slots : List (Option Nat)) :
    h.printSlots slots =
      writeAll (fun p => do pure ((← h.printOne p) ++ [10])) (ProbeTable.items slots) := by
  induction slots with
  | nil => rfl
  | cons slot slots ih =>
    cases slot with
    | none => exact ih
    | some p =>
      rw [printSlots, ih]
      simp only [ProbeTable.items, List.reduceOption_cons_of_some, writeAll, Fallible.bind_assoc,
        pure_eq_ok, ok_bind]

theorem print_spec {kind : LHashKind} {h : LHash} {ks : List Bytes} (hh : Holds kind h ks) :
    ∃ ls, ls.Perm ks ∧ h.print = .ok (textLines ls) := by
  rw [print, printSlots_eq]
  refine print_items hh.slots fun p k hp => ?_
  rw [printOne_of_holds hh hp]
  rfl

theorem plain_key (size : Nat) (k : Bytes) : (numbered (plainKind size)).Key k ↔ 0 ∉ k := Iff.rfl

theorem plain_print (size : Nat) {s : LHash} {ks : List Bytes}
    (h : (numbered (plainKind size)).Holds s ks) :
    ∃ ls, ls.Perm ks ∧ s.print = .ok (textLines ls) :=
  print_spec h.1

def plainSet (size : Nat) : PrintSet LHash :=
  .ofStore (numbered (plainKind size)) (plain_key size) print (@plain_print size)

end LHash

namespace GHash

theorem printOne_of_holds {kind : GHashKind} {h : GHash} {ks : List Bytes} (hh : Holds kind h ks)
    {p : Nat} {k : Bytes} (hp : deref ks p = some k) : h.printOne p = .ok k := by
  obtain ⟨c, hc, hs⟩ := hh.stores p k hp
  rw [printOne, node, hc, ok_bind, hs.str, LHash.takeWhile_terminated hs.noNul]
  rfl

theorem printNodes_eq (h : GHash) (ps : List Nat) :
    h.printNodes ps = writeAll (fun p => do pure ((← h.printOne p) ++ [10])) ps := by
  induction ps with
  | nil => rfl
  | cons p ps ih =>
    rw [printNodes, ih]
    simp only [writeAll, Fallible.bind_assoc, pure_eq_ok, ok_bind]

theorem print_spec {kind : GHashKind} {h : GHash} {ks : List Bytes} (hh : Holds kind h ks) :
    ∃ ls, ls.Perm ks ∧ h.print = .ok (textLines ls) := by
  rw [print, printNodes_eq]
  refine print_items hh.slots fun p k hp => ?_
  rw [printOne_of_holds hh hp]
  rfl

theorem plain_key (k : Bytes) : (numbered plainKind).Key k ↔ 0 ∉ k := Iff.rfl

theorem plain_print {s : GHash} {ks : List Bytes} (h : (numbered plainKind).Holds s ks) :
    ∃ ls, ls.Perm ks ∧ s.print = .ok (textLines ls) :=
  print_spec h.1

def plainSet : PrintSet GHash := .ofStore (numbered plainKind) plain_key print @plain_print

end GHash

namespace Trie

variable {printOne : Bool} {t : Trie} {m : Bytes → Option Nat}

theorem print_keys {keys : List Bytes} (hrep : Represents printOne t m) (hnd : keys.Nodup)
    (hdom : ∀ k, (m k).isSome ↔ k ∈ keys) (hall : ∀ k ∈ keys, k.length ≤ 2 ^ 31 - 1) :
    ∃ ls, ls.Perm keys ∧ t.print = .ok (textLines ls) := by
  obtain ⟨T, hT, -, hm⟩ := hrep
  have hperm : (bodies 0 T).Perm keys := by
    rw [List.perm_ext_iff_of_nodup (nodup_bodies UInt8.toNat hT.ordered) hnd]
    intro k
    rw [mem_bodies_of_map hT hm, hdom]
  refine ⟨bodies 0 T, hperm, ?_⟩
  rw [print_spec hT, textLines]
  exact writeAll_ok fun b hb => printLine_short (hall b (hperm.subset hb))

theorem print_trouble {k : Bytes} (hrep : Represents printOne t m) (hk : (m k).isSome)
    (hlong : ¬k.length ≤ 2 ^ 31 - 1) : t.print = .error .assertion := by
  obtain ⟨T, hT, -, hm⟩ := hrep
  rw [print_spec hT]
  have hmem := (mem_bodies_of_map hT hm).mpr hk
  refine writeAll_error (fun b _ => ?_) ⟨k, hmem, printLine_long hlong⟩
  by_cases hb : b.length ≤ 2 ^ 31 - 1
  · exact Or.inr ⟨_, printLine_short hb⟩
  · exact Or.inl (printLine_long hb)

def plainSet : PrintSet Trie where
  toSetImpl := plain
  print := print
  Printable k := k.length ≤ 2 ^ 31 - 1
  trouble := .assertion
  print_keys := print_keys
  print_trouble := print_trouble

end Trie

end PathSet
