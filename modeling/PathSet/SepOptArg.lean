import PathSet.OptArg
import PathSet.Library.SortedBy

/-!
The argument of the option that gives the separators. It must contain a slash and no byte
twice. Repeated bytes are found in a sorted copy, whose bytes are compared as signed ones.
-/

namespace PathSet
open Fallible

def signedChar (c : UInt8) : Int := c.toInt8.toInt

theorem signedChar_injective : Function.Injective signedChar := by
  intro a b h
  have heq : a.toInt8 = b.toInt8 := Int8.toInt_inj.mp h
  simpa using congrArg Int8.toUInt8 heq

def readByte (t : Bytes) (i : Nat) : Outcome UInt8 :=
  match t[i]? with
  | some c => .ok c
  | none => .error .stray

def writeByte (t : Bytes) (i : Nat) (c : UInt8) : Outcome Bytes :=
  if i < t.length then .ok (t.set i c) else .error .stray

def shiftLoop (c : UInt8) : Nat → Bytes → Outcome (Bytes × Nat)
  | 0, t => pure (t, 0)
  | q + 1, t => do
      let d ← readByte t q
      if signedChar c < signedChar d then do
        let t ← writeByte t (q + 1) d
        shiftLoop c q t
      else pure (t, q + 1)

def sortLoop (n : Nat) : Nat → Nat → Bytes → Outcome Bytes
  | 0, _, _ => .error .hang
  | fuel + 1, p, t =>
      if p < n then do
        let c ← readByte t p
        let (t, q) ← shiftLoop c p t
        let t ← writeByte t q c
        sortLoop n fuel (p + 1) t
      else pure t

def insertionSort (t : Bytes) : Outcome Bytes := sortLoop t.length (t.length + 1) 1 t

def scanLoop (t : Bytes) (n : Nat) : Nat → Nat → Nat → Outcome Nat
  | 0, _, _ => .error .hang
  | fuel + 1, p, q =>
      if p < n then do
        let c ← readByte t p
        let d ← readByte t q
        if c = d then pure p else scanLoop t n fuel (p + 1) (q + 1)
      else pure p

/-- `parse_sep_set_optarg`, where `malloc` is taken to succeed. -/
def parseSepSetOptarg (optName : String) : Option Bytes → OptOutcome (Option Bytes)
  | none => pure none
  | some optArg => do
      let n := optArg.length
      refuse (n = 0 ∨ 47 ∉ optArg) (.invalid optName optArg)
      if n = 1 then pure (some optArg)
      else do
        ofOutcome (ensure "malloc failed" (n ≤ sizeMax))
        let t ← ofOutcome (insertionSort optArg)
        let p ← ofOutcome (scanLoop t n n 1 0)
        refuse (p < n) (.illegal optName optArg)
        pure (some optArg)

theorem readByte_append (l : Bytes) (c : UInt8) (r : Bytes) :
    readByte (l ++ c :: r) l.length = .ok c := by
  rw [readByte, List.getElem?_append_right (le_refl _), Nat.sub_self, List.getElem?_cons_zero]

theorem writeByte_append (l : Bytes) (x c : UInt8) (r : Bytes) :
    writeByte (l ++ x :: r) l.length c = .ok (l ++ c :: r) := by
  rw [writeByte, if_pos (by simp), List.set_append_right _ _ (le_refl _), Nat.sub_self,
    List.set_cons_zero]

theorem shiftLoop_spec (c : UInt8) (l : Bytes) (x : UInt8) (r : Bytes) :
    ∃ l₁ l₂ y, l = l₁ ++ l₂ ∧
      shiftLoop c l.length (l ++ x :: r) = .ok (l₁ ++ y :: (l₂ ++ r), l₁.length) ∧
      (∀ d ∈ l₁.getLast?, signedChar d ≤ signedChar c) ∧
      ∀ d ∈ l₂, signedChar c ≤ signedChar d := by
  induction l using List.reverseRecOn generalizing x r with
  | nil => exact ⟨[], [], x, rfl, rfl, by simp, by simp⟩
  | append_singleton l d ih =>
    have hlen : (l ++ [d]).length = l.length + 1 := List.length_append
    have hread : readByte (l ++ [d] ++ x :: r) l.length = .ok d := by
      rw [List.append_assoc]
      exact readByte_append l d _
    rw [hlen, shiftLoop, hread, ok_bind]
    by_cases hlt : signedChar c < signedChar d
    · have hwrite : writeByte (l ++ [d] ++ x :: r) (l.length + 1) d = .ok (l ++ d :: (d :: r)) := by
        rw [← hlen, writeByte_append, List.append_assoc]
        rfl
      obtain ⟨l₁, l₂, y, hl, hrun, hbefore, hbehind⟩ := ih d (d :: r)
      refine ⟨l₁, l₂ ++ [d], y, by rw [hl, List.append_assoc], ?_, hbefore, fun e he => ?_⟩
      · rw [if_pos hlt, hwrite, ok_bind, hrun, List.append_assoc]
        rfl
      · rcases List.mem_append.mp he with he | he
        · exact hbehind e he
        · exact List.mem_singleton.mp he ▸ hlt.le
    · refine ⟨l ++ [d], [], x, (List.append_nil _).symm, ?_, fun e he => ?_, by simp⟩
      · rw [if_neg hlt, hlen]
        rfl
      · rw [List.getLast?_concat] at he
        exact Option.some.inj he ▸ Int.not_lt.mp hlt

theorem sortLoop_spec {a b : Bytes} {fuel : Nat} (hsorted : a.SortedBy signedChar)
    (hfuel : b.length < fuel) :
    ∃ t, sortLoop (a.length + b.length) fuel a.length (a ++ b) = .ok t ∧ t.Perm (a ++ b) ∧
      t.SortedBy signedChar := by
  induction b generalizing a fuel with
  | nil =>
    cases fuel with
    | zero => omega
    | succ fuel =>
      refine ⟨a ++ [], ?_, List.Perm.refl _, by rwa [List.append_nil]⟩
      rw [sortLoop, if_neg (by simp)]
      rfl
  | cons c b ih =>
    cases fuel with
    | zero => omega
    | succ fuel =>
      obtain ⟨l₁, l₂, y, hl, hshift, hbefore, hbehind⟩ := shiftLoop_spec c a c b
      have hwrite : writeByte (l₁ ++ y :: (l₂ ++ b)) l₁.length c =
          .ok ((l₁ ++ c :: l₂) ++ b) := by
        rw [writeByte_append, List.append_assoc, List.cons_append]
      have hlen : (l₁ ++ c :: l₂).length = a.length + 1 := by
        rw [hl, List.length_append, List.length_append, List.length_cons, Nat.add_assoc]
      have hperm : (l₁ ++ c :: l₂).Perm (a ++ [c]) := by
        rw [hl]
        exact List.perm_middle.trans (List.perm_append_singleton c (l₁ ++ l₂)).symm
      have hsorted' : (l₁ ++ c :: l₂).SortedBy signedChar :=
        List.SortedBy.insert (hl ▸ hsorted) hbefore hbehind
      obtain ⟨t, hrun, ht, hts⟩ := ih hsorted' (Nat.lt_of_succ_lt_succ hfuel)
      refine ⟨t, ?_, ht.trans ?_, hts⟩
      · have hn : a.length + (c :: b).length = (l₁ ++ c :: l₂).length + b.length := by
          rw [hlen, List.length_cons]
          omega
        rw [sortLoop, if_pos (by simp), readByte_append, ok_bind, hshift, ok_bind]
        simp only [hwrite, ok_bind]
        rw [hn, ← hlen, hrun]
      · simpa using hperm.append_right b

theorem insertionSort_spec (s : Bytes) :
    ∃ t, insertionSort s = .ok t ∧ t.Perm s ∧ t.SortedBy signedChar := by
  cases s with
  | nil => exact ⟨[], rfl, List.Perm.refl _, List.Pairwise.nil⟩
  | cons c s =>
    have hone : List.SortedBy signedChar [c] := List.pairwise_singleton _ c
    obtain ⟨t, hrun, ht⟩ := sortLoop_spec hone (show s.length < (c :: s).length + 1 by simp)
    refine ⟨t, ?_, ht⟩
    rw [insertionSort, ← hrun, List.length_cons, List.length_singleton, Nat.add_comm s.length 1]
    rfl

theorem scanLoop_spec {l : Bytes} {c : UInt8} {r : Bytes} {fuel : Nat} (hfuel : r.length < fuel) :
    ∃ p, scanLoop (l ++ c :: r) (l ++ c :: r).length fuel (l.length + 1) l.length = .ok p ∧
      (p < (l ++ c :: r).length ↔ ¬(c :: r).IsChain (· ≠ ·)) := by
  induction r generalizing l c fuel with
  | nil =>
    cases fuel with
    | zero => omega
    | succ fuel =>
      refine ⟨l.length + 1, ?_, by simp⟩
      rw [scanLoop, if_neg (by simp)]
      rfl
  | cons d r ih =>
    cases fuel with
    | zero => omega
    | succ fuel =>
      have hassoc : l ++ c :: d :: r = (l ++ [c]) ++ d :: r := by simp
      have hlen : (l ++ [c]).length = l.length + 1 := List.length_append
      have hread : readByte (l ++ c :: d :: r) (l.length + 1) = .ok d := by
        have hat := readByte_append (l ++ [c]) d r
        rwa [← hassoc, hlen] at hat
      have hlt : l.length + 1 < (l ++ c :: d :: r).length := by
        rw [List.length_append, List.length_cons, List.length_cons]
        omega
      rw [scanLoop, if_pos hlt, hread, ok_bind, readByte_append, ok_bind]
      by_cases heq : d = c
      · refine ⟨l.length + 1, if_pos heq, ⟨fun _ hchain => ?_, fun _ => hlt⟩⟩
        exact (List.isChain_cons_cons.mp hchain).1 heq.symm
      · obtain ⟨p, hrun, hp⟩ := @ih (l ++ [c]) d fuel (Nat.lt_of_succ_lt_succ hfuel)
        rw [← hassoc, hlen] at hrun
        rw [← hassoc] at hp
        refine ⟨p, by rw [if_neg heq, hrun], hp.trans (not_congr ?_)⟩
        rw [List.isChain_cons_cons]
        exact ⟨fun h => ⟨Ne.symm heq, h⟩, And.right⟩

theorem scanLoop_sorted {t : Bytes} (ht : t.SortedBy signedChar) (hlen : 1 < t.length) :
    ∃ p, scanLoop t t.length t.length 1 0 = .ok p ∧ (p < t.length ↔ ¬t.Nodup) := by
  cases t with
  | nil => cases hlen
  | cons c r =>
    obtain ⟨p, hrun, hp⟩ := @scanLoop_spec [] c r (c :: r).length (by simp)
    exact ⟨p, hrun, hp.trans (not_congr (ht.nodup_iff signedChar_injective).symm)⟩

theorem parseSepSetOptarg_eq (optName : String) {s : Bytes} (hlen : s.length ≤ sizeMax) :
    parseSepSetOptarg optName (some s) =
      if 47 ∈ s then
        if s.Nodup then .ok (some s) else .error (.illegal optName s)
      else .error (.invalid optName s) := by
  rw [parseSepSetOptarg]
  by_cases hslash : 47 ∈ s
  · have hpos : 0 < s.length := List.length_pos_of_mem hslash
    rw [refuse_of_not (not_or.mpr ⟨hpos.ne', not_not.mpr hslash⟩), ok_bind,
      if_pos hslash]
    by_cases hone : s.length = 1
    · obtain ⟨c, rfl⟩ := List.length_eq_one_iff.mp hone
      rw [if_pos hone, if_pos (List.nodup_singleton c)]
      rfl
    · obtain ⟨t, hsort, hperm, hsorted⟩ := insertionSort_spec s
      obtain ⟨p, hscan, hp⟩ := scanLoop_sorted hsorted (by rw [hperm.length_eq]; omega)
      rw [hperm.length_eq] at hscan hp
      rw [hperm.nodup_iff] at hp
      have hsort' : ofOutcome (insertionSort s) = .ok t := congrArg ofOutcome hsort
      have hscan' : ofOutcome (scanLoop t s.length s.length 1 0) = .ok p := congrArg ofOutcome hscan
      have hmalloc : ofOutcome (ensure "malloc failed" (s.length ≤ sizeMax)) = .ok () :=
        congrArg ofOutcome (ensure_of hlen)
      rw [if_neg hone, hmalloc, ok_bind, hsort', ok_bind, hscan', ok_bind]
      by_cases hnodup : s.Nodup
      · rw [refuse_of_not (by rwa [hp, not_not]), if_pos hnodup]
        rfl
      · rw [refuse_of (hp.mpr hnodup), if_neg hnodup]
        rfl
  · rw [refuse_of (Or.inr hslash), if_neg hslash]
    rfl

/-- A set of separators is accepted just when it has a slash and no byte twice. The sorted
copy is a permutation, and no access leaves it. -/
theorem sep_set_optarg_iff (optName : String) (s : Bytes) (hlen : s.length ≤ sizeMax) :
    (∃ t, insertionSort s = .ok t ∧ t.Perm s ∧ t.SortedBy signedChar) ∧
    (parseSepSetOptarg optName (some s) = .ok (some s) ↔ 47 ∈ s ∧ s.Nodup) ∧
    (¬(47 ∈ s ∧ s.Nodup) →
      parseSepSetOptarg optName (some s) = .error (.invalid optName s) ∨
        parseSepSetOptarg optName (some s) = .error (.illegal optName s)) := by
  refine ⟨insertionSort_spec s, ?_, fun hbad => ?_⟩
  · rw [parseSepSetOptarg_eq optName hlen]
    split_ifs with hslash hnodup
    · exact ⟨fun _ => ⟨hslash, hnodup⟩, fun _ => rfl⟩
    · exact ⟨False.elim, fun h => absurd h.2 hnodup⟩
    · exact ⟨False.elim, fun h => absurd h.1 hslash⟩
  · rw [parseSepSetOptarg_eq optName hlen]
    split_ifs with hslash hnodup
    · exact absurd ⟨hslash, hnodup⟩ hbad
    · exact Or.inr rfl
    · exact Or.inl rfl

theorem sep_set_optarg_default :
    (∃ t, insertionSort [47, 46, 45] = .ok t ∧ t.Perm [47, 46, 45] ∧ t.SortedBy signedChar) ∧
      parseSepSetOptarg "sep-set" (some [47, 46, 45]) = .ok (some [47, 46, 45]) := by
  obtain ⟨hsort, hiff, -⟩ := sep_set_optarg_iff "sep-set" [47, 46, 45] (by decide)
  exact ⟨hsort, hiff.mpr (by decide)⟩

example : insertionSort [47, 200, 65, 128] = .ok [128, 200, 47, 65] := by decide

structure ArgText (s : Bytes) : Prop where
  nul : 0 ∉ s
  length : s.length ≤ sizeMax

theorem parseSuSizeOptarg_range {optName : String} {s : Bytes} {v maxSize : Nat}
    (hmax : maxSize ≤ sizeMax) (h : parseSuSizeOptarg optName s maxSize = .ok v) :
    0 < v ∧ v ≤ maxSize := by
  rcases parseSuSizeOptarg_cases optName s hmax with ⟨w, hw, -, hrange⟩ | herr | herr
  · exact Except.ok.inj (hw.symm.trans h) ▸ hrange
  · cases herr.symm.trans h
  · cases herr.symm.trans h

theorem parseSepSetOptarg_accepts {optName : String} {s : Bytes} (hs : ArgText s)
    {v : Option Bytes} (h : parseSepSetOptarg optName (some s) = .ok v) :
    ∀ t ∈ v, 47 ∈ t ∧ t.Nodup ∧ 0 ∉ t := by
  rw [parseSepSetOptarg_eq optName hs.length] at h
  split_ifs at h with hslash hnodup
  cases h
  intro t ht
  obtain rfl := Option.some.inj ht
  exact ⟨hslash, hnodup, hs.nul⟩

end PathSet
