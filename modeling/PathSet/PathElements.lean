import PathSet.Machine
import Mathlib.Data.List.Basic
import Mathlib.Data.List.Infix

/-!
How a key is cut into path elements. An element ends with the first separator, which
belongs to it, or with the key.
-/

namespace PathSet
open Fallible

/-- The first `d` bytes of `p` are searched for `ch`. -/
def memchr (p : Bytes) (ch : UInt8) (d : Nat) : Option Nat :=
  if (p.take d).idxOf ch < d then some ((p.take d).idxOf ch) else none

/-- `PATH_TRIE_SPLIT`: the length of the first element, and the rest of the key. The
length is below that of the key when it is incremented, so nothing overflows. -/
def split (sepSet key : Bytes) : Outcome (Nat × Bytes) := do
  let n := key.length
  let d := sepSet.foldl (fun d s => (memchr key s d).getD d) n
  assert (d ≤ n)
  if d < n then do
    let d := d + 1
    assert (d ≤ n)
    pure (d, key.drop d)
  else pure (d, key.drop n)

def elements (sepSet : Bytes) : Bytes → List Bytes
  | [] => []
  | ch :: key =>
      if ch ∈ sepSet then [ch] :: elements sepSet key
      else match elements sepSet key with
        | [] => [[ch]]
        | e :: es => (ch :: e) :: es

theorem flatten_elements (sepSet key : Bytes) : (elements sepSet key).flatten = key := by
  induction key with
  | nil => rfl
  | cons ch key ih =>
    rw [elements]
    split_ifs
    · rw [List.flatten_cons, ih, List.singleton_append]
    · cases h : elements sepSet key with
      | nil =>
        rw [h] at ih
        rw [← ih]
        rfl
      | cons e es =>
        rw [h] at ih
        rw [← ih]
        rfl

theorem elements_eq_nil {sepSet key : Bytes} (h : elements sepSet key = []) : key = [] := by
  rw [← flatten_elements sepSet key, h, List.flatten_nil]

theorem elements_injective (sepSet : Bytes) : Function.Injective (elements sepSet) := by
  intro key key' h
  rw [← flatten_elements sepSet key, h, flatten_elements]

theorem notMem_of_mem_elements {sepSet key e : Bytes} {ch : UInt8} (hch : ch ∉ key)
    (he : e ∈ elements sepSet key) : ch ∉ e := by
  intro hmem
  refine hch ?_
  rw [← flatten_elements sepSet key]
  exact List.mem_flatten.mpr ⟨e, he, hmem⟩

theorem ne_nil_of_mem_elements {sepSet key e : Bytes} (he : e ∈ elements sepSet key) : e ≠ [] := by
  induction key generalizing e with
  | nil => simp [elements] at he
  | cons ch key ih =>
    rw [elements] at he
    split_ifs at he
    · rcases List.mem_cons.mp he with rfl | he
      · simp
      · exact ih he
    · cases h : elements sepSet key with
      | nil =>
        rw [h] at he
        obtain rfl := List.mem_singleton.mp he
        simp
      | cons x xs =>
        rw [h] at he ih
        rcases List.mem_cons.mp he with rfl | he
        · simp
        · exact ih (List.mem_cons_of_mem _ he)

theorem sep_notMem_dropLast {sepSet key e : Bytes} {ch : UInt8} (hch : ch ∈ sepSet)
    (he : e ∈ elements sepSet key) : ch ∉ e.dropLast := by
  induction key generalizing e with
  | nil => simp [elements] at he
  | cons a key ih =>
    rw [elements] at he
    split_ifs at he with ha
    · rcases List.mem_cons.mp he with rfl | he
      · simp
      · exact ih he
    · cases h : elements sepSet key with
      | nil =>
        rw [h] at he
        obtain rfl := List.mem_singleton.mp he
        simp
      | cons x xs =>
        rw [h] at he ih
        rcases List.mem_cons.mp he with rfl | he
        · have hx := ih List.mem_cons_self
          have hne : ch ≠ a := fun heq => ha (heq ▸ hch)
          cases x with
          | nil => simp
          | cons b x => simpa [hne] using hx
        · exact ih (List.mem_cons_of_mem _ he)

theorem elements_flatten_take (sepSet key : Bytes) (n : Nat) :
    elements sepSet ((elements sepSet key).take n).flatten = (elements sepSet key).take n := by
  induction key generalizing n with
  | nil => simp [elements]
  | cons ch key ih =>
    cases n with
    | zero => rfl
    | succ n =>
      have hrest := ih n
      have hmore := ih (n + 1)
      by_cases hch : ch ∈ sepSet
      · simp only [elements, if_pos hch, List.take_succ_cons, List.flatten_cons,
          List.singleton_append, hrest]
      · cases h : elements sepSet key with
        | nil => simp [elements, hch, h]
        | cons e es =>
          rw [h, List.take_succ_cons, List.flatten_cons] at hmore
          simp only [elements, if_neg hch, h, List.take_succ_cons, List.flatten_cons,
            List.cons_append, hmore]

theorem idxOf_take_le (key : Bytes) (s : UInt8) (d : Nat) : (key.take d).idxOf s ≤ d :=
  List.idxOf_le_length.trans (List.length_take_le d key)

theorem memchr_getD (key : Bytes) (s : UInt8) (d : Nat) :
    (memchr key s d).getD d = (key.take d).idxOf s := by
  have hle := idxOf_take_le key s d
  rw [memchr]
  split_ifs with h
  · rfl
  · rw [Option.getD_none]
    omega

theorem findIdx_take_idxOf (l sepSet : Bytes) (s : UInt8) :
    (l.take (l.idxOf s)).findIdx (· ∈ sepSet) = l.findIdx (· ∈ s :: sepSet) := by
  induction l with
  | nil => rfl
  | cons a l ih =>
    by_cases ha : a = s
    · simp [ha, List.findIdx_cons]
    · simp only [List.idxOf_cons_ne _ ha, List.take_succ_cons, List.findIdx_cons, ih, List.mem_cons,
        ha, false_or]

theorem foldl_memchr {key : Bytes} (sepSet : Bytes) {d : Nat} (hd : d ≤ key.length) :
    sepSet.foldl (fun d s => (memchr key s d).getD d) d =
      (key.take d).findIdx (· ∈ sepSet) := by
  induction sepSet generalizing d with
  | nil => simp [List.findIdx_eq_length_of_false, hd]
  | cons s sepSet ih =>
    have hle := idxOf_take_le key s d
    rw [List.foldl_cons, memchr_getD, ih (hle.trans hd), ← findIdx_take_idxOf,
      List.take_take, Nat.min_eq_left hle]

def firstLength (sepSet key : Bytes) : Nat :=
  if key.findIdx (· ∈ sepSet) < key.length then key.findIdx (· ∈ sepSet) + 1 else key.length

theorem length_drop_firstLength {sepSet key : Bytes} (h : key ≠ []) :
    (key.drop (firstLength sepSet key)).length < key.length := by
  have hpos := List.length_pos_iff.mpr h
  rw [List.length_drop, firstLength]
  split_ifs <;> omega

theorem elements_eq_cons {sepSet key : Bytes} (h : key ≠ []) :
    elements sepSet key =
      key.take (firstLength sepSet key) :: elements sepSet (key.drop (firstLength sepSet key)) := by
  induction key with
  | nil => exact absurd rfl h
  | cons ch key ih =>
    by_cases hch : ch ∈ sepSet
    · simp [elements, firstLength, hch, List.findIdx_cons]
    · have hfirst : firstLength sepSet (ch :: key) = firstLength sepSet key + 1 := by
        simp only [firstLength, List.findIdx_cons, hch, List.length_cons]
        simp only [decide_false, cond_false, Nat.add_lt_add_iff_right]
        split_ifs <;> rfl
      rw [hfirst, List.take_succ_cons, List.drop_succ_cons, elements, if_neg hch]
      by_cases hkey : key = []
      · subst hkey
        simp [elements]
      · rw [ih hkey]

theorem split_eq (sepSet key : Bytes) :
    split sepSet key = .ok (firstLength sepSet key, key.drop (firstLength sepSet key)) := by
  have hfold := foldl_memchr sepSet (le_refl key.length)
  have hle : key.findIdx (· ∈ sepSet) ≤ key.length := List.findIdx_le_length
  rw [List.take_length] at hfold
  simp only [split, hfold, assert_of hle, ok_bind, firstLength]
  split_ifs with hlt
  · rw [assert_of (show key.findIdx (· ∈ sepSet) + 1 ≤ key.length from hlt)]
    rfl
  · rw [show key.findIdx (· ∈ sepSet) = key.length by omega]
    rfl

end PathSet
