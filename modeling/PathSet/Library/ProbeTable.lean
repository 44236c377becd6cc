import PathSet.Library.Fallible
import Mathlib.Data.List.Perm.Basic
import Mathlib.Data.List.ReduceOption

/-!
Tables probed cyclically downward. A probe starts at the home slot of a key,
goes one slot down at a time and wraps from slot zero to the last one. It ends
at an empty slot, or at an item that passes the test.

The table is settled when every item is reached from its home slot through
occupied slots. An empty slot bounds every probe.
-/

namespace ProbeTable
open Fallible

variable {α ε : Type}

def down (size i : Nat) : Nat := if i = 0 then size - 1 else i - 1

theorem down_lt {size i : Nat} (h : i < size) : down size i < size := by
  unfold down
  split_ifs <;> omega

def items (tbl : List (Option α)) : List α := tbl.reduceOption

theorem mem_items {tbl : List (Option α)} {a : α} :
    a ∈ items tbl ↔ ∃ j : Nat, tbl[j]? = some (some a) := by
  rw [items, List.reduceOption_mem_iff, List.mem_iff_getElem?]

theorem items_replicate (n : Nat) : items (List.replicate n (none : Option α)) = [] := by
  simp [items]

theorem items_set_perm {tbl : List (Option α)} {j : Nat} {a : α} (h : tbl[j]? = some none) :
    (items (tbl.set j (some a))).Perm (a :: items tbl) := by
  induction tbl generalizing j with
  | nil => simp at h
  | cons x tbl ih =>
    cases j with
    | zero =>
      obtain rfl : x = none := by simpa using h
      simp [items]
    | succ j =>
      have hrest := ih (show tbl[j]? = some none by simpa using h)
      cases x with
      | none => simpa [items] using hrest
      | some b =>
        simp only [items, List.set_cons_succ, List.reduceOption_cons_of_some] at hrest ⊢
        exact (hrest.cons b).trans (List.Perm.swap a b _)

theorem exists_empty {tbl : List (Option α)} (h : (items tbl).length < tbl.length) :
    ∃ e : Nat, tbl[e]? = some none := by
  induction tbl with
  | nil => simp at h
  | cons x tbl ih =>
    cases x with
    | none => exact ⟨0, rfl⟩
    | some b =>
      obtain ⟨e, he⟩ := ih (by simpa [items] using h)
      exact ⟨e + 1, by simpa using he⟩

/-- From slot `i` down to slot `j`, all slots before `j` hold items that satisfy `P`. -/
inductive Path (tbl : List (Option α)) (P : α → Prop) : Nat → Nat → Prop
  | here (i : Nat) : Path tbl P i i
  | step {i j : Nat} {a : α} (occupied : tbl[i]? = some (some a)) (pass : P a)
      (rest : Path tbl P (down tbl.length i) j) : Path tbl P i j

theorem Path.mono {tbl : List (Option α)} {P Q : α → Prop} {i j : Nat} (h : Path tbl P i j)
    (hPQ : ∀ a, P a → Q a) : Path tbl Q i j := by
  induction h with
  | here i => exact .here i
  | step occupied pass rest ih => exact .step occupied (hPQ _ pass) ih

theorem Path.set {tbl : List (Option α)} {i j k : Nat} {a : α}
    (h : Path tbl (fun _ => True) i j) (hk : tbl[k]? = some none) :
    Path (tbl.set k (some a)) (fun _ => True) i j := by
  induction h with
  | here i => exact .here i
  | @step i j b occupied pass rest ih =>
    have hne : k ≠ i := by
      rintro rfl
      rw [hk] at occupied
      simp at occupied
    refine .step ((List.getElem?_set_ne hne).trans occupied) trivial ?_
    rwa [List.length_set]

def Settled (home : Nat → α → Nat) (tbl : List (Option α)) : Prop :=
  ∀ (j : Nat) (a : α), tbl[j]? = some (some a) →
    Path tbl (fun _ => True) (home tbl.length a) j

theorem settled_replicate (home : Nat → α → Nat) (n : Nat) :
    Settled home (List.replicate n none) := by
  intro j a h
  simp [List.getElem?_replicate] at h

theorem settled_congr {home home' : Nat → α → Nat} {tbl : List (Option α)}
    (h : Settled home tbl) (same : ∀ a ∈ items tbl, home' tbl.length a = home tbl.length a) :
    Settled home' tbl := by
  intro j a hj
  rw [same a (mem_items.mpr ⟨j, hj⟩)]
  exact h j a hj

theorem settled_set {home : Nat → α → Nat} {tbl : List (Option α)} {j : Nat} {a : α}
    (h : Settled home tbl) (hj : tbl[j]? = some none)
    (hpath : Path tbl (fun _ => True) (home tbl.length a) j) :
    Settled home (tbl.set j (some a)) := by
  intro k b hk
  rw [List.length_set]
  by_cases hkj : j = k
  · subst hkj
    obtain ⟨hlt, -⟩ := List.getElem?_eq_some_iff.mp hj
    rw [List.getElem?_set_self hlt] at hk
    obtain rfl : a = b := by simpa using hk
    exact hpath.set hj
  · rw [List.getElem?_set_ne hkj] at hk
    exact (h k b hk).set hj

theorem Path.no_match {tbl : List (Option α)} {P : α → Prop} {i j k : Nat} {b : α}
    (walked : Path tbl P i j) (hj : tbl[j]? = some none)
    (hpath : Path tbl (fun _ => True) i k) (hk : tbl[k]? = some (some b)) : P b := by
  induction walked with
  | here i =>
    cases hpath with
    | here => simp [hj] at hk
    | step occupied => simp [hj] at occupied
  | step occupied pass rest ih =>
    cases hpath with
    | here =>
      rw [occupied] at hk
      obtain rfl : _ = b := by simpa using hk
      exact pass
    | step _ _ rest' => exact ih hj rest'

/-- Probe from slot `i`. Answers the slot where it ends, what it found there, and
how many items failed the test. -/
def probe (stuck : ε) (test : α → Except ε Bool) (tbl : List (Option α)) :
    Nat → Nat → Nat → Except ε (Nat × Option α × Nat)
  | 0, _, _ => .error stuck
  | fuel + 1, i, n =>
      match tbl[i]? with
      | none => .error stuck
      | some none => .ok (i, none, n)
      | some (some a) => do
          if ← test a then .ok (i, some a, n)
          else probe stuck test tbl fuel (down tbl.length i) (n + 1)

theorem probe_ends {stuck : ε} {test : α → Except ε Bool} {tbl : List (Option α)}
    {fuel i n j m : Nat} {r : Option α} (h : probe stuck test tbl fuel i n = .ok (j, r, m)) :
    tbl[j]? = some r ∧ ∀ n', ∃ m', probe stuck test tbl fuel i n' = .ok (j, r, m') := by
  induction fuel generalizing i n with
  | zero => cases h
  | succ fuel ih =>
    rw [probe] at h
    cases hslot : tbl[i]? with
    | none =>
      rw [hslot] at h
      cases h
    | some slot =>
      rw [hslot] at h
      cases slot with
      | none =>
        cases h
        exact ⟨hslot, fun n' => ⟨n', by simp only [probe, hslot]⟩⟩
      | some a =>
        obtain ⟨b, hb, h⟩ := bind_eq_ok.mp h
        cases b with
        | true =>
          cases h
          exact ⟨hslot, fun n' => ⟨n', by simp only [probe, hslot, hb, ok_bind, if_true]⟩⟩
        | false =>
          obtain ⟨hj, hrest⟩ := ih h
          refine ⟨hj, fun n' => ?_⟩
          obtain ⟨m', hm'⟩ := hrest (n' + 1)
          refine ⟨m', ?_⟩
          simp only [probe, hslot, hb, ok_bind, hm', Bool.false_eq_true, if_false]

private def away (size i e : Nat) : Nat := if e ≤ i then i - e else i + size - e

theorem probe_spec {stuck : ε} {test : α → Except ε Bool} {hit : α → Bool}
    {tbl : List (Option α)} (htest : ∀ a ∈ items tbl, test a = .ok (hit a))
    {e : Nat} (he : tbl[e]? = some none) {i : Nat} (hi : i < tbl.length) (n : Nat) :
    ∃ j r m, probe stuck test tbl tbl.length i n = .ok (j, r, m) ∧ tbl[j]? = some r ∧
      Path tbl (fun a => hit a = false) i j ∧ ∀ a ∈ r, hit a = true := by
  have hlt : e < tbl.length := (List.getElem?_eq_some_iff.mp he).1
  have key : ∀ fuel i n, i < tbl.length → away tbl.length i e < fuel →
      ∃ j r m, probe stuck test tbl fuel i n = .ok (j, r, m) ∧ tbl[j]? = some r ∧
        Path tbl (fun a => hit a = false) i j ∧ ∀ a ∈ r, hit a = true := by
    intro fuel
    induction fuel with
    | zero => exact fun _ _ _ h => absurd h (Nat.not_lt_zero _)
    | succ fuel ih =>
      intro i n hi hfuel
      obtain ⟨slot, hslot⟩ : ∃ slot, tbl[i]? = some slot := ⟨_, List.getElem?_eq_getElem hi⟩
      cases slot with
      | none => exact ⟨i, none, n, by simp [probe, hslot], hslot, .here i, by simp⟩
      | some a =>
        have hmem : a ∈ items tbl := mem_items.mpr ⟨i, hslot⟩
        cases ha : hit a with
        | true => exact ⟨i, some a, n, by simp [probe, hslot, htest a hmem, ha], hslot, .here i,
            by simp [ha]⟩
        | false =>
          have hne : i ≠ e := by
            rintro rfl
            simp [he] at hslot
          have hnext : away tbl.length (down tbl.length i) e < fuel := by
            unfold away down at *
            split_ifs at * <;> omega
          obtain ⟨j, r, m, hrun, hj, hpath, hr⟩ := ih _ (n + 1) (down_lt hi) hnext
          refine ⟨j, r, m, ?_, hj, .step hslot ha hpath, hr⟩
          simp [probe, hslot, htest a hmem, ha, hrun]
  refine key tbl.length i n hi ?_
  unfold away
  split_ifs <;> omega

theorem probe_never {stuck : ε} {tbl : List (Option α)}
    (hfree : (items tbl).length < tbl.length) {i : Nat} (hi : i < tbl.length) (n : Nat) :
    ∃ j m, probe stuck (fun _ => .ok false) tbl tbl.length i n = .ok (j, none, m) ∧
      tbl[j]? = some none ∧ Path tbl (fun _ => True) i j := by
  obtain ⟨e, he⟩ := exists_empty hfree
  obtain ⟨j, r, m, hrun, hj, hpath, hr⟩ :=
    probe_spec (fun a _ => rfl : ∀ a ∈ items tbl, (Except.ok false : Except ε Bool) =
      .ok ((fun _ => false) a)) he hi n
  cases r with
  | some a => simpa using hr a rfl
  | none => exact ⟨j, m, hrun, hj, hpath.mono fun _ _ => trivial⟩

end ProbeTable
