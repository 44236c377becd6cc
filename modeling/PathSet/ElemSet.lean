import PathSet.Machine
import PathSet.Library.FirstSeen
import PathSet.Library.WordMix

/-!
The element sets of a path trie. A set gives every path element a pointer, and the
trie compares pointers by a mixed hash of their addresses. The sets name their nodes
by allocation numbers, a placement turns these into addresses.
-/

namespace PathSet
open Fallible FirstSeen WordMix

/-- `PATH_TRIE_UINT_HASH` -/
structure UintHash (w : Nat) where
  fn : BitVec w → BitVec w
  injective : Function.Injective fn

namespace UintHash

/-- The variant of `CONFIG_PATH_TRIE_UINT_HASH_IDENTOP`. -/
def identop (w : Nat) : UintHash w := ⟨id, Function.injective_id⟩

def mix32Fn (r : BitVec 32) : BitVec 32 :=
  let r := ~~~r + (r <<< 15)
  let r := r ^^^ (r >>> 12)
  let r := r + (r <<< 2)
  let r := r ^^^ (r >>> 4)
  let r := r + ((r <<< 3) + (r <<< 11))
  r ^^^ (r >>> 16)

def mix64Fn (r : BitVec 64) : BitVec 64 :=
  let r := ~~~r + (r <<< 21)
  let r := r ^^^ (r >>> 24)
  let r := r + ((r <<< 3) + (r <<< 8))
  let r := r ^^^ (r >>> 14)
  let r := r + ((r <<< 2) + (r <<< 4))
  let r := r ^^^ (r >>> 28)
  r + (r <<< 31)

theorem mix32Fn_injective : Function.Injective mix32Fn :=
  (xorShift_injective (by decide : 0 < 16)).comp <|
    (add_shifts_injective (by decide)).comp <|
      (xorShift_injective (by decide : 0 < 4)).comp <|
        (add_shift_injective (by decide)).comp <|
          (xorShift_injective (by decide : 0 < 12)).comp <|
            not_add_shift_injective (by decide)

theorem mix64Fn_injective : Function.Injective mix64Fn :=
  (add_shift_injective (by decide)).comp <|
    (xorShift_injective (by decide : 0 < 28)).comp <|
      (add_shifts_injective (by decide)).comp <|
        (xorShift_injective (by decide : 0 < 14)).comp <|
          (add_shifts_injective (by decide)).comp <|
            (xorShift_injective (by decide : 0 < 24)).comp <|
              not_add_shift_injective (by decide)

def mix32 : UintHash 32 := ⟨mix32Fn, mix32Fn_injective⟩

def mix64 : UintHash 64 := ⟨mix64Fn, mix64Fn_injective⟩

variable {w : Nat} (U : UintHash w)

def rank (a : BitVec w) : Nat := (U.fn a).toNat

theorem rank_injective : Function.Injective U.rank := fun _ _ h =>
  U.injective (BitVec.eq_of_toNat_eq h)

/-- `PATH_TRIE_PTR_LT` -/
def ptrLt (a b : BitVec w) : Outcome Bool := do
  let x := U.fn a
  let y := U.fn b
  assert (a = b ∨ x ≠ y)
  pure (decide (x < y))

theorem fn_distinct (a b : BitVec w) : a = b ∨ U.fn a ≠ U.fn b := by
  by_cases h : a = b
  · exact Or.inl h
  · exact Or.inr fun heq => h (U.injective heq)

theorem ptrLt_eq (a b : BitVec w) : U.ptrLt a b = .ok (decide (U.rank a < U.rank b)) := by
  simp only [ptrLt, assert_of (U.fn_distinct a b), ok_bind, pure_eq_ok]
  rw [Except.ok.injEq, decide_eq_decide]
  exact BitVec.lt_def

theorem ptrLt_identop (a b : BitVec w) : (identop w).ptrLt a b = .ok (decide (a < b)) := by
  rw [ptrLt_eq, Except.ok.injEq, decide_eq_decide]
  exact BitVec.lt_def.symm

end UintHash

/-- A set that gives NUL-free strings non-null pointers. -/
structure ElemSet (σ : Type) (w : Nat) extends Finder σ Bytes (BitVec w) Abort where
  key_iff : ∀ k, Key k ↔ 0 ∉ k
  id_ne_zero : ∀ {s m k i}, Rep s m → m k = some i → i ≠ 0

/-- A set that names its nodes by allocation numbers. -/
structure NodeSet (σ : Type) extends Finder σ Bytes Nat Abort where
  count : σ → Nat
  key_iff : ∀ k, Key k ↔ 0 ∉ k
  id_bound : ∀ {s m k p}, Rep s m → m k = some p → 0 < p ∧ p ≤ count s
  count_known : ∀ {s m k s' p}, Rep s m → Key k → insert s k = .ok (s', false, p) →
    count s' = count s

def Fits {w : Nat} (addr : Nat → BitVec w) (n : Nat) : Prop :=
  (0 :: (List.range' 1 n).map addr).Nodup

instance {w : Nat} (addr : Nat → BitVec w) (n : Nat) : Decidable (Fits addr n) :=
  inferInstanceAs (Decidable (List.Nodup _))

theorem Fits.ne_zero {w : Nat} {addr : Nat → BitVec w} {n p : Nat} (h : Fits addr n)
    (hp : 0 < p ∧ p ≤ n) : addr p ≠ 0 := by
  intro hz
  refine (List.nodup_cons.mp h).1 (List.mem_map.mpr ⟨p, ?_, hz⟩)
  rw [List.mem_range'_1]
  omega

theorem Fits.inj {w : Nat} {addr : Nat → BitVec w} {n p q : Nat} (h : Fits addr n)
    (hp : 0 < p ∧ p ≤ n) (hq : 0 < q ∧ q ≤ n) (heq : addr p = addr q) : p = q := by
  refine List.inj_on_of_nodup_map (List.nodup_cons.mp h).2 ?_ ?_ heq
  · rw [List.mem_range'_1]
    omega
  · rw [List.mem_range'_1]
    omega

namespace NodeSet

variable {σ : Type} {w : Nat} (N : NodeSet σ) (addr : Nat → BitVec w)

def placedInsert (s : σ) (key : Bytes) : Outcome (σ × Bool × BitVec w) := do
  let (s, b, p) ← N.insert s key
  if Fits addr (N.count s) then pure (s, b, addr p) else .error .alloc

def placedLookup (s : σ) (key : Bytes) : Outcome (Option (BitVec w)) := do
  let r ← N.lookup s key
  pure (r.map addr)

def Placed (s : σ) (m : Bytes → Option (BitVec w)) : Prop :=
  Fits addr (N.count s) ∧ ∃ m₀, N.Rep s m₀ ∧ ∀ k, m k = (m₀ k).map addr

def placed : ElemSet σ w where
  insert := N.placedInsert addr
  lookup := N.placedLookup addr
  uniq := N.uniq
  dups := N.dups
  Exhausted e := N.Exhausted e ∨ e = .alloc
  Key := N.Key
  Rep := N.Placed addr
  rep_key := by
    rintro s m k i ⟨-, m₀, hrep, hm⟩ hk
    rw [hm, Option.map_eq_some_iff] at hk
    obtain ⟨p, hp, -⟩ := hk
    exact N.rep_key hrep hp
  rep_inj := by
    rintro s m k k' i ⟨hfits, m₀, hrep, hm⟩ hk hk'
    rw [hm, Option.map_eq_some_iff] at hk hk'
    obtain ⟨p, hp, rfl⟩ := hk
    obtain ⟨q, hq, heq⟩ := hk'
    obtain rfl := hfits.inj (N.id_bound hrep hq) (N.id_bound hrep hp) heq
    exact N.rep_inj hrep hp hq
  lookup_eq := by
    rintro s m k ⟨-, m₀, hrep, hm⟩ hk
    rw [placedLookup, N.lookup_eq hrep hk, ok_bind, hm]
    rfl
  insert_known := by
    rintro s m k i ⟨hfits, m₀, hrep, hm⟩ hk
    rw [hm, Option.map_eq_some_iff] at hk
    obtain ⟨p, hp, rfl⟩ := hk
    obtain ⟨s', hins, hrep', hu, hd⟩ := N.insert_known hrep hp
    have hcount := N.count_known hrep (N.rep_key hrep hp) hins
    refine ⟨s', ?_, ⟨hcount ▸ hfits, m₀, hrep', hm⟩, hu, hd⟩
    rw [placedInsert, hins, ok_bind]
    exact if_pos (hcount ▸ hfits)
  insert_fresh := by
    rintro s m k ⟨hfits, m₀, hrep, hm⟩ hkey hk
    rw [hm, Option.map_eq_none_iff] at hk
    rcases N.insert_fresh hrep hkey hk with h | ⟨s', p, hins, hrep', hu, hd⟩
    · exact Or.inl ((h.bind _).mono fun _ => Or.inl)
    · by_cases hroom : Fits addr (N.count s')
      · refine Or.inr ⟨s', addr p, ?_, ⟨hroom, _, hrep', ?_⟩, hu, hd⟩
        · rw [placedInsert, hins, ok_bind]
          exact if_pos hroom
        · intro q
          by_cases hq : q = k
          · simp [hq]
          · rw [Function.update_of_ne hq, Function.update_of_ne hq, hm]
      · refine Or.inl ⟨.alloc, Or.inr rfl, ?_⟩
        rw [placedInsert, hins, ok_bind]
        exact if_neg hroom
  key_iff := N.key_iff
  id_ne_zero := by
    rintro s m k i ⟨hfits, m₀, hrep, hm⟩ hk
    rw [hm, Option.map_eq_some_iff] at hk
    obtain ⟨p, hp, rfl⟩ := hk
    exact hfits.ne_zero (N.id_bound hrep hp)

end NodeSet

end PathSet
