import PathSet.Library.Fallible
import Mathlib.Algebra.Ring.Nat

/-!
What every part of the program shares: byte strings, the 64-bit `size_t`, and
the ways a run is stopped. The build is the default one, with assertions on.
-/

namespace PathSet

abbrev Bytes := List UInt8

instance : LawfulBEq Bytes := inferInstanceAs (LawfulBEq (List UInt8))

def sizeMax : Nat := 2 ^ 64 - 1

inductive Abort where
  /-- `malloc`, `calloc` or `realloc` does not deliver. -/
  | alloc
  /-- `ENSURE` stops with a message. -/
  | ensure (message : String)
  | verify
  | assertion
  | invalidArg
  /-- `abort ()` of the gnulib table. -/
  | abort
  /-- An access outside of the objects of the program. -/
  | stray
  /-- A loop is still running after as many steps as its bound allows. -/
  | hang
  deriving DecidableEq, Repr

abbrev Outcome := Except Abort

def assert (p : Prop) [Decidable p] : Outcome Unit :=
  if p then .ok () else .error .assertion

def verify (p : Prop) [Decidable p] : Outcome Unit :=
  if p then .ok () else .error .verify

def ensure (message : String) (p : Prop) [Decidable p] : Outcome Unit :=
  if p then .ok () else .error (.ensure message)

@[simp] theorem assert_of {p : Prop} [Decidable p] (h : p) : assert p = .ok () := if_pos h

@[simp] theorem verify_of {p : Prop} [Decidable p] (h : p) : verify p = .ok () := if_pos h

@[simp] theorem ensure_of {message : String} {p : Prop} [Decidable p] (h : p) :
    ensure message p = .ok () := if_pos h

/-- A zeroed array of `n` members. It fails when its bytes do not fit `size_t`. -/
def calloc {α : Type} (n size : Nat) (zero : α) : Outcome (List α) :=
  if n * size ≤ sizeMax then .ok (List.replicate n zero) else .error .alloc

/-- `pool_alloc_allocate` with the set's pool, whose blocks hold at most half of
the address space. Larger requests are refused. -/
def poolAllocate (size align : Nat) : Outcome Unit :=
  if size + align ≤ sizeMax / 2 then .ok () else .error .alloc

/-- `SIZE_ADD`, which asserts that nothing overflows. -/
def sizeAdd (x y : Nat) : Outcome Nat := do
  assert (x ≤ sizeMax - y)
  pure (x + y)

/-- `SIZE_SUB` -/
def sizeSub (x y : Nat) : Outcome Nat := do
  assert (y ≤ x)
  pure (x - y)

/-- `SIZE_MUL` -/
def sizeMul (x y : Nat) : Outcome Nat := do
  assert (y = 0 ∨ x ≤ sizeMax / y)
  pure (x * y)

/-- `SIZE_AS_INT` -/
def sizeAsInt (n : Nat) : Outcome Nat := do
  assert (n ≤ 2 ^ 31 - 1)
  pure n

theorem sizeAdd_of {x y : Nat} (h : x + y ≤ sizeMax) : sizeAdd x y = .ok (x + y) := by
  rw [sizeAdd, assert_of (by omega)]
  rfl

theorem sizeSub_of {x y : Nat} (h : y ≤ x) : sizeSub x y = .ok (x - y) := by
  rw [sizeSub, assert_of h]
  rfl

theorem of_assert {p : Prop} [Decidable p] {u : Unit} (h : assert p = .ok u) : p := by
  by_contra hnot
  rw [assert, if_neg hnot] at h
  cases h

theorem of_verify {p : Prop} [Decidable p] {u : Unit} (h : verify p = .ok u) : p := by
  by_contra hnot
  rw [verify, if_neg hnot] at h
  cases h

theorem eq_of_sizeAdd {x y z : Nat} (h : sizeAdd x y = .ok z) : z = x + y := by
  obtain ⟨-, -, h⟩ := Fallible.bind_eq_ok.mp h
  exact (Except.ok.inj h).symm

theorem eq_of_sizeMul {x y z : Nat} (h : sizeMul x y = .ok z) : z = x * y := by
  obtain ⟨-, -, h⟩ := Fallible.bind_eq_ok.mp h
  exact (Except.ok.inj h).symm

/-- `STACK_BEG_REF` -/
def stackBegRef {α : Type} (stack : List α) : Outcome (List α) := do
  ensure "stack is empty" (0 < stack.length)
  pure stack

theorem stackBegRef_of_ne_nil {α : Type} {stack : List α} (h : stack ≠ []) :
    stackBegRef stack = .ok stack := by
  rw [stackBegRef, ensure_of (List.length_pos_iff.mpr h)]
  rfl

theorem calloc_cases {α : Type} (n size : Nat) (zero : α) :
    (calloc n size zero = .error .alloc ∧ sizeMax < n * size) ∨
      (calloc n size zero = .ok (List.replicate n zero) ∧ n * size ≤ sizeMax) := by
  unfold calloc
  split_ifs with h
  · exact Or.inr ⟨rfl, h⟩
  · exact Or.inl ⟨rfl, Nat.lt_of_not_le h⟩

theorem poolAllocate_cases (size align : Nat) :
    (poolAllocate size align = .error .alloc ∧ sizeMax / 2 < size + align) ∨
      poolAllocate size align = .ok () := by
  unfold poolAllocate
  split_ifs with h
  · exact Or.inr rfl
  · exact Or.inl ⟨rfl, Nat.lt_of_not_le h⟩

end PathSet
