import PathSet.Machine
import PathSet.Library.Regions

/-!
The alignment of pointers, as the allocators compute it.
-/

namespace PathSet
open Fallible Regions

/-- `SIZE_IS_POW2` -/
def SizeIsPow2 (n : Nat) : Prop := n ≠ 0 ∧ n &&& (n - 1) = 0

instance (n : Nat) : Decidable (SizeIsPow2 n) := inferInstanceAs (Decidable (_ ∧ _))

theorem sizeIsPow2_two_pow (k : Nat) : SizeIsPow2 (2 ^ k) := by
  refine ⟨(Nat.two_pow_pos k).ne', ?_⟩
  rw [Nat.and_two_pow_sub_one_eq_mod, Nat.mod_self]

/-- `PTR_ALIGN_SIZE` -/
def ptrAlignSize (p a : Nat) : Outcome Nat := do
  assert (SizeIsPow2 a)
  let r := p % a
  pure (if r ≠ 0 then a - r else 0)

theorem ptrAlignSize_of {a : Nat} (h : SizeIsPow2 a) (p : Nat) :
    ptrAlignSize p a = .ok (padding p a) := by
  rw [ptrAlignSize, assert_of h]
  rfl

end PathSet
