import PathSet.ElemSet

/-!
The order of pointers. It compares words by the mixing function, which is bijective, so
it is strict and total, and its assertion never fails.
-/

namespace PathSet
open Fallible WordMix

namespace UintHash

theorem mix32Fn_bijective : Function.Bijective mix32Fn := bijective_of_injective mix32Fn_injective

theorem mix64Fn_bijective : Function.Bijective mix64Fn := bijective_of_injective mix64Fn_injective

section
variable {w : Nat} (U : UintHash w)

/-- What `PATH_TRIE_PTR_LT` answers. -/
def Less (a b : BitVec w) : Prop := U.ptrLt a b = .ok true

theorem less_iff (a b : BitVec w) : U.Less a b ↔ U.rank a < U.rank b := by
  rw [Less, ptrLt_eq, Except.ok.injEq, decide_eq_true_eq]

structure StrictTotal {α : Type} (r : α → α → Prop) : Prop where
  irrefl : ∀ a, ¬r a a
  trans : ∀ a b c, r a b → r b c → r a c
  cases : ∀ a b, (r a b ∧ a ≠ b ∧ ¬r b a) ∨ (¬r a b ∧ a = b ∧ ¬r b a) ∨ (¬r a b ∧ a ≠ b ∧ r b a)

theorem less_strictTotal : StrictTotal U.Less := by
  refine ⟨fun a h => ?_, fun a b c hab hbc => ?_, fun a b => ?_⟩
  · exact lt_irrefl _ ((U.less_iff a a).mp h)
  · exact (U.less_iff a c).mpr (((U.less_iff a b).mp hab).trans ((U.less_iff b c).mp hbc))
  · have hne : ∀ {x y : BitVec w}, U.rank x < U.rank y → x ≠ y := by
      rintro x y h rfl
      exact lt_irrefl _ h
    simp only [less_iff]
    rcases Nat.lt_trichotomy (U.rank a) (U.rank b) with h | h | h
    · exact Or.inl ⟨h, hne h, Nat.lt_asymm h⟩
    · obtain rfl := U.rank_injective h
      exact Or.inr (Or.inl ⟨lt_irrefl _, rfl, lt_irrefl _⟩)
    · exact Or.inr (Or.inr ⟨Nat.lt_asymm h, (hne h).symm, h⟩)

structure Orders : Prop where
  checked : ∀ a b : BitVec w, a = b ∨ U.fn a ≠ U.fn b
  answers : ∀ a b, U.ptrLt a b = .ok (decide (U.fn a < U.fn b))
  strict : StrictTotal U.Less

theorem orders : U.Orders := by
  refine ⟨U.fn_distinct, fun a b => ?_, U.less_strictTotal⟩
  rw [ptrLt, assert_of (U.fn_distinct a b)]
  rfl

end

end UintHash

open UintHash in
/-- Both mixing functions are bijective. The order each of them makes is strict and total,
and the check in it never fails. -/
theorem ptr_lt_strict_total : Function.Bijective mix32Fn ∧ Function.Bijective mix64Fn ∧
    mix32.Orders ∧ mix64.Orders :=
  ⟨mix32Fn_bijective, mix64Fn_bijective, mix32.orders, mix64.orders⟩

end PathSet
