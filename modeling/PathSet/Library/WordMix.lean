import Mathlib.Data.BitVec
import Mathlib.Data.Nat.ModEq
import Mathlib.Data.Nat.Prime.Basic
import Mathlib.Tactic.Ring

/-!
Invertible steps on machine words: a right shift folded in by exclusive or, and a
product with an odd word. Mixing functions composed of such steps are injective.
-/

namespace WordMix

variable {w : Nat}

def xorShift (k : Nat) (x : BitVec w) : BitVec w := x ^^^ (x >>> k)

theorem xorShift_injective {k : Nat} (hk : 0 < k) :
    Function.Injective (xorShift k : BitVec w → BitVec w) := by
  intro x y h
  have key : ∀ d i, w ≤ i + d → x.getLsbD i = y.getLsbD i := by
    intro d
    induction d with
    | zero =>
      intro i hi
      rw [BitVec.getLsbD_of_ge x i hi, BitVec.getLsbD_of_ge y i hi]
    | succ d ih =>
      intro i hi
      have hhigh : x.getLsbD (k + i) = y.getLsbD (k + i) := ih (k + i) (by omega)
      have hbit := congrArg (fun z : BitVec w => z.getLsbD i) h
      simp only [xorShift, BitVec.getLsbD_xor, BitVec.getLsbD_ushiftRight, hhigh] at hbit
      exact (Bool.xor_left_inj).mp hbit
  exact BitVec.eq_of_getLsbD_eq (fun i _ => key w i (by omega))

theorem mul_odd_injective {c : BitVec w} (hc : c.toNat % 2 = 1) :
    Function.Injective (fun x : BitVec w => x * c) := by
  intro x y h
  have hmod : x.toNat * c.toNat ≡ y.toNat * c.toNat [MOD 2 ^ w] := by
    simpa only [Nat.ModEq, BitVec.toNat_mul] using congrArg BitVec.toNat h
  have hcop : Nat.gcd (2 ^ w) c.toNat = 1 :=
    Nat.Coprime.pow_left w (Nat.coprime_two_left.mpr (Nat.odd_iff.mpr hc))
  have hxy := Nat.ModEq.cancel_right_of_coprime hcop hmod
  apply BitVec.eq_of_toNat_eq
  rwa [Nat.ModEq, Nat.mod_eq_of_lt x.isLt, Nat.mod_eq_of_lt y.isLt] at hxy

theorem add_shifts (x : BitVec w) (a b : Nat) :
    x + ((x <<< a) + (x <<< b)) = x * (1 + BitVec.twoPow w a + BitVec.twoPow w b) := by
  rw [BitVec.shiftLeft_eq_mul_twoPow, BitVec.shiftLeft_eq_mul_twoPow]
  ring

theorem add_shift (x : BitVec w) (a : Nat) :
    x + (x <<< a) = x * (1 + BitVec.twoPow w a) := by
  rw [BitVec.shiftLeft_eq_mul_twoPow]
  ring

theorem not_add_shift (x : BitVec w) (a : Nat) :
    ~~~x + (x <<< a) = x * (BitVec.twoPow w a - 1) - 1 := by
  rw [BitVec.shiftLeft_eq_mul_twoPow, BitVec.not_eq_neg_add, show 1#w = (1 : BitVec w) from rfl]
  ring

theorem add_shifts_injective {a b : Nat}
    (hc : (1 + BitVec.twoPow w a + BitVec.twoPow w b).toNat % 2 = 1) :
    Function.Injective (fun x : BitVec w => x + ((x <<< a) + (x <<< b))) := by
  simpa only [add_shifts] using mul_odd_injective hc

theorem add_shift_injective {a : Nat} (hc : (1 + BitVec.twoPow w a).toNat % 2 = 1) :
    Function.Injective (fun x : BitVec w => x + (x <<< a)) := by
  simpa only [add_shift] using mul_odd_injective hc

theorem not_add_shift_injective {a : Nat} (hc : (BitVec.twoPow w a - 1).toNat % 2 = 1) :
    Function.Injective (fun x : BitVec w => ~~~x + (x <<< a)) := by
  simp only [not_add_shift]
  intro x y h
  exact mul_odd_injective hc (sub_left_injective h)

theorem bijective_of_injective {f : BitVec w → BitVec w} (h : Function.Injective f) :
    Function.Bijective f := by
  have hwords : Finite (BitVec w) := Finite.of_equiv (Fin (2 ^ w)) BitVec.equivFin.symm.toEquiv
  exact (@Finite.injective_iff_bijective (BitVec w) hwords f).mp h

end WordMix
