import PathSet.Machine
import Mathlib.Data.Rat.Floor
import Mathlib.Data.Rat.Cast.Order

/-!
The options the sets are made from, with the ranges the option parser accepts.
Factors are exact rationals, `none` stands for `NAN` and for `NULL`.
-/

namespace PathSet

structure Options where
  hashSize : Nat
  rehashSize : Option ℚ
  rehashLoad : Option ℚ
  poolSize : Nat
  nodeSize : Nat
  sepSet : Option Bytes

def KB (n : Nat) : Nat := n * 1024

def MB (n : Nat) : Nat := KB n * 1024

/-- `parse_float_optarg` with its `FLOAT_EPSILON` of 0.11. -/
def AcceptedFloat (lower upper v : ℚ) : Prop := 11 / 100 < v - lower ∧ 11 / 100 < upper - v

theorem acceptedFloat_getD {lower upper d : ℚ} {v : Option ℚ}
    (hv : ∀ x ∈ v, AcceptedFloat lower upper x) (hd : AcceptedFloat lower upper d) :
    AcceptedFloat lower upper (v.getD d) := by
  cases v with
  | none => exact hd
  | some x => exact hv x rfl

structure Options.Accepted (opt : Options) : Prop where
  hashSize : 0 < opt.hashSize ∧ opt.hashSize ≤ MB 32
  rehashSize : ∀ v ∈ opt.rehashSize, AcceptedFloat 1 4 v
  rehashLoad : ∀ v ∈ opt.rehashLoad, AcceptedFloat 0 1 v
  poolSize : 0 < opt.poolSize ∧ opt.poolSize ≤ MB 512
  nodeSize : 0 < opt.nodeSize ∧ opt.nodeSize ≤ MB 32
  sepSet : ∀ s ∈ opt.sepSet, 47 ∈ s ∧ s.Nodup ∧ 0 ∉ s

def defaultOptions : Options := ⟨KB 1, none, none, KB 128, KB 1, none⟩

theorem defaultOptions_accepted : defaultOptions.Accepted :=
  ⟨by decide, by simp [defaultOptions], by simp [defaultOptions], by decide, by decide,
    by simp [defaultOptions]⟩

/-- `SIZE_MUL_FLOAT` -/
def sizeMulFloat (x : Nat) (f : ℚ) : Outcome Nat := do
  let r := x * f
  verify (r < 2 ^ 64)
  pure r.floor.toNat

end PathSet
