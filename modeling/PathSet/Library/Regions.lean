import Mathlib.Data.List.Pairwise
import Mathlib.Algebra.Order.Group.Nat
import Mathlib.Algebra.Group.Nat.Even

/-!
Regions of an address space, and the padding that aligns an address. Regions that lie
within regions apart from each other are apart themselves.
-/

namespace Regions

structure Region where
  start : Nat
  len : Nat
  deriving DecidableEq, Repr

namespace Region

def stop (r : Region) : Nat := r.start + r.len

def Apart (r s : Region) : Prop := r.stop ≤ s.start ∨ s.stop ≤ r.start

def Within (r s : Region) : Prop := s.start ≤ r.start ∧ r.stop ≤ s.stop

instance (r s : Region) : Decidable (r.Apart s) := inferInstanceAs (Decidable (_ ∨ _))

theorem Apart.symm {r s : Region} (h : r.Apart s) : s.Apart r := Or.symm h

theorem Within.trans {r s t : Region} (h : r.Within s) (h' : s.Within t) : r.Within t :=
  ⟨h'.1.trans h.1, h.2.trans h'.2⟩

theorem Apart.within {r s r' s' : Region} (h : r'.Apart s') (hr : r.Within r') (hs : s.Within s') :
    r.Apart s := by
  simp only [Apart, Within] at *
  omega

end Region

theorem apart_of_ne {rs : List Region} (h : rs.Pairwise Region.Apart) {i j : Nat} {r s : Region}
    (hi : rs[i]? = some r) (hj : rs[j]? = some s) (hne : i ≠ j) : r.Apart s := by
  obtain ⟨hi', rfl⟩ := List.getElem?_eq_some_iff.mp hi
  obtain ⟨hj', rfl⟩ := List.getElem?_eq_some_iff.mp hj
  rw [List.pairwise_iff_getElem] at h
  rcases Nat.lt_or_gt_of_ne hne with hlt | hlt
  · exact h i j hi' hj' hlt
  · exact (h j i hj' hi' hlt).symm

theorem nodup_starts {rs : List Region} (h : rs.Pairwise Region.Apart)
    (hpos : ∀ r ∈ rs, 0 < r.len) : (rs.map Region.start).Nodup := by
  rw [List.Nodup, List.pairwise_map]
  refine h.imp_of_mem fun {r s} hr hs hapart => ?_
  have hr := hpos r hr
  have hs := hpos s hs
  simp only [Region.Apart, Region.stop] at hapart
  omega

def padding (addr align : Nat) : Nat := if addr % align ≠ 0 then align - addr % align else 0

theorem padding_lt {addr align : Nat} (h : 0 < align) : padding addr align < align := by
  have hmod := Nat.mod_lt addr h
  unfold padding
  split_ifs <;> omega

theorem dvd_add_padding {addr align : Nat} (h : 0 < align) : align ∣ addr + padding addr align := by
  have hmod := Nat.mod_lt addr h
  have hdiv := Nat.div_add_mod addr align
  unfold padding
  split_ifs with hne
  · refine ⟨addr / align + 1, ?_⟩
    rw [Nat.mul_add, Nat.mul_one]
    omega
  · exact Nat.dvd_of_mod_eq_zero (by simpa using hne)

end Regions
