import Mathlib.Data.List.Basic
import Mathlib.Data.List.Nodup

/-!
Pointers into a list of objects that grows at its end. A pointer is the position
of its object counted from one, zero is the null pointer.
-/

namespace Pointer

def deref {α : Type} (xs : List α) : Nat → Option α
  | 0 => none
  | i + 1 => xs[i]?

def update {α : Type} (xs : List α) (f : α → α) : Nat → List α
  | 0 => xs
  | i + 1 => xs.modify i f

@[simp] theorem deref_zero {α : Type} (xs : List α) : deref xs 0 = none := rfl

@[simp] theorem deref_nil {α : Type} (p : Nat) : deref ([] : List α) p = none := by
  cases p <;> simp [deref]

@[simp] theorem length_update {α : Type} (xs : List α) (f : α → α) (p : Nat) :
    (update xs f p).length = xs.length := by
  cases p <;> simp [update]

theorem deref_update {α : Type} (xs : List α) (f : α → α) (p q : Nat) :
    deref (update xs f p) q = if p = q then (deref xs q).map f else deref xs q := by
  cases p with
  | zero => cases q <;> simp [update, deref]
  | succ p =>
    cases q with
    | zero => simp [deref]
    | succ q =>
      by_cases h : p = q
      · subst h
        simp [update, deref]
      · simp [update, deref, h]

theorem deref_append_left {α : Type} {xs : List α} (ys : List α) {p : Nat} {x : α}
    (h : deref xs p = some x) : deref (xs ++ ys) p = some x := by
  cases p with
  | zero => simp at h
  | succ p =>
    have hp : p < xs.length := (List.getElem?_eq_some_iff.mp h).1
    simpa only [deref, List.getElem?_append_left hp] using h

theorem update_append_left {α : Type} {xs : List α} (ys : List α) (f : α → α) {p : Nat}
    (h : p ≤ xs.length) : update (xs ++ ys) f p = update xs f p ++ ys := by
  cases p with
  | zero => rfl
  | succ p =>
    simp only [update]
    induction xs generalizing p with
    | nil => simp at h
    | cons x xs ih =>
      cases p with
      | zero => rfl
      | succ p =>
        have hp : p + 1 ≤ xs.length := by simpa using h
        simp only [List.cons_append, List.modify_succ_cons, ih p hp]

theorem update_append_last {α : Type} (xs : List α) (x : α) (f : α → α) :
    update (xs ++ [x]) f (xs.length + 1) = xs ++ [f x] := by
  apply List.ext_getElem?
  intro i
  rcases Nat.lt_trichotomy i xs.length with hi | rfl | hi
  · simp [update, List.getElem?_append_left hi, Nat.ne_of_gt hi]
  · simp [update]
  · have hone : ∀ y : α, [y][i - xs.length]? = none := fun y => by simp; omega
    simp [update, List.getElem?_append_right (Nat.le_of_lt hi), Nat.ne_of_lt hi, hone]

theorem deref_le_length {α : Type} {xs : List α} {p : Nat} {x : α}
    (h : deref xs p = some x) : 0 < p ∧ p ≤ xs.length := by
  cases p with
  | zero => simp at h
  | succ p =>
    have hp : p < xs.length := (List.getElem?_eq_some_iff.mp h).1
    omega

theorem deref_map {α β : Type} (g : α → β) (xs : List α) (p : Nat) :
    deref (xs.map g) p = (deref xs p).map g := by
  cases p <;> simp [deref]

theorem update_map {α β : Type} (g : α → β) (f : α → α) (f' : β → β) (xs : List α) (p : Nat)
    (h : ∀ x, g (f x) = f' (g x)) : (update xs f p).map g = update (xs.map g) f' p := by
  cases p with
  | zero => rfl
  | succ p =>
    apply List.ext_getElem?
    intro i
    simp only [update, List.getElem?_map, List.getElem?_modify]
    cases xs[i]? <;> by_cases hi : p = i <;> simp [hi, h]

theorem map_update {α β : Type} {g : α → β} {f : α → α} (h : ∀ x, g (f x) = g x) (xs : List α)
    (p : Nat) : (update xs f p).map g = xs.map g := by
  cases p with
  | zero => rfl
  | succ p =>
    apply List.ext_getElem?
    intro i
    simp only [update, List.getElem?_map, List.getElem?_modify]
    cases xs[i]? <;> by_cases hi : p = i <;> simp [hi, h]

theorem deref_append {α : Type} (xs : List α) (x : α) (p : Nat) :
    deref (xs ++ [x]) p = if p = xs.length + 1 then some x else deref xs p := by
  cases p with
  | zero => simp
  | succ p =>
    rcases Nat.lt_trichotomy p xs.length with hp | rfl | hp
    · simp [deref, List.getElem?_append_left hp, Nat.ne_of_lt hp]
    · simp [deref]
    · have hone : [x][p - xs.length]? = none := by simp; omega
      simp [deref, List.getElem?_append_right (Nat.le_of_lt hp), Nat.ne_of_gt hp, hone, Nat.le_of_lt hp]

theorem paired_concat {α β : Type} {P : β → α → Prop} {xs : List α} {ys : List β}
    (h : ∀ p x, deref xs p = some x → ∃ y, deref ys p = some y ∧ P y x)
    (hlen : ys.length = xs.length) {a : α} {b : β} (hab : P b a) (p : Nat) (x : α)
    (hx : deref (xs ++ [a]) p = some x) : ∃ y, deref (ys ++ [b]) p = some y ∧ P y x := by
  rw [deref_append] at hx
  rw [deref_append, hlen]
  by_cases hp : p = xs.length + 1
  · rw [if_pos hp] at hx ⊢
    obtain rfl : a = x := Option.some.inj hx
    exact ⟨b, rfl, hab⟩
  · rw [if_neg hp] at hx ⊢
    exact h p x hx

theorem map_of_paired {α β γ : Type} {P : β → α → Prop} {xs : List α} {ys : List β}
    (h : ∀ p x, deref xs p = some x → ∃ y, deref ys p = some y ∧ P y x)
    (hlen : ys.length = xs.length) {f : β → γ} {g : α → γ} (hfg : ∀ x y, P y x → f y = g x) :
    ys.map f = xs.map g := by
  refine List.ext_getElem? fun i => ?_
  rw [List.getElem?_map, List.getElem?_map]
  cases hx : xs[i]? with
  | none =>
    have hi := List.getElem?_eq_none_iff.mp hx
    rw [List.getElem?_eq_none (hlen ▸ hi)]
    rfl
  | some x =>
    obtain ⟨y, hy, hyx⟩ := h (i + 1) x hx
    have hy : ys[i]? = some y := hy
    rw [hy, Option.map_some, Option.map_some, hfg x y hyx]

theorem pointers_concat {α : Type} {xs : List α} {ps : List Nat}
    (h : ps.Perm (List.range' 1 xs.length)) (x : α) :
    ((xs.length + 1) :: ps).Perm (List.range' 1 (xs ++ [x]).length) := by
  rw [List.length_append, List.length_singleton, List.range'_1_concat, Nat.add_comm 1]
  exact (h.cons _).trans (List.perm_append_singleton _ _).symm

theorem nodup_concat {α : Type} {xs : List α} {x : α} (h : xs.Nodup) (hx : x ∉ xs) :
    (xs ++ [x]).Nodup := by
  rw [← List.concat_eq_append]
  exact List.Nodup.concat hx h

theorem deref_isSome {α : Type} {xs : List α} {p : Nat} :
    (deref xs p).isSome ↔ 0 < p ∧ p ≤ xs.length := by
  cases p with
  | zero => simp
  | succ p =>
    have hp : xs[p]?.isSome ↔ p < xs.length := by simp
    exact hp.trans (by omega)

theorem mem_of_deref {α : Type} {xs : List α} {p : Nat} {x : α} (h : deref xs p = some x) :
    x ∈ xs := by
  cases p with
  | zero => simp at h
  | succ p => exact List.mem_of_getElem? h

theorem exists_deref {α : Type} {xs : List α} {x : α} (h : x ∈ xs) :
    ∃ p, deref xs p = some x := by
  obtain ⟨i, hi⟩ := List.mem_iff_getElem?.mp h
  exact ⟨i + 1, hi⟩

theorem map_deref_range {α : Type} (xs : List α) (d : α) :
    (List.range' 1 xs.length).map (fun p => (deref xs p).getD d) = xs := by
  refine List.ext_getElem (by simp) fun i hi hi' => ?_
  rw [List.getElem_map, List.getElem_range', Nat.one_mul, Nat.add_comm, deref,
    List.getElem?_eq_getElem hi', Option.getD_some]

theorem deref_inj {α : Type} {xs : List α} {p q : Nat} {x : α} (hnd : xs.Nodup)
    (hp : deref xs p = some x) (hq : deref xs q = some x) : p = q := by
  cases p with
  | zero => simp at hp
  | succ p =>
    cases q with
    | zero => simp at hq
    | succ q =>
      have hlt : p < xs.length := (List.getElem?_eq_some_iff.mp hp).1
      rw [(List.getElem?_inj hlt hnd).mp (Eq.trans hp (Eq.symm hq))]

end Pointer
