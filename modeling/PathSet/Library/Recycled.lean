import PathSet.Library.Pointer
import Mathlib.Data.List.Perm.Basic

/-!
Cells that are recycled. A released cell goes to a list of free ones, and a cell is
allocated from that list as long as there is one. Cells are named by pointers, so a
released cell can still be read.
-/

namespace Recycled
open Pointer

variable {α : Type}

structure Heap (α : Type) where
  cell : List α
  free : List Nat
  deriving DecidableEq

namespace Heap

def read (h : Heap α) (e : Nat) : Option α := deref h.cell e

def write (h : Heap α) (a : α) (e : Nat) : Heap α := { h with cell := update h.cell (fun _ => a) e }

def allocate (h : Heap α) (a : α) : Heap α × Nat :=
  match h.free with
  | [] => ({ h with cell := h.cell ++ [a] }, h.cell.length + 1)
  | e :: es => ({ h with free := es }, e)

def release (h : Heap α) (a : α) (e : Nat) : Heap α :=
  { cell := (h.write a e).cell, free := e :: h.free }

@[simp] theorem write_free (h : Heap α) (a : α) (e : Nat) : (h.write a e).free = h.free := rfl

@[simp] theorem release_free (h : Heap α) (a : α) (e : Nat) :
    (h.release a e).free = e :: h.free := rfl

@[simp] theorem write_length (h : Heap α) (a : α) (e : Nat) :
    (h.write a e).cell.length = h.cell.length := length_update h.cell _ e

@[simp] theorem release_length (h : Heap α) (a : α) (e : Nat) :
    (h.release a e).cell.length = h.cell.length := length_update h.cell _ e

def Owns (h : Heap α) (es : List Nat) : Prop :=
  (es ++ h.free).Perm (List.range' 1 h.cell.length)

variable {h : Heap α} {es es' : List Nat} {e : Nat} {a : α}

theorem Owns.perm (ho : h.Owns es) (hp : es'.Perm es) : h.Owns es' :=
  (hp.append_right h.free).trans ho

theorem Owns.nodup (ho : h.Owns es) : (es ++ h.free).Nodup :=
  ho.nodup_iff.mpr List.nodup_range'

theorem Owns.length (ho : h.Owns es) : es.length + h.free.length = h.cell.length := by
  have hlen := ho.length_eq
  rwa [List.length_append, List.length_range'] at hlen

theorem Owns.notMem (ho : h.Owns (e :: es)) : e ∉ es :=
  (List.nodup_cons.mp ho.nodup.of_append_left).1

theorem Owns.exists_read (ho : h.Owns es) (he : e ∈ es) : ∃ a, h.read e = some a := by
  have hmem : e ∈ List.range' 1 h.cell.length := ho.mem_iff.mp (List.mem_append_left _ he)
  rw [List.mem_range'_1] at hmem
  exact Option.isSome_iff_exists.mp (deref_isSome.mpr ⟨by omega, by omega⟩)

theorem Owns.notMem_free (ho : h.Owns es) (he : e ∈ es) : e ∉ h.free := fun hfree =>
  (List.disjoint_of_nodup_append ho.nodup) he hfree

theorem owns_nil : (⟨[], []⟩ : Heap α).Owns [] := List.Perm.refl _

theorem read_write_ne {x : Nat} (hne : e ≠ x) : (h.write a e).read x = h.read x := by
  rw [read, write, deref_update, if_neg hne]
  rfl

theorem Owns.read_write (ho : h.Owns es) (he : e ∈ es) : (h.write a e).read e = some a := by
  obtain ⟨b, hb⟩ := ho.exists_read he
  rw [read] at hb
  rw [read, write, deref_update, if_pos rfl, hb]
  rfl

theorem Owns.write (ho : h.Owns es) (a : α) (e : Nat) : (h.write a e).Owns es := by
  rw [Owns, write_length]
  exact ho

theorem Owns.release (ho : h.Owns (e :: es)) (a : α) : (h.release a e).Owns es := by
  rw [Owns, release_length]
  exact List.perm_middle.trans ho

theorem Owns.read_release (ho : h.Owns es) (he : e ∈ es) : (h.release a e).read e = some a :=
  ho.read_write he

theorem read_release_ne {x : Nat} (hne : e ≠ x) : (h.release a e).read x = h.read x :=
  read_write_ne hne

def releaseAll (h : Heap α) (a : α) (es : List Nat) : Heap α := es.foldl (fun h e => h.release a e) h

theorem Owns.releaseAll {rest : List Nat} (ho : h.Owns (es ++ rest)) (a : α) :
    (h.releaseAll a es).Owns rest := by
  induction es generalizing h with
  | nil => exact ho
  | cons e es ih => exact ih (ho.release a)

structure Allocated (h : Heap α) (es : List Nat) (r : Heap α × Nat) : Prop where
  owns : r.1.Owns (r.2 :: es)
  kept : ∀ x ∈ es, r.1.read x = h.read x
  free : r.1.free.length = h.free.length - 1
  length : r.1.cell.length = h.cell.length + if h.free = [] then 1 else 0

theorem Owns.allocate (ho : h.Owns es) (a : α) : Allocated h es (h.allocate a) := by
  obtain ⟨cell, free⟩ := h
  cases free with
  | nil =>
    rw [Heap.allocate]
    refine ⟨?_, fun x hx => ?_, rfl, by simp⟩
    · rw [Owns, List.append_nil] at ho ⊢
      exact pointers_concat ho a
    · obtain ⟨b, hb⟩ := ho.exists_read hx
      exact (deref_append_left [a] hb).trans hb.symm
  | cons e free => exact ⟨List.perm_middle.symm.trans ho, fun _ _ => rfl, rfl, rfl⟩

theorem Allocated.read_write {r : Heap α × Nat} (ha : Allocated h es r) (a : α) :
    ∀ x ∈ es, (r.1.write a r.2).read x = h.read x := by
  intro x hx
  have hne : r.2 ≠ x := by
    rintro rfl
    exact ha.owns.notMem hx
  rw [read_write_ne hne, ha.kept x hx]

def Clean (h : Heap α) (a : α) : Prop := ∀ e ∈ h.free, h.read e = some a

theorem clean_nil (cell : List α) (a : α) : (⟨cell, []⟩ : Heap α).Clean a := by simp [Clean]

theorem Clean.write (hc : h.Clean a) (hout : e ∉ h.free) (b : α) : (h.write b e).Clean a := by
  intro x hx
  have hne : e ≠ x := by
    rintro rfl
    exact hout hx
  rw [read_write_ne hne, hc x hx]

theorem Clean.release (hc : h.Clean a) (ho : h.Owns es) (he : e ∈ es) : (h.release a e).Clean a := by
  intro x hx
  rcases List.mem_cons.mp hx with rfl | hx
  · exact ho.read_release he
  · exact hc.write (ho.notMem_free he) a x hx

theorem Clean.allocate (hc : h.Clean a) :
    (h.allocate a).1.Clean a ∧ (h.allocate a).1.read (h.allocate a).2 = some a := by
  obtain ⟨cell, free⟩ := h
  cases free with
  | nil => exact ⟨clean_nil _ a, by rw [Heap.allocate, read, deref_append, if_pos rfl]⟩
  | cons e free => exact ⟨fun x hx => hc x (List.mem_cons_of_mem e hx), hc e (by simp)⟩

end Heap

end Recycled
