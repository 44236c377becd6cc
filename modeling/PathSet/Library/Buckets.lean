import PathSet.Library.Fallible
import Mathlib.Data.List.Count
import Mathlib.Data.List.Perm.Basic
import Mathlib.Data.List.Nodup
import Mathlib.Data.Finset.Card

/-!
Tables of buckets. An item belongs to the bucket its home selects. A bucket keeps
its first item at the head, later ones are put right behind it.
-/

namespace Buckets
open Fallible

variable {α ε : Type}

def chain (a : α) : List α → List α
  | [] => [a]
  | b :: bs => b :: a :: bs

theorem chain_perm (a : α) (bucket : List α) : (chain a bucket).Perm (a :: bucket) := by
  cases bucket with
  | nil => exact List.Perm.refl _
  | cons b bs => exact List.Perm.swap a b bs

def scan (test : α → Except ε Bool) : List α → Nat → Except ε (Option α × Nat)
  | [], n => .ok (none, n)
  | a :: as, n => do
      if ← test a then .ok (some a, n) else scan test as (n + 1)

theorem scan_spec {test : α → Except ε Bool} {hit : α → Bool} {bucket : List α}
    (htest : ∀ a ∈ bucket, test a = .ok (hit a)) (n : Nat) :
    ∃ m, scan test bucket n = .ok (bucket.find? hit, m) := by
  induction bucket generalizing n with
  | nil => exact ⟨n, rfl⟩
  | cons a as ih =>
    rw [scan, htest a (by simp), ok_bind, List.find?_cons]
    cases ha : hit a with
    | true => exact ⟨n, rfl⟩
    | false => exact ih (fun b hb => htest b (by simp [hb])) (n + 1)

def items (tbl : List (List α)) : List α := tbl.flatten

def used (tbl : List (List α)) : Nat := tbl.countP fun bucket => !bucket.isEmpty

def Homed (home : α → Nat) (tbl : List (List α)) : Prop :=
  ∀ (j : Nat) bucket, tbl[j]? = some bucket → ∀ a ∈ bucket, home a = j

theorem modify_bucket {β : Type} {tbl : List β} {j : Nat} {b : β} (h : tbl[j]? = some b)
    (f : β → β) : tbl.modify j f = tbl.set j (f b) := by
  rw [List.modify_eq_set_getElem?, h]
  rfl

theorem items_replicate (n : Nat) : items (List.replicate n ([] : List α)) = [] := by
  simp [items]

theorem used_replicate (n : Nat) : used (List.replicate n ([] : List α)) = 0 := by
  simp [used, List.countP_replicate]

theorem used_le_length (tbl : List (List α)) : used tbl ≤ (items tbl).length := by
  induction tbl with
  | nil => exact Nat.zero_le _
  | cons bucket tbl ih =>
    simp only [used, items, List.countP_cons, List.flatten_cons, List.length_append] at ih ⊢
    cases bucket with
    | nil => simpa using ih
    | cons a bucket =>
      simp only [List.isEmpty_cons, Bool.not_false, if_true, List.length_cons]
      omega

theorem homed_replicate (home : α → Nat) (n : Nat) : Homed home (List.replicate n []) := by
  intro j bucket hj a ha
  obtain ⟨-, rfl⟩ : j < n ∧ [] = bucket := by simpa [List.getElem?_replicate] using hj
  simp at ha

theorem homed_congr {home home' : α → Nat} {tbl : List (List α)} (h : Homed home tbl)
    (same : ∀ a ∈ items tbl, home' a = home a) : Homed home' tbl := by
  intro j bucket hj a ha
  rw [same a (List.mem_flatten.mpr ⟨bucket, List.mem_of_getElem? hj, ha⟩)]
  exact h j bucket hj a ha

theorem mem_home {home : α → Nat} {tbl : List (List α)} (h : Homed home tbl) {a : α}
    (ha : a ∈ items tbl) : ∃ bucket, tbl[home a]? = some bucket ∧ a ∈ bucket := by
  obtain ⟨bucket, hb, hab⟩ := List.mem_flatten.mp ha
  obtain ⟨j, hj⟩ := List.mem_iff_getElem?.mp hb
  exact ⟨bucket, h j bucket hj a hab ▸ hj, hab⟩

theorem homed_set {home : α → Nat} {tbl : List (List α)} {j : Nat} {a : α} {bucket : List α}
    (h : Homed home tbl) (hj : tbl[j]? = some bucket) (ha : home a = j) :
    Homed home (tbl.set j (chain a bucket)) := by
  intro i b hi c hc
  by_cases hij : j = i
  · subst hij
    rw [List.getElem?_set_self (List.getElem?_eq_some_iff.mp hj).1] at hi
    obtain rfl := Option.some.inj hi
    rcases List.mem_cons.mp ((chain_perm a bucket).mem_iff.mp hc) with rfl | hmem
    · exact ha
    · exact h j bucket hj c hmem
  · rw [List.getElem?_set_ne hij] at hi
    exact h i b hi c hc

theorem items_set_perm {tbl : List (List α)} {j : Nat} {a : α} {bucket : List α}
    (hj : tbl[j]? = some bucket) : (items (tbl.set j (chain a bucket))).Perm (a :: items tbl) := by
  induction tbl generalizing j with
  | nil => simp at hj
  | cons b tbl ih =>
    cases j with
    | zero =>
      obtain rfl : b = bucket := by simpa using hj
      simpa [items] using (chain_perm a b).append_right tbl.flatten
    | succ j =>
      have hrest := ih (show tbl[j]? = some bucket by simpa using hj)
      simp only [items, List.set_cons_succ, List.flatten_cons] at hrest ⊢
      exact (hrest.append_left b).trans List.perm_middle

theorem used_set {tbl : List (List α)} {j : Nat} {a : α} {bucket : List α}
    (hj : tbl[j]? = some bucket) :
    used (tbl.set j (chain a bucket)) = used tbl + if bucket = [] then 1 else 0 := by
  induction tbl generalizing j with
  | nil => simp at hj
  | cons b tbl ih =>
    cases j with
    | zero =>
      obtain rfl : b = bucket := by simpa using hj
      cases b <;> simp [used, chain]
    | succ j =>
      have hrest := ih (show tbl[j]? = some bucket by simpa using hj)
      simp only [used, List.set_cons_succ, List.countP_cons] at hrest ⊢
      omega

theorem filter_home_eq_nil {home : α → Nat} {as : List α} {j : Nat} (h : ∀ a ∈ as, home a ≠ j) :
    as.filter (fun a => home a = j) = [] :=
  List.filter_eq_nil_iff.mpr fun a ha => by simpa using h a ha

theorem bucket_eq_filter_from {home : α → Nat} {tbl : List (List α)} {n : Nat}
    (h : ∀ i b, tbl[i]? = some b → ∀ a ∈ b, home a = n + i) {i : Nat} {bucket : List α}
    (hi : tbl[i]? = some bucket) : bucket = (items tbl).filter fun a => home a = n + i := by
  induction tbl generalizing n i with
  | nil => simp at hi
  | cons c tbl ih =>
    have hrest : ∀ i b, tbl[i]? = some b → ∀ a ∈ b, home a = (n + 1) + i := by
      intro i b hb a ha
      rw [h (i + 1) b hb a ha]
      omega
    have hhead : ∀ a ∈ c, home a = n := h 0 c rfl
    rw [items, List.flatten_cons, List.filter_append]
    cases i with
    | zero =>
      obtain rfl : c = bucket := by simpa using hi
      have hself : c.filter (fun a => home a = n + 0) = c :=
        List.filter_eq_self.mpr fun a ha => decide_eq_true (hhead a ha)
      rw [hself, filter_home_eq_nil, List.append_nil]
      intro a ha
      obtain ⟨b, hb, hab⟩ := List.mem_flatten.mp ha
      obtain ⟨j, hj⟩ := List.mem_iff_getElem?.mp hb
      rw [hrest j b hj a hab]
      omega
    | succ i =>
      have hnone : c.filter (fun a => home a = n + (i + 1)) = [] :=
        filter_home_eq_nil fun a ha => by
          rw [hhead a ha]
          omega
      rw [hnone, List.nil_append, ← Nat.add_assoc, Nat.add_right_comm]
      exact ih hrest (by simpa using hi)

theorem bucket_eq_filter {home : α → Nat} {tbl : List (List α)} (h : Homed home tbl) {j : Nat}
    {bucket : List α} (hj : tbl[j]? = some bucket) :
    bucket = (items tbl).filter fun a => home a = j := by
  have hall : ∀ i b, tbl[i]? = some b → ∀ a ∈ b, home a = 0 + i := fun i b hb a ha => by
    rw [Nat.zero_add]
    exact h i b hb a ha
  simpa using bucket_eq_filter_from hall hj

theorem homed_set_of {home : α → Nat} {tbl : List (List α)} {j : Nat} {bucket : List α}
    (h : Homed home tbl) (hb : ∀ a ∈ bucket, home a = j) : Homed home (tbl.set j bucket) := by
  intro i b hi c hc
  by_cases hij : j = i
  · subst hij
    have hlt : j < tbl.length := by simpa using (List.getElem?_eq_some_iff.mp hi).1
    rw [List.getElem?_set_self hlt] at hi
    obtain rfl := Option.some.inj hi
    exact hb c hc
  · rw [List.getElem?_set_ne hij] at hi
    exact h i b hi c hc

theorem items_set_append_perm {tbl : List (List α)} {j : Nat} {bucket : List α}
    (hj : tbl[j]? = some bucket) (bucket' : List α) :
    (bucket ++ items (tbl.set j bucket')).Perm (bucket' ++ items tbl) := by
  induction tbl generalizing j with
  | nil => simp at hj
  | cons b tbl ih =>
    cases j with
    | zero =>
      obtain rfl : b = bucket := by simpa using hj
      simp only [items, List.set_cons_zero, List.flatten_cons]
      rw [← List.append_assoc, ← List.append_assoc]
      exact List.perm_append_comm.append_right _
    | succ j =>
      have hrest := ih (show tbl[j]? = some bucket by simpa using hj)
      simp only [items, List.set_cons_succ, List.flatten_cons] at hrest ⊢
      refine (List.perm_append_comm_assoc _ _ _).trans ?_
      exact (hrest.append_left b).trans (List.perm_append_comm_assoc _ _ _)

theorem used_set_add {tbl : List (List α)} {j : Nat} {bucket : List α}
    (hj : tbl[j]? = some bucket) (bucket' : List α) :
    used (tbl.set j bucket') + (if bucket = [] then 0 else 1) =
      used tbl + if bucket' = [] then 0 else 1 := by
  induction tbl generalizing j with
  | nil => simp at hj
  | cons b tbl ih =>
    cases j with
    | zero =>
      obtain rfl : b = bucket := by simpa using hj
      cases b <;> cases bucket' <;> simp [used]
    | succ j =>
      have hrest := ih (show tbl[j]? = some bucket by simpa using hj)
      simp only [used, List.set_cons_succ, List.countP_cons] at hrest ⊢
      omega

def homes (home : α → Nat) (as : List α) : Nat := (as.map home).toFinset.card

theorem homes_perm {home : α → Nat} {as bs : List α} (h : as.Perm bs) :
    homes home as = homes home bs := by
  rw [homes, homes, List.toFinset_eq_of_perm _ _ (h.map home)]

theorem homes_congr {home home' : α → Nat} {as : List α} (h : ∀ a ∈ as, home a = home' a) :
    homes home as = homes home' as := by
  rw [homes, homes, List.map_congr_left h]

theorem homes_le_append (home : α → Nat) (as bs : List α) :
    homes home bs ≤ homes home (as ++ bs) := by
  rw [homes, homes, List.map_append, List.toFinset_append]
  exact Finset.card_le_card Finset.subset_union_right

theorem homes_append_le (home : α → Nat) (as bs : List α) :
    homes home (as ++ bs) ≤ homes home as + bs.length := by
  have hbs : homes home bs ≤ bs.length := by
    have hle := List.toFinset_card_le (bs.map home)
    rwa [List.length_map] at hle
  have hunion : homes home (as ++ bs) ≤ homes home as + homes home bs := by
    rw [homes, List.map_append, List.toFinset_append]
    exact Finset.card_union_le _ _
  omega

theorem homes_cons_eq {home : α → Nat} {tbl : List (List α)} (h : Homed home tbl) {p q : α}
    {j : Nat} {ps : List α} (hj : tbl[j]? = some (q :: ps)) (hp : home p = j) :
    homes home (p :: items tbl) = homes home (items tbl) := by
  have hq : home q = j := h j _ hj q (by simp)
  have hmem : home p ∈ ((items tbl).map home).toFinset := by
    rw [List.mem_toFinset, List.mem_map]
    exact ⟨q, List.mem_flatten.mpr ⟨_, List.mem_of_getElem? hj, by simp⟩, hq.trans hp.symm⟩
  rw [homes, homes, List.map_cons, List.toFinset_cons, Finset.insert_eq_of_mem hmem]

theorem Homed.append_left {home : α → Nat} {tbl tbl' : List (List α)}
    (h : Homed home (tbl ++ tbl')) : Homed home tbl := by
  intro j bucket hj a ha
  refine h j bucket ?_ a ha
  rw [List.getElem?_append_left (List.getElem?_eq_some_iff.mp hj).1]
  exact hj

theorem used_eq_homes {home : α → Nat} {tbl : List (List α)} (h : Homed home tbl) :
    used tbl = homes home (items tbl) := by
  induction tbl using List.reverseRecOn with
  | nil => rfl
  | append_singleton tbl b ih =>
    have hrest := ih h.append_left
    have hlast : ∀ a ∈ b, home a = tbl.length := h tbl.length b (by simp)
    simp only [homes, used, items, List.flatten_append, List.flatten_singleton, List.map_append,
      List.toFinset_append, List.countP_append, List.countP_singleton] at hrest ⊢
    cases b with
    | nil => simpa using hrest
    | cons a b =>
      have hone : ((a :: b).map home).toFinset = {tbl.length} := by
        ext i
        simp only [List.mem_toFinset, List.mem_map, Finset.mem_singleton]
        constructor
        · rintro ⟨c, hc, rfl⟩
          exact hlast c hc
        · rintro rfl
          exact ⟨a, by simp, hlast a (by simp)⟩
      have hnew : tbl.length ∉ (tbl.flatten.map home).toFinset := by
        simp only [List.mem_toFinset, List.mem_map, not_exists, not_and]
        intro c hc
        obtain ⟨bucket, hbucket, hcb⟩ := List.mem_flatten.mp hc
        obtain ⟨j, hj⟩ := List.mem_iff_getElem?.mp hbucket
        have hlt := (List.getElem?_eq_some_iff.mp hj).1
        rw [h.append_left j bucket hj c hcb]
        exact hlt.ne
      rw [hone, Finset.union_comm, Finset.singleton_union, Finset.card_insert_of_notMem hnew, ← hrest]
      rfl

theorem mem_of_part {tbl' tbl : List (List α)} (h : List.Forall₂ List.Sublist tbl' tbl) {j : Nat}
    {bucket : List α} (hj : tbl'[j]? = some bucket) :
    ∃ whole, tbl[j]? = some whole ∧ bucket.Sublist whole := by
  obtain ⟨hlt, rfl⟩ := List.getElem?_eq_some_iff.mp hj
  exact ⟨_, List.getElem?_eq_getElem (h.length_eq ▸ hlt), h.get hlt (h.length_eq ▸ hlt)⟩

theorem Homed.part {home : α → Nat} {tbl' tbl : List (List α)} (h : Homed home tbl)
    (hpart : List.Forall₂ List.Sublist tbl' tbl) : Homed home tbl' := by
  intro j bucket hj a ha
  obtain ⟨whole, hwhole, hsub⟩ := mem_of_part hpart hj
  exact h j whole hwhole a (hsub.mem ha)

theorem used_heads {tbl' tbl : List (List α)}
    (h : List.Forall₂ List.Sublist tbl' (tbl.map (List.take 1))) :
    used tbl' = (items tbl').length := by
  induction tbl generalizing tbl' with
  | nil =>
    cases h
    rfl
  | cons bucket tbl ih =>
    obtain ⟨b, rest, hsub, hrest, rfl⟩ := List.forall₂_cons_right_iff.mp h
    have hlen : b.length ≤ 1 := hsub.length_le.trans (by simp)
    have hused : used (b :: rest) = used rest + b.length := by
      match b, hlen with
      | [], _ => simp [used]
      | [a], _ => simp [used]
    rw [hused, ih hrest, items, items, List.flatten_cons, List.length_append, Nat.add_comm]

theorem heads_tails (tbl : List (List α)) :
    (items (tbl.map (List.take 1)) ++ tbl.flatMap List.tail).Perm (items tbl) := by
  induction tbl with
  | nil => exact List.Perm.refl _
  | cons b tbl ih =>
    have hb : b.take 1 ++ b.tail = b := by cases b <;> rfl
    have hmid : (items (tbl.map (List.take 1)) ++ (b.tail ++ tbl.flatMap List.tail)).Perm
        (b.tail ++ (items (tbl.map (List.take 1)) ++ tbl.flatMap List.tail)) := by
      rw [← List.append_assoc, ← List.append_assoc]
      exact List.perm_append_comm.append_right _
    have hleft : items ((b :: tbl).map (List.take 1)) ++ (b :: tbl).flatMap List.tail =
        b.take 1 ++ (items (tbl.map (List.take 1)) ++ (b.tail ++ tbl.flatMap List.tail)) := by
      simp [items]
    have hright : items (b :: tbl) = b.take 1 ++ (b.tail ++ items tbl) := by
      rw [← List.append_assoc, hb]
      rfl
    rw [hleft, hright]
    exact (hmid.trans (ih.append_left b.tail)).append_left (b.take 1)

end Buckets
