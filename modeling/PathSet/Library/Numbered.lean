import PathSet.Library.Pointer
import PathSet.Library.FirstSeen

/-!
Keys numbered from one in the order of their first occurrence. The numbers are the
pointers into the list of the distinct keys, and a longer history changes none of
them. A store that names its keys by these numbers is a dictionary.
-/

namespace Numbered
open Fallible Pointer FirstSeen

variable {κ : Type} [DecidableEq κ]

def Numbers (ks : List κ) (m : κ → Option Nat) : Prop := ∀ k p, m k = some p ↔ deref ks p = some k

section
variable {ks : List κ} {m : κ → Option Nat}

omit [DecidableEq κ] in
theorem numbers_nil : Numbers ([] : List κ) (fun _ => none) := by
  intro k p
  simp

omit [DecidableEq κ] in
theorem Numbers.eq_none_iff (h : Numbers ks m) {k : κ} : m k = none ↔ k ∉ ks := by
  constructor
  · intro hk hmem
    obtain ⟨p, hp⟩ := exists_deref hmem
    simp [(h k p).mpr hp] at hk
  · intro hk
    cases hm : m k with
    | none => rfl
    | some p => exact absurd (mem_of_deref ((h k p).mp hm)) hk

omit [DecidableEq κ] in
theorem Numbers.isSome_iff (h : Numbers ks m) {k : κ} : (m k).isSome ↔ k ∈ ks := by
  rw [← not_iff_not, Bool.not_eq_true, Option.isSome_eq_false_iff, Option.isNone_iff_eq_none,
    h.eq_none_iff]

theorem Numbers.length_eq (h : Numbers ks m) (hnd : ks.Nodup) {past : List κ}
    (hdom : ∀ k, (m k).isSome ↔ k ∈ past) : ks.length = past.toFinset.card := by
  rw [← List.toFinset_card_of_nodup hnd]
  congr 1
  ext k
  rw [List.mem_toFinset, List.mem_toFinset, ← hdom, h.isSome_iff]

omit [DecidableEq κ] in
theorem Numbers.inj (h : Numbers ks m) {k k' : κ} {p : Nat} (hk : m k = some p)
    (hk' : m k' = some p) : k = k' := by
  rw [h] at hk hk'
  exact Option.some.inj (hk.symm.trans hk')

omit [DecidableEq κ] in
theorem Numbers.nodup (h : Numbers ks m) : ks.Nodup := by
  refine List.nodup_iff_getElem?_ne_getElem?.mpr fun i j hij hj heq => ?_
  have hk : deref ks (j + 1) = some ks[j] := List.getElem?_eq_getElem hj
  have hi := (h _ _).mpr (Eq.trans heq hk : deref ks (i + 1) = some ks[j])
  rw [(h _ _).mpr hk] at hi
  have := Option.some.inj hi
  omega

theorem Numbers.concat (h : Numbers ks m) {k : κ} (hk : k ∉ ks) :
    Numbers (ks ++ [k]) (Function.update m k (some (ks.length + 1))) := by
  intro k' p
  rw [deref_append]
  by_cases hkk : k' = k
  · subst hkk
    by_cases hp : p = ks.length + 1
    · simp [hp]
    · rw [if_neg hp, Function.update_self]
      constructor
      · intro he
        exact absurd (Option.some.inj he).symm hp
      · intro he
        exact absurd (mem_of_deref he) hk
  · rw [Function.update_of_ne hkk, h]
    by_cases hp : p = ks.length + 1
    · rw [if_pos hp, hp]
      constructor
      · intro he
        have := (deref_le_length he).2
        omega
      · intro he
        exact absurd (Option.some.inj he).symm hkk
    · rw [if_neg hp]

end

def firsts (past : List κ) : List κ := past.eraseDups

@[simp] theorem firsts_nil : firsts ([] : List κ) = [] := rfl

theorem mem_firsts {past : List κ} {k : κ} : k ∈ firsts past ↔ k ∈ past := List.mem_eraseDups

theorem firsts_concat (past : List κ) (k : κ) :
    firsts (past ++ [k]) = if k ∈ past then firsts past else firsts past ++ [k] := by
  simp only [firsts, List.eraseDups_append]
  split_ifs with h <;> simp [List.removeAll, List.eraseDups_cons, h]

theorem nodup_firsts (past : List κ) : (firsts past).Nodup := by
  induction past using List.reverseRecOn with
  | nil => simp
  | append_singleton past k ih =>
    rw [firsts_concat]
    split_ifs with h
    · exact ih
    · exact nodup_concat ih fun hk => h (mem_firsts.mp hk)

theorem Numbers.perm_firsts {ks : List κ} {m : κ → Option Nat} (h : Numbers ks m) {past : List κ}
    (hdom : ∀ k, (m k).isSome ↔ k ∈ past) : ks.Perm (firsts past) := by
  rw [List.perm_ext_iff_of_nodup h.nodup (nodup_firsts past)]
  intro k
  rw [mem_firsts, ← hdom, h.isSome_iff]

def number (past : List κ) (k : κ) : Nat := (firsts past).idxOf k + 1

theorem deref_number {past : List κ} {k : κ} (h : k ∈ past) :
    deref (firsts past) (number past k) = some k := by
  have hlt : (firsts past).idxOf k < (firsts past).length :=
    List.idxOf_lt_length_iff.mpr (mem_firsts.mpr h)
  rw [number, deref, List.getElem?_eq_getElem hlt, List.getElem_idxOf]

theorem number_eq_of_deref {past : List κ} {k : κ} {p : Nat}
    (h : deref (firsts past) p = some k) : number past k = p :=
  deref_inj (nodup_firsts past) (deref_number (mem_firsts.mp (mem_of_deref h))) h

theorem number_append {past : List κ} {k : κ} (ks : List κ) (h : k ∈ past) :
    number (past ++ ks) k = number past k := by
  rw [number, number, firsts, List.eraseDups_append,
    List.idxOf_append_of_mem (List.mem_eraseDups.mpr h)]
  rfl

theorem number_concat {past : List κ} {k : κ} (h : k ∉ past) :
    number (past ++ [k]) k = (firsts past).length + 1 := by
  refine number_eq_of_deref ?_
  rw [firsts_concat, if_neg h, deref_append, if_pos rfl]

structure Store (σ κ ε : Type) [DecidableEq κ] where
  insert : σ → κ → Except ε (σ × Bool × Nat)
  lookup : σ → κ → Except ε (Option Nat)
  uniq : σ → Nat
  dups : σ → Nat
  val : σ → Nat → Nat
  setVal : σ → Nat → Nat → σ
  Exhausted : ε → Prop
  Key : κ → Prop
  Holds : σ → List κ → Prop
  holds_key : ∀ {s ks k}, Holds s ks → k ∈ ks → Key k
  lookup_spec : ∀ {s ks k}, Holds s ks → Key k →
    (∃ p, lookup s k = .ok (some p) ∧ deref ks p = some k) ∨ (lookup s k = .ok none ∧ k ∉ ks)
  insert_spec : ∀ {s ks k}, Holds s ks → Key k →
    (∃ s' p, insert s k = .ok (s', false, p) ∧ deref ks p = some k ∧ Holds s' ks ∧
      uniq s' = uniq s ∧ dups s' = dups s + 1 ∧ ∀ q, val s' q = val s q) ∨
    (k ∉ ks ∧ (Stops Exhausted (insert s k) ∨
      ∃ s', insert s k = .ok (s', true, ks.length + 1) ∧ Holds s' (ks ++ [k]) ∧
        uniq s' = uniq s + 1 ∧ dups s' = dups s ∧
        ∀ q k', deref ks q = some k' → val s' q = val s q))
  holds_setVal : ∀ {s ks} (p v), Holds s ks → Holds (setVal s p v) ks
  val_setVal : ∀ {s ks p k} (v), Holds s ks → deref ks p = some k → val (setVal s p v) p = v
  val_setVal_ne : ∀ {s p q} (v), p ≠ q → val (setVal s p v) q = val s q
  uniq_setVal : ∀ s p v, uniq (setVal s p v) = uniq s
  dups_setVal : ∀ s p v, dups (setVal s p v) = dups s

namespace Store

variable {σ ε : Type} (S : Store σ κ ε)

def Represents (s : σ) (m : κ → Option Nat) : Prop := ∃ ks, S.Holds s ks ∧ Numbers ks m

theorem represents_empty {s : σ} (h : S.Holds s []) : S.Represents s (fun _ => none) :=
  ⟨[], h, numbers_nil⟩

def finder : Finder σ κ Nat ε where
  insert := S.insert
  lookup := S.lookup
  uniq := S.uniq
  dups := S.dups
  Exhausted := S.Exhausted
  Key := S.Key
  Rep := S.Represents
  rep_key := by
    rintro s m k i ⟨ks, hs, hm⟩ hk
    exact S.holds_key hs (mem_of_deref ((hm k i).mp hk))
  rep_inj := by
    rintro s m k k' i ⟨ks, -, hm⟩ hk hk'
    exact hm.inj hk hk'
  lookup_eq := by
    rintro s m k ⟨ks, hs, hm⟩ hk
    rcases S.lookup_spec hs hk with ⟨p, hrun, hp⟩ | ⟨hrun, hnot⟩
    · rw [hrun, (hm k p).mpr hp]
    · rw [hrun, hm.eq_none_iff.mpr hnot]
  insert_known := by
    rintro s m k i ⟨ks, hs, hm⟩ hk
    have hki := (hm k i).mp hk
    rcases S.insert_spec hs (S.holds_key hs (mem_of_deref hki)) with
      ⟨s', p, hins, hp, hs', hu, hd, -⟩ | ⟨hnew, -⟩
    · obtain rfl : i = p := Option.some.inj (hk.symm.trans ((hm k p).mpr hp))
      exact ⟨s', hins, ⟨ks, hs', hm⟩, hu, hd⟩
    · exact absurd (mem_of_deref hki) hnew
  insert_fresh := by
    rintro s m k ⟨ks, hs, hm⟩ hkey hk
    rcases S.insert_spec hs hkey with ⟨s', p, -, hp, -⟩ | ⟨hnew, he | ⟨s', hins, hs', hu, hd, -⟩⟩
    · exact absurd (mem_of_deref hp) (hm.eq_none_iff.mp hk)
    · exact Or.inl he
    · exact Or.inr ⟨s', _, hins, ⟨_, hs', hm.concat hnew⟩, hu, hd⟩

def dictionary : Dictionary σ κ Nat ε where
  toInterner := S.finder.toInterner
  val := S.val
  setVal := S.setVal
  rep_setVal := by
    rintro s m k i v ⟨ks, hs, hm⟩ -
    exact ⟨ks, S.holds_setVal i v hs, hm⟩
  val_setVal := by
    rintro s m k i v ⟨ks, hs, hm⟩ hk
    exact S.val_setVal v hs ((hm k i).mp hk)
  val_setVal_ne := by
    intro s m k k' i j v _ _ _ hij
    exact S.val_setVal_ne v hij
  val_insert := by
    rintro s m s' b i k k' j ⟨ks, hs, hm⟩ hkey hins hk'
    have hins : S.insert s k = .ok (s', b, i) := hins
    rcases S.insert_spec hs hkey with
      ⟨t, p, hins', -, -, -, -, hval⟩ | ⟨-, ⟨e, -, he⟩ | ⟨t, hins', -, -, -, hval⟩⟩
    · rw [hins] at hins'
      obtain ⟨rfl, -⟩ := Prod.mk.inj (Except.ok.inj hins')
      exact hval j
    · rw [hins] at he
      cases he
    · rw [hins] at hins'
      obtain ⟨rfl, -⟩ := Prod.mk.inj (Except.ok.inj hins')
      exact hval j k' ((hm k' j).mp hk')
  uniq_setVal := S.uniq_setVal
  dups_setVal := S.dups_setVal

end Store

end Numbered
