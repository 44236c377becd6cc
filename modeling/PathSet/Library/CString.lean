import Mathlib.Data.List.TakeWhile

/-!
Strings in memory. Memory is what can be accessed from a pointer on, byte by byte. An
access behind its end has no result. The text of a memory is what is before its first NUL.
-/

namespace CString

abbrev Memory := List UInt8

def text (mem : Memory) : Memory := mem.takeWhile (· ≠ 0)

theorem text_nul (mem : Memory) : text (0 :: mem) = [] := by simp [text]

theorem text_cons {ch : UInt8} (h : ch ≠ 0) (mem : Memory) : text (ch :: mem) = ch :: text mem := by
  simp [text, h]

theorem text_append {key : Memory} (h : 0 ∉ key) (mem : Memory) : text (key ++ 0 :: mem) = key := by
  induction key with
  | nil => exact text_nul mem
  | cons ch key ih =>
    have hch : ch ≠ 0 := by
      rintro rfl
      exact h List.mem_cons_self
    rw [List.cons_append, text_cons hch, ih fun hkey => h (List.mem_cons_of_mem ch hkey)]

def strlen : Memory → Option Nat
  | [] => none
  | ch :: mem => if ch = 0 then some 0 else (strlen mem).map (· + 1)

theorem strlen_spec {mem : Memory} (h : 0 ∈ mem) : strlen mem = some (text mem).length := by
  induction mem with
  | nil => cases h
  | cons ch mem ih =>
    rw [strlen]
    by_cases hch : ch = 0
    · rw [if_pos hch, hch, text_nul, List.length_nil]
    · have hmem : 0 ∈ mem := (List.mem_cons.mp h).resolve_left fun heq => hch heq.symm
      rw [if_neg hch, ih hmem, text_cons hch, List.length_cons, Option.map_some]

def strcmp : Memory → Memory → Option Ordering
  | a :: as, b :: bs =>
      if a ≠ b then some (compare a b) else if a = 0 then some .eq else strcmp as bs
  | _, _ => none

theorem strcmp_spec {as bs : Memory} (has : 0 ∈ as) (hbs : 0 ∈ bs) :
    ∃ o, strcmp as bs = some o ∧ (o = .eq ↔ text as = text bs) := by
  induction as generalizing bs with
  | nil => cases has
  | cons a as ih =>
    cases bs with
    | nil => cases hbs
    | cons b bs =>
      rw [strcmp]
      by_cases hab : a = b
      · subst hab
        rw [if_neg (not_not.mpr rfl)]
        by_cases ha : a = 0
        · rw [if_pos ha, ha, text_nul, text_nul]
          exact ⟨.eq, rfl, by simp⟩
        · have has' : 0 ∈ as := (List.mem_cons.mp has).resolve_left fun heq => ha heq.symm
          have hbs' : 0 ∈ bs := (List.mem_cons.mp hbs).resolve_left fun heq => ha heq.symm
          obtain ⟨o, hrun, ho⟩ := ih has' hbs'
          rw [if_neg ha, text_cons ha, text_cons ha]
          exact ⟨o, hrun, by simpa using ho⟩
      · rw [if_pos hab]
        refine ⟨compare a b, rfl, iff_of_false (fun heq => hab (Std.compare_eq_iff_eq.mp heq)) ?_⟩
        intro htext
        by_cases ha : a = 0
        · have hb : b ≠ 0 := fun hb => hab (ha.trans hb.symm)
          rw [ha, text_nul, text_cons hb] at htext
          cases htext
        · by_cases hb : b = 0
          · rw [hb, text_nul, text_cons ha] at htext
            cases htext
          · rw [text_cons ha, text_cons hb] at htext
            exact hab (List.cons.inj htext).1

/-- The first `n` bytes of both memories are accessed. -/
def memcmp : Memory → Memory → Nat → Option Ordering
  | _, _, 0 => some .eq
  | a :: as, b :: bs, n + 1 => do
      let o ← memcmp as bs n
      pure (if a = b then o else compare a b)
  | _, _, _ + 1 => none

theorem memcmp_spec {as bs : Memory} {n : Nat} (has : n ≤ as.length) (hbs : n ≤ bs.length) :
    ∃ o, memcmp as bs n = some o ∧ (o = .eq ↔ as.take n = bs.take n) := by
  induction n generalizing as bs with
  | zero => exact ⟨.eq, by cases as <;> cases bs <;> rfl, by simp⟩
  | succ n ih =>
    obtain ⟨a, as, rfl⟩ := List.exists_cons_of_length_pos (Nat.zero_lt_of_lt has)
    obtain ⟨b, bs, rfl⟩ := List.exists_cons_of_length_pos (Nat.zero_lt_of_lt hbs)
    obtain ⟨o, hrun, ho⟩ := ih (Nat.le_of_succ_le_succ has) (Nat.le_of_succ_le_succ hbs)
    rw [memcmp, hrun, List.take_succ_cons, List.take_succ_cons]
    by_cases hab : a = b
    · refine ⟨o, congrArg some (if_pos hab), ?_⟩
      rw [ho, hab, List.cons_inj_right]
    · refine ⟨compare a b, congrArg some (if_neg hab), ?_⟩
      refine iff_of_false (fun heq => hab (Std.compare_eq_iff_eq.mp heq)) fun heq => ?_
      exact hab (List.cons.inj heq).1

def memcpy : Memory → Memory → Nat → Option Memory
  | dest, _, 0 => some dest
  | _ :: dest, a :: src, n + 1 => (memcpy dest src n).map (a :: ·)
  | _, _, _ + 1 => none

theorem memcpy_spec {dest src : Memory} {n : Nat} (hdest : n ≤ dest.length) (hsrc : n ≤ src.length) :
    memcpy dest src n = some (src.take n ++ dest.drop n) := by
  induction n generalizing dest src with
  | zero => cases dest <;> cases src <;> rfl
  | succ n ih =>
    obtain ⟨d, dest, rfl⟩ := List.exists_cons_of_length_pos (Nat.zero_lt_of_lt hdest)
    obtain ⟨a, src, rfl⟩ := List.exists_cons_of_length_pos (Nat.zero_lt_of_lt hsrc)
    rw [memcpy, ih (Nat.le_of_succ_le_succ hdest) (Nat.le_of_succ_le_succ hsrc)]
    rfl

def store (mem : Memory) (i : Nat) (ch : UInt8) : Option Memory :=
  if i < mem.length then some (mem.set i ch) else none

theorem store_append {key mem : Memory} {d : UInt8} (ch : UInt8) :
    store (key ++ d :: mem) key.length ch = some (key ++ ch :: mem) := by
  have hlt : key.length < (key ++ d :: mem).length := by simp
  rw [store, if_pos hlt, List.set_append_right _ _ (Nat.le_refl _), Nat.sub_self, List.set_cons_zero]

end CString
