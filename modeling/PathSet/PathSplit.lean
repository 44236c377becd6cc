import PathSet.PathElements

/-!
The list of elements that repeated splitting makes, and the laws that leave no other
list. Every element but the last ends with a separator and has no other one, so the
elements tell the key, and the order of the separators does not matter.
-/

namespace PathSet
open Fallible

def splitAll (sepSet : Bytes) : Nat → Bytes → Outcome (List Bytes)
  | 0, _ => .error .hang
  | fuel + 1, key =>
      if key = [] then pure []
      else do
        let (d, rest) ← split sepSet key
        let es ← splitAll sepSet fuel rest
        pure (key.take d :: es)

theorem splitAll_eq (sepSet : Bytes) {key : Bytes} {fuel : Nat} (h : key.length < fuel) :
    splitAll sepSet fuel key = .ok (elements sepSet key) := by
  induction fuel generalizing key with
  | zero => omega
  | succ fuel ih =>
    rw [splitAll]
    split_ifs with hkey
    · subst hkey
      rfl
    · have hlt := @length_drop_firstLength sepSet key hkey
      have hrest : splitAll sepSet fuel (key.drop (firstLength sepSet key)) = _ := ih (by omega)
      rw [elements_eq_cons hkey, split_eq]
      simp only [ok_bind, hrest, pure_eq_ok]

structure Cut (sepSet key : Bytes) (es : List Bytes) : Prop where
  joined : es.flatten = key
  nonempty : ∀ e ∈ es, e ≠ []
  ended : ∀ e ∈ es.dropLast, ∃ ch ∈ sepSet, e.getLast? = some ch
  inner : ∀ e ∈ es, ∀ ch ∈ sepSet, ch ∉ e.dropLast

theorem elements_append {sepSet e rest : Bytes} (hne : e ≠ [])
    (hinner : ∀ ch ∈ sepSet, ch ∉ e.dropLast)
    (hend : rest ≠ [] → ∃ ch ∈ sepSet, e.getLast? = some ch) :
    elements sepSet (e ++ rest) = e :: elements sepSet rest := by
  induction e with
  | nil => exact absurd rfl hne
  | cons a e ih =>
    cases e with
    | nil =>
      by_cases ha : a ∈ sepSet
      · rw [List.singleton_append, elements, if_pos ha]
      · have hrest : rest = [] := by
          by_contra h
          obtain ⟨ch, hch, hlast⟩ := hend h
          obtain rfl : a = ch := Option.some.inj hlast
          exact ha hch
        simp [hrest, elements, ha]
    | cons b e =>
      have ha : a ∉ sepSet := fun h => hinner a h (by simp)
      have hsub := ih (by simp) (fun ch hch hmem => hinner ch hch (by simp [hmem]))
        (fun h => by simpa using hend h)
      rw [List.cons_append, elements, if_neg ha, hsub]

theorem Cut.eq_elements {sepSet key : Bytes} {es : List Bytes} (h : Cut sepSet key es) :
    es = elements sepSet key := by
  obtain ⟨rfl, hne, hend, hinner⟩ := h
  induction es with
  | nil => rfl
  | cons e es ih =>
    have hcons : elements sepSet (e ++ es.flatten) = e :: elements sepSet es.flatten := by
      refine elements_append (hne e (by simp)) (hinner e (by simp)) fun hrest => ?_
      cases es with
      | nil => exact absurd rfl hrest
      | cons e' es => exact hend e (by simp)
    rw [List.flatten_cons, hcons]
    refine congrArg (e :: ·) (ih (fun x hx => hne x (by simp [hx])) (fun x hx => ?_)
      (fun x hx => hinner x (by simp [hx])))
    cases es with
    | nil => cases hx
    | cons e' es => exact hend x (List.mem_cons_of_mem _ hx)

theorem ended_elements {sepSet key e : Bytes} (he : e ∈ (elements sepSet key).dropLast) :
    ∃ ch ∈ sepSet, e.getLast? = some ch := by
  induction key generalizing e with
  | nil => simp [elements] at he
  | cons a key ih =>
    rw [elements] at he
    split_ifs at he with ha
    · cases hes : elements sepSet key with
      | nil => simp [hes] at he
      | cons x xs =>
        rw [hes, List.dropLast_cons_cons] at he
        rcases List.mem_cons.mp he with rfl | he
        · exact ⟨a, ha, rfl⟩
        · exact ih (hes ▸ he)
    · cases hes : elements sepSet key with
      | nil => simp [hes] at he
      | cons x xs =>
        rw [hes] at he ih
        cases xs with
        | nil => simp at he
        | cons y xs =>
          rw [List.dropLast_cons_cons] at he
          rcases List.mem_cons.mp he with rfl | he
          · obtain ⟨ch, hch, hlast⟩ := @ih x (by simp)
            refine ⟨ch, hch, ?_⟩
            rw [List.getLast?_cons, hlast]
            rfl
          · exact ih (by rw [List.dropLast_cons_cons]; exact List.mem_cons_of_mem _ he)

theorem cut_elements (sepSet key : Bytes) : Cut sepSet key (elements sepSet key) :=
  ⟨flatten_elements sepSet key, fun _ => ne_nil_of_mem_elements, fun _ => ended_elements,
    fun _ he _ hch => sep_notMem_dropLast hch he⟩

theorem elements_congr {sepSet sepSet' : Bytes} (h : ∀ ch, ch ∈ sepSet' ↔ ch ∈ sepSet) (key : Bytes) :
    elements sepSet' key = elements sepSet key := by
  induction key with
  | nil => rfl
  | cons a key ih => simp only [elements, h, ih]

/-- Splitting ends, with the only list that obeys the laws. -/
theorem path_trie_split_all (sepSet key : Bytes) :
    ∃ es, (∀ fuel, key.length < fuel → splitAll sepSet fuel key = .ok es) ∧ Cut sepSet key es ∧
      (∀ es', Cut sepSet key es' → es' = es) ∧
      (∀ sepSet' fuel, (∀ ch, ch ∈ sepSet' ↔ ch ∈ sepSet) → key.length < fuel →
        splitAll sepSet' fuel key = .ok es) ∧
      ∀ key' fuel, key'.length < fuel → splitAll sepSet fuel key' = .ok es → key' = key := by
  refine ⟨elements sepSet key, fun fuel => splitAll_eq sepSet, cut_elements sepSet key,
    fun es' h => h.eq_elements, fun sepSet' fuel hsep hlen => ?_, fun key' fuel hlen h => ?_⟩
  · rw [splitAll_eq sepSet' hlen, elements_congr hsep]
  · rw [splitAll_eq sepSet hlen] at h
    exact elements_injective sepSet (Except.ok.inj h)

end PathSet
