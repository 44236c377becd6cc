import Mathlib.Data.List.Chain
import Mathlib.Data.List.Nodup
import Mathlib.Order.Lattice

/-!
Lists sorted by a key: where an element can be inserted, and how neighbours tell
whether an element is there twice.
-/

namespace List

variable {α β : Type} [LinearOrder β] {key : α → β}

def SortedBy (key : α → β) (l : List α) : Prop := l.Pairwise fun a b => key a ≤ key b

theorem SortedBy.insert {l₁ l₂ : List α} {c : α} (h : SortedBy key (l₁ ++ l₂))
    (h₁ : ∀ d ∈ l₁.getLast?, key d ≤ key c) (h₂ : ∀ d ∈ l₂, key c ≤ key d) :
    SortedBy key (l₁ ++ c :: l₂) := by
  obtain ⟨hl₁, hl₂, hbetween⟩ := pairwise_append.mp h
  have hle : ∀ d ∈ l₁, key d ≤ key c := by
    rcases eq_nil_or_concat l₁ with rfl | ⟨l, e, rfl⟩
    · intro d hd
      cases hd
    · rw [concat_eq_append] at hl₁ h₁
      intro d hd
      rw [concat_eq_append] at hd
      have he : key e ≤ key c := h₁ e (by simp)
      rcases mem_append.mp hd with hd | hd
      · exact ((pairwise_append.mp hl₁).2.2 d hd e (by simp)).trans he
      · exact mem_singleton.mp hd ▸ he
  refine pairwise_append.mpr ⟨hl₁, pairwise_cons.mpr ⟨h₂, hl₂⟩, fun a ha b hb => ?_⟩
  rcases mem_cons.mp hb with rfl | hb
  · exact hle a ha
  · exact hbetween a ha b hb

theorem SortedBy.nodup_iff {l : List α} (h : SortedBy key l) (hkey : Function.Injective key) :
    l.Nodup ↔ l.IsChain (· ≠ ·) := by
  constructor
  · exact Pairwise.isChain
  · intro hchain
    have hlt : l.IsChain fun a b => key a < key b := by
      induction l with
      | nil => exact .nil
      | cons a l ih =>
        cases l with
        | nil => exact .singleton a
        | cons b l =>
          obtain ⟨hab, hchain⟩ := isChain_cons_cons.mp hchain
          obtain ⟨ha, hl⟩ := pairwise_cons.mp h
          exact .cons_cons (lt_of_le_of_ne (ha b (by simp)) (hkey.ne hab)) (ih hl hchain)
    have htrans : Trans (fun a b => key a < key b) (fun a b => key a < key b)
        (fun a b : α => key a < key b) := ⟨lt_trans⟩
    show l.Pairwise (· ≠ ·)
    exact (isChain_iff_pairwise.mp hlt).imp fun hlt heq => hlt.ne (congrArg key heq)

end List
