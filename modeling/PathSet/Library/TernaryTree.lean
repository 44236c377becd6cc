import Mathlib.Order.Lattice
import Mathlib.Data.List.Nodup
import Mathlib.Data.List.Infix

/-!
Ternary search trees over an arbitrary symbol type. The nodes linked by `lo` and
`hi` form one level, `eq` leads to the level of the next symbol. Symbols are
compared through a rank in a linear order. Every node carries the identity it
was given when it was made, so a search returns an identity and not a copy.

A key is a list of symbols. `find` follows a key to the node of its last
symbol, thus the nodes of a tree are the nonempty prefixes of its keys.
-/

namespace TernaryTree

inductive SearchTree (σ : Type) where
  | nil
  | node (id : Nat) (sym : σ) (lo eq hi : SearchTree σ)
  deriving DecidableEq, Repr

variable {σ ρ : Type}

def chain : Nat → List σ → SearchTree σ
  | _, [] => .nil
  | n, k :: ks => .node (n + 1) k .nil (chain (n + 1) ks) .nil

def ids : SearchTree σ → List Nat
  | .nil => []
  | .node id _ lo eq hi => id :: (ids lo ++ ids eq ++ ids hi)

def size : SearchTree σ → Nat
  | .nil => 0
  | .node _ _ lo eq hi => size lo + size eq + size hi + 1

@[simp] theorem length_ids (t : SearchTree σ) : (ids t).length = size t := by
  induction t with
  | nil => rfl
  | node id s lo eq hi ihl ihe ihh =>
    simp only [ids, size, List.length_cons, List.length_append, ihl, ihe, ihh]

theorem ids_chain (n : Nat) (ks : List σ) : ids (chain n ks) = List.range' (n + 1) ks.length := by
  induction ks generalizing n with
  | nil => rfl
  | cons k ks ih => simp [chain, ids, ih, List.range'_succ]

variable [LinearOrder ρ] (rank : σ → ρ)

def level : SearchTree σ → List σ
  | .nil => []
  | .node _ s lo _ hi => level lo ++ s :: level hi

/-- Each level is a binary search tree for the rank. -/
def Ordered : SearchTree σ → Prop
  | .nil => True
  | .node _ s lo eq hi =>
      (∀ x ∈ level lo, rank x < rank s) ∧ (∀ x ∈ level hi, rank s < rank x) ∧
        Ordered lo ∧ Ordered eq ∧ Ordered hi

theorem level_chain (n : Nat) (ks : List σ) : level (chain n ks) = ks.head?.toList := by
  cases ks <;> rfl

theorem ordered_chain (n : Nat) (ks : List σ) : Ordered rank (chain n ks) := by
  induction ks generalizing n with
  | nil => trivial
  | cons k ks ih => simp [chain, Ordered, level, ih]

/-- The end mark has no level below it, every other symbol has one. -/
def Ended (e : σ) : SearchTree σ → Prop
  | .nil => True
  | .node _ s lo eq hi => (s = e ↔ eq = .nil) ∧ Ended e lo ∧ Ended e eq ∧ Ended e hi

def Sentence (e : σ) (ks : List σ) : Prop := ∃ body, ks = body ++ [e] ∧ e ∉ body

theorem Sentence.ne_nil {e : σ} {ks : List σ} (h : Sentence e ks) : ks ≠ [] := by
  obtain ⟨body, rfl, -⟩ := h
  simp

theorem sentence_singleton (e : σ) : Sentence e [e] := ⟨[], by simp⟩

theorem sentence_cons {e k : σ} {ks : List σ} :
    Sentence e (k :: ks) ↔ (k = e ∧ ks = []) ∨ (k ≠ e ∧ Sentence e ks) := by
  constructor
  · rintro ⟨body, hb, he⟩
    cases body with
    | nil =>
      left
      simpa using hb
    | cons b body =>
      obtain ⟨rfl, rfl⟩ : k = b ∧ ks = body ++ [e] := by simpa using hb
      simp only [List.mem_cons, not_or] at he
      exact Or.inr ⟨fun h => he.1 h.symm, body, rfl, he.2⟩
  · rintro (⟨rfl, rfl⟩ | ⟨hk, body, rfl, he⟩)
    · exact sentence_singleton k
    · exact ⟨k :: body, rfl, by simp [he, Ne.symm hk]⟩

theorem Sentence.eq_of_prefix {e : σ} {qs ks : List σ} (hq : Sentence e qs) (hk : Sentence e ks)
    (h : qs <+: ks) : qs = ks := by
  induction ks generalizing qs with
  | nil => exact absurd rfl hk.ne_nil
  | cons k ks ih =>
    cases qs with
    | nil => exact absurd rfl hq.ne_nil
    | cons q qs =>
      obtain ⟨rfl, hp⟩ := List.cons_prefix_cons.mp h
      rcases sentence_cons.mp hk with ⟨rfl, rfl⟩ | ⟨hne, hk⟩
      · rw [List.prefix_nil.mp hp]
      · rcases sentence_cons.mp hq with ⟨rfl, -⟩ | ⟨-, hq⟩
        · exact absurd rfl hne
        · rw [ih hq hk hp]

theorem ended_chain {e : σ} (n : Nat) {ks : List σ} (h : Sentence e ks) : Ended e (chain n ks) := by
  induction ks generalizing n with
  | nil => trivial
  | cons k ks ih =>
    rcases sentence_cons.mp h with ⟨rfl, rfl⟩ | ⟨hk, hs⟩
    · simp [chain, Ended]
    · refine ⟨⟨fun h => absurd h hk, fun h => ?_⟩, trivial, ih _ hs, trivial⟩
      cases ks with
      | nil => exact absurd rfl hs.ne_nil
      | cons => simp [chain] at h

variable [DecidableEq σ]

def find : SearchTree σ → List σ → Option Nat
  | .nil, _ => none
  | .node _ _ _ _ _, [] => none
  | .node id s lo eq hi, k :: ks =>
      if k = s then
        if ks = [] then some id else find eq ks
      else if rank k < rank s then find lo (k :: ks)
      else find hi (k :: ks)

def addKey (n : Nat) : SearchTree σ → List σ → SearchTree σ
  | .nil, ks => chain n ks
  | .node id s lo eq hi, [] => .node id s lo eq hi
  | .node id s lo eq hi, k :: ks =>
      if k = s then .node id s lo (addKey n eq ks) hi
      else if rank k < rank s then .node id s (addKey n lo (k :: ks)) eq hi
      else .node id s lo eq (addKey n hi (k :: ks))

def depth : SearchTree σ → List σ → Nat
  | .nil, _ => 0
  | .node _ _ _ _ _, [] => 0
  | .node _ s lo eq hi, k :: ks =>
      if k = s then depth eq ks + 1
      else if rank k < rank s then depth lo (k :: ks)
      else depth hi (k :: ks)

@[simp] theorem find_nil (ks : List σ) : find rank .nil ks = none := by
  cases ks <;> rfl

@[simp] theorem find_empty (t : SearchTree σ) : find rank t [] = none := by
  cases t <;> rfl

@[simp] theorem addKey_empty (n : Nat) (t : SearchTree σ) : addKey rank n t [] = t := by
  cases t <;> rfl

@[simp] theorem addKey_nil (n : Nat) (ks : List σ) : addKey rank n .nil ks = chain n ks := by
  cases ks <;> rfl

@[simp] theorem depth_nil (ks : List σ) : depth rank .nil ks = 0 := by
  cases ks <;> rfl

@[simp] theorem depth_empty (t : SearchTree σ) : depth rank t [] = 0 := by
  cases t <;> rfl

theorem find_chain (n : Nat) (ks qs : List σ) :
    find rank (chain n ks) qs =
      if qs ≠ [] ∧ qs <+: ks then some (n + qs.length) else none := by
  induction ks generalizing n qs with
  | nil => cases qs <;> simp [chain]
  | cons k ks ih =>
    cases qs with
    | nil => simp
    | cons q qs =>
      by_cases hq : q = k
      · subst hq
        by_cases hqs : qs = []
        · simp [chain, find, hqs]
        · simp only [chain, find, if_true, hqs, if_false, ih, List.cons_prefix_cons, true_and,
            ne_eq, not_false_eq_true, List.length_cons, reduceCtorEq]
          congr 2
          omega
      · simp [chain, find, hq, List.cons_prefix_cons]

theorem find_addKey_of_find {t : SearchTree σ} {qs : List σ} {i : Nat} (n : Nat) (ks : List σ)
    (h : find rank t qs = some i) : find rank (addKey rank n t ks) qs = some i := by
  induction t generalizing ks qs with
  | nil => simp at h
  | node id s lo eq hi ihl ihe ihh =>
    cases qs with
    | nil => simp at h
    | cons q qs =>
      cases ks with
      | nil => simpa using h
      | cons k ks =>
        simp only [addKey]
        simp only [find] at h
        by_cases hk : k = s
        · simp only [hk, if_true, find]
          by_cases hq : q = s
          · simp only [hq, if_true] at h ⊢
            split_ifs at h ⊢ with hqs
            · exact h
            · exact ihe ks h
          · simpa only [hq, if_false] using h
        · by_cases hlt : rank k < rank s
          · simp only [hk, hlt, if_true, if_false, find]
            split_ifs at h ⊢
            · exact h
            · exact h
            · exact ihl (k :: ks) h
            · exact h
          · simp only [hk, hlt, if_false, find]
            split_ifs at h ⊢
            · exact h
            · exact h
            · exact h
            · exact ihh (k :: ks) h

theorem find_addKey_of_none {t : SearchTree σ} {qs : List σ} (n : Nat) (ks : List σ)
    (h : find rank t qs = none) :
    find rank (addKey rank n t ks) qs =
      if qs ≠ [] ∧ qs <+: ks then some (n + (qs.length - depth rank t ks)) else none := by
  induction t generalizing ks qs with
  | nil => simp [find_chain]
  | node id s lo eq hi ihl ihe ihh =>
    cases qs with
    | nil => simp
    | cons q qs =>
      cases ks with
      | nil => simpa using h
      | cons k ks =>
        simp only [addKey]
        simp only [find] at h
        by_cases hk : k = s
        · subst hk
          by_cases hq : q = k
          · subst hq
            simp only [if_true] at h
            split_ifs at h with hqs
            simp only [if_true, find, hqs, if_false, ihe ks h, depth, List.cons_prefix_cons,
              true_and, ne_eq, not_false_eq_true, List.length_cons, reduceCtorEq]
            congr 2
            omega
          · simp only [if_true, find, hq, if_false, List.cons_prefix_cons, false_and, and_false]
            split_ifs at h ⊢ <;> exact h
        · by_cases hlt : rank k < rank s
          · simp only [hk, hlt, if_true, if_false, find, depth]
            by_cases hq : q = s
            · have hqk : q ≠ k := fun e => hk (e ▸ hq)
              simp only [hq, if_true] at h ⊢
              simpa [List.cons_prefix_cons, hq ▸ hqk] using h
            · simp only [hq, if_false] at h ⊢
              split_ifs at h with hql
              · simp only [hql, if_true]
                exact ihl (k :: ks) h
              · have hqk : q ≠ k := fun e => hql (e ▸ hlt)
                simpa [hql, List.cons_prefix_cons, hqk] using h
          · simp only [hk, hlt, if_false, find, depth]
            by_cases hq : q = s
            · have hqk : q ≠ k := fun e => hk (e ▸ hq)
              simp only [hq, if_true] at h ⊢
              simpa [List.cons_prefix_cons, hq ▸ hqk] using h
            · simp only [hq, if_false] at h ⊢
              split_ifs at h with hql
              · have hqk : q ≠ k := fun e => hlt (e ▸ hql)
                simpa [hql, List.cons_prefix_cons, hqk] using h
              · simp only [hql, if_false]
                exact ihh (k :: ks) h

theorem find_prefix_isSome {t : SearchTree σ} {qs ks : List σ} (hne : qs ≠ []) (hp : qs <+: ks)
    (h : (find rank t ks).isSome) : (find rank t qs).isSome := by
  induction t generalizing ks qs with
  | nil => simp at h
  | node id s lo eq hi ihl ihe ihh =>
    cases qs with
    | nil => exact absurd rfl hne
    | cons q qs =>
      obtain ⟨rest, rfl⟩ := hp
      simp only [List.cons_append, find] at h ⊢
      by_cases hq : q = s
      · simp only [hq, if_true] at h ⊢
        by_cases hqs : qs = []
        · simp [hqs]
        · have hks : qs ++ rest ≠ [] := by simp [hqs]
          simp only [hqs, hks, if_false] at h ⊢
          exact ihe hqs (List.prefix_append _ _) h
      · simp only [hq, if_false] at h ⊢
        split_ifs at h ⊢
        · exact ihl (List.cons_ne_nil q qs) (List.prefix_append _ _) h
        · exact ihh (List.cons_ne_nil q qs) (List.prefix_append _ _) h

theorem find_isSome_iff_le_depth {t : SearchTree σ} {qs ks : List σ} (hne : qs ≠ []) (hp : qs <+: ks) :
    (find rank t qs).isSome ↔ qs.length ≤ depth rank t ks := by
  induction t generalizing ks qs with
  | nil => simpa using hne
  | node id s lo eq hi ihl ihe ihh =>
    cases qs with
    | nil => exact absurd rfl hne
    | cons q qs =>
      obtain ⟨rest, rfl⟩ := hp
      simp only [List.cons_append, find, depth]
      by_cases hq : q = s
      · simp only [hq, if_true, List.length_cons, Nat.add_le_add_iff_right]
        by_cases hqs : qs = []
        · simp [hqs]
        · simpa only [hqs, if_false] using ihe hqs (List.prefix_append _ _)
      · simp only [hq, if_false]
        split_ifs
        · exact ihl (List.cons_ne_nil q qs) (List.prefix_append _ _)
        · exact ihh (List.cons_ne_nil q qs) (List.prefix_append _ _)

theorem find_addKey_sentence {e : σ} {t : SearchTree σ} {ks qs : List σ} (n : Nat)
    (hk : Sentence e ks) (hq : Sentence e qs) (h : find rank t ks = none) :
    find rank (addKey rank n t ks) qs =
      if qs = ks then some (n + (ks.length - depth rank t ks)) else find rank t qs := by
  by_cases heq : qs = ks
  · subst heq
    rw [find_addKey_of_none rank n qs h, if_pos rfl, if_pos ⟨hq.ne_nil, List.prefix_refl qs⟩]
  · rw [if_neg heq]
    cases hf : find rank t qs with
    | some i => exact find_addKey_of_find rank n ks hf
    | none =>
      rw [find_addKey_of_none rank n ks hf]
      exact if_neg fun hp => heq (hq.eq_of_prefix hk hp.2)

theorem find_node_cases {id : Nat} {s k : σ} {lo eq hi : SearchTree σ} {ks : List σ} {i : Nat}
    (h : find rank (.node id s lo eq hi) (k :: ks) = some i) :
    (k = s ∧ ks = [] ∧ i = id) ∨ (k = s ∧ find rank eq ks = some i) ∨
      find rank lo (k :: ks) = some i ∨ find rank hi (k :: ks) = some i := by
  simp only [find] at h
  split_ifs at h with hk hnil hlt
  · exact Or.inl ⟨hk, hnil, by simpa using h.symm⟩
  · exact Or.inr (Or.inl ⟨hk, h⟩)
  · exact Or.inr (Or.inr (Or.inl h))
  · exact Or.inr (Or.inr (Or.inr h))

theorem find_mem_ids {t : SearchTree σ} {ks : List σ} {i : Nat} (h : find rank t ks = some i) :
    i ∈ ids t := by
  induction t generalizing ks with
  | nil => simp at h
  | node id s lo eq hi ihl ihe ihh =>
    cases ks with
    | nil => simp at h
    | cons k ks =>
      simp only [ids, List.mem_cons, List.mem_append]
      rcases find_node_cases rank h with ⟨-, -, rfl⟩ | ⟨-, h⟩ | h | h
      · exact Or.inl rfl
      · exact Or.inr (Or.inl (Or.inr (ihe h)))
      · exact Or.inr (Or.inl (Or.inl (ihl h)))
      · exact Or.inr (Or.inr (ihh h))

theorem find_inj {t : SearchTree σ} {ks qs : List σ} {i : Nat} (hnd : (ids t).Nodup)
    (hk : find rank t ks = some i) (hq : find rank t qs = some i) : ks = qs := by
  induction t generalizing ks qs with
  | nil => simp at hk
  | node id s lo eq hi ihl ihe ihh =>
    cases ks with
    | nil => simp at hk
    | cons k ks =>
      cases qs with
      | nil => simp at hq
      | cons q qs =>
        simp only [ids, List.nodup_cons, List.mem_append, not_or, List.nodup_append] at hnd
        obtain ⟨⟨⟨hidlo, hideq⟩, hidhi⟩, ⟨hndlo, hndeq, hdle⟩, hndhi, hdh⟩ := hnd
        -- the answer lies in one part of the tree only
        rcases find_node_cases rank hk with ⟨rfl, rfl, rfl⟩ | ⟨rfl, h⟩ | h | h <;>
          rcases find_node_cases rank hq with ⟨rfl, rfl, h'⟩ | ⟨rfl, h'⟩ | h' | h'
        · rfl
        · exact absurd (find_mem_ids rank h') hideq
        · exact absurd (find_mem_ids rank h') hidlo
        · exact absurd (find_mem_ids rank h') hidhi
        · exact absurd (h' ▸ find_mem_ids rank h) hideq
        · rw [ihe hndeq h h']
        · exact absurd rfl (hdle _ (find_mem_ids rank h') _ (find_mem_ids rank h))
        · exact absurd rfl (hdh _ (Or.inr (find_mem_ids rank h)) _ (find_mem_ids rank h'))
        · exact absurd (h' ▸ find_mem_ids rank h) hidlo
        · exact absurd rfl (hdle _ (find_mem_ids rank h) _ (find_mem_ids rank h'))
        · exact ihl hndlo h h'
        · exact absurd rfl (hdh _ (Or.inl (find_mem_ids rank h)) _ (find_mem_ids rank h'))
        · exact absurd (h' ▸ find_mem_ids rank h) hidhi
        · exact absurd rfl (hdh _ (Or.inr (find_mem_ids rank h')) _ (find_mem_ids rank h))
        · exact absurd rfl (hdh _ (Or.inl (find_mem_ids rank h')) _ (find_mem_ids rank h))
        · exact ihh hndhi h h'

theorem ids_addKey_perm (n : Nat) (t : SearchTree σ) (ks : List σ) :
    (ids (addKey rank n t ks)).Perm
      (ids t ++ List.range' (n + 1) (ks.length - depth rank t ks)) := by
  induction t generalizing ks with
  | nil => simp [ids_chain, ids]
  | node id s lo eq hi ihl ihe ihh =>
    cases ks with
    | nil => simp
    | cons k ks =>
      have hl := ihl (k :: ks)
      have he := ihe ks
      have hh := ihh (k :: ks)
      simp only [addKey, depth]
      split_ifs
      · simp only [ids, List.length_cons, Nat.add_sub_add_right, List.cons_append]
        refine List.Perm.cons _ ?_
        refine (((List.Perm.refl (ids lo)).append he).append_right (ids hi)).trans ?_
        simp only [List.append_assoc]
        exact (List.Perm.refl _).append ((List.Perm.refl _).append List.perm_append_comm)
      · simp only [ids, List.cons_append]
        refine List.Perm.cons _ ?_
        refine ((hl.append_right (ids eq)).append_right (ids hi)).trans ?_
        simp only [List.append_assoc]
        refine (List.Perm.refl _).append ?_
        refine List.perm_append_comm.trans ?_
        simp only [List.append_assoc, List.Perm.refl]
      · simp only [ids, List.cons_append]
        refine List.Perm.cons _ ?_
        simpa only [List.append_assoc] using
          (List.Perm.refl (ids lo ++ ids eq)).append hh

theorem mem_level_addKey {n : Nat} {t : SearchTree σ} {ks : List σ} {x : σ}
    (h : x ∈ level (addKey rank n t ks)) : x ∈ level t ∨ ks.head? = some x := by
  induction t generalizing ks with
  | nil =>
    right
    simpa [level_chain] using h
  | node id s lo eq hi ihl ihe ihh =>
    cases ks with
    | nil => exact Or.inl h
    | cons k ks =>
      simp only [addKey] at h
      split_ifs at h
      · exact Or.inl h
      · simp only [level, List.mem_append, List.mem_cons] at h ⊢
        rcases h with h | h | h
        · rcases ihl h with h | h
          · exact Or.inl (Or.inl h)
          · exact Or.inr h
        · exact Or.inl (Or.inr (Or.inl h))
        · exact Or.inl (Or.inr (Or.inr h))
      · simp only [level, List.mem_append, List.mem_cons] at h ⊢
        rcases h with h | h | h
        · exact Or.inl (Or.inl h)
        · exact Or.inl (Or.inr (Or.inl h))
        · rcases ihh h with h | h
          · exact Or.inl (Or.inr (Or.inr h))
          · exact Or.inr h

theorem ordered_addKey (inj : Function.Injective rank) {n : Nat} {t : SearchTree σ} {ks : List σ}
    (h : Ordered rank t) : Ordered rank (addKey rank n t ks) := by
  induction t generalizing ks with
  | nil => simpa using ordered_chain rank n ks
  | node id s lo eq hi ihl ihe ihh =>
    cases ks with
    | nil => exact h
    | cons k ks =>
      obtain ⟨below, above, hlo, heq, hhi⟩ := h
      simp only [addKey]
      split_ifs with hk hlt
      · exact ⟨below, above, hlo, ihe heq, hhi⟩
      · refine ⟨fun x hx => ?_, above, ihl hlo, heq, hhi⟩
        rcases mem_level_addKey rank hx with hx | hx
        · exact below x hx
        · obtain rfl : k = x := by simpa using hx
          exact hlt
      · refine ⟨below, fun x hx => ?_, hlo, heq, ihh hhi⟩
        rcases mem_level_addKey rank hx with hx | hx
        · exact above x hx
        · obtain rfl : k = x := by simpa using hx
          exact lt_of_le_of_ne (not_lt.mp hlt) (fun e => hk (inj e).symm)

theorem addKey_ne_nil {n : Nat} {t : SearchTree σ} {ks : List σ} (h : ks ≠ []) :
    addKey rank n t ks ≠ .nil := by
  cases t with
  | nil => cases ks <;> simp_all [chain]
  | node id s lo eq hi =>
    cases ks with
    | nil => exact absurd rfl h
    | cons k ks =>
      simp only [addKey]
      split_ifs <;> simp

theorem ended_addKey {e : σ} {n : Nat} {t : SearchTree σ} {ks : List σ} (h : Ended e t)
    (hs : Sentence e ks) : Ended e (addKey rank n t ks) := by
  induction t generalizing ks with
  | nil => simpa using ended_chain n hs
  | node id s lo eq hi ihl ihe ihh =>
    cases ks with
    | nil => exact h
    | cons k ks =>
      obtain ⟨hend, hlo, heq, hhi⟩ := h
      simp only [addKey]
      split_ifs with hk
      · subst hk
        rcases sentence_cons.mp hs with ⟨rfl, rfl⟩ | ⟨hk, hs⟩
        · simpa using ⟨hend, hlo, heq, hhi⟩
        · exact ⟨⟨fun h => absurd h hk, fun h => absurd h (addKey_ne_nil rank hs.ne_nil)⟩,
            hlo, ihe heq hs, hhi⟩
      · exact ⟨hend, ihl hlo hs, heq, hhi⟩
      · exact ⟨hend, hlo, heq, ihh hhi hs⟩

def bodies (e : σ) : SearchTree σ → List (List σ)
  | .nil => []
  | .node _ s lo eq hi =>
      bodies e lo ++ (if s = e then [[]] else (bodies e eq).map (s :: ·)) ++ bodies e hi

theorem head_mem_level {t : SearchTree σ} {k : σ} {ks : List σ}
    (h : (find rank t (k :: ks)).isSome) : k ∈ level t := by
  induction t with
  | nil => simp at h
  | node id s lo eq hi ihl ihe ihh =>
    simp only [find] at h
    simp only [level, List.mem_append, List.mem_cons]
    split_ifs at h with hk
    · exact Or.inr (Or.inl hk)
    · exact Or.inr (Or.inl hk)
    · exact Or.inl (ihl h)
    · exact Or.inr (Or.inr (ihh h))

theorem mem_middle {e s : σ} {id : Nat} {lo eq hi : SearchTree σ}
    (ih : ∀ b, b ∈ bodies e eq ↔ e ∉ b ∧ (find rank eq (b ++ [e])).isSome) {b ks : List σ} {k : σ}
    (hb : b ++ [e] = k :: ks) :
    b ∈ (if s = e then [[]] else (bodies e eq).map (s :: ·)) ↔
      k = s ∧ e ∉ b ∧ (find rank (.node id s lo eq hi) (b ++ [e])).isSome := by
  by_cases hse : s = e
  · subst hse
    cases b with
    | nil =>
      obtain ⟨rfl, rfl⟩ : s = k ∧ [] = ks := by simpa using hb
      simp [find]
    | cons c b =>
      obtain ⟨rfl, -⟩ : c = k ∧ b ++ [s] = ks := by simpa using hb
      refine iff_of_false (by simp) ?_
      rintro ⟨rfl, hnot, -⟩
      simp at hnot
  · rw [if_neg hse]
    cases b with
    | nil =>
      obtain ⟨rfl, -⟩ : e = k ∧ [] = ks := by simpa using hb
      simp [Ne.symm hse]
    | cons c b =>
      obtain ⟨rfl, -⟩ : c = k ∧ b ++ [e] = ks := by simpa using hb
      simp only [List.mem_map, List.cons.injEq, List.mem_cons, not_or, List.cons_append, find]
      constructor
      · rintro ⟨b', hm, rfl, rfl⟩
        obtain ⟨hnot, hfind⟩ := (ih b').mp hm
        exact ⟨rfl, ⟨Ne.symm hse, hnot⟩, by simpa using hfind⟩
      · rintro ⟨rfl, ⟨-, hnot⟩, hfind⟩
        exact ⟨b, (ih b).mpr ⟨hnot, by simpa using hfind⟩, rfl, rfl⟩

theorem mem_bodies {e : σ} {t : SearchTree σ} {b : List σ} (h : Ordered rank t) :
    b ∈ bodies e t ↔ e ∉ b ∧ (find rank t (b ++ [e])).isSome := by
  induction t generalizing b with
  | nil => simp [bodies]
  | node id s lo eq hi ihl ihe ihh =>
    obtain ⟨below, above, hlo, heq, hhi⟩ := h
    obtain ⟨k, ks, hb⟩ : ∃ k ks, b ++ [e] = k :: ks := List.exists_cons_of_ne_nil (by simp)
    -- a key in one of the outer parts starts with a symbol of that part
    have left : b ∈ bodies e lo → k ≠ s ∧ rank k < rank s := by
      intro hm
      have hlt := below k (head_mem_level rank (hb ▸ ((ihl hlo).mp hm).2))
      exact ⟨fun he => lt_irrefl _ (he ▸ hlt), hlt⟩
    have right : b ∈ bodies e hi → k ≠ s ∧ ¬ rank k < rank s := by
      intro hm
      have hlt := above k (head_mem_level rank (hb ▸ ((ihh hhi).mp hm).2))
      exact ⟨fun he => lt_irrefl _ (he ▸ hlt), not_lt_of_gt hlt⟩
    simp only [bodies, List.mem_append, or_assoc]
    rw [mem_middle rank (fun b => ihe heq) hb]
    constructor
    · rintro (hm | ⟨-, h⟩ | hm)
      · obtain ⟨hne, hlt⟩ := left hm
        have h := (ihl hlo).mp hm
        rw [hb] at h ⊢
        exact ⟨h.1, by simpa [find, hne, hlt] using h.2⟩
      · exact h
      · obtain ⟨hne, hlt⟩ := right hm
        have h := (ihh hhi).mp hm
        rw [hb] at h ⊢
        exact ⟨h.1, by simpa [find, hne, hlt] using h.2⟩
    · rintro ⟨hnot, hfind⟩
      by_cases hk : k = s
      · exact Or.inr (Or.inl ⟨hk, hnot, hfind⟩)
      · rw [hb] at hfind
        simp only [find, hk, if_false] at hfind
        split_ifs at hfind
        · exact Or.inl ((ihl hlo).mpr ⟨hnot, hb ▸ hfind⟩)
        · exact Or.inr (Or.inr ((ihh hhi).mpr ⟨hnot, hb ▸ hfind⟩))

theorem headD_of_mem_middle {e s : σ} {bs : List (List σ)} {b : List σ}
    (hb : b ∈ (if s = e then [[]] else bs.map (s :: ·))) : b.headD e = s := by
  split_ifs at hb with hse
  · obtain rfl : b = [] := by simpa using hb
    exact hse.symm
  · obtain ⟨b', -, rfl⟩ := List.mem_map.mp hb
    rfl

theorem level_of_mem_bodies {e : σ} {t : SearchTree σ} {b : List σ} (h : b ∈ bodies e t) :
    b.headD e ∈ level t := by
  induction t with
  | nil => simp [bodies] at h
  | node id s lo eq hi ihl ihe ihh =>
    simp only [bodies, level, List.mem_append, List.mem_cons] at h ⊢
    rcases h with (h | h) | h
    · exact Or.inl (ihl h)
    · exact Or.inr (Or.inl (headD_of_mem_middle h))
    · exact Or.inr (Or.inr (ihh h))

theorem bodies_pairwise {e : σ} {R : List σ → List σ → Prop}
    (hhead : ∀ b c, rank (b.headD e) < rank (c.headD e) → R b c)
    (hcons : ∀ s b c, R b c → R (s :: b) (s :: c)) {t : SearchTree σ} (h : Ordered rank t) :
    (bodies e t).Pairwise R := by
  induction t with
  | nil => exact List.Pairwise.nil
  | node id s lo eq hi ihl ihe ihh =>
    obtain ⟨below, above, hlo, heq, hhi⟩ := h
    have hmid : (if s = e then [[]] else (bodies e eq).map (s :: ·)).Pairwise R := by
      split_ifs
      · exact List.pairwise_singleton _ _
      · exact List.pairwise_map.mpr ((ihe heq).imp (hcons s _ _))
    simp only [bodies, List.pairwise_append, List.mem_append]
    refine ⟨⟨ihl hlo, hmid, fun a ha b hb => hhead a b ?_⟩, ihh hhi, fun a ha b hb => hhead a b ?_⟩
    · rw [headD_of_mem_middle hb]
      exact below _ (level_of_mem_bodies ha)
    · have hgt := above _ (level_of_mem_bodies hb)
      rcases ha with ha | ha
      · exact (below _ (level_of_mem_bodies ha)).trans hgt
      · rwa [headD_of_mem_middle ha]

theorem nodup_bodies {e : σ} {t : SearchTree σ} (h : Ordered rank t) : (bodies e t).Nodup := by
  refine bodies_pairwise rank ?_ ?_ h
  · rintro b c hlt rfl
    exact lt_irrefl _ hlt
  · rintro s b c hne heq
    exact hne (List.cons.inj heq).2

def WordLt : List σ → List σ → Prop := List.Lex fun a b => rank a < rank b

omit [DecidableEq σ] in
theorem wordLt_of_head {e : σ} (hmin : ∀ s, ¬rank s < rank e) {b c : List σ}
    (h : rank (b.headD e) < rank (c.headD e)) : WordLt rank b c := by
  cases c with
  | nil => exact absurd h (hmin _)
  | cons y c =>
    cases b with
    | nil => exact List.Lex.nil
    | cons x b => exact List.Lex.rel h

theorem pairwise_bodies {e : σ} (hmin : ∀ s, ¬rank s < rank e) {t : SearchTree σ}
    (h : Ordered rank t) : (bodies e t).Pairwise (WordLt rank) :=
  bodies_pairwise rank (fun _ _ => wordLt_of_head rank hmin) (fun _ _ _ => List.Lex.cons) h

end TernaryTree
