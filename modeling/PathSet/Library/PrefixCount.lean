import PathSet.Library.TernaryTree
import Mathlib.Data.Finset.Card
import Mathlib.Data.Finset.Image
import Mathlib.Data.List.Infix
import Mathlib.Data.Finset.Dedup

/-!
The number of nodes of a ternary search tree: that of the nonempty prefixes of its keys,
whatever the order of insertion and the rank. Only the equality of symbols counts, so a
renaming of the symbols leaves the number as it is.
-/

namespace TernaryTree

section
variable {α β : Type} [DecidableEq α] [DecidableEq β]

def prefixSet (xs : List (List α)) : Finset (List α) := (xs.flatMap List.inits).toFinset.erase []

def prefixCount (xs : List (List α)) : Nat := (prefixSet xs).card

theorem mem_prefixSet {xs : List (List α)} {p : List α} :
    p ∈ prefixSet xs ↔ p ≠ [] ∧ ∃ x ∈ xs, p <+: x := by
  simp only [prefixSet, Finset.mem_erase, List.mem_toFinset, List.mem_flatMap, List.mem_inits]

theorem prefixCount_mono {xs ys : List (List α)} (h : xs ⊆ ys) : prefixCount xs ≤ prefixCount ys := by
  refine Finset.card_le_card fun p hp => ?_
  obtain ⟨hne, x, hx, hpx⟩ := mem_prefixSet.mp hp
  exact mem_prefixSet.mpr ⟨hne, x, h hx, hpx⟩

theorem prefixCount_singleton (x : List α) : prefixCount [x] ≤ x.length := by
  have hnil : [] ∈ ([x].flatMap List.inits).toFinset := by simp
  have hle := List.toFinset_card_le ([x].flatMap List.inits)
  rw [prefixCount, prefixSet, Finset.card_erase_of_mem hnil]
  simp only [List.flatMap_singleton, List.length_inits] at hle ⊢
  omega

theorem prefixCount_congr {xs ys : List (List α)} (h : ∀ x, x ∈ xs ↔ x ∈ ys) :
    prefixCount xs = prefixCount ys := by
  rw [prefixCount, prefixCount]
  congr 1
  ext p
  simp only [mem_prefixSet, h]

omit [DecidableEq α] [DecidableEq β] in
theorem map_inj_of_mem {f : α → β} {xs ys : List α}
    (hf : ∀ a ∈ xs, ∀ b ∈ ys, f a = f b → a = b) (h : xs.map f = ys.map f) : xs = ys := by
  induction xs generalizing ys with
  | nil => exact (List.map_eq_nil_iff.mp h.symm).symm
  | cons a xs ih =>
    obtain ⟨b, ys, rfl, hab, hrest⟩ := List.map_eq_cons_iff.mp h.symm
    rw [hf a (by simp) b (by simp) hab.symm,
      ih (fun x hx y hy => hf x (by simp [hx]) y (by simp [hy])) hrest.symm]

theorem prefixCount_map {f : α → β} {xs : List (List α)}
    (hf : ∀ x ∈ xs, ∀ y ∈ xs, ∀ a ∈ x, ∀ b ∈ y, f a = f b → a = b) :
    prefixCount (xs.map (List.map f)) = prefixCount xs := by
  have himage : prefixSet (xs.map (List.map f)) = (prefixSet xs).image (List.map f) := by
    ext p
    simp only [mem_prefixSet, List.mem_map, Finset.mem_image]
    constructor
    · rintro ⟨hne, _, ⟨x, hx, rfl⟩, hp⟩
      have htake := List.prefix_iff_eq_take.mp hp
      rw [← List.map_take] at htake
      refine ⟨x.take p.length, ⟨?_, x, hx, List.take_prefix _ _⟩, htake.symm⟩
      intro hnil
      rw [hnil] at htake
      exact hne htake
    · rintro ⟨q, ⟨hne, x, hx, hq⟩, rfl⟩
      exact ⟨by simpa using hne, _, ⟨x, hx, rfl⟩, hq.map f⟩
  rw [prefixCount, himage, Finset.card_image_of_injOn]
  · rfl
  · intro p hp q hq heq
    obtain ⟨-, x, hx, hpx⟩ := mem_prefixSet.mp hp
    obtain ⟨-, y, hy, hqy⟩ := mem_prefixSet.mp hq
    exact map_inj_of_mem (fun a ha b hb => hf x hx y hy a (hpx.subset ha) b (hqy.subset hb)) heq

end

variable {σ ρ : Type} [LinearOrder ρ] (rank : σ → ρ)

def paths : SearchTree σ → List (List σ)
  | .nil => []
  | .node _ s lo eq hi => paths lo ++ ([s] :: (paths eq).map (s :: ·)) ++ paths hi

omit [LinearOrder ρ] in
theorem length_paths (t : SearchTree σ) : (paths t).length = size t := by
  induction t with
  | nil => rfl
  | node id s lo eq hi ihl ihe ihh =>
    simp only [paths, size, List.length_append, List.length_cons, List.length_map, ihl, ihe, ihh]
    omega

theorem head_of_mem_paths {t : SearchTree σ} {p : List σ} (h : p ∈ paths t) :
    ∃ k ks, p = k :: ks ∧ k ∈ level t := by
  induction t with
  | nil => simp [paths] at h
  | node id s lo eq hi ihl ihe ihh =>
    simp only [paths, level, List.mem_append, List.mem_cons, List.mem_map] at h ⊢
    rcases h with (h | rfl | ⟨q, -, rfl⟩) | h
    · obtain ⟨k, ks, rfl, hk⟩ := ihl h
      exact ⟨k, ks, rfl, Or.inl hk⟩
    · exact ⟨s, [], rfl, Or.inr (Or.inl rfl)⟩
    · exact ⟨s, q, rfl, Or.inr (Or.inl rfl)⟩
    · obtain ⟨k, ks, rfl, hk⟩ := ihh h
      exact ⟨k, ks, rfl, Or.inr (Or.inr hk)⟩

theorem nodup_paths {t : SearchTree σ} (h : Ordered rank t) : (paths t).Nodup := by
  induction t with
  | nil => exact List.nodup_nil
  | node id s lo eq hi ihl ihe ihh =>
    obtain ⟨below, above, hlo, heq, hhi⟩ := h
    have hmid : ([s] :: (paths eq).map (s :: ·)).Nodup := by
      refine List.nodup_cons.mpr ⟨?_, (ihe heq).map fun _ _ h => (List.cons.inj h).2⟩
      intro hmem
      obtain ⟨q, hq, hsq⟩ := List.mem_map.mp hmem
      obtain ⟨k, ks, rfl, -⟩ := head_of_mem_paths hq
      simp at hsq
    have hhead : ∀ p ∈ [s] :: (paths eq).map (s :: ·), ∃ q, p = s :: q := by
      intro p hp
      rcases List.mem_cons.mp hp with rfl | hp
      · exact ⟨[], rfl⟩
      · obtain ⟨q, -, rfl⟩ := List.mem_map.mp hp
        exact ⟨q, rfl⟩
    simp only [paths, List.nodup_append, List.mem_append]
    refine ⟨⟨ihl hlo, hmid, ?_⟩, ihh hhi, ?_⟩
    · rintro p hp q hq rfl
      obtain ⟨k, ks, rfl, hk⟩ := head_of_mem_paths hp
      obtain ⟨q, hsq⟩ := hhead _ hq
      obtain ⟨rfl, -⟩ := List.cons.inj hsq
      exact lt_irrefl _ (below k hk)
    · rintro p hp q hq rfl
      obtain ⟨k, ks, rfl, hk⟩ := head_of_mem_paths hq
      rcases hp with hp | hp
      · obtain ⟨k', ks', heq', hk'⟩ := head_of_mem_paths hp
        obtain ⟨rfl, -⟩ := List.cons.inj heq'
        exact lt_irrefl _ ((below k hk').trans (above k hk))
      · obtain ⟨q, hsq⟩ := hhead _ hp
        obtain ⟨rfl, -⟩ := List.cons.inj hsq
        exact lt_irrefl _ (above k hk)

variable [DecidableEq σ]

theorem mem_paths {t : SearchTree σ} {p : List σ} (h : Ordered rank t) :
    p ∈ paths t ↔ (find rank t p).isSome := by
  induction t generalizing p with
  | nil => simp [paths]
  | node id s lo eq hi ihl ihe ihh =>
    obtain ⟨below, above, hlo, heq, hhi⟩ := h
    cases p with
    | nil =>
      refine iff_of_false (fun hmem => ?_) (by simp)
      obtain ⟨k, ks, hp, -⟩ := head_of_mem_paths hmem
      simp at hp
    | cons k ks =>
      have left : k :: ks ∈ paths lo → rank k < rank s := by
        intro hmem
        obtain ⟨a, as, hp, ha⟩ := head_of_mem_paths hmem
        exact (List.cons.inj hp).1 ▸ below a ha
      have right : k :: ks ∈ paths hi → rank s < rank k := by
        intro hmem
        obtain ⟨a, as, hp, ha⟩ := head_of_mem_paths hmem
        exact (List.cons.inj hp).1 ▸ above a ha
      simp only [paths, find, List.mem_append, List.mem_cons, List.mem_map, List.cons.injEq]
      by_cases hk : k = s
      · subst hk
        have hnl : k :: ks ∉ paths lo := fun hmem => lt_irrefl _ (left hmem)
        have hnr : k :: ks ∉ paths hi := fun hmem => lt_irrefl _ (right hmem)
        by_cases hks : ks = []
        · simp [hks]
        · simp [hnl, hnr, hks, ihe heq]
      · have hsk : s ≠ k := Ne.symm hk
        by_cases hlt : rank k < rank s
        · have hnr : k :: ks ∉ paths hi := fun hmem => lt_asymm hlt (right hmem)
          simp [hk, hsk, hlt, hnr, ihl hlo]
        · have hnl : k :: ks ∉ paths lo := fun hmem => hlt (left hmem)
          simp [hk, hsk, hlt, hnl, ihh hhi]

theorem exists_body_of_mem_paths {e : σ} {t : SearchTree σ} {p : List σ} (h : Ended e t)
    (hp : p ∈ paths t) : ∃ b ∈ bodies e t, p <+: b ++ [e] := by
  induction t generalizing p with
  | nil => simp [paths] at hp
  | node id s lo eq hi ihl ihe ihh =>
    obtain ⟨hends, hlo, heq, hhi⟩ := h
    have hsub : ∀ b ∈ bodies e eq, s ≠ e → s :: b ∈ bodies e (.node id s lo eq hi) := by
      intro b hb hs
      simp only [bodies, if_neg hs, List.mem_append, List.mem_map]
      exact Or.inl (Or.inr ⟨b, hb, rfl⟩)
    simp only [paths, List.mem_append, List.mem_cons, List.mem_map] at hp
    rcases hp with (hp | rfl | ⟨q, hq, rfl⟩) | hp
    · obtain ⟨b, hb, hpb⟩ := ihl hlo hp
      exact ⟨b, by simp [bodies, hb], hpb⟩
    · by_cases hs : s = e
      · exact ⟨[], by simp [bodies, hs], by simp [hs]⟩
      · cases eq with
        | nil => exact absurd (hends.mpr rfl) hs
        | node id' s' lo' eq' hi' =>
          obtain ⟨b, hb, -⟩ := @ihe [s'] heq (by simp [paths])
          exact ⟨s :: b, hsub b hb hs, by simp⟩
    · have hs : s ≠ e := by
        intro hse
        rw [hends.mp hse] at hq
        simp [paths] at hq
      obtain ⟨b, hb, hqb⟩ := ihe heq hq
      exact ⟨s :: b, hsub b hb hs, by simpa using hqb⟩
    · obtain ⟨b, hb, hpb⟩ := ihh hhi hp
      exact ⟨b, by simp [bodies, hb], hpb⟩

theorem size_eq_prefixCount {e : σ} {t : SearchTree σ} (h : Ordered rank t) (he : Ended e t) :
    size t = prefixCount ((bodies e t).map (· ++ [e])) := by
  rw [prefixCount, ← length_paths, ← List.toFinset_card_of_nodup (nodup_paths rank h)]
  congr 1
  ext p
  rw [mem_prefixSet, List.mem_toFinset]
  constructor
  · intro hp
    obtain ⟨k, ks, rfl, -⟩ := head_of_mem_paths hp
    obtain ⟨b, hb, hpb⟩ := exists_body_of_mem_paths he hp
    exact ⟨by simp, _, List.mem_map_of_mem hb, hpb⟩
  · rintro ⟨hne, x, hx, hp⟩
    obtain ⟨b, hb, rfl⟩ := List.mem_map.mp hx
    exact (mem_paths rank h).mpr (find_prefix_isSome rank hne hp ((mem_bodies rank h).mp hb).2)

end TernaryTree
