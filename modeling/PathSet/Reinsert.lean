import PathSet.Tables

/-!
Inserting a stored key again. The search for the key comes before every step that could
change a structure, so nothing but its statistics is touched.
-/

namespace PathSet
open Fallible Pointer LinkedTree TernaryTree FirstSeen Numbered

def Table.Unchanged : (k : Table) → k.State → k.State → Prop
  | .trie => fun (t t' : Trie) => t' = { t with stats := t'.stats }
  | .lhash => fun (h h' : LHash) => h' = { h with stats := h'.stats }
  | .ghash => fun (h h' : GHash) => h' = { h with stats := h'.stats }

theorem Table.Unchanged.refl (k : Table) (s : k.State) : k.Unchanged s s := by
  cases k <;> rfl

theorem Table.Unchanged.trans (k : Table) (s s' s'' : k.State) (h : k.Unchanged s s')
    (h' : k.Unchanged s' s'') : k.Unchanged s s'' := by
  cases k with
  | trie =>
    have h : s' = { s with stats := Trie.stats s' } := h
    have h' : s'' = { s' with stats := Trie.stats s'' } := h'
    rw [h] at h'
    exact h'
  | lhash =>
    have h : s' = { s with stats := LHash.stats s' } := h
    have h' : s'' = { s' with stats := LHash.stats s'' } := h'
    rw [h] at h'
    exact h'
  | ghash =>
    have h : s' = { s with stats := GHash.stats s' } := h
    have h' : s'' = { s' with stats := GHash.stats s'' } := h'
    rw [h] at h'
    exact h'

theorem Trie.finder_keeps (printOne : Bool) :
    (Trie.finder printOne).toInterner.Keeps (Table.Unchanged .trie) := by
  intro t m k t' b i hrep hk hins
  obtain ⟨T, hT, -, hm⟩ : Trie.Represents printOne t m := hrep
  obtain ⟨j, hj⟩ := Option.isSome_iff_exists.mp hk
  obtain ⟨hkey, hfind⟩ := Trie.find_of_map hm hj
  have hins : t.insert printOne k = .ok (t', b, i) := hins
  rcases Trie.insert_spec printOne hT hkey with ⟨p, stats, hins', -⟩ | ⟨t₂, -, hnone, -⟩
  · rw [hins] at hins'
    obtain ⟨rfl, -⟩ := Prod.mk.inj (Except.ok.inj hins')
    rfl
  · rw [hfind] at hnone
    cases hnone

theorem LHash.finder_keeps (kind : LHashKind) :
    (LHash.numbered kind).finder.toInterner.Keeps (Table.Unchanged .lhash) := by
  intro h m k h' b i hrep hk hins
  obtain ⟨ks, ⟨hh, hfits⟩, hm⟩ : (LHash.numbered kind).Represents h m := hrep
  have hmem : k ∈ ks := hm.isSome_iff.mp hk
  obtain ⟨p, hp⟩ := exists_deref hmem
  obtain ⟨c, -, hs⟩ := hh.stores p k hp
  have hins : h.insert kind k = .ok (h', b, i) := hins
  rcases LHash.insertWith_spec hh (LHash.growth_sound hfits) hs.noNul with
    ⟨q, stats, hins', -⟩ | ⟨hnew, -⟩
  · rw [LHash.insert, hins'] at hins
    obtain ⟨rfl, -⟩ := Prod.mk.inj (Except.ok.inj hins)
    rfl
  · exact absurd hmem hnew

theorem GHash.finder_keeps (kind : GHashKind) :
    (GHash.numbered kind).finder.toInterner.Keeps (Table.Unchanged .ghash) := by
  intro h m k h' b i hrep hk hins
  obtain ⟨ks, hs, hm⟩ : (GHash.numbered kind).Represents h m := hrep
  have hmem : k ∈ ks := hm.isSome_iff.mp hk
  have hkey : 0 ∉ k := (GHash.numbered kind).holds_key hs hmem
  obtain ⟨hh, ht⟩ := hs
  have hins : h.insert kind k = .ok (h', b, i) := hins
  rcases GHash.insert_spec hh ht hkey with ⟨q, stats, hins', -⟩ | ⟨hnew, -⟩
  · rw [hins'] at hins
    obtain ⟨rfl, -⟩ := Prod.mk.inj (Except.ok.inj hins)
    rfl
  · exact absurd hmem hnew

theorem Table.plain_keeps (k : Table) (size : Nat) :
    (k.plain size).toInterner.Keeps k.Unchanged := by
  cases k with
  | trie => exact Trie.finder_keeps false
  | lhash => exact LHash.finder_keeps _
  | ghash => exact GHash.finder_keeps _

theorem Table.nodes_keeps (k : Table) (printOne : Bool) :
    (k.nodes printOne).toInterner.Keeps k.Unchanged := by
  cases k with
  | trie => exact Trie.finder_keeps printOne
  | lhash => exact LHash.finder_keeps _
  | ghash => exact GHash.finder_keeps _

theorem NodeSet.placed_keeps {σ : Type} {w : Nat} {N : NodeSet σ} {same : σ → σ → Prop}
    (hkeep : N.toInterner.Keeps same) (addr : Nat → BitVec w) :
    (N.placed addr).toInterner.Keeps same := by
  intro s m k s' b i hrep hk hins
  obtain ⟨-, m₀, hrep₀, hm⟩ : N.Placed addr s m := hrep
  rw [hm, Option.isSome_map] at hk
  obtain ⟨⟨s₁, b₁, p⟩, hins₁, hroom⟩ := bind_eq_ok.mp hins
  have hsame := hkeep _ _ _ _ _ _ hrep₀ hk hins₁
  dsimp only at hroom
  split_ifs at hroom
  obtain ⟨rfl, -⟩ := Prod.mk.inj (Except.ok.inj hroom)
  exact hsame

def PathTrie.Unchanged {σ : Type} {w : Nat} (same : σ → σ → Prop) (t t' : PathTrie σ w) : Prop :=
  t' = { t with elemSet := t'.elemSet, stats := t'.stats } ∧ same t.elemSet t'.elemSet

theorem PathTrie.interner_keeps {σ : Type} {w : Nat} (U : UintHash w) {E : ElemSet σ w}
    {same : σ → σ → Prop} (hkeep : E.toInterner.Keeps same) (hrefl : ∀ s, same s s)
    (htrans : ∀ s s' s'', same s s' → same s' s'' → same s s'') (sep : Bytes) :
    (PathTrie.interner U E sep).Keeps (PathTrie.Unchanged same) := by
  intro t m k t' b i hrep hk hins
  obtain ⟨⟨T, me, h⟩, -⟩ : PathTrie.Holding U E sep t m := hrep
  have hins : PathTrie.insert U E t k = .ok (t', b, i) := hins
  obtain ⟨j, hj⟩ := Option.isSome_iff_exists.mp hk
  obtain ⟨hkey, ids, hn, hfind⟩ := (h.keys k j).mp hj
  -- the elements of a stored key are known
  obtain ⟨s₁, is₁, hall₁, -, hmap⟩ := E.internAll_known h.elems hn.known
  obtain rfl : is₁ = ids := List.map_injective_iff.mpr (Option.some_injective _) (hmap.symm.trans hn)
  rcases PathTrie.insert_spec h.holds h.elems hkey with
    ⟨⟨e, -, he⟩, -⟩ | ⟨s', ids', me', hall, -, -, -, hcases⟩
  · rw [hins] at he
    cases he
  rw [hall₁] at hall
  obtain ⟨rfl, rfl⟩ := Prod.mk.inj (Except.ok.inj hall)
  have hsame := E.internAll_same hkeep hrefl htrans h.elems hn.known hall₁
  rcases hcases with ⟨x, stats, hins', -⟩ | ⟨t₂, -, hnone, -⟩
  · rw [hins] at hins'
    obtain ⟨rfl, -⟩ := Prod.mk.inj (Except.ok.inj hins')
    exact ⟨rfl, hsame⟩
  · rw [hfind] at hnone
    cases hnone

/-- A run of entries ends without memory, or in a state where to insert any of its keys
again is false and leads to the same state. -/
def Reinserts {σ : Type} (D : Dictionary σ Bytes Nat Abort) (same : σ → σ → Prop) (s₀ : σ)
    (ps : List (Bytes × Nat)) : Prop :=
  run D.enter s₀ ps = .error .alloc ∨
    ∃ s rs, run D.enter s₀ ps = .ok (s, rs) ∧
      ∀ key ∈ ps.map Prod.fst, ∃ s' n, D.insert s key = .ok (s', false, n) ∧ same s s'

theorem reinserts_of_keeps {σ : Type} {D : Dictionary σ Bytes Nat Abort} {same : σ → σ → Prop}
    (hkeep : D.toInterner.Keeps same) (halloc : ∀ e, D.Exhausted e → e = .alloc) {s₀ : σ}
    (h₀ : D.Recorded [] s₀ (fun _ => none)) {ps : List (Bytes × Nat)} (hps : ∀ p ∈ ps, D.Key p.1) :
    Reinserts D same s₀ ps := by
  rcases D.enter_run h₀ hps with ⟨e, he, hrun⟩ | ⟨s, rs, m, hrun, hrec, -, -⟩
  · exact Or.inl (halloc e he ▸ hrun)
  refine Or.inr ⟨s, rs, hrun, fun key hmem => ?_⟩
  have hknown : (m key).isSome := by
    rw [← Option.isSome_map, hrec.vals]
    exact firstValue_isSome.mpr hmem
  obtain ⟨n, hn⟩ := Option.isSome_iff_exists.mp hknown
  obtain ⟨s', hins, -, -, -⟩ := D.insert_known hrec.rep hn
  exact ⟨s', n, hins, hkeep _ _ _ _ _ _ hrec.rep hknown hins⟩

/-- In every state of a plain set and of a path trie over the elements, whatever was
stored before, a key that is stored is inserted again without any change but to the
statistics of the set, of the trie and of its element set. -/
theorem reinsert_unchanged (k : Table) {opt : Options} (hopt : opt.Accepted) (size : Nat) {w : Nat}
    (U : UintHash w) (addr : Nat → BitVec w) (printOne : Bool) {ps : List (Bytes × Nat)}
    (hps : ∀ p ∈ ps, 0 ∉ p.1) :
    ∃ s₀, k.create opt = .ok s₀ ∧ Reinserts (k.plain size).toDictionary k.Unchanged s₀ ps ∧
      Reinserts (PathTrie.dictionary U ((k.nodes printOne).placed addr)
          (opt.sepSet.getD PathTrie.defaultSep))
        (PathTrie.Unchanged k.Unchanged) (PathTrie.init s₀ opt.sepSet) ps := by
  obtain ⟨s₀, hs, hrec, -, hrep, hcount⟩ := k.create_spec printOne size hopt
  refine ⟨s₀, hs, ?_, ?_⟩
  · refine reinserts_of_keeps (k.plain_keeps size) (fun _ => k.plain_exhausted size) hrec ?_
    exact fun p hp => ((k.plain size).key_iff p.1).mpr (hps p hp)
  · have hempty := NodeSet.placed_empty _ addr hrep hcount
    have hkeep := PathTrie.interner_keeps U (NodeSet.placed_keeps (k.nodes_keeps printOne) addr)
      (Table.Unchanged.refl k) (Table.Unchanged.trans k) (opt.sepSet.getD PathTrie.defaultSep)
    refine reinserts_of_keeps hkeep ?_ (Dictionary.recorded_empty _
      (PathTrie.holding_init hempty opt.sepSet) rfl rfl) hps
    rintro e (he | he)
    · exact k.nodes_exhausted printOne he
    · exact he

def pathLines : List (Bytes × Nat) := [([97, 47, 98], 1), ([97], 2)]

theorem reinsert_unchanged_paths :
    ∃ t rs, run packedPaths.enter (PathTrie.init Trie.init none) pathLines = .ok (t, rs) ∧
      ∀ key ∈ pathLines.map Prod.fst, ∃ t' n, packedPaths.insert t key = .ok (t', false, n) ∧
        PathTrie.Unchanged (Table.Unchanged .trie) t t' := by
  have hvalue : (run packedPaths.enter (PathTrie.init Trie.init none) pathLines).isOk = true := by
    decide +kernel
  obtain ⟨s₀, hs, -, hpath⟩ := reinsert_unchanged .trie defaultOptions_accepted 64 .mix64 packed true
    (show ∀ p ∈ pathLines, 0 ∉ p.1 by decide)
  obtain rfl : Trie.init = s₀ := Except.ok.inj hs
  rcases hpath with halloc | hpath
  · have halloc : run packedPaths.enter (PathTrie.init Trie.init none) pathLines = .error .alloc :=
      halloc
    rw [halloc] at hvalue
    cases hvalue
  · exact hpath

end PathSet
