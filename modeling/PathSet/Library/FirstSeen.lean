import PathSet.Library.Fallible
import Mathlib.Data.Finset.Card
import Mathlib.Data.Finset.Insert
import Mathlib.Data.Finset.Dedup
import Mathlib.Logic.Function.Basic

/-!
Stores that give every key an identity the first time it is inserted and the
same identity ever after. An `Interner` carries the laws of such a store over a
representation relation between its states and finite maps; a `Dictionary` also
keeps a value under each identity. Memory may run out, nothing else may fail.

What a run of insertions answers depends on the history of keys alone.
-/

namespace FirstSeen
open Fallible

variable {σ κ ι ε : Type}

structure Interner (σ κ ι ε : Type) [DecidableEq κ] where
  insert : σ → κ → Except ε (σ × Bool × ι)
  uniq : σ → Nat
  dups : σ → Nat
  /-- The errors by which memory runs out. -/
  Exhausted : ε → Prop
  Key : κ → Prop
  Rep : σ → (κ → Option ι) → Prop
  rep_key : ∀ {s m k i}, Rep s m → m k = some i → Key k
  rep_inj : ∀ {s m k k' i}, Rep s m → m k = some i → m k' = some i → k = k'
  insert_known : ∀ {s m k i}, Rep s m → m k = some i →
    ∃ s', insert s k = .ok (s', false, i) ∧ Rep s' m ∧
      uniq s' = uniq s ∧ dups s' = dups s + 1
  insert_fresh : ∀ {s m k}, Rep s m → Key k → m k = none →
    Stops Exhausted (insert s k) ∨
      ∃ s' i, insert s k = .ok (s', true, i) ∧ Rep s' (Function.update m k (some i)) ∧
        uniq s' = uniq s + 1 ∧ dups s' = dups s

structure Finder (σ κ ι ε : Type) [DecidableEq κ] extends Interner σ κ ι ε where
  lookup : σ → κ → Except ε (Option ι)
  lookup_eq : ∀ {s m k}, Rep s m → Key k → lookup s k = .ok (m k)

/-- A finder whose states keep a property that its insertions keep. -/
def Finder.keeping {σ κ ι ε : Type} [DecidableEq κ] (F : Finder σ κ ι ε) (P : σ → Prop)
    (hP : ∀ s k s' b i, P s → F.insert s k = .ok (s', b, i) → P s') : Finder σ κ ι ε where
  insert := F.insert
  lookup := F.lookup
  uniq := F.uniq
  dups := F.dups
  Exhausted := F.Exhausted
  Key := F.Key
  Rep s m := F.Rep s m ∧ P s
  rep_key h hk := F.rep_key h.1 hk
  rep_inj h hk hk' := F.rep_inj h.1 hk hk'
  insert_known := by
    rintro s m k i ⟨h, hs⟩ hk
    obtain ⟨s', hins, hrep, hcounts⟩ := F.insert_known h hk
    exact ⟨s', hins, ⟨hrep, hP s k s' false i hs hins⟩, hcounts⟩
  insert_fresh := by
    rintro s m k ⟨h, hs⟩ hkey hk
    rcases F.insert_fresh h hkey hk with hstop | ⟨s', i, hins, hrep, hcounts⟩
    · exact Or.inl hstop
    · exact Or.inr ⟨s', i, hins, ⟨hrep, hP s k s' true i hs hins⟩, hcounts⟩
  lookup_eq h hk := F.lookup_eq h.1 hk

def Extends (m m' : κ → Option ι) : Prop := ∀ k i, m k = some i → m' k = some i

theorem Extends.refl (m : κ → Option ι) : Extends m m := fun _ _ h => h

theorem Extends.trans {m m' m'' : κ → Option ι} (h : Extends m m') (h' : Extends m' m'') :
    Extends m m'' := fun k i hk => h' k i (h k i hk)

variable [DecidableEq κ]

theorem extends_update {m : κ → Option ι} {k : κ} (i : ι) (h : m k = none) :
    Extends m (Function.update m k (some i)) := by
  intro k' j hk'
  by_cases hkk : k' = k
  · simp [hkk, h] at hk'
  · simpa [Function.update, hkk] using hk'

theorem isSome_update {m : κ → Option ι} {k k' : κ} {i : ι} :
    (Function.update m k (some i) k').isSome ↔ (m k').isSome ∨ k' = k := by
  by_cases h : k' = k <;> simp [Function.update, h]

theorem card_toFinset_concat_of_mem {ks : List κ} {k : κ} (h : k ∈ ks) :
    (ks ++ [k]).toFinset.card = ks.toFinset.card := by
  congr 1
  ext x
  simp only [List.mem_toFinset, List.mem_append, List.mem_singleton]
  constructor
  · rintro (hx | rfl)
    · exact hx
    · exact h
  · exact Or.inl

theorem card_toFinset_concat_of_notMem {ks : List κ} {k : κ} (h : k ∉ ks) :
    (ks ++ [k]).toFinset.card = ks.toFinset.card + 1 := by
  have heq : (ks ++ [k]).toFinset = Insert.insert k ks.toFinset := by
    ext x
    simp
  rw [heq, Finset.card_insert_of_notMem (by simpa using h)]

def fresh (past ks : List κ) : List Bool := answers (fun past k => decide (k ∉ past)) past ks

theorem getElem?_fresh (past ks : List κ) (i : Nat) :
    (fresh past ks)[i]? = ks[i]?.map fun k => decide (k ∉ past ++ ks.take i) :=
  answers_getElem? _ past ks i

theorem count_fresh (past ks : List κ) :
    past.toFinset.card + (fresh past ks).count true = (past ++ ks).toFinset.card := by
  induction ks generalizing past with
  | nil => simp [fresh, answers]
  | cons k ks ih =>
    have hnext := ih (past ++ [k])
    rw [List.append_assoc, List.singleton_append, fresh] at hnext
    rw [fresh, answers, List.count_cons, ← hnext]
    by_cases h : k ∈ past
    · simp [h]
    · rw [card_toFinset_concat_of_notMem h]
      simp only [h, not_false_eq_true, decide_true, beq_self_eq_true, if_true]
      omega

theorem isNone_iff {x : Option ι} {p : Prop} (h : x.isSome ↔ p) : x.isNone = true ↔ ¬p := by
  cases x <;> simpa using h

theorem eq_decide_of_iff {b : Bool} {p : Prop} [Decidable p] (h : b = true ↔ p) :
    b = decide p := by
  cases b <;> simpa using h

namespace Interner

variable (I : Interner σ κ ι ε)

theorem insert_spec {s : σ} {m : κ → Option ι} {k : κ} (hrep : I.Rep s m) (hkey : I.Key k) :
    Stops I.Exhausted (I.insert s k) ∨
      ∃ s' i m', I.insert s k = .ok (s', (m k).isNone, i) ∧ I.Rep s' m' ∧ Extends m m' ∧
        m' k = some i ∧ (∀ k', (m' k').isSome ↔ (m k').isSome ∨ k' = k) ∧
        I.uniq s' = I.uniq s + (if (m k).isSome then 0 else 1) ∧
        I.dups s' = I.dups s + (if (m k).isSome then 1 else 0) := by
  cases hk : m k with
  | some i =>
    obtain ⟨s', hins, hrep', huniq, hdups⟩ := I.insert_known hrep hk
    refine Or.inr ⟨s', i, m, by simpa using hins, hrep', Extends.refl m, hk, ?_, ?_, ?_⟩
    · intro k'
      constructor
      · exact Or.inl
      · rintro (h | rfl)
        · exact h
        · simp [hk]
    · simpa using huniq
    · simpa using hdups
  | none =>
    rcases I.insert_fresh hrep hkey hk with h | ⟨s', i, hins, hrep', huniq, hdups⟩
    · exact Or.inl h
    · refine Or.inr ⟨s', i, _, by simpa using hins, hrep', extends_update i hk, by simp, ?_, ?_, ?_⟩
      · exact fun k' => isSome_update
      · simpa using huniq
      · simpa using hdups

def internAll (s : σ) (ks : List κ) : Except ε (σ × List ι) :=
  run (fun s k => I.insert s k >>= fun p => .ok (p.1, p.2.2)) s ks

@[simp] theorem internAll_nil (s : σ) : I.internAll s [] = .ok (s, []) := rfl

theorem internAll_cons (s : σ) (k : κ) (ks : List κ) :
    I.internAll s (k :: ks) =
      I.insert s k >>= fun p => I.internAll p.1 ks >>= fun q => .ok (q.1, p.2.2 :: q.2) := by
  rw [internAll, run_cons, bind_assoc]
  rfl

theorem internAll_spec {s : σ} {m : κ → Option ι} {ks : List κ} (hrep : I.Rep s m)
    (hkeys : ∀ k ∈ ks, I.Key k) :
    Stops I.Exhausted (I.internAll s ks) ∨
      ∃ s' is m', I.internAll s ks = .ok (s', is) ∧ I.Rep s' m' ∧ Extends m m' ∧
        ks.map m' = is.map some ∧ (∀ k, (m' k).isSome ↔ (m k).isSome ∨ k ∈ ks) ∧
        I.uniq s' + I.dups s' = I.uniq s + I.dups s + ks.length := by
  induction ks generalizing s m with
  | nil => exact Or.inr ⟨s, [], m, rfl, hrep, Extends.refl m, rfl, by simp, by simp⟩
  | cons k ks ih =>
    rw [internAll_cons]
    rcases I.insert_spec hrep (hkeys k (by simp)) with
      h | ⟨t, i, m', hins, hrep', hext, hki, hdom, huniq, hdups⟩
    · exact Or.inl (h.bind _)
    · rw [hins, ok_bind]
      rcases ih hrep' (fun x hx => hkeys x (by simp [hx])) with
        h | ⟨s', is, m'', hrun, hrep'', hext', hids, hdom', hcount⟩
      · exact Or.inl (h.bind _)
      · right
        refine ⟨s', i :: is, m'', by rw [hrun, ok_bind], hrep'', hext.trans hext', ?_, ?_, ?_⟩
        · simp [hids, hext' k i hki]
        · intro k'
          simp only [hdom', hdom, List.mem_cons, or_assoc]
        · simp only [List.length_cons]
          split_ifs at huniq hdups <;> omega

theorem internAll_known {s : σ} {m : κ → Option ι} {ks : List κ} (hrep : I.Rep s m)
    (hknown : ∀ k ∈ ks, (m k).isSome) :
    ∃ s' is, I.internAll s ks = .ok (s', is) ∧ I.Rep s' m ∧ ks.map m = is.map some := by
  induction ks generalizing s with
  | nil => exact ⟨s, [], rfl, hrep, rfl⟩
  | cons k ks ih =>
    obtain ⟨i, hi⟩ := Option.isSome_iff_exists.mp (hknown k (by simp))
    obtain ⟨t, hins, hrep', -, -⟩ := I.insert_known hrep hi
    obtain ⟨s', is, hrun, hrep'', hmap⟩ := ih hrep' (fun x hx => hknown x (by simp [hx]))
    refine ⟨s', i :: is, ?_, hrep'', by simp [hi, hmap]⟩
    rw [internAll_cons, hins, ok_bind, hrun, ok_bind]

def Keeps (same : σ → σ → Prop) : Prop :=
  ∀ s m k s' b i, I.Rep s m → (m k).isSome → I.insert s k = .ok (s', b, i) → same s s'

theorem internAll_same {same : σ → σ → Prop} (hkeep : I.Keeps same) (hrefl : ∀ s, same s s)
    (htrans : ∀ s s' s'', same s s' → same s' s'' → same s s'') {s s' : σ} {m : κ → Option ι}
    {ks : List κ} {is : List ι} (hrep : I.Rep s m) (hknown : ∀ k ∈ ks, (m k).isSome)
    (hrun : I.internAll s ks = .ok (s', is)) : same s s' := by
  induction ks generalizing s is with
  | nil =>
    obtain ⟨rfl, -⟩ := Prod.mk.inj (Except.ok.inj hrun)
    exact hrefl s
  | cons k ks ih =>
    have hk := hknown k (by simp)
    obtain ⟨i, hi⟩ := Option.isSome_iff_exists.mp hk
    obtain ⟨t, hins, hrep', -, -⟩ := I.insert_known hrep hi
    rw [internAll_cons, hins, ok_bind] at hrun
    obtain ⟨⟨s₂, is₂⟩, hrest, hend⟩ := bind_eq_ok.mp hrun
    obtain ⟨rfl, -⟩ := Prod.mk.inj (Except.ok.inj hend)
    have hstep := hkeep _ _ _ _ _ _ hrep hk hins
    exact htrans _ _ _ hstep (ih hrep' (fun x hx => hknown x (by simp [hx])) hrest)

theorem run_insert {s : σ} {m : κ → Option ι} {past ks : List κ} (hrep : I.Rep s m)
    (hpast : ∀ k, (m k).isSome ↔ k ∈ past) (hkeys : ∀ k ∈ ks, I.Key k) :
    Stops I.Exhausted (run I.insert s ks) ∨
      ∃ s' rs m', run I.insert s ks = .ok (s', rs) ∧ I.Rep s' m' ∧ Extends m m' ∧
        (∀ k, (m' k).isSome ↔ k ∈ past ++ ks) ∧
        ∀ (i : Nat) k, ks[i]? = some k →
          ∃ x b, m' k = some x ∧ rs[i]? = some (b, x) ∧ (b = true ↔ k ∉ past ++ ks.take i) := by
  induction ks generalizing s m past with
  | nil => exact Or.inr ⟨s, [], m, rfl, hrep, Extends.refl m, by simpa using hpast, by simp⟩
  | cons k ks ih =>
    rw [run_cons]
    rcases I.insert_spec hrep (hkeys k (by simp)) with
      h | ⟨t, x, m', hins, hrep', hext, hkx, hdom, -, -⟩
    · exact Or.inl (h.bind _)
    · rw [hins, ok_bind]
      have hpast' : ∀ k', (m' k').isSome ↔ k' ∈ past ++ [k] := by
        intro k'
        rw [hdom, hpast, List.mem_append, List.mem_singleton]
      rcases ih hrep' hpast' (fun x hx => hkeys x (by simp [hx])) with
        h | ⟨s', rs, m'', hrun, hrep'', hext', hdom', hans⟩
      · exact Or.inl (h.bind _)
      · right
        refine ⟨s', ((m k).isNone, x) :: rs, m'', by rw [hrun, ok_bind], hrep'', hext.trans hext',
          by simpa using hdom', ?_⟩
        intro i k' hi
        cases i with
        | zero =>
          obtain rfl : k = k' := by simpa using hi
          exact ⟨x, _, hext' k x hkx, rfl, by simpa using isNone_iff (hpast k)⟩
        | succ i =>
          obtain ⟨y, b, hy, hr, hb⟩ := hans i k' (by simpa using hi)
          exact ⟨y, b, hy, by simpa using hr, by simpa using hb⟩

theorem run_from_empty [Inhabited ι] {s : σ} {ks : List κ} (hrep : I.Rep s (fun _ => none))
    (hkeys : ∀ k ∈ ks, I.Key k) :
    Stops I.Exhausted (run I.insert s ks) ∨
      ∃ s' rs m, ∃ ident : κ → ι, run I.insert s ks = .ok (s', rs) ∧ I.Rep s' m ∧
        (∀ k ∈ ks, m k = some (ident k)) ∧ (∀ k, k ∉ ks → m k = none) ∧
        ∀ (i : Nat) k, ks[i]? = some k →
          ∃ b, rs[i]? = some (b, ident k) ∧ (b = true ↔ k ∉ ks.take i) := by
  have hpast : ∀ k : κ, ((fun _ => none : κ → Option ι) k).isSome ↔ k ∈ ([] : List κ) := by simp
  rcases I.run_insert hrep hpast hkeys with h | ⟨s', rs, m, hrun, hrep', -, hdom, hans⟩
  · exact Or.inl h
  · simp only [List.nil_append] at hdom hans
    refine Or.inr ⟨s', rs, m, fun k => (m k).getD default, hrun, hrep', ?_, ?_, ?_⟩
    · intro k hk
      obtain ⟨x, hx⟩ := Option.isSome_iff_exists.mp ((hdom k).mpr hk)
      simp [hx]
    · exact fun k hk => Option.not_isSome_iff_eq_none.mp fun h => hk ((hdom k).mp h)
    · intro i k hi
      obtain ⟨x, b, hx, hr, hb⟩ := hans i k hi
      exact ⟨b, by simpa [hx] using hr, hb⟩

def Seen (past : List κ) (s : σ) : Prop :=
  ∃ m, I.Rep s m ∧ (∀ k, (m k).isSome ↔ k ∈ past) ∧
    I.uniq s = past.toFinset.card ∧ I.uniq s + I.dups s = past.length

theorem seen_step {past : List κ} {s : σ} {k : κ} (h : I.Seen past s) (hkey : I.Key k) :
    Stops I.Exhausted (I.insert s k) ∨
      ∃ s' b i, I.insert s k = .ok (s', b, i) ∧ (b = true ↔ k ∉ past) ∧
        I.Seen (past ++ [k]) s' := by
  obtain ⟨m, hrep, hdom, huniq, hsum⟩ := h
  rcases I.insert_spec hrep hkey with h | ⟨s', i, m', hins, hrep', -, -, hdom', huniq', hdups'⟩
  · exact Or.inl h
  · refine Or.inr ⟨s', _, i, hins, isNone_iff (hdom k), m', hrep', ?_, ?_, ?_⟩
    · intro k'
      rw [hdom', hdom, List.mem_append, List.mem_singleton]
    · by_cases hk : k ∈ past
      · rw [huniq', if_pos ((hdom k).mpr hk), card_toFinset_concat_of_mem hk, huniq, Nat.add_zero]
      · rw [huniq', if_neg (fun h => hk ((hdom k).mp h)), card_toFinset_concat_of_notMem hk, huniq]
    · simp only [List.length_append, List.length_singleton]
      split_ifs at huniq' hdups' <;> omega

theorem seen_empty {s : σ} (hrep : I.Rep s (fun _ => none)) (hu : I.uniq s = 0)
    (hd : I.dups s = 0) : I.Seen [] s :=
  ⟨_, hrep, by simp, by simp [hu], by simp [hu, hd]⟩

theorem seen_run {past ks : List κ} {s : σ} (h : I.Seen past s) (hkeys : ∀ k ∈ ks, I.Key k) :
    Stops I.Exhausted (I.internAll s ks) ∨
      ∃ s' is, I.internAll s ks = .ok (s', is) ∧ I.Seen (past ++ ks) s' := by
  induction ks generalizing past s with
  | nil => exact Or.inr ⟨s, [], rfl, by simpa using h⟩
  | cons k ks ih =>
    rw [internAll_cons]
    rcases I.seen_step h (hkeys k (by simp)) with he | ⟨t, b, i, hins, -, ht⟩
    · exact Or.inl (he.bind _)
    · rw [hins, ok_bind]
      rcases ih ht (fun x hx => hkeys x (by simp [hx])) with he | ⟨s', is, hrun, hs'⟩
      · exact Or.inl (he.bind _)
      · exact Or.inr ⟨s', i :: is, by rw [hrun, ok_bind], by simpa using hs'⟩

structure Supplied (Enough : List κ → Prop) : Prop where
  insert : ∀ {s m past k}, I.Rep s m → (∀ k', (m k').isSome ↔ k' ∈ past) → I.Key k →
    Enough (past ++ [k]) → ¬Stops I.Exhausted (I.insert s k)
  fewer : ∀ ks ks', Enough (ks ++ ks') → Enough ks

variable {I} in
theorem Supplied.internAll {Enough : List κ → Prop} (h : I.Supplied Enough) {past ks : List κ}
    {s : σ} (hs : I.Seen past s) (hkeys : ∀ k ∈ ks, I.Key k) (henough : Enough (past ++ ks)) :
    ¬Stops I.Exhausted (I.internAll s ks) := by
  have next : ∀ past s k, I.Seen past s → I.Key k → Enough (past ++ [k]) →
      ¬Stops I.Exhausted (I.insert s k >>= fun p => .ok (p.1, p.2.2)) := by
    rintro past s k ⟨m, hrep, hdom, -⟩ hkey hroom hstop
    rcases stops_bind.mp hstop with hstop | ⟨p, -, hstop⟩
    · exact h.insert hrep hdom hkey hroom hstop
    · exact not_stops_ok _ hstop
  have keep : ∀ past s k s' i, I.Seen past s → I.Key k →
      (I.insert s k >>= fun p => .ok (p.1, p.2.2)) = .ok (s', i) → I.Seen (past ++ [k]) s' := by
    intro past s k s' i hs hkey hstep
    obtain ⟨⟨t, b, j⟩, hins, heq⟩ := bind_eq_ok.mp hstep
    obtain ⟨rfl, -⟩ := Prod.mk.inj (Except.ok.inj heq)
    rcases I.seen_step hs hkey with ⟨e, -, he⟩ | ⟨t', b', i', hins', -, ht⟩
    · cases hins.symm.trans he
    · obtain ⟨rfl, -⟩ := Prod.mk.inj (Except.ok.inj (hins.symm.trans hins'))
      exact ht
  exact run_supplied next keep h.fewer hs hkeys henough

end Interner

theorem Finder.rep_unique (F : Finder σ κ ι ε) {s : σ} {m m' : κ → Option ι} (h : F.Rep s m)
    (h' : F.Rep s m') : m = m' := by
  funext k
  by_cases hk : F.Key k
  · exact Except.ok.inj ((F.lookup_eq h hk).symm.trans (F.lookup_eq h' hk))
  · have hnone : ∀ n : κ → Option ι, F.Rep s n → n k = none := fun n hn =>
      Option.eq_none_iff_forall_ne_some.mpr fun i hi => hk (F.rep_key hn hi)
    rw [hnone m h, hnone m' h']

def firstValue (past : List (κ × Nat)) (k : κ) : Option Nat := past.lookup k

@[simp] theorem firstValue_nil (k : κ) : firstValue [] k = none := rfl

theorem firstValue_isSome {past : List (κ × Nat)} {k : κ} :
    (firstValue past k).isSome ↔ k ∈ past.map Prod.fst := by
  induction past with
  | nil => simp
  | cons p past ih =>
    rw [firstValue, List.lookup_cons]
    by_cases h : k = p.1
    · simp [h]
    · have hb : (k == p.1) = false := by simpa using h
      simp only [hb, List.map_cons, List.mem_cons, h, false_or]
      exact ih

theorem firstValue_concat (past : List (κ × Nat)) (p : κ × Nat) (k : κ) :
    firstValue (past ++ [p]) k = (firstValue past k).or (if k = p.1 then some p.2 else none) := by
  rw [firstValue, List.lookup_append, List.lookup_cons, List.lookup_nil]
  by_cases h : k = p.1
  · simp [h, firstValue]
  · have hb : (k == p.1) = false := by simpa using h
    simp [hb, h, firstValue]

def firstIndex (ks : List κ) (k : κ) : Nat := ks.idxOf k

theorem firstIndex_lt {ks : List κ} {k : κ} (h : k ∈ ks) : firstIndex ks k < ks.length :=
  List.idxOf_lt_length_iff.mpr h

theorem firstIndex_append {ks : List κ} {k : κ} (ks' : List κ) (h : k ∈ ks) :
    firstIndex (ks ++ ks') k = firstIndex ks k := List.idxOf_append_of_mem h

theorem firstValue_zipIdx (ks : List κ) (n : Nat) (k : κ) :
    firstValue (ks.zipIdx n) k = if k ∈ ks then some (n + firstIndex ks k) else none := by
  induction ks generalizing n with
  | nil => rfl
  | cons a ks ih =>
    rw [List.zipIdx_cons, firstValue, List.lookup_cons]
    by_cases h : k = a
    · simp [h, firstIndex]
    · have hb : (k == a) = false := by simpa using h
      have hne : ¬a = k := fun heq => h heq.symm
      simp only [firstValue] at ih
      simp only [hb, ih, List.mem_cons, h, false_or, firstIndex, List.idxOf_cons_ne _ hne]
      split_ifs
      · congr 1
        omega
      · rfl

structure Dictionary (σ κ ι ε : Type) [DecidableEq κ] extends Interner σ κ ι ε where
  val : σ → ι → Nat
  setVal : σ → ι → Nat → σ
  rep_setVal : ∀ {s m k i v}, Rep s m → m k = some i → Rep (setVal s i v) m
  val_setVal : ∀ {s m k i v}, Rep s m → m k = some i → val (setVal s i v) i = v
  val_setVal_ne : ∀ {s m k k' i j v}, Rep s m → m k = some i → m k' = some j → i ≠ j →
    val (setVal s i v) j = val s j
  val_insert : ∀ {s m s' b i k k' j}, Rep s m → Key k → insert s k = .ok (s', b, i) →
    m k' = some j → val s' j = val s j
  uniq_setVal : ∀ s i v, uniq (setVal s i v) = uniq s
  dups_setVal : ∀ s i v, dups (setVal s i v) = dups s

namespace Dictionary

variable (D : Dictionary σ κ ι ε)

def enter (s : σ) (p : κ × Nat) : Except ε (σ × Bool × ι × Nat) := do
  let (s, b, i) ← D.insert s p.1
  if b then pure (D.setVal s i p.2, b, i, D.val (D.setVal s i p.2) i) else pure (s, b, i, D.val s i)

structure Recorded (past : List (κ × Nat)) (s : σ) (m : κ → Option ι) : Prop where
  rep : D.Rep s m
  vals : ∀ k, (m k).map (D.val s) = firstValue past k
  uniq : D.uniq s = (past.map Prod.fst).toFinset.card
  total : D.uniq s + D.dups s = past.length

theorem enter_step {past : List (κ × Nat)} {s : σ} {m : κ → Option ι} {p : κ × Nat}
    (h : D.Recorded past s m) (hkey : D.Key p.1) :
    Stops D.Exhausted (D.enter s p) ∨
      ∃ s' i m', D.enter s p =
          .ok (s', (firstValue past p.1).isNone, i, (firstValue past p.1).getD p.2) ∧
        D.Recorded (past ++ [p]) s' m' ∧ Extends m m' ∧ m' p.1 = some i := by
  obtain ⟨hrep, hval, huniq, hsum⟩ := h
  cases hm : m p.1 with
  | some i =>
    obtain ⟨s', hins, hrep', huniq', hdups'⟩ := D.insert_known hrep hm
    have hsame : ∀ k j, m k = some j → D.val s' j = D.val s j :=
      fun k j hk => D.val_insert hrep hkey hins hk
    have hseen : firstValue past p.1 = some (D.val s i) := by rw [← hval, hm, Option.map_some]
    have hmem : p.1 ∈ past.map Prod.fst := firstValue_isSome.mp (by rw [hseen]; rfl)
    refine Or.inr ⟨s', i, m, ?_, ⟨hrep', ?_, ?_, ?_⟩, Extends.refl m, hm⟩
    · simp [enter, hins, hseen, hsame p.1 i hm]
    · intro k
      rw [firstValue_concat, ← hval]
      cases hk : m k with
      | some j => simp [hsame k j hk]
      | none =>
        have hne : k ≠ p.1 := fun he => by simp [← he, hk] at hm
        simp [hne]
    · rw [huniq', List.map_append, List.map_singleton, card_toFinset_concat_of_mem hmem, huniq]
    · simp only [List.length_append, List.length_singleton]
      omega
  | none =>
    rcases D.insert_fresh hrep hkey hm with h | ⟨s', i, hins, hrep', huniq', hdups'⟩
    · exact Or.inl (h.bind _)
    · have hnew : Function.update m p.1 (some i) p.1 = some i := Function.update_self ..
      have hseen : firstValue past p.1 = none := by rw [← hval, hm, Option.map_none]
      have hmem : p.1 ∉ past.map Prod.fst := fun hin => by
        simpa [hseen] using firstValue_isSome.mpr hin
      refine Or.inr ⟨D.setVal s' i p.2, i, _, ?_, ⟨D.rep_setVal hrep' hnew, ?_, ?_, ?_⟩,
        extends_update i hm, hnew⟩
      · simp [enter, hins, hseen, D.val_setVal hrep' hnew]
      · intro k
        rw [firstValue_concat, ← hval]
        by_cases hk : k = p.1
        · rw [hk, hnew, hm]
          simp [D.val_setVal hrep' hnew]
        · rw [Function.update_of_ne hk]
          cases hmk : m k with
          | none => simp [hk]
          | some j =>
            have hmk' : Function.update m p.1 (some i) k = some j := by
              rw [Function.update_of_ne hk, hmk]
            have hij : i ≠ j := by
              rintro rfl
              exact hk (D.rep_inj hrep' hmk' hnew)
            simp [D.val_setVal_ne hrep' hnew hmk' hij, D.val_insert hrep hkey hins hmk]
      · rw [D.uniq_setVal, huniq', List.map_append, List.map_singleton,
          card_toFinset_concat_of_notMem hmem, huniq]
      · rw [D.uniq_setVal, D.dups_setVal]
        simp only [List.length_append, List.length_singleton]
        omega

theorem recorded_empty {s : σ} (hrep : D.Rep s (fun _ => none)) (hu : D.uniq s = 0)
    (hd : D.dups s = 0) : D.Recorded [] s (fun _ => none) :=
  ⟨hrep, by simp, by simp [hu], by simp [hu, hd]⟩

theorem enter_run {past ps : List (κ × Nat)} {s : σ} {m : κ → Option ι}
    (h : D.Recorded past s m) (hkeys : ∀ p ∈ ps, D.Key p.1) :
    Stops D.Exhausted (run D.enter s ps) ∨
      ∃ s' rs m', run D.enter s ps = .ok (s', rs) ∧ D.Recorded (past ++ ps) s' m' ∧
        Extends m m' ∧ ∀ (i : Nat) p, ps[i]? = some p → ∃ x, m' p.1 = some x ∧
          rs[i]? = some ((firstValue (past ++ ps.take i) p.1).isNone, x,
            (firstValue (past ++ ps.take i) p.1).getD p.2) := by
  induction ps generalizing past s m with
  | nil => exact Or.inr ⟨s, [], m, rfl, by simpa using h, Extends.refl m, by simp⟩
  | cons p ps ih =>
    rw [run_cons]
    rcases D.enter_step h (hkeys p (by simp)) with he | ⟨t, x, m', hent, ht, hext, hx⟩
    · exact Or.inl (he.bind _)
    · rw [hent, ok_bind]
      rcases ih ht (fun q hq => hkeys q (by simp [hq])) with
        he | ⟨s', rs, m'', hrun, hs', hext', hans⟩
      · exact Or.inl (he.bind _)
      · right
        refine ⟨s', _ :: rs, m'', by rw [hrun, ok_bind], by simpa using hs', hext.trans hext', ?_⟩
        intro i q hi
        cases i with
        | zero =>
          obtain rfl : p = q := by simpa using hi
          exact ⟨x, hext' _ _ hx, by simp⟩
        | succ i =>
          obtain ⟨y, hy, hr⟩ := hans i q (by simpa using hi)
          exact ⟨y, hy, by simpa using hr⟩

end Dictionary

end FirstSeen
