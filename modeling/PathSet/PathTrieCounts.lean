import PathSet.SetValues
import PathSet.Library.PrefixCount

/-!
The counters of the path sets. Those of the nodes follow from the lines and those of the
elements from the elements of the lines, whatever the order of the lines, the pointers
and the hash functions. The nodes of a trie are the prefixes of what it was built from.
-/

namespace PathSet
open Fallible Pointer LinkedTree TernaryTree FirstSeen Numbered

def endMarked (sep line : Bytes) : List (Option Bytes) := (elements sep line).map some ++ [none]

namespace PathTrie
variable {σ : Type} {w : Nat} {U : UintHash w} {E : ElemSet σ w}

def symbolId (me : Bytes → Option (BitVec w)) (x : Option Bytes) : BitVec w := (x.bind me).getD 0

theorem map_symbolId {me : Bytes → Option (BitVec w)} {sep key : Bytes} {ids : List (BitVec w)}
    (h : Named me sep key ids) : (endMarked sep key).map (symbolId me) = ids ++ [0] := by
  have hids : ((elements sep key).map me).map (fun o => o.getD 0) = ids := by
    rw [h, List.map_map]
    exact List.map_id ids
  rw [endMarked, List.map_append, List.map_map, ← hids, List.map_map]
  rfl

theorem symbolId_inj {s : σ} {me : Bytes → Option (BitVec w)} (hE : E.Rep s me) {x y : Option Bytes}
    (hx : ∀ e ∈ x, (me e).isSome) (hy : ∀ e ∈ y, (me e).isSome)
    (h : symbolId me x = symbolId me y) : x = y := by
  have known : ∀ e, (me e).isSome → ∃ i, me e = some i ∧ i ≠ 0 := fun e he => by
    obtain ⟨i, hi⟩ := Option.isSome_iff_exists.mp he
    exact ⟨i, hi, E.id_ne_zero hE hi⟩
  cases x with
  | none =>
    cases y with
    | none => rfl
    | some e =>
      obtain ⟨i, hi, hne⟩ := known e (hy e rfl)
      simp only [symbolId, Option.bind_none, Option.getD_none, Option.bind_some, hi,
        Option.getD_some] at h
      exact absurd h.symm hne
  | some e =>
    obtain ⟨i, hi, hne⟩ := known e (hx e rfl)
    cases y with
    | none =>
      simp only [symbolId, Option.bind_none, Option.getD_none, Option.bind_some, hi,
        Option.getD_some] at h
      exact absurd h hne
    | some e' =>
      obtain ⟨i', hi', -⟩ := known e' (hy e' rfl)
      simp only [symbolId, Option.bind_some, hi, hi', Option.getD_some] at h
      rw [E.rep_inj hE hi (h ▸ hi')]

theorem nodeStruct_eq {t : PathTrie σ w} {m : Bytes → Option Nat} {T : SearchTree (BitVec w)}
    {me : Bytes → Option (BitVec w)} (h : Knows U E t m T me) {lines : List Bytes}
    (hdom : ∀ k, (m k).isSome ↔ k ∈ lines) :
    t.nodeStruct = prefixCount (lines.map (endMarked t.sepSet)) := by
  have hnamed : ∀ k ∈ lines, ∃ ids, Named me t.sepSet k ids := fun k hk => h.named ((hdom k).mpr hk)
  have hknown : ∀ x ∈ lines.map (endMarked t.sepSet), ∀ a ∈ x, ∀ e ∈ a, (me e).isSome := by
    intro x hx a ha e he
    obtain ⟨k, hk, rfl⟩ := List.mem_map.mp hx
    obtain rfl : a = some e := he
    have hmem : e ∈ elements t.sepSet k := by simpa [endMarked] using ha
    obtain ⟨ids, hn⟩ := hnamed k hk
    have hme : me e ∈ ids.map some := hn ▸ List.mem_map_of_mem hmem
    obtain ⟨i, -, hi⟩ := List.mem_map.mp hme
    rw [← hi]
    rfl
  have hsame : ∀ x, x ∈ (bodies 0 T).map (· ++ [0]) ↔
      x ∈ (lines.map (endMarked t.sepSet)).map (List.map (symbolId me)) := by
    have hperm := h.bodies_perm hdom
    intro x
    simp only [List.map_map, List.mem_map, Function.comp_apply]
    constructor
    · rintro ⟨ids, hids, rfl⟩
      obtain ⟨k, hk, hn⟩ := List.mem_map.mp (hperm.subset (List.mem_map_of_mem hids))
      exact ⟨k, mem_firsts.mp hk, map_symbolId hn⟩
    · rintro ⟨k, hk, rfl⟩
      obtain ⟨ids, hn⟩ := hnamed k hk
      obtain ⟨ids', hids', heq⟩ :=
        List.mem_map.mp (hperm.symm.subset (List.mem_map_of_mem (mem_firsts.mpr hk)))
      refine ⟨ids', hids', ?_⟩
      rw [map_symbolId hn, hn.ids_eq heq.symm]
  rw [h.holds.counted, ← h.holds.size, size_eq_prefixCount U.rank h.holds.ordered h.holds.ended,
    prefixCount_congr hsame]
  refine prefixCount_map fun x hx y hy a ha b hb hab => ?_
  exact symbolId_inj h.elems (hknown x hx a ha) (hknown y hy b hb) hab

end PathTrie

theorem Trie.nodeStruct_eq (printOne : Bool) {t : Trie} {m : Bytes → Option Nat}
    (h : Trie.Represents printOne t m) {keys : List Bytes} (hdom : ∀ k, (m k).isSome ↔ k ∈ keys) :
    t.nodeStruct = prefixCount (keys.map (· ++ [0])) := by
  obtain ⟨T, hT, -, hm⟩ := h
  rw [hT.counted, ← hT.size, size_eq_prefixCount UInt8.toNat hT.ordered hT.ended]
  refine prefixCount_congr fun x => ?_
  simp only [List.mem_map]
  refine exists_congr fun k => and_congr_left fun _ => ?_
  rw [Trie.mem_bodies_of_map hT hm, hdom]

theorem LHash.nodeStruct_eq (kind : LHashKind) {h : LHash} {m : Bytes → Option Nat}
    (hrep : (LHash.numbered kind).Represents h m) {keys : List Bytes}
    (hdom : ∀ k, (m k).isSome ↔ k ∈ keys) : h.nodeStruct = keys.toFinset.card := by
  obtain ⟨ks, ⟨hh, -⟩, hm⟩ := hrep
  rw [hh.counted, hm.length_eq hh.nodup hdom]

theorem GHash.nodeStruct_eq (kind : GHashKind) {h : GHash} {m : Bytes → Option Nat}
    (hrep : (GHash.numbered kind).Represents h m) {keys : List Bytes}
    (hdom : ∀ k, (m k).isSome ↔ k ∈ keys) : h.nodeStruct = keys.toFinset.card := by
  obtain ⟨ks, ⟨hh, -⟩, hm⟩ := hrep
  rw [hh.counted, hm.length_eq hh.nodup hdom]

structure PathCounters where
  uniqNode : Nat
  dupsNode : Nat
  uniqElem : Nat
  dupsElem : Nat
  nodeStruct : Nat
  elemStruct : Nat
  deriving DecidableEq, Repr

namespace PathTrie
variable {σ : Type} {w : Nat} (U : UintHash w) (E : ElemSet σ w)

def counters (elemStruct : σ → Nat) (t : PathTrie σ w) : PathCounters :=
  ⟨t.stats.uniqNode, t.stats.dupsNode, E.uniq t.elemSet, E.dups t.elemSet, t.nodeStruct,
    elemStruct t.elemSet⟩

def expectedCounters (nodes : List Bytes → Nat) (sep : Bytes) (lines : List Bytes) : PathCounters :=
  let els := lines.flatMap (elements sep)
  ⟨lines.toFinset.card, lines.length - lines.toFinset.card, els.toFinset.card,
    els.length - els.toFinset.card, prefixCount (lines.map (endMarked sep)), nodes els⟩

theorem expectedCounters_perm {nodes : List Bytes → Nat} {sep : Bytes}
    {lines lines' : List Bytes} (h : lines'.Perm lines)
    (hnodes : ∀ els els', (∀ e, e ∈ els' ↔ e ∈ els) → nodes els' = nodes els) :
    expectedCounters nodes sep lines' = expectedCounters nodes sep lines := by
  have hels := h.flatMap_right (elements sep)
  have hmarks := h.map (endMarked sep)
  simp only [expectedCounters, List.toFinset_eq_of_perm _ _ h, h.length_eq,
    List.toFinset_eq_of_perm _ _ hels, hels.length_eq, prefixCount_congr fun _ => hmarks.mem_iff,
    hnodes _ _ fun _ => hels.mem_iff]

variable {U E}

theorem insert_of_put {sep : Bytes} {size : Nat} {t t' : PathTrie σ w} {p : Bytes × Nat} {r : Nat}
    (h : (set U E sep).put size t p = .ok (t', r)) :
    ∃ t₁ b i, insert U E t p.1 = .ok (t₁, b, i) ∧ t'.elemSet = t₁.elemSet := by
  obtain ⟨_, -, h⟩ := bind_eq_ok.mp h
  obtain ⟨⟨t₁, b, i⟩, hins, h⟩ := bind_eq_ok.mp h
  obtain ⟨_, -, h⟩ := bind_eq_ok.mp h
  refine ⟨t₁, b, i, hins, ?_⟩
  cases b
  · obtain ⟨rfl, -⟩ := Prod.mk.inj (Except.ok.inj h)
    rfl
  · obtain ⟨rfl, -⟩ := Prod.mk.inj (Except.ok.inj h)
    rfl

def Loaded (U : UintHash w) (E : ElemSet σ w) (sep : Bytes) (size : Nat) (past : List (Bytes × Nat))
    (t : PathTrie σ w) : Prop :=
  (∃ m, (set U E sep).Recorded (stored size past) t m) ∧ Interned U E sep (past.map Prod.fst) t

theorem loaded_put {sep : Bytes} {size : Nat} {past : List (Bytes × Nat)} {t t' : PathTrie σ w}
    {p : Bytes × Nat} {r : Nat} (h : Loaded U E sep size past t) (hp : 0 ∉ p.1 ∧ 0 < p.2)
    (hput : (set U E sep).put size t p = .ok (t', r)) : Loaded U E sep size (past ++ [p]) t' := by
  rcases (set U E sep).put_step size h.1 hp with ⟨e, -, he⟩ | ⟨t₂, hput', hrec⟩
  · rw [hput] at he
    cases he
  rw [hput] at hput'
  obtain ⟨rfl, -⟩ := Prod.mk.inj (Except.ok.inj hput')
  obtain ⟨t₁, b, i, hins, helem⟩ := insert_of_put hput
  obtain ⟨m, hrec'⟩ := id hrec
  refine ⟨hrec, ⟨m, hrec'.rep⟩, ?_⟩
  rw [helem, List.map_append, List.map_singleton]
  exact (interned_insert h.2 hp.1 hins).2

theorem loaded_run {s : σ} (hs : E.Seen [] s) (sepSet : Option Bytes) {size : Nat}
    {lines : List Bytes} (hlines : ∀ l ∈ lines, 0 ∉ l) {t : PathTrie σ w} {rs : List Nat}
    (hrun : run ((set U E (sepSet.getD defaultSep)).put size) (init s sepSet) (lines.zipIdx 1) =
      .ok (t, rs)) : Loaded U E (sepSet.getD defaultSep) size (lines.zipIdx 1) t := by
  obtain ⟨me, hme, -⟩ := id hs
  have hstart : (set U E (sepSet.getD defaultSep)).Recorded [] (init s sepSet) (fun _ => none) :=
    Dictionary.recorded_empty _ (holding_init hme sepSet) rfl rfl
  have hempty : Loaded U E (sepSet.getD defaultSep) size [] (init s sepSet) :=
    ⟨⟨_, hstart⟩, interned_init hs sepSet⟩
  have hloaded := run_history (fun _ _ _ _ _ h hp hput => loaded_put h hp hput) hempty
    (zipIdx_noNul hlines) hrun
  rwa [List.nil_append] at hloaded

theorem stops_insert {t : PathTrie σ w} {m : Bytes → Option Nat} {key : Bytes}
    (hrep : Represents U E t m) (hkey : 0 ∉ key) (h : Stops E.Exhausted (insert U E t key)) :
    Stops E.Exhausted (E.internAll t.elemSet (elements t.sepSet key)) := by
  obtain ⟨T, me, hknows⟩ := hrep
  rcases insert_spec hknows.holds hknows.elems hkey with
    ⟨-, hfull⟩ | ⟨s', ids, me', -, -, -, -, ⟨i, stats, hins, -⟩ | ⟨t', hins, -⟩⟩
  · exact hfull
  · rw [hins] at h
    exact absurd h (not_stops_ok _)
  · rw [hins] at h
    exact absurd h (not_stops_ok _)

theorem load_supplied {Enough : List Bytes → Prop} (hE : E.Supplied Enough) {s : σ}
    (hs : E.Seen [] s) (sepSet : Option Bytes) (size : Nat) {lines : List Bytes}
    (hlines : ∀ l ∈ lines, 0 ∉ l) (henough : Enough (lines.flatMap (elements (sepSet.getD defaultSep)))) :
    ¬Stops E.Exhausted
      (run ((set U E (sepSet.getD defaultSep)).put size) (init s sepSet) (lines.zipIdx 1)) := by
  obtain ⟨me, hme, -⟩ := id hs
  have hempty : Loaded U E (sepSet.getD defaultSep) size [] (init s sepSet) :=
    ⟨⟨_, Dictionary.recorded_empty _ (holding_init hme sepSet) rfl rfl⟩, interned_init hs sepSet⟩
  have next : ∀ past t p, Loaded U E (sepSet.getD defaultSep) size past t → 0 ∉ p.1 ∧ 0 < p.2 →
      Enough (((past ++ [p]).map Prod.fst).flatMap (elements (sepSet.getD defaultSep))) →
      ¬Stops E.Exhausted ((set U E (sepSet.getD defaultSep)).put size t p) := by
    rintro past t p ⟨⟨m, hrec⟩, -, hseen⟩ hp hroom hstop
    obtain ⟨hrep, hsep⟩ := hrec.rep
    rw [List.map_append, List.flatMap_append, List.map_singleton, List.flatMap_singleton] at hroom
    have hall := stops_insert hrep hp.1
      ((set U E (sepSet.getD defaultSep)).stops_put size hrec.rep hp hstop)
    rw [hsep] at hall
    exact hE.internAll hseen (key_of_mem_elements hp.1) hroom hall
  refine @run_supplied _ _ _ _ _ _ _
    (fun ps => Enough ((ps.map Prod.fst).flatMap (elements (sepSet.getD defaultSep)))) _ next
    (fun _ _ _ _ _ h hp hput => loaded_put h hp hput) (fun xs ys h => ?_) [] _ _ hempty
    (zipIdx_noNul hlines) ?_
  · rw [List.map_append, List.flatMap_append] at h
    exact hE.fewer _ _ h
  · rw [List.nil_append, List.zipIdx_map_fst]
    exact henough

theorem loaded_counters {elemStruct : σ → Nat} {nodes : List Bytes → Nat}
    (hnodes : ∀ {s m els}, E.Rep s m → (∀ k, (m k).isSome ↔ k ∈ els) → elemStruct s = nodes els)
    {sep : Bytes} {size : Nat} {lines : List Bytes} {t : PathTrie σ w}
    (h : Loaded U E sep size (lines.zipIdx 1) t) :
    counters E elemStruct t = expectedCounters nodes sep lines := by
  obtain ⟨⟨m, hrec⟩, -, hE⟩ := h
  rw [List.zipIdx_map_fst] at hE
  obtain ⟨me, hme, hdom, huniq, htotal⟩ := hE
  obtain ⟨⟨⟨T, me', hknows⟩, hsep⟩, hvals, huniq', htotal'⟩ := hrec
  have hlines : ∀ k, (m k).isSome ↔ k ∈ lines := by
    intro k
    rw [← keys_stored size lines 1, ← firstValue_isSome, ← hvals, Option.isSome_map]
  rw [keys_stored] at huniq'
  have hlen : (stored size (lines.zipIdx 1)).length = lines.length := by simp [stored]
  rw [hlen] at htotal'
  have hu : t.stats.uniqNode = lines.toFinset.card := huniq'
  have hd : t.stats.uniqNode + t.stats.dupsNode = lines.length := htotal'
  have hprefix := nodeStruct_eq hknows hlines
  rw [hsep] at hprefix
  simp only [counters, expectedCounters, PathCounters.mk.injEq]
  exact ⟨hu, by omega, huniq, by omega, hprefix, hnodes hme hdom⟩

end PathTrie

end PathSet
