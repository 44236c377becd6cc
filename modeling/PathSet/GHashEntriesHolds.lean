import PathSet.GHashEntries
import PathSet.GHashSlots

/-!
The invariant of the chained table with its entries, for any mix of insertions and
deletions. Every entry that was allocated is in one chain, or on the free list, once. A
chain shows nodes of its bucket's hash, and no text is in the table twice.
-/

namespace PathSet
open Fallible Pointer Buckets Recycled

namespace GHashEntries

def Shows (entry : Heap (Option Nat)) (b : EntryBucket) : List Nat → Prop
  | [] => b = ⟨none, []⟩
  | p :: ps => b.data = some p ∧ List.Forall₂ (fun e q => entry.read e = some (some q)) b.next ps

structure Shown (entry : Heap (Option Nat)) (bucket : List EntryBucket) (tbl : List (List Nat)) :
    Prop where
  length : bucket.length = tbl.length
  shows : ∀ (j : Nat) b ps, bucket[j]? = some b → tbl[j]? = some ps → Shows entry b ps

section
variable {entry entry' : Heap (Option Nat)} {b b' : EntryBucket} {bucket : List EntryBucket}
variable {tbl : List (List Nat)} {ps : List Nat} {j e : Nat}

theorem Shows.data_eq_none (h : Shows entry b ps) : b.data = none ↔ ps = [] := by
  cases ps with
  | nil =>
    rw [h]
    simp
  | cons p ps => simp [h.1]

theorem reads_congr {es qs : List Nat} (h : List.Forall₂ (fun e q => entry.read e = some (some q)) es qs)
    (same : ∀ e ∈ es, entry'.read e = entry.read e) :
    List.Forall₂ (fun e q => entry'.read e = some (some q)) es qs := by
  induction h with
  | nil => exact .nil
  | @cons e q es qs heq _ ih =>
    refine .cons ?_ (ih fun x hx => same x (List.mem_cons_of_mem e hx))
    rw [same e (by simp), heq]

theorem Shows.congr (h : Shows entry b ps) (same : ∀ e ∈ b.next, entry'.read e = entry.read e) :
    Shows entry' b ps := by
  cases ps with
  | nil => exact h
  | cons p ps => exact ⟨h.1, reads_congr h.2 same⟩

theorem mem_overflow (hj : bucket[j]? = some b) (he : e ∈ b.next) : e ∈ overflow bucket :=
  List.mem_flatMap.mpr ⟨b, List.mem_of_getElem? hj, he⟩

theorem Shown.congr (h : Shown entry bucket tbl)
    (same : ∀ e ∈ overflow bucket, entry'.read e = entry.read e) : Shown entry' bucket tbl :=
  ⟨h.length, fun j b ps hb hps => (h.shows j b ps hb hps).congr fun e he =>
    same e (mem_overflow hb he)⟩

theorem Shown.set (h : Shown entry bucket tbl) (hb : Shows entry b ps) (j : Nat) :
    Shown entry (bucket.set j b) (tbl.set j ps) := by
  refine ⟨by simpa using h.length, fun i c qs hc hqs => ?_⟩
  by_cases hij : j = i
  · subst hij
    have hlt : j < bucket.length := by simpa using (List.getElem?_eq_some_iff.mp hc).1
    rw [List.getElem?_set_self hlt] at hc
    rw [List.getElem?_set_self (h.length ▸ hlt)] at hqs
    obtain rfl := Option.some.inj hc
    obtain rfl := Option.some.inj hqs
    exact hb
  · rw [List.getElem?_set_ne hij] at hc hqs
    exact h.shows i c qs hc hqs

theorem Shown.bucket_at (h : Shown entry bucket tbl) (hj : j < tbl.length) :
    ∃ b ps, bucket[j]? = some b ∧ tbl[j]? = some ps ∧ Shows entry b ps := by
  obtain ⟨ps, hps⟩ : ∃ ps, tbl[j]? = some ps := ⟨_, List.getElem?_eq_getElem hj⟩
  obtain ⟨b, hb⟩ : ∃ b, bucket[j]? = some b := ⟨_, List.getElem?_eq_getElem (h.length ▸ hj)⟩
  exact ⟨b, ps, hb, hps, h.shows j b ps hb hps⟩

theorem shown_replicate (entry : Heap (Option Nat)) (n : Nat) :
    Shown entry (List.replicate n ⟨none, []⟩) (List.replicate n []) := by
  refine ⟨by simp, fun j b ps hb hps => ?_⟩
  obtain ⟨-, rfl⟩ : j < n ∧ ⟨none, []⟩ = b := by simpa [List.getElem?_replicate] using hb
  obtain ⟨-, rfl⟩ : j < n ∧ [] = ps := by simpa [List.getElem?_replicate] using hps
  exact rfl

theorem overflow_replicate (n : Nat) : overflow (List.replicate n ⟨none, []⟩) = [] := by
  simp [overflow]

theorem map_read {es qs : List Nat}
    (h : List.Forall₂ (fun e q => entry.read e = some (some q)) es qs) :
    es.map (fun e => (entry.read e).join) = qs.map some := by
  induction h with
  | nil => rfl
  | cons heq _ ih =>
    rw [List.map_cons, List.map_cons, heq, ih]
    rfl

theorem Shows.nodesOf (h : Shows entry b ps) : nodesOf entry b = ps := by
  cases ps with
  | nil =>
    rw [h]
    rfl
  | cons p ps =>
    rw [GHashEntries.nodesOf, h.1, map_read h.2, ← List.map_cons]
    simp [List.reduceOption]

theorem Shown.map_nodesOf (h : Shown entry bucket tbl) : bucket.map (nodesOf entry) = tbl := by
  refine List.ext_getElem (by simpa using h.length) fun j hj hj' => ?_
  rw [List.getElem_map]
  refine (h.shows j _ _ (List.getElem?_eq_getElem ?_) (List.getElem?_eq_getElem hj')).nodesOf

theorem overflow_set (hj : bucket[j]? = some b) (b' : EntryBucket) :
    (b.next ++ overflow (bucket.set j b')).Perm (b'.next ++ overflow bucket) := by
  have hmap : (bucket.map (·.next))[j]? = some b.next := by
    rw [List.getElem?_map, hj]
    rfl
  have hperm := items_set_append_perm hmap b'.next
  rwa [← List.map_set] at hperm

theorem overflow_push (hj : bucket[j]? = some b) (d : Option Nat) (e : Nat) :
    (overflow (bucket.set j ⟨d, e :: b.next⟩)).Perm (e :: overflow bucket) := by
  have hperm := overflow_set hj ⟨d, e :: b.next⟩
  exact (List.perm_append_left_iff b.next).mp (hperm.trans List.perm_middle.symm)

theorem overflow_pull (hj : bucket[j]? = some b) (d : Option Nat) {es : List Nat}
    (hes : b.next.Perm (e :: es)) : (e :: overflow (bucket.set j ⟨d, es⟩)).Perm (overflow bucket) := by
  have hperm := (hes.append_right _).symm.trans (overflow_set hj ⟨d, es⟩)
  exact (List.perm_append_left_iff es).mp (List.perm_middle.trans hperm)

theorem overflow_same (hj : bucket[j]? = some b) (d : Option Nat) :
    (overflow (bucket.set j ⟨d, b.next⟩)).Perm (overflow bucket) :=
  (List.perm_append_left_iff b.next).mp (overflow_set hj ⟨d, b.next⟩)

end

variable {mix : Bytes → Nat} {kind : GHashKind}

structure Kept (mix : Bytes → Nat) (kind : GHashKind) (t : GHashEntries) (ks : List Bytes)
    (tbl : List (List Nat)) : Prop where
  shown : Shown t.entry t.bucket tbl
  owns : t.entry.Owns (overflow t.bucket)
  sized : tbl.length = t.nBuckets
  pos : 0 < tbl.length
  used : t.nBucketsUsed = used tbl
  entries : t.nEntries = (items tbl).length
  length : t.nodes.length = ks.length
  keeps : ∀ p k, deref ks p = some k → ∃ c, deref t.nodes p = some c ∧ GHashTable.Keeps kind c k
  nodes : ∀ p ∈ items tbl, ∃ k, deref ks p = some k
  nodup : (items tbl).Nodup
  distinct : ∀ p ∈ items tbl, ∀ q ∈ items tbl, ∀ k,
    deref ks p = some k → deref ks q = some k → p = q
  homed : Homed (GHashTable.home mix ks tbl.length) tbl

theorem kept_fresh {n : Nat} (hn : 0 < n) :
    Kept mix kind (fresh n) [] (List.replicate n []) := by
  refine ⟨shown_replicate _ n, ?_, by simp [fresh], by simpa using hn, (used_replicate n).symm, ?_,
    rfl, by simp, ?_, ?_, ?_, homed_replicate _ n⟩
  · rw [fresh, overflow_replicate]
    exact Heap.owns_nil
  all_goals simp [items_replicate, fresh]

section
variable {t : GHashEntries} {ks : List Bytes} {tbl : List (List Nat)}

theorem Kept.node (h : Kept mix kind t ks tbl) {p : Nat} (hp : p ∈ items tbl) :
    ∃ k c, deref ks p = some k ∧ t.node (some p) = .ok c ∧ GHashTable.Keeps kind c k := by
  obtain ⟨k, hk⟩ := h.nodes p hp
  obtain ⟨c, hc, hs⟩ := h.keeps p k hk
  exact ⟨k, c, hk, by simp [GHashEntries.node, hc], hs⟩

theorem safeHasher_spec {c : GHashNode} {bucket : List EntryBucket} {j : Nat} {b : EntryBucket}
    (hj : GHashTable.hash mix kind c bucket.length = j) (hb : bucket[j]? = some b) :
    safeHasher mix kind bucket c = .ok (j, b) := by
  simp only [safeHasher, hj, hb]

theorem readEntry_of {entry : Heap (Option Nat)} {e : Nat} {d : Option Nat}
    (h : entry.read e = some d) : readEntry entry e = .ok d := by
  rw [readEntry, h]

theorem Kept.stored_eq (h : Kept mix kind t ks tbl) : t.stored = items tbl := by
  rw [stored, items, ← h.shown.map_nodesOf, List.flatMap_def]

theorem scanNext_spec (h : Kept mix kind t ks tbl) {key text : Bytes}
    (htext : GHashTable.keyText kind key = text) {es qs : List Nat}
    (hshow : List.Forall₂ (fun e q => t.entry.read e = some (some q)) es qs)
    (hqs : ∀ q ∈ qs, q ∈ items tbl) :
    (∃ es₁ e es₂ qs₁ p qs₂, scanNext kind t (GHash.keyNode kind key) es = .ok (some e) ∧
        es = es₁ ++ e :: es₂ ∧ qs = qs₁ ++ p :: qs₂ ∧ deref ks p = some text ∧
        t.entry.read e = some (some p) ∧
        List.Forall₂ (fun e q => t.entry.read e = some (some q)) (es₁ ++ es₂) (qs₁ ++ qs₂)) ∨
      (scanNext kind t (GHash.keyNode kind key) es = .ok none ∧
        ∀ q ∈ qs, deref ks q ≠ some text) := by
  induction hshow with
  | nil => exact Or.inr ⟨rfl, by simp⟩
  | @cons e q es qs heq hrest ih =>
    obtain ⟨k, c, hk, hc, hs⟩ := h.node (hqs q (by simp))
    rw [scanNext, readEntry_of heq, ok_bind, hc, ok_bind, GHashTable.eq_of_keeps hs key, htext]
    by_cases hkk : k = text
    · subst hkk
      rw [if_pos (by simp)]
      exact Or.inl ⟨[], e, es, [], q, qs, rfl, rfl, rfl, hk, heq, hrest⟩
    · rw [if_neg (by simpa using hkk)]
      rcases ih fun p hp => hqs p (by simp [hp]) with
        ⟨es₁, f, es₂, qs₁, p, qs₂, hrun, rfl, rfl, hp, hread, hshow⟩ | ⟨hrun, hnot⟩
      · exact Or.inl ⟨e :: es₁, f, es₂, q :: qs₁, p, qs₂, hrun, rfl, rfl, hp, hread,
          .cons heq hshow⟩
      · refine Or.inr ⟨hrun, fun p hp => ?_⟩
        rcases List.mem_cons.mp hp with rfl | hp
        · rw [hk]
          simpa using hkk
        · exact hnot p hp

/-- Where a text is in its bucket, and what a search for it does. -/
inductive Place (mix : Bytes → Nat) (kind : GHashKind) (t : GHashEntries) (ks : List Bytes)
    (key text : Bytes) (j : Nat) (b : EntryBucket) : List Nat → Prop
  | absent {ps : List Nat} (found : ∀ delete,
      hashFindEntry mix kind delete t (GHash.keyNode kind key) = .ok (t, j, none))
      (none : ∀ p ∈ ps, deref ks p ≠ some text) : Place mix kind t ks key text j b ps
  | head {p : Nat} {ps : List Nat} (hp : deref ks p = some text)
      (found : hashFindEntry mix kind false t (GHash.keyNode kind key) = .ok (t, j, some (.head j)))
      (deleted : hashFindEntry mix kind true t (GHash.keyNode kind key) =
        deleteHead t j b >>= fun t => .ok (t, j, some (.copy (some p)))) :
      Place mix kind t ks key text j b (p :: ps)
  | overflow {p q e : Nat} {ps₁ ps₂ es₁ es₂ : List Nat} (hp : deref ks p = some text)
      (hes : b.next = es₁ ++ e :: es₂) (hread : t.entry.read e = some (some p))
      (hshow : List.Forall₂ (fun e q => t.entry.read e = some (some q)) (es₁ ++ es₂) (ps₁ ++ ps₂))
      (found : hashFindEntry mix kind false t (GHash.keyNode kind key) =
        .ok (t, j, some (.overflow e)))
      (deleted : hashFindEntry mix kind true t (GHash.keyNode kind key) =
        .ok ({ t with
          bucket := t.bucket.set j { b with next := b.next.erase e }
          entry := freeEntry t.entry e }, j, some (.overflow e))) :
      Place mix kind t ks key text j b (q :: (ps₁ ++ p :: ps₂))

theorem place (h : Kept mix kind t ks tbl) {key text : Bytes}
    (htext : GHashTable.keyText kind key = text) :
    ∃ b ps, t.bucket[mix text % tbl.length]? = some b ∧ tbl[mix text % tbl.length]? = some ps ∧
      Shows t.entry b ps ∧ Place mix kind t ks key text (mix text % tbl.length) b ps := by
  obtain ⟨b, ps, hb, hps, hshow⟩ := h.shown.bucket_at (Nat.mod_lt (mix text) h.pos)
  refine ⟨b, ps, hb, hps, hshow, ?_⟩
  have hhash : GHashTable.hash mix kind (GHash.keyNode kind key) t.bucket.length =
      mix text % tbl.length := by
    rw [GHashTable.hash_keyNode, htext, h.shown.length]
  have hmem : ∀ p ∈ ps, p ∈ items tbl := fun p hp =>
    List.mem_flatten.mpr ⟨ps, List.mem_of_getElem? hps, hp⟩
  have hsafe := safeHasher_spec hhash hb
  cases ps with
  | nil =>
    refine .absent (fun delete => ?_) (by simp)
    have hnone : b.data = none := hshow.data_eq_none.mpr rfl
    simp only [hashFindEntry, hsafe, ok_bind, hnone, if_true, pure_eq_ok]
  | cons p ps =>
    obtain ⟨hdata, hnext⟩ := hshow
    obtain ⟨k, c, hk, hc, hs⟩ := h.node (hmem p (by simp))
    by_cases hkk : k = text
    · subst hkk
      have heq : GHash.eq kind (GHash.keyNode kind key) c = true := by
        simp [GHashTable.eq_of_keeps hs key, htext]
      refine .head hk ?_ ?_
      all_goals
        simp only [hashFindEntry, hsafe, ok_bind, hdata, reduceCtorEq, if_false, hc, heq, if_true,
          Bool.false_eq_true, pure_eq_ok]
    · have heq : GHash.eq kind (GHash.keyNode kind key) c = false := by
        simp [GHashTable.eq_of_keeps hs key, htext, hkk]
      rcases scanNext_spec h htext hnext fun q hq => hmem q (List.mem_cons_of_mem p hq) with
        ⟨es₁, e, es₂, qs₁, q, qs₂, hrun, hes, rfl, hq, hread, hrest⟩ | ⟨hrun, hnot⟩
      · refine .overflow hq hes hread hrest ?_ ?_
        all_goals
          simp only [hashFindEntry, hsafe, ok_bind, hdata, reduceCtorEq, if_false, hc, heq, hrun,
            if_true, Bool.false_eq_true, pure_eq_ok]
      · refine .absent (fun delete => ?_) fun q hq => ?_
        · simp only [hashFindEntry, hsafe, ok_bind, hdata, reduceCtorEq, if_false, hc, heq, hrun,
            Bool.false_eq_true, pure_eq_ok]
        · rcases List.mem_cons.mp hq with rfl | hq
          · rw [hk]
            simpa using hkk
          · exact hnot q hq

theorem Kept.absent_iff (h : Kept mix kind t ks tbl) {text : Bytes} {ps : List Nat}
    (hps : tbl[mix text % tbl.length]? = some ps) :
    (∀ p ∈ ps, deref ks p ≠ some text) ↔ ∀ p ∈ items tbl, deref ks p ≠ some text := by
  constructor
  · intro hnot p hp heq
    obtain ⟨qs, hqs, hpq⟩ := mem_home h.homed hp
    rw [GHashTable.home, heq, Option.getD_some, hps] at hqs
    exact hnot p (Option.some.inj hqs ▸ hpq) heq
  · exact fun hnot p hp => hnot p (List.mem_flatten.mpr ⟨ps, List.mem_of_getElem? hps, hp⟩)

end

end GHashEntries

end PathSet
