import PathSet.GHashDelete

/-!
The chained table with its entries is the one over slots. An overflow entry is read where
its data is in the chain of its bucket, as long as no entry is in two chains, or in a
chain and free. Both fail together, and answer the same.
-/

namespace PathSet
open Fallible Pointer Buckets Recycled Numbered

namespace GHashEntries

def slots (entry : Heap (Option Nat)) (b : EntryBucket) : HashBucket :=
  ⟨b.data, b.next.map fun e => (entry.read e).join⟩

def table (t : GHashEntries) : GHashTable :=
  ⟨t.nodes, t.bucket.map (slots t.entry), t.nBuckets, t.nBucketsUsed, t.nEntries,
    t.entry.free.length⟩

def Dest.table (dst : Dest) : GHashTable.Dest :=
  ⟨dst.bucket.map (slots dst.entry), dst.nBucketsUsed, dst.entry.free.length⟩

/-- Each entry is one of those in use, or free and cleared. -/
structure Linked (entry : Heap (Option Nat)) (es : List Nat) : Prop where
  owns : entry.Owns es
  clean : entry.Clean none

def Headed (bucket : List EntryBucket) : Prop := ∀ b ∈ bucket, b.data = none → b.next = []

structure Chained (t : GHashEntries) : Prop where
  linked : Linked t.entry (overflow t.bucket)
  headed : Headed t.bucket

section
variable {entry entry' : Heap (Option Nat)} {b : EntryBucket} {bucket : List EntryBucket}
variable {es es' : List Nat} {e j : Nat}

theorem Linked.perm (h : Linked entry es) (hp : es'.Perm es) : Linked entry es' :=
  ⟨h.owns.perm hp, h.clean⟩

theorem headed_replicate (n : Nat) : Headed (List.replicate n ⟨none, []⟩) := by
  intro b hb _
  rw [(List.mem_replicate.mp hb).2]

theorem Headed.set (h : Headed bucket) {d : Option Nat} (hd : d ≠ none) (j : Nat) :
    Headed (bucket.set j ⟨d, es⟩) := by
  intro c hc hnone
  rcases List.mem_or_eq_of_mem_set hc with hc | rfl
  · exact h c hc hnone
  · exact absurd hnone hd

theorem chained_fresh (n : Nat) : Chained (fresh n) := by
  refine ⟨?_, headed_replicate n⟩
  rw [fresh, overflow_replicate]
  exact ⟨Heap.owns_nil, Heap.clean_nil _ none⟩

@[simp] theorem slots_data (entry : Heap (Option Nat)) (b : EntryBucket) :
    (slots entry b).data = b.data := rfl

theorem slots_congr (same : ∀ e ∈ b.next, entry'.read e = entry.read e) :
    slots entry' b = slots entry b := by
  rw [slots, slots, List.map_congr_left fun e he => by rw [same e he]]

theorem map_slots_congr (same : ∀ e ∈ overflow bucket, entry'.read e = entry.read e) :
    bucket.map (slots entry') = bucket.map (slots entry) :=
  List.map_congr_left fun b hb => slots_congr fun e he =>
    same e (List.mem_flatMap.mpr ⟨b, hb, he⟩)

theorem map_slots_data (hb : bucket[j]? = some b)
    (same : ∀ e ∈ overflow bucket, entry'.read e = entry.read e) (d : Option Nat) :
    (bucket.set j { b with data := d }).map (slots entry') =
      (bucket.map (slots entry)).set j { slots entry b with data := d } := by
  have hslots : slots entry' b = slots entry b := slots_congr fun e he => same e (mem_overflow hb he)
  rw [List.map_set, map_slots_congr same, ← hslots]
  rfl

theorem map_slots_push (hb : bucket[j]? = some b)
    (same : ∀ e ∈ overflow bucket, entry'.read e = entry.read e) {d : Option Nat}
    (hread : entry'.read e = some d) :
    (bucket.set j { b with next := e :: b.next }).map (slots entry') =
      (bucket.map (slots entry)).set j { slots entry b with next := d :: (slots entry b).next } := by
  have hslots : slots entry' b = slots entry b := slots_congr fun e he => same e (mem_overflow hb he)
  rw [List.map_set, map_slots_congr same, ← hslots]
  simp only [slots, List.map_cons, hread, Option.join_some]

theorem Linked.freed (h : Linked entry (e :: es)) : Linked (freeEntry entry e) es ∧
    (freeEntry entry e).free.length = entry.free.length + 1 ∧
    ∀ x ∈ es, (freeEntry entry e).read x = entry.read x := by
  refine ⟨⟨h.owns.release none, h.clean.release h.owns (by simp)⟩, rfl, fun x hx => ?_⟩
  refine Heap.read_release_ne ?_
  rintro rfl
  exact h.owns.notMem hx

theorem Linked.allocated (h : Linked entry es) :
    Linked (entry.allocate none).1 ((entry.allocate none).2 :: es) ∧
    (entry.allocate none).1.read (entry.allocate none).2 = some none ∧
    (entry.allocate none).1.free.length = entry.free.length - 1 ∧
    ∀ x ∈ es, (entry.allocate none).1.read x = entry.read x := by
  have ha := h.owns.allocate none
  obtain ⟨hclean, hread⟩ := h.clean.allocate
  exact ⟨⟨ha.owns, hclean⟩, hread, ha.free, ha.kept⟩

theorem Linked.write (h : Linked entry es) (he : e ∈ es) (d : Option Nat) :
    Linked (entry.write d e) es :=
  ⟨h.owns.write d e, h.clean.write (h.owns.notMem_free he) d⟩

theorem map_slots_write (hown : entry.Owns (overflow bucket)) (hb : bucket[j]? = some b) {i : Nat}
    (he : b.next[i]? = some e) (d : Option Nat) :
    bucket.map (slots (entry.write d e)) =
      (bucket.map (slots entry)).modify j fun b => { b with next := b.next.set i d } := by
  have hmem : e ∈ b.next := List.mem_of_getElem? he
  -- the entries of this bucket, and those of the other ones
  have hapart : (b.next ++ overflow (bucket.set j ⟨b.data, []⟩)).Nodup :=
    (overflow_set hb ⟨b.data, []⟩).nodup_iff.mpr hown.nodup.of_append_left
  have hslot : (bucket.map (slots entry))[j]? = some (slots entry b) := by
    rw [List.getElem?_map, hb]
    rfl
  rw [modify_bucket hslot]
  refine List.ext_getElem? fun k => ?_
  by_cases hjk : j = k
  · subst hjk
    have hlt : j < (bucket.map (slots entry)).length := (List.getElem?_eq_some_iff.mp hslot).1
    rw [List.getElem?_set_self hlt, List.getElem?_map, hb]
    refine congrArg some (congrArg (HashBucket.mk b.data) ?_)
    refine List.ext_getElem? fun m => ?_
    by_cases him : i = m
    · subst him
      have hread := hown.read_write (a := d) (mem_overflow hb hmem)
      have hlen : i < b.next.length := (List.getElem?_eq_some_iff.mp he).1
      rw [List.getElem?_map, he, List.getElem?_set_self (by simpa [slots] using hlen)]
      rw [Option.map_some, hread]
      rfl
    · rw [List.getElem?_set_ne him, List.getElem?_map, slots, List.getElem?_map]
      cases hx : b.next[m]? with
      | none => rfl
      | some x =>
        have hne : e ≠ x := by
          rintro rfl
          exact him ((List.getElem?_inj (List.getElem?_eq_some_iff.mp he).1
            hapart.of_append_left).mp (he.trans hx.symm))
        rw [Option.map_some, Option.map_some, Heap.read_write_ne hne]
  · rw [List.getElem?_set_ne hjk, List.getElem?_map, List.getElem?_map]
    cases hc : bucket[k]? with
    | none => rfl
    | some c =>
      refine congrArg some (slots_congr fun x hx => Heap.read_write_ne ?_)
      rintro rfl
      have hother : (bucket.set j ⟨b.data, []⟩)[k]? = some c := by rw [List.getElem?_set_ne hjk, hc]
      exact List.disjoint_of_nodup_append hapart hmem (mem_overflow hother hx)

end

variable {mix : Bytes → Nat} {kind : GHashKind} {t : GHashEntries}

inductive At (t : GHashEntries) : HashEntry → Slot → Prop
  | head {j : Nat} {b : EntryBucket} (hb : t.bucket[j]? = some b) : At t (.head j) (.head j)
  | overflow {j i e : Nat} {b : EntryBucket} (hb : t.bucket[j]? = some b)
      (he : b.next[i]? = some e) : At t (.overflow e) (.overflow j i)

theorem node_some {d : Option Nat} {c : GHashNode} (h : t.node d = .ok c) : d ≠ none := by
  rintro rfl
  cases h

theorem node_table (t : GHashEntries) (d : Option Nat) : t.table.node d = t.node d := rfl

theorem readData_table (h : Chained t) {previous : HashEntry} {slot : Slot}
    (hat : At t previous slot) : t.table.readSlot slot = t.readData previous := by
  cases hat with
  | head hb =>
    simp only [GHashTable.readSlot, readData, table, List.getElem?_map, hb, Option.map_some, slots]
  | overflow hb he =>
    obtain ⟨d, hread⟩ := h.linked.owns.exists_read (mem_overflow hb (List.mem_of_getElem? he))
    simp only [GHashTable.readSlot, readData, readEntry_of hread, table, List.getElem?_map, hb,
      Option.map_some, Option.bind_some, slots, he, hread, Option.join_some]

theorem writeData_table (h : Chained t) {previous : HashEntry} {slot : Slot}
    (hat : At t previous slot) (p : Nat) :
    Chained (t.writeData p previous) ∧
      t.table.writeSlot p slot = (t.writeData p previous).table := by
  cases hat with
  | @head j b hb =>
    have hslot : (t.bucket.map (slots t.entry))[j]? = some (slots t.entry b) := by
      rw [List.getElem?_map, hb]
      rfl
    simp only [writeData, GHashTable.writeSlot, table, modify_bucket hb, modify_bucket hslot,
      List.map_set]
    exact ⟨⟨h.linked.perm (overflow_same hb (some p)), h.headed.set (by simp) j⟩, rfl⟩
  | overflow hb he =>
    refine ⟨⟨h.linked.write (mem_overflow hb (List.mem_of_getElem? he)) (some p), h.headed⟩, ?_⟩
    simp only [writeData, GHashTable.writeSlot, table, Heap.write_free,
      map_slots_write h.linked.owns hb he (some p)]

theorem safeHasher_table (mix : Bytes → Nat) (kind : GHashKind) (entry : Heap (Option Nat))
    (bucket : List EntryBucket) (c : GHashNode) :
    Agree (fun x y => x.1 = y.1 ∧ slots entry x.2 = y.2 ∧ bucket[x.1]? = some x.2)
      (safeHasher mix kind bucket c)
      (GHashTable.safeHasher mix kind (bucket.map (slots entry)) c) := by
  simp only [safeHasher, GHashTable.safeHasher, List.length_map, List.getElem?_map]
  cases hb : bucket[GHashTable.hash mix kind c bucket.length]? with
  | none => rfl
  | some b => exact ⟨rfl, rfl, hb⟩

def Found (t : GHashEntries) (r : Option HashEntry) (s : Option Slot) : Prop :=
  (r = none ∧ s = none) ∨ ∃ previous slot, r = some previous ∧ s = some slot ∧ At t previous slot

theorem scanNext_table (c : GHashNode) (j i : Nat) {es : List Nat}
    (hread : ∀ e ∈ es, ∃ d, t.entry.read e = some d) :
    Agree (fun r s => (r = none ∧ s = none) ∨
        ∃ e k, r = some e ∧ s = some (.overflow j (i + k)) ∧ es[k]? = some e)
      (scanNext kind t c es)
      (GHashTable.scanNext kind t.table c j i (es.map fun e => (t.entry.read e).join)) := by
  induction es generalizing i with
  | nil => exact Or.inl ⟨rfl, rfl⟩
  | cons e es ih =>
    obtain ⟨d, hd⟩ := hread e (by simp)
    rw [List.map_cons, hd, Option.join_some, scanNext, GHashTable.scanNext, readEntry_of hd, ok_bind,
      node_table]
    refine agree_bind _ fun x _ => ?_
    by_cases hit : GHash.eq kind c x = true
    · rw [if_pos hit, if_pos hit]
      exact Or.inr ⟨e, 0, rfl, rfl, rfl⟩
    · rw [if_neg hit, if_neg hit]
      refine (ih (i + 1) fun x hx => hread x (List.mem_cons_of_mem e hx)).mono ?_
      rintro r s (hnone | ⟨f, k, hr, hs, hf⟩)
      · exact Or.inl hnone
      · refine Or.inr ⟨f, k + 1, hr, ?_, hf⟩
        rw [hs, Nat.add_assoc, Nat.add_comm 1 k]

theorem hashFindEntry_table (h : Chained t) (c : GHashNode) :
    Agree (fun x y => t = x.1 ∧ x.2.1 = y.1 ∧ Found t x.2.2 y.2)
      (hashFindEntry mix kind false t c) (GHashTable.hashFindEntry mix kind t.table c) := by
  refine (safeHasher_table mix kind t.entry t.bucket c).bind ?_
  rintro ⟨j, b⟩ ⟨_, _⟩ ⟨rfl, rfl, hb⟩
  have hread : ∀ e ∈ b.next, ∃ d, t.entry.read e = some d := fun e he =>
    h.linked.owns.exists_read (mem_overflow hb he)
  by_cases hempty : b.data = none
  · simp only [slots, hempty, if_true]
    exact ⟨rfl, rfl, Or.inl ⟨rfl, rfl⟩⟩
  simp only [slots, hempty, if_false, node_table]
  refine agree_bind _ fun x _ => ?_
  by_cases hit : GHash.eq kind c x = true
  · simp only [hit, if_true, Bool.false_eq_true, if_false]
    exact ⟨rfl, rfl, Or.inr ⟨_, _, rfl, rfl, .head hb⟩⟩
  · simp only [hit]
    refine (scanNext_table c j 0 hread).bind ?_
    rintro r s (⟨rfl, rfl⟩ | ⟨e, k, rfl, rfl, he⟩)
    · exact ⟨rfl, rfl, Or.inl ⟨rfl, rfl⟩⟩
    · rw [Nat.zero_add]
      exact ⟨rfl, rfl, Or.inr ⟨_, _, rfl, rfl, .overflow hb he⟩⟩

structure Joined (dst : Dest) (rest : List Nat) : Prop where
  linked : Linked dst.entry (overflow dst.bucket ++ rest)
  headed : Headed dst.bucket

structure Relinked (rest : List Nat) (dst dst' : Dest) (s : GHashTable.Dest) : Prop where
  table : dst'.table = s
  joined : Joined dst' rest
  frame : ∀ x ∈ rest, dst'.entry.read x = dst.entry.read x

theorem moveOverflow_table (t : GHashEntries) {dst : Dest} {rest : List Nat} {e : Nat}
    (h : Joined dst (e :: rest)) :
    Agree (Relinked rest dst) (moveOverflow mix kind t dst e)
      (GHashTable.moveOverflow mix kind t.table dst.table (dst.entry.read e).join) := by
  obtain ⟨d, hread⟩ := h.linked.owns.exists_read (List.mem_append_right _ List.mem_cons_self)
  have hlinked : Linked dst.entry (e :: (overflow dst.bucket ++ rest)) :=
    h.linked.perm List.perm_middle.symm
  rw [hread, Option.join_some, moveOverflow, GHashTable.moveOverflow, readEntry_of hread, ok_bind,
    node_table]
  refine agree_bind _ fun c hc => ?_
  refine (safeHasher_table mix kind dst.entry dst.bucket c).bind ?_
  rintro ⟨j, b⟩ ⟨_, _⟩ ⟨rfl, rfl, hb⟩
  dsimp only
  by_cases hempty : b.data = none
  · have hempty' : (slots dst.entry b).data = none := hempty
    rw [if_pos hempty, if_pos hempty']
    obtain ⟨hfreed, hfree, hsame⟩ := hlinked.freed
    refine ⟨?_, ⟨hfreed.perm ((overflow_same hb d).append_right rest),
      h.headed.set (node_some hc) j⟩, fun x hx => hsame x (List.mem_append_right _ hx)⟩
    simp only [Dest.table, hfree, map_slots_data hb fun x hx => hsame x (List.mem_append_left _ hx)]
  · have hempty' : (slots dst.entry b).data ≠ none := hempty
    rw [if_neg hempty, if_neg hempty']
    refine ⟨?_, ⟨hlinked.perm ((overflow_push hb b.data e).append_right rest),
      h.headed.set hempty j⟩, fun _ _ => rfl⟩
    simp only [Dest.table, map_slots_push hb (fun _ _ => rfl) hread, slots_data]

theorem moveHead_table (t : GHashEntries) {dst : Dest} {rest : List Nat} (h : Joined dst rest)
    (d : Option Nat) :
    Agree (Relinked rest dst) (moveHead mix kind t dst d)
      (GHashTable.moveHead mix kind t.table dst.table d) := by
  rw [moveHead, GHashTable.moveHead, node_table]
  refine agree_bind _ fun c hc => ?_
  refine (safeHasher_table mix kind dst.entry dst.bucket c).bind ?_
  rintro ⟨j, b⟩ ⟨_, _⟩ ⟨rfl, rfl, hb⟩
  dsimp only
  by_cases hempty : b.data = none
  · have hempty' : (slots dst.entry b).data = none := hempty
    rw [if_pos hempty, if_pos hempty']
    refine ⟨?_, ⟨h.linked.perm ((overflow_same hb d).append_right rest),
      h.headed.set (node_some hc) j⟩, fun _ _ => rfl⟩
    simp only [Dest.table, map_slots_data hb fun _ _ => rfl]
  · have hempty' : (slots dst.entry b).data ≠ none := hempty
    rw [if_neg hempty, if_neg hempty']
    obtain ⟨halloc, -, hfree, -⟩ := h.linked.allocated
    have hsame := (h.linked.owns.allocate none).read_write d
    rcases hentry : dst.entry.allocate none with ⟨entry', e⟩
    rw [hentry] at halloc hfree hsame
    simp only [allocateEntry, hentry]
    refine ⟨?_, ⟨(halloc.write (by simp) d).perm ((overflow_push hb b.data e).append_right rest),
      h.headed.set hempty j⟩, fun x hx => hsame x (List.mem_append_right _ hx)⟩
    have hpush := map_slots_push hb (fun x hx => hsame x (List.mem_append_left _ hx))
      (halloc.owns.read_write List.mem_cons_self)
    simp only [Dest.table, hpush, Heap.write_free, hfree, slots_data]

theorem transferOverflow_table (t : GHashEntries) {dst : Dest} {es rest : List Nat}
    (h : Joined dst (es ++ rest)) :
    Agree (Relinked rest dst) (transferOverflow mix kind t dst es)
      (GHashTable.transferOverflow mix kind t.table dst.table
        (es.map fun e => (dst.entry.read e).join)) := by
  induction es generalizing dst with
  | nil => exact ⟨rfl, h, fun _ _ => rfl⟩
  | cons e es ih =>
    rw [List.map_cons, transferOverflow, GHashTable.transferOverflow]
    refine (moveOverflow_table t h).bind ?_
    rintro mid _ ⟨rfl, hmid, hframe⟩
    have hmap : es.map (fun e => (dst.entry.read e).join) =
        es.map fun e => (mid.entry.read e).join :=
      List.map_congr_left fun x hx => by rw [hframe x (List.mem_append_left rest hx)]
    rw [hmap]
    refine (ih hmid).mono ?_
    rintro dst' s ⟨hs, hjoined, hframe'⟩
    refine ⟨hs, hjoined, fun x hx => ?_⟩
    rw [hframe' x hx, hframe x (List.mem_append_right es hx)]

theorem transferEntries_table (t : GHashEntries) {dst : Dest} {bs : List EntryBucket}
    (h : Joined dst (overflow bs)) (hbs : Headed bs) :
    Agree (fun dst' s => dst'.table = s ∧ Joined dst' []) (transferEntries mix kind t dst bs)
      (GHashTable.transferEntries mix kind t.table dst.table (bs.map (slots dst.entry))) := by
  induction bs generalizing dst with
  | nil => exact ⟨rfl, h⟩
  | cons b bs ih =>
    have hbs' : Headed bs := fun c hc => hbs c (List.mem_cons_of_mem b hc)
    rw [List.map_cons, transferEntries, GHashTable.transferEntries]
    by_cases hempty : b.data = none
    · have hempty' : (slots dst.entry b).data = none := hempty
      rw [if_pos hempty, if_pos hempty']
      rw [overflow, List.flatMap_cons, hbs b (by simp) hempty] at h
      exact ih h hbs'
    · have hempty' : (slots dst.entry b).data ≠ none := hempty
      rw [if_neg hempty, if_neg hempty']
      have hparts : Joined dst (b.next ++ overflow bs) := h
      refine (transferOverflow_table t hparts).bind ?_
      rintro mid _ ⟨rfl, hmid, hframe⟩
      refine (moveHead_table t hmid b.data).bind ?_
      rintro top _ ⟨rfl, htop, hframe'⟩
      have hmap : bs.map (slots dst.entry) = bs.map (slots top.entry) :=
        (map_slots_congr fun x hx => (hframe' x hx).trans (hframe x hx)).symm
      rw [hmap]
      exact ih htop hbs'

theorem hashRehash_table (h : Chained t) (newSize : Nat) :
    Agree (fun t' s => t'.table = s ∧ Chained t') (hashRehash mix kind t newSize)
      (GHashTable.hashRehash mix kind t.table newSize) := by
  rw [hashRehash, GHashTable.hashRehash]
  by_cases hzero : newSize = 0
  · rw [if_pos hzero, if_pos hzero]
    rfl
  have hsizes : t.table.nBuckets = t.nBuckets := rfl
  rw [if_neg hzero, if_neg hzero, hsizes]
  by_cases hsame : newSize = t.nBuckets
  · rw [if_pos hsame, if_pos hsame]
    exact ⟨rfl, h⟩
  rw [if_neg hsame, if_neg hsame]
  by_cases hfit : newSize * 16 ≤ sizeMax
  · rw [calloc, calloc, if_pos hfit, if_pos hfit, ok_bind, ok_bind]
    have hnew : Joined ⟨t.entry, List.replicate newSize ⟨none, []⟩, 0, 0⟩ (overflow t.bucket) := by
      refine ⟨?_, headed_replicate newSize⟩
      rw [overflow_replicate]
      exact h.linked
    have hstart : (⟨List.replicate newSize ⟨none, []⟩, 0, t.table.freeEntries⟩ : GHashTable.Dest) =
        Dest.table ⟨t.entry, List.replicate newSize ⟨none, []⟩, 0, 0⟩ := by
      rw [Dest.table, List.map_replicate]
      rfl
    rw [hstart]
    refine (transferEntries_table t hnew h.headed).bind ?_
    rintro dst _ ⟨rfl, hdst⟩
    exact ⟨rfl, hdst.linked.perm (by simp), hdst.headed⟩
  · rw [calloc, calloc, if_neg hfit, if_neg hfit]
    rfl

theorem grow_table (h : Chained t) (newSize : Option Nat) (c : GHashNode) (j : Nat) :
    Agree (fun x y => x.1.table = y.1 ∧ x.2 = y.2 ∧ Chained x.1) (grow mix kind newSize t c j)
      (GHashTable.grow mix kind newSize t.table c j) := by
  cases newSize with
  | none => exact ⟨rfl, rfl, h⟩
  | some n =>
    refine (hashRehash_table h n).bind ?_
    rintro t₁ _ ⟨rfl, h₁⟩
    refine (hashFindEntry_table h₁ c).bind ?_
    rintro ⟨_, j₁, r⟩ ⟨_, s⟩ ⟨rfl, rfl, ⟨rfl, rfl⟩ | ⟨previous, slot, rfl, rfl, -⟩⟩
    · exact ⟨rfl, rfl, h₁⟩
    · rfl

theorem hashInsert_table (h : Chained t) (newSize : Option Nat) (c : GHashNode) :
    Agree (fun x y => x.1.table = y.1 ∧ x.2.1 = y.2.1 ∧ At x.1 x.2.2 y.2.2 ∧ Chained x.1)
      (hashInsert mix kind newSize t c) (GHashTable.hashInsert mix kind newSize t.table c) := by
  refine (hashFindEntry_table h c).bind ?_
  rintro ⟨_, j, r⟩ ⟨_, s⟩ ⟨rfl, rfl, ⟨rfl, rfl⟩ | ⟨previous, slot, rfl, rfl, hat⟩⟩
  · refine (grow_table h newSize c j).bind ?_
    rintro ⟨t₁, j₁⟩ ⟨_, _⟩ ⟨rfl, rfl, h₁⟩
    dsimp only
    have hslots : t₁.table.bucket[j₁]? = t₁.bucket[j₁]?.map (slots t₁.entry) := List.getElem?_map ..
    rw [hslots]
    cases hb : t₁.bucket[j₁]? with
    | none => rfl
    | some b =>
      dsimp only [Option.map_some]
      have hlt : j₁ < t₁.bucket.length := (List.getElem?_eq_some_iff.mp hb).1
      by_cases hempty : b.data = none
      · have hempty' : (slots t₁.entry b).data = none := hempty
        rw [if_pos hempty, if_pos hempty']
        exact ⟨rfl, rfl, .head hb, h₁.linked, h₁.headed⟩
      · have hempty' : (slots t₁.entry b).data ≠ none := hempty
        rw [if_neg hempty, if_neg hempty']
        obtain ⟨halloc, hread, hfree, hkept⟩ := h₁.linked.allocated
        rcases hentry : t₁.entry.allocate none with ⟨entry', e⟩
        rw [hentry] at halloc hread hfree hkept
        simp only [allocateEntry, hentry]
        refine ⟨?_, rfl, .overflow (List.getElem?_set_self hlt) rfl,
          halloc.perm (overflow_push hb b.data e), h₁.headed.set hempty j₁⟩
        simp only [table, map_slots_push hb hkept hread, hfree, slots_data]
  · exact ⟨rfl, rfl, hat, h⟩

theorem newNode_table (h : Chained t) {previous : HashEntry} {slot : Slot}
    (hat : At t previous slot) (key : Bytes) :
    Agree (fun x y => x.1.table = y.1 ∧ x.2 = y.2 ∧ At x.1 previous slot ∧ Chained x.1)
      (newNode kind t key) (GHashTable.newNode kind t.table key) := by
  refine agree_bind _ fun _ _ => ?_
  refine agree_bind _ fun _ _ => ⟨rfl, rfl, ?_, h.linked, h.headed⟩
  cases hat with
  | head hb => exact .head hb
  | overflow hb he => exact .overflow hb he

theorem insert_table (h : Chained t) (input : Bytes × Option Nat) :
    Agree (fun x y => (Chained x.1 ∧ x.1.table = y.1) ∧ x.2.1 = y.2.1 ∧ x.2.2 = y.2.2.2)
      (insert mix kind t input) (GHashTable.insert mix kind t.table input) := by
  refine (hashInsert_table h input.2 (GHash.keyNode kind input.1)).bind ?_
  rintro ⟨t₁, new, previous⟩ ⟨_, _, slot⟩ ⟨rfl, rfl, hat, h₁⟩
  cases new with
  | false =>
    simp only [Bool.false_eq_true, if_false, readData_table h₁ hat]
    exact agree_bind _ fun d _ => ⟨⟨h₁, rfl⟩, rfl, rfl⟩
  | true =>
    refine (newNode_table h₁ hat input.1).bind ?_
    rintro ⟨t₂, n⟩ ⟨_, _⟩ ⟨rfl, rfl, hat₂, h₂⟩
    obtain ⟨h₃, hwrite⟩ := writeData_table h₂ hat₂ n
    exact ⟨⟨h₃, hwrite.symm⟩, rfl, rfl⟩

theorem run_table (mix : Bytes → Nat) (kind : GHashKind) (h : Chained t)
    (inputs : List (Bytes × Option Nat)) :
    Agree (fun x y => (Chained x.1 ∧ x.1.table = y.1) ∧
        List.Forall₂ (fun r s => r.1 = s.1 ∧ r.2 = s.2.2) x.2 y.2)
      (run (insert mix kind) t inputs) (run (GHashTable.insert mix kind) t.table inputs) := by
  refine run_agree (R := fun t s => Chained t ∧ t.table = s) (fun t s input ht => ?_) ⟨h, rfl⟩ inputs
  obtain ⟨ht, rfl⟩ := ht
  exact insert_table ht input

theorem fresh_table (n : Nat) : (fresh n).table = GHashTable.fresh n := by
  rw [table, fresh, List.map_replicate]
  rfl

theorem wellPlaced_of_run {n : Nat} (hn : 0 < n) {inputs : List (Bytes × Option Nat)}
    (hsizes : ∀ x ∈ inputs, ∀ m ∈ x.2, 0 < m) {rs : List (Bool × Nat)}
    (hrun : run (insert mix kind) (fresh n) inputs = .ok (t, rs)) :
    GHashTable.WellPlaced mix kind t.table := by
  have hagree := run_table mix kind (chained_fresh n) inputs
  rw [hrun, fresh_table] at hagree
  obtain ⟨⟨s, answers⟩, hslots, ⟨-, rfl⟩, -⟩ := hagree.ok_left
  have hsound : ∃ tbl, GHashTable.Sound mix kind (GHashTable.fresh n) (firsts []) tbl :=
    ⟨_, GHashTable.sound_fresh hn⟩
  rcases GHashTable.run_spec hsound hsizes with ha | ⟨s, answers', hrun', ⟨tbl, hsound'⟩, -⟩
  · cases hslots.symm.trans ha
  · obtain ⟨rfl, -⟩ := Prod.mk.inj (Except.ok.inj (hslots.symm.trans hrun'))
    exact hsound'.wellPlaced

theorem chained_of_kept {ks : List Bytes} {tbl : List (List Nat)} (h : Kept mix kind t ks tbl)
    (hclean : t.entry.Clean none) : Chained t := by
  refine ⟨⟨h.owns, hclean⟩, fun b hb hnone => ?_⟩
  obtain ⟨j, hj⟩ := List.mem_iff_getElem?.mp hb
  have hlt : j < tbl.length := by
    rw [← h.shown.length]
    exact (List.getElem?_eq_some_iff.mp hj).1
  obtain ⟨c, ps, hc, -, hshow⟩ := h.shown.bucket_at hlt
  obtain rfl := Option.some.inj (hj.symm.trans hc)
  obtain rfl := hshow.data_eq_none.mp hnone
  rw [show b = ⟨none, []⟩ from hshow]

theorem hashDelete_entry {key : Bytes} {t' : GHashEntries} {r : Option Nat}
    (hrun : hashDelete mix kind t key = .ok (t', r)) :
    ∃ t₁ j q, hashFindEntry mix kind true t (GHash.keyNode kind key) = .ok (t₁, j, q) ∧
      t'.entry = t₁.entry := by
  obtain ⟨⟨t₁, j, q⟩, hfind, hrun⟩ := bind_eq_ok.mp hrun
  refine ⟨t₁, j, q, hfind, ?_⟩
  cases q with
  | none =>
    cases hrun
    rfl
  | some previous =>
    dsimp only at hrun
    cases hb : t₁.bucket[j]? with
    | none =>
      rw [hb] at hrun
      cases hrun
    | some b =>
      rw [hb] at hrun
      obtain ⟨d, -, hrun⟩ := bind_eq_ok.mp hrun
      cases hrun
      split_ifs <;> rfl

theorem hashDelete_clean {ks : List Bytes} {tbl : List (List Nat)} (h : Kept mix kind t ks tbl)
    (hclean : t.entry.Clean none) {key : Bytes} {t' : GHashEntries} {r : Option Nat}
    (hrun : hashDelete mix kind t key = .ok (t', r)) : t'.entry.Clean none := by
  obtain ⟨t₁, j, q, hfind, hentry⟩ := hashDelete_entry hrun
  rw [hentry]
  obtain ⟨b, ps, hb, hps, hshow, hplace⟩ := place h (rfl : GHashTable.keyText kind key = _)
  have hfreed : ∀ e ∈ b.next, (freeEntry t.entry e).Clean none := fun e he =>
    hclean.release h.owns (mem_overflow hb he)
  cases hplace with
  | absent found _ =>
    obtain ⟨rfl, -⟩ := Prod.mk.inj (Except.ok.inj (hfind.symm.trans (found true)))
    exact hclean
  | head _ _ deleted =>
    obtain ⟨t₂, hdel, heq⟩ := bind_eq_ok.mp (deleted.symm.trans hfind)
    obtain ⟨rfl, -⟩ := Prod.mk.inj (Except.ok.inj heq)
    rw [deleteHead] at hdel
    cases hnext : b.next with
    | nil =>
      rw [hnext] at hdel
      cases hdel
      exact hclean
    | cons e es =>
      rw [hnext] at hdel
      obtain ⟨d, -, hdel⟩ := bind_eq_ok.mp hdel
      cases hdel
      exact hfreed e (by simp [hnext])
  | @overflow p q e ps₁ ps₂ es₁ es₂ _ hes _ _ _ deleted =>
    obtain ⟨rfl, -⟩ := Prod.mk.inj (Except.ok.inj (hfind.symm.trans deleted))
    exact hfreed e (by simp [hes])

theorem call_clean {ks : List Bytes} {tbl : List (List Nat)} (h : Kept mix kind t ks tbl)
    (hclean : t.entry.Clean none) {c : Call} {t' : GHashEntries} {r : Option Nat}
    (hrun : call mix kind t c = .ok (t', r)) : t'.entry.Clean none := by
  cases c with
  | insert key newSize =>
    obtain ⟨⟨t₁, new, p⟩, hins, hr⟩ := bind_eq_ok.mp hrun
    obtain ⟨rfl, -⟩ := Prod.mk.inj (Except.ok.inj hr)
    have hagree := @insert_table mix kind _ (chained_of_kept h hclean) (key, newSize)
    rw [hins] at hagree
    obtain ⟨s, -, ⟨hchained, -⟩, -⟩ := hagree.ok_left
    exact hchained.linked.clean
  | delete key => exact hashDelete_clean h hclean hrun

theorem chained_of_run {n : Nat} (hn : 0 < n) {calls : List Call} (hcalls : ∀ c ∈ calls, c.Sized)
    {rs : List (Option Nat)} (hrun : run (call mix kind) (fresh n) calls = .ok (t, rs)) :
    Chained t := by
  have keep : ∀ (_past : List Call) (s : GHashEntries) (c : Call) (s' : GHashEntries)
      (r : Option Nat), (∃ ks tbl, Kept mix kind s ks tbl) ∧ s.entry.Clean none → c.Sized →
      call mix kind s c = .ok (s', r) → (∃ ks tbl, Kept mix kind s' ks tbl) ∧ s'.entry.Clean none := by
    rintro - s c s' r ⟨⟨ks, tbl, hs⟩, hclean⟩ hc hr
    exact ⟨call_kept hc ⟨ks, tbl, hs⟩ hr, call_clean hs hclean hr⟩
  obtain ⟨⟨ks, tbl, h⟩, hclean⟩ :=
    @run_history _ _ _ _ _ (fun _ s => (∃ ks tbl, Kept mix kind s ks tbl) ∧ s.entry.Clean none) _
      keep [] _ _ _ _ ⟨⟨[], _, kept_fresh hn⟩, Heap.clean_nil _ none⟩ hcalls hrun
  exact chained_of_kept h hclean

end GHashEntries

end PathSet
