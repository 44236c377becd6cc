import PathSet.GHashEntriesMoves

/-!
One insertion into the chained table with its entries: the node that is found, or a new
node in the bucket of its text, with an overflow entry when the bucket has a head.
-/

namespace PathSet
open Fallible Pointer Buckets Recycled

namespace GHashEntries

variable {mix : Bytes → Nat} {kind : GHashKind} {t : GHashEntries} {ks : List Bytes}
variable {tbl : List (List Nat)}

theorem home_concat {p : Nat} {k : Bytes} (hk : deref ks p = some k) (text : Bytes) (size : Nat) :
    GHashTable.home mix (ks ++ [text]) size p = GHashTable.home mix ks size p := by
  rw [GHashTable.home, GHashTable.home, deref_append_left _ hk, hk]

theorem home_last (mix : Bytes → Nat) (ks : List Bytes) (text : Bytes) (size : Nat) :
    GHashTable.home mix (ks ++ [text]) size (ks.length + 1) = mix text % size := by
  rw [GHashTable.home, deref_append, if_pos rfl, Option.getD_some]

theorem kept_concat (h : Kept mix kind t ks tbl) {text : Bytes}
    (hnew : ∀ p ∈ items tbl, deref ks p ≠ some text) {ps : List Nat}
    (hps : tbl[mix text % tbl.length]? = some ps) {entry : Heap (Option Nat)}
    {bucket : List EntryBucket} {c : GHashNode} (hc : GHashTable.Keeps kind c text) (n : Nat)
    (hshown : Shown entry bucket
      (tbl.set (mix text % tbl.length) (chain (ks.length + 1) ps)))
    (howns : entry.Owns (overflow bucket)) :
    Kept mix kind ⟨t.nodes ++ [c], entry, bucket, t.nBuckets,
        if ps = [] then t.nBucketsUsed + 1 else t.nBucketsUsed, t.nEntries + 1, n⟩ (ks ++ [text])
      (tbl.set (mix text % tbl.length) (chain (ks.length + 1) ps)) := by
  have hperm := items_set_perm (a := ks.length + 1) hps
  have hout : ks.length + 1 ∉ items tbl := by
    intro hin
    obtain ⟨k, hk⟩ := h.nodes _ hin
    have := (deref_le_length hk).2
    omega
  refine ⟨hshown, howns, by simpa using h.sized, by simpa using h.pos, ?_, ?_, ?_, ?_, ?_, ?_, ?_, ?_⟩
  · rw [used_set hps, h.used]
    split_ifs <;> rfl
  · rw [hperm.length_eq, List.length_cons, h.entries]
  · rw [List.length_append, List.length_append, h.length]
    rfl
  · exact paired_concat h.keeps h.length hc
  · intro p hp
    rcases List.mem_cons.mp (hperm.mem_iff.mp hp) with rfl | hp
    · exact ⟨text, by rw [deref_append, if_pos rfl]⟩
    · obtain ⟨k, hk⟩ := h.nodes p hp
      exact ⟨k, deref_append_left _ hk⟩
  · exact hperm.nodup_iff.mpr (List.nodup_cons.mpr ⟨hout, h.nodup⟩)
  · -- the text of the new node is in none of the others
    have hother : ∀ p ∈ items tbl, ∀ k, deref (ks ++ [text]) p = some k →
        deref ks p = some k ∧ k ≠ text := by
      intro p hp k hk
      obtain ⟨k', hk'⟩ := h.nodes p hp
      obtain rfl : k' = k := Option.some.inj ((deref_append_left _ hk').symm.trans hk)
      refine ⟨hk', ?_⟩
      rintro rfl
      exact hnew p hp hk'
    have hlast : deref (ks ++ [text]) (ks.length + 1) = some text := by
      rw [deref_append, if_pos rfl]
    intro p hp q hq k hk hk'
    rcases List.mem_cons.mp (hperm.mem_iff.mp hp) with rfl | hp <;>
      rcases List.mem_cons.mp (hperm.mem_iff.mp hq) with rfl | hq
    · rfl
    · exact absurd (Option.some.inj (hk.symm.trans hlast)) (hother q hq k hk').2
    · exact absurd (Option.some.inj (hk'.symm.trans hlast)) (hother p hp k hk).2
    · exact h.distinct p hp q hq k (hother p hp k hk).1 (hother q hq k hk').1
  · rw [List.length_set]
    refine homed_set (homed_congr h.homed fun p hp => ?_) hps (home_last mix ks text tbl.length)
    obtain ⟨k, hk⟩ := h.nodes p hp
    exact home_concat hk text tbl.length

theorem grow_spec (h : Kept mix kind t ks tbl) {key text : Bytes}
    (htext : GHashTable.keyText kind key = text) (hnew : ∀ p ∈ items tbl, deref ks p ≠ some text)
    {newSize : Option Nat} (hsize : ∀ n ∈ newSize, 0 < n) :
    ((∃ n ∈ newSize, ¬n * 16 ≤ sizeMax) ∧
        grow mix kind newSize t (GHash.keyNode kind key) (mix text % tbl.length) = .error .alloc) ∨
      ∃ t' tbl', grow mix kind newSize t (GHash.keyNode kind key) (mix text % tbl.length) =
          .ok (t', mix text % tbl'.length) ∧ Kept mix kind t' ks tbl' ∧
        (items tbl').Perm (items tbl) ∧ t'.nodes = t.nodes ∧ t'.nAllocEntries = t.nAllocEntries ∧
        t.entry.cell.length ≤ t'.entry.cell.length ∧
        (t'.entry.cell.length = t.entry.cell.length ↔
          ∀ n ∈ newSize, FitsGrowth mix t ks tbl n) := by
  cases newSize with
  | none => exact Or.inr ⟨t, tbl, rfl, h, List.Perm.refl _, rfl, rfl, le_refl _, by simp⟩
  | some n =>
    rw [grow]
    rcases hashRehash_spec h (hsize n rfl) with
      ⟨hfit, ha⟩ | ⟨t', tbl', hrun, h', hitems, hnodes, halloc, hle, hiff⟩
    · exact Or.inl ⟨⟨n, rfl, hfit⟩, by rw [ha, error_bind]⟩
    right
    have hnew' : ∀ p ∈ items tbl', deref ks p ≠ some text := fun p hp =>
      hnew p (hitems.mem_iff.mp hp)
    obtain ⟨b, ps, -, hps, -, hplace⟩ := place h' htext
    have habsent := h'.absent_iff hps |>.mpr hnew'
    refine ⟨t', tbl', ?_, h', hitems, hnodes, halloc, hle, by simpa using hiff⟩
    cases hplace with
    | absent found => simp only [hrun, ok_bind, found false, ne_eq, not_true, if_false, pure_eq_ok]
    | head hp => exact absurd hp (habsent _ (by simp))
    | overflow hp => exact absurd hp (habsent _ (by simp))

/-- The memory an insertion asks for can be had. -/
def Granted (kind : GHashKind) (input : Bytes × Option Nat) : Prop :=
  (∀ n ∈ input.2, n * 16 ≤ sizeMax) ∧ poolAllocate kind.nodeSize 8 = .ok () ∧
    poolAllocate (input.1.length + 1) 1 = .ok ()

structure Inserted (mix : Bytes → Nat) (kind : GHashKind) (t : GHashEntries) (ks : List Bytes)
    (tbl : List (List Nat)) (text : Bytes) (newSize : Option Nat) (t' : GHashEntries)
    (tbl' : List (List Nat)) : Prop where
  kept : Kept mix kind t' (ks ++ [text]) tbl'
  items : (items tbl').Perm ((ks.length + 1) :: items tbl)
  le : t.entry.cell.length + t'.nAllocEntries ≤ t'.entry.cell.length + t.nAllocEntries
  counted : t'.entry.cell.length + t.nAllocEntries = t.entry.cell.length + t'.nAllocEntries ↔
    ∀ n ∈ newSize, FitsGrowth mix t ks tbl n

theorem newNode_cases (kind : GHashKind) (t : GHashEntries) (key : Bytes) :
    ((poolAllocate kind.nodeSize 8 ≠ .ok () ∨ poolAllocate (key.length + 1) 1 ≠ .ok ()) ∧
        newNode kind t key = .error .alloc) ∨
      newNode kind t key = .ok ({ t with nodes := t.nodes ++
        [⟨0, if kind.nullTermKey then 0 else key.length, key ++ [0]⟩] }, t.nodes.length + 1) := by
  rcases poolAllocate_cases kind.nodeSize 8 with ⟨ha, -⟩ | ha
  · exact Or.inl ⟨Or.inl (by rw [ha]; simp), by simp only [newNode, ha, error_bind]⟩
  rcases poolAllocate_cases (key.length + 1) 1 with ⟨ha', -⟩ | ha'
  · exact Or.inl ⟨Or.inr (by rw [ha']; simp), by simp only [newNode, ha, ha', ok_bind, error_bind]⟩
  · exact Or.inr (by simp only [newNode, ha, ha', ok_bind, pure_eq_ok])

theorem insert_head (h : Kept mix kind t ks tbl) {text : Bytes}
    (hnew : ∀ p ∈ items tbl, deref ks p ≠ some text) {b : EntryBucket}
    (hb : t.bucket[mix text % tbl.length]? = some b) (hj : tbl[mix text % tbl.length]? = some [])
    {c : GHashNode} (hc : GHashTable.Keeps kind c text) :
    Kept mix kind ({ t with
        nodes := t.nodes ++ [c]
        nEntries := t.nEntries + 1
        nBucketsUsed := t.nBucketsUsed + 1 }.writeData (ks.length + 1)
          (.head (mix text % tbl.length))) (ks ++ [text])
      (tbl.set (mix text % tbl.length) [ks.length + 1]) := by
  have hshow : Shows t.entry b [] := h.shown.shows _ _ _ hb hj
  have hset : Shows t.entry { b with data := some (ks.length + 1) } [ks.length + 1] := by
    obtain rfl : b = ⟨none, []⟩ := hshow
    exact ⟨rfl, .nil⟩
  rw [writeData, modify_bucket hb]
  refine kept_concat h hnew hj hc t.nAllocEntries (h.shown.set hset _) ?_
  exact h.owns.perm (overflow_same hb _)

theorem insert_overflow (h : Kept mix kind t ks tbl) {text : Bytes}
    (hnew : ∀ p ∈ items tbl, deref ks p ≠ some text) {b : EntryBucket} {q : Nat} {ps : List Nat}
    (hb : t.bucket[mix text % tbl.length]? = some b)
    (hj : tbl[mix text % tbl.length]? = some (q :: ps)) {c : GHashNode}
    (hc : GHashTable.Keeps kind c text) {entry : Heap (Option Nat)} {e : Nat}
    (hentry : t.entry.allocate none = (entry, e)) (n : Nat) :
    Kept mix kind ({ t with
        nodes := t.nodes ++ [c]
        entry := entry
        bucket := t.bucket.set (mix text % tbl.length) { b with next := e :: b.next }
        nEntries := t.nEntries + 1
        nAllocEntries := n }.writeData (ks.length + 1) (.overflow e)) (ks ++ [text])
      (tbl.set (mix text % tbl.length) (q :: (ks.length + 1) :: ps)) := by
  have howns : t.entry.Owns (overflow t.bucket ++ []) := by
    rw [List.append_nil]
    exact h.owns
  have ha := howns.allocate none
  rw [hentry] at ha
  obtain ⟨hown, hshown, hread, -⟩ := shown_taken h.shown ha (ks.length + 1)
  have hset : Shows (entry.write (some (ks.length + 1)) e) { b with next := e :: b.next }
      (q :: (ks.length + 1) :: ps) := by
    have hshow := hshown.shows _ b (q :: ps) hb hj
    exact ⟨hshow.1, .cons hread hshow.2⟩
  refine kept_concat h hnew hj hc n (hshown.set hset _) ?_
  rw [List.append_nil] at hown
  exact hown.perm (overflow_push hb b.data e)

theorem insert_spec (h : Kept mix kind t ks tbl) {input : Bytes × Option Nat} {text : Bytes}
    (htext : GHashTable.keyText kind input.1 = text) (hsize : ∀ n ∈ input.2, 0 < n) :
    (∃ p ∈ items tbl, deref ks p = some text ∧ insert mix kind t input = .ok (t, false, p)) ∨
      (∀ p ∈ items tbl, deref ks p ≠ some text) ∧
        ((¬Granted kind input ∧ insert mix kind t input = .error .alloc) ∨
          ∃ t' tbl', insert mix kind t input = .ok (t', true, ks.length + 1) ∧
            Inserted mix kind t ks tbl text input.2 t' tbl') := by
  obtain ⟨key, newSize⟩ := input
  obtain ⟨b, ps, hb, hps, hshow, hplace⟩ := place h htext
  have hmem : ∀ p ∈ ps, p ∈ items tbl := fun p hp =>
    List.mem_flatten.mpr ⟨ps, List.mem_of_getElem? hps, hp⟩
  cases hplace with
  | @head p ps hp found =>
    left
    refine ⟨p, hmem p (by simp), hp, ?_⟩
    simp only [insert, hashInsert, found, ok_bind, pure_eq_ok, Bool.false_eq_true, if_false,
      readData, hb, hshow.1, Option.getD_some]
  | @overflow p q e ps₁ ps₂ es₁ es₂ hp hes hread hrest found =>
    left
    refine ⟨p, hmem p (by simp), hp, ?_⟩
    simp only [insert, hashInsert, found, ok_bind, pure_eq_ok, Bool.false_eq_true, if_false,
      readData, readEntry_of hread, Option.getD_some]
  | absent found hnone =>
    right
    have hnew := (h.absent_iff hps).mp hnone
    refine ⟨hnew, ?_⟩
    simp only [insert, hashInsert, found, ok_bind]
    rcases grow_spec h htext hnew hsize with
      ⟨⟨n, hn, hfit⟩, ha⟩ | ⟨t₁, tbl₁, hgrow, h₁, hitems, hnodes, halloc, hle, hiff⟩
    · left
      exact ⟨fun hg => hfit (hg.1 n hn), by rw [ha, error_bind, error_bind]⟩
    have hnew₁ : ∀ p ∈ items tbl₁, deref ks p ≠ some text := fun p hp =>
      hnew p (hitems.mem_iff.mp hp)
    obtain ⟨b₁, ps₁, hb₁, hps₁, hshow₁⟩ := h₁.shown.bucket_at (Nat.mod_lt (mix text) h₁.pos)
    have hc : GHashTable.Keeps kind
        ⟨0, if kind.nullTermKey then 0 else key.length, key ++ [0]⟩ text :=
      ⟨key, ⟨rfl, rfl⟩, htext⟩
    have hnum : t₁.nodes.length + 1 = ks.length + 1 := by rw [h₁.length]
    simp only [hgrow, ok_bind, hb₁]
    cases ps₁ with
    | nil =>
      have hempty : b₁.data = none := hshow₁.data_eq_none.mpr rfl
      simp only [hempty, if_true, pure_eq_ok, ok_bind]
      rcases newNode_cases kind
          { t₁ with nEntries := t₁.nEntries + 1, nBucketsUsed := t₁.nBucketsUsed + 1 } key with
        ⟨hno, ha⟩ | hrun
      · left
        refine ⟨fun hg => ?_, by rw [ha, error_bind]⟩
        exact hno.elim (fun h => h hg.2.1) fun h => h hg.2.2
      · right
        rw [hrun, ok_bind, hnum]
        refine ⟨_, _, rfl, insert_head h₁ hnew₁ hb₁ hps₁ hc,
          (items_set_perm hps₁).trans (hitems.cons _), ?_, ?_⟩
        · show t.entry.cell.length + t₁.nAllocEntries ≤ t₁.entry.cell.length + t.nAllocEntries
          omega
        · show t₁.entry.cell.length + t.nAllocEntries = t.entry.cell.length + t₁.nAllocEntries ↔ _
          rw [← hiff]
          omega
    | cons q ps₁ =>
      have hnot : b₁.data ≠ none := fun hnone =>
        List.cons_ne_nil q ps₁ (hshow₁.data_eq_none.mp hnone)
      rcases hentry : t₁.entry.allocate none with ⟨entry, e⟩
      have hcells : entry.cell.length =
          t₁.entry.cell.length + if t₁.entry.free = [] then 1 else 0 := by
        have ha := (h₁.owns.allocate none).length
        rwa [hentry] at ha
      simp only [hnot, if_false, if_true, allocateEntry, hentry, pure_eq_ok, ok_bind]
      rcases newNode_cases kind { t₁ with
          entry := entry
          bucket := t₁.bucket.set (mix text % tbl₁.length) { b₁ with next := e :: b₁.next }
          nEntries := t₁.nEntries + 1
          nAllocEntries := if t₁.entry.free = [] then t₁.nAllocEntries + 1 else t₁.nAllocEntries }
          key with ⟨hno, ha⟩ | hrun
      · left
        refine ⟨fun hg => ?_, by rw [ha, error_bind]⟩
        exact hno.elim (fun h => h hg.2.1) fun h => h hg.2.2
      · right
        rw [hrun, ok_bind, hnum]
        refine ⟨_, _, rfl, insert_overflow h₁ hnew₁ hb₁ hps₁ hc hentry _,
          (items_set_perm hps₁).trans (hitems.cons _), ?_, ?_⟩
        · simp only [writeData, Heap.write_length]
          split_ifs at hcells ⊢ <;> omega
        · rw [← hiff]
          simp only [writeData, Heap.write_length]
          split_ifs at hcells ⊢ <;> omega

end GHashEntries

end PathSet
