import PathSet.GHashEntriesInsert
import PathSet.GHashRefines

/-!
Deletion from the chained table. It always takes the right node out, and the counters
follow. What it answers is right when the node was at the head of its bucket. For any
other node the answer is read from an entry that has been freed and cleared.
-/

namespace PathSet
open Fallible Pointer Buckets Recycled

namespace GHashEntries

variable {mix : Bytes → Nat} {kind : GHashKind} {t : GHashEntries} {ks : List Bytes}
variable {tbl : List (List Nat)}

structure Removed (mix : Bytes → Nat) (kind : GHashKind) (t : GHashEntries) (ks : List Bytes)
    (tbl : List (List Nat)) (j p : Nat) (t' : GHashEntries) (tbl' : List (List Nat)) : Prop where
  kept : Kept mix kind t' ks tbl'
  length : tbl'.length = tbl.length
  items : (items tbl).Perm (p :: items tbl')
  nodes : t'.nodes = t.nodes
  entries : t'.nEntries + 1 = t.nEntries
  used : t'.nBucketsUsed + (if tbl'[j]? = some [] then 1 else 0) = t.nBucketsUsed

theorem kept_removed (h : Kept mix kind t ks tbl) {j p : Nat} {ps ps' : List Nat}
    (hps : tbl[j]? = some ps) (hperm : ps.Perm (p :: ps')) {entry : Heap (Option Nat)}
    {bucket : List EntryBucket} (hshown : Shown entry bucket (tbl.set j ps'))
    (howns : entry.Owns (overflow bucket)) :
    Removed mix kind t ks tbl j p ⟨t.nodes, entry, bucket, t.nBuckets,
      if ps' = [] then t.nBucketsUsed - 1 else t.nBucketsUsed, t.nEntries - 1, t.nAllocEntries⟩
      (tbl.set j ps') := by
  have hitems : (items tbl).Perm (p :: items (tbl.set j ps')) := by
    have hset := items_set_append_perm hps ps'
    have hmid : (ps' ++ p :: items (tbl.set j ps')).Perm (ps' ++ items tbl) :=
      List.perm_middle.trans ((hperm.symm.append_right _).trans hset)
    exact ((List.perm_append_left_iff ps').mp hmid).symm
  have hlt : j < tbl.length := (List.getElem?_eq_some_iff.mp hps).1
  have hne : ps ≠ [] := by
    rintro rfl
    exact List.cons_ne_nil _ _ hperm.symm.eq_nil
  have hused := used_set_add hps ps'
  rw [if_neg hne] at hused
  have hlen := hitems.length_eq
  rw [List.length_cons] at hlen
  have hsub : ∀ q ∈ items (tbl.set j ps'), q ∈ items tbl := fun q hq =>
    hitems.mem_iff.mpr (List.mem_cons_of_mem p hq)
  have hentries := h.entries
  have hu := h.used
  refine ⟨⟨hshown, howns, by simpa using h.sized, by simpa using h.pos, ?_, ?_, h.length, h.keeps,
    fun q hq => h.nodes q (hsub q hq), (List.nodup_cons.mp (hitems.nodup_iff.mp h.nodup)).2,
    fun q hq r hr => h.distinct q (hsub q hq) r (hsub r hr), ?_⟩, by simp, hitems, rfl, ?_, ?_⟩
  · show (if ps' = [] then t.nBucketsUsed - 1 else t.nBucketsUsed) = _
    split_ifs at hused ⊢ <;> omega
  · show t.nEntries - 1 = _
    omega
  · rw [List.length_set]
    exact homed_set_of h.homed fun q hq => h.homed j ps hps q
      (hperm.mem_iff.mpr (List.mem_cons_of_mem p hq))
  · show t.nEntries - 1 + 1 = _
    omega
  · show (if ps' = [] then t.nBucketsUsed - 1 else t.nBucketsUsed) + _ = _
    simp only [List.getElem?_set_self hlt, Option.some.injEq]
    split_ifs at hused ⊢ <;> omega

theorem shown_freed {entry : Heap (Option Nat)} {bucket : List EntryBucket}
    {new : List (List Nat)} {e : Nat} (hshown : Shown entry bucket new)
    (howns : entry.Owns (e :: overflow bucket)) :
    Shown (freeEntry entry e) bucket new ∧ (freeEntry entry e).Owns (overflow bucket) := by
  refine ⟨hshown.congr fun x hx => Heap.read_release_ne ?_, howns.release none⟩
  rintro rfl
  exact howns.notMem hx

theorem deleteHead_spec (h : Kept mix kind t ks tbl) {j p : Nat} {ps : List Nat} {b : EntryBucket}
    (hb : t.bucket[j]? = some b) (hps : tbl[j]? = some (p :: ps)) :
    ∃ entry b', deleteHead t j b = .ok { t with bucket := t.bucket.set j b', entry := entry } ∧
      Shown entry (t.bucket.set j b') (tbl.set j ps) ∧
      entry.Owns (overflow (t.bucket.set j b')) ∧ (b'.data = none ↔ ps = []) := by
  obtain ⟨hdata, hnext⟩ := h.shown.shows j b _ hb hps
  obtain ⟨data, next⟩ := b
  cases hnext with
  | nil =>
    have hset : Shows t.entry ⟨none, []⟩ [] := rfl
    exact ⟨t.entry, ⟨none, []⟩, rfl, h.shown.set hset j, h.owns.perm (overflow_same hb none), by simp⟩
  | @cons e q es qs heq hrest =>
    have hset : Shows t.entry ⟨some q, es⟩ (q :: qs) := ⟨rfl, hrest⟩
    have howns := h.owns.perm (overflow_pull hb (some q) (List.Perm.refl _))
    obtain ⟨hshown, howns'⟩ := shown_freed (h.shown.set hset j) howns
    refine ⟨freeEntry t.entry e, ⟨some q, es⟩, ?_, hshown, howns', by simp⟩
    simp only [deleteHead, readEntry_of heq, ok_bind, pure_eq_ok]

theorem erase_middle {es₁ es₂ : List Nat} {e : Nat} (h : (es₁ ++ e :: es₂).Nodup) :
    (es₁ ++ e :: es₂).erase e = es₁ ++ es₂ := by
  have hnot : e ∉ es₁ := fun hin =>
    (List.nodup_cons.mp (List.nodup_middle.mp h)).1 (List.mem_append_left _ hin)
  rw [List.erase_append_right _ hnot, List.erase_cons_head]

theorem hashDelete_spec (h : Kept mix kind t ks tbl) {key text : Bytes}
    (htext : GHashTable.keyText kind key = text) :
    ((∀ p ∈ items tbl, deref ks p ≠ some text) ∧ hashDelete mix kind t key = .ok (t, none)) ∨
      ∃ p t' tbl', deref ks p = some text ∧
        Removed mix kind t ks tbl (mix text % tbl.length) p t' tbl' ∧
        (((∃ b, t.bucket[mix text % tbl.length]? = some b ∧ b.data = some p) ∧
            hashDelete mix kind t key = .ok (t', some p)) ∨
          ((∃ b e, t.bucket[mix text % tbl.length]? = some b ∧ e ∈ b.next ∧
              t.entry.read e = some (some p)) ∧
            hashDelete mix kind t key = .ok (t', none))) := by
  obtain ⟨b, ps, hb, hps, hshow, hplace⟩ := place h htext
  have hlt : mix text % tbl.length < t.bucket.length := (List.getElem?_eq_some_iff.mp hb).1
  cases hplace with
  | absent found hnone =>
    left
    exact ⟨(h.absent_iff hps).mp hnone, by simp only [hashDelete, found, ok_bind, pure_eq_ok]⟩
  | @head p ps hp _ deleted =>
    right
    obtain ⟨entry, b', hrun, hshown, howns, hempty⟩ := deleteHead_spec h hb hps
    refine ⟨p, _, _, hp, kept_removed h hps (List.Perm.refl _) hshown howns,
      Or.inl ⟨⟨b, hb, hshow.1⟩, ?_⟩⟩
    simp only [hashDelete, deleted, hrun, ok_bind, List.getElem?_set_self hlt, hempty]
    split_ifs <;> rfl
  | @overflow p q e ps₁ ps₂ es₁ es₂ hp hes hread hrest _ deleted =>
    right
    have hnodup : b.next.Nodup := by
      have hall : (overflow t.bucket).Nodup := h.owns.nodup.of_append_left
      exact (List.nodup_flatMap.mp hall).1 b (List.mem_of_getElem? hb)
    have herase : b.next.erase e = es₁ ++ es₂ := by
      rw [hes] at hnodup ⊢
      exact erase_middle hnodup
    rw [herase] at deleted
    have hset : Shows t.entry ⟨b.data, es₁ ++ es₂⟩ (q :: (ps₁ ++ ps₂)) := ⟨hshow.1, hrest⟩
    have hpull : b.next.Perm (e :: (es₁ ++ es₂)) := hes ▸ List.perm_middle
    have howns := h.owns.perm (overflow_pull hb b.data hpull)
    obtain ⟨hshown, howns'⟩ := shown_freed (h.shown.set hset _) howns
    have hperm : (q :: (ps₁ ++ p :: ps₂)).Perm (p :: q :: (ps₁ ++ ps₂)) :=
      (List.perm_middle.cons q).trans (List.Perm.swap p q _)
    refine ⟨p, _, _, hp, kept_removed h hps hperm hshown howns',
      Or.inr ⟨⟨b, e, hb, by simp [hes], hread⟩, ?_⟩⟩
    -- the entry has been cleared before it is read
    have hcleared : (freeEntry t.entry e).read e = some none := by
      refine h.owns.read_release ?_
      exact mem_overflow hb (by simp [hes])
    have hnot : b.data ≠ none := by simp [hshow.1]
    simp only [hashDelete, deleted, ok_bind, List.getElem?_set_self hlt, hnot, if_false, readData,
      readEntry_of hcleared, List.cons_ne_nil, pure_eq_ok]

inductive Call where
  | insert (key : Bytes) (newSize : Option Nat)
  | delete (key : Bytes)
  deriving DecidableEq, Repr

def call (mix : Bytes → Nat) (kind : GHashKind) (t : GHashEntries) :
    Call → Outcome (GHashEntries × Option Nat)
  | .insert key newSize => do
      let (t, _, p) ← insert mix kind t (key, newSize)
      pure (t, some p)
  | .delete key => hashDelete mix kind t key

def Call.Sized : Call → Prop
  | .insert _ newSize => ∀ n ∈ newSize, 0 < n
  | .delete _ => True

theorem call_kept {c : Call} (hc : c.Sized) {r : Option Nat} {t' : GHashEntries}
    (h : ∃ ks tbl, Kept mix kind t ks tbl) (hrun : call mix kind t c = .ok (t', r)) :
    ∃ ks tbl, Kept mix kind t' ks tbl := by
  obtain ⟨ks, tbl, h⟩ := h
  cases c with
  | insert key newSize =>
    obtain ⟨⟨t₁, new, p⟩, hins, hr⟩ := bind_eq_ok.mp hrun
    obtain ⟨rfl, -⟩ := Prod.mk.inj (Except.ok.inj hr)
    have hsize : ∀ n ∈ (key, newSize).2, 0 < n := hc
    rcases insert_spec h rfl hsize with ⟨q, -, -, hins'⟩ | ⟨-, ⟨-, he⟩ | ⟨t₂, tbl', hins', hinserted⟩⟩
    · obtain ⟨rfl, -⟩ := Prod.mk.inj (Except.ok.inj (hins.symm.trans hins'))
      exact ⟨ks, tbl, h⟩
    · cases hins.symm.trans he
    · obtain ⟨rfl, -⟩ := Prod.mk.inj (Except.ok.inj (hins.symm.trans hins'))
      exact ⟨_, tbl', hinserted.kept⟩
  | delete key =>
    rcases hashDelete_spec h rfl with ⟨-, hdel⟩ | ⟨p, t₁, tbl', -, hremoved, ⟨-, hdel⟩ | ⟨-, hdel⟩⟩
    · obtain ⟨rfl, -⟩ := Prod.mk.inj (Except.ok.inj (hrun.symm.trans hdel))
      exact ⟨ks, tbl, h⟩
    all_goals
      obtain ⟨rfl, -⟩ := Prod.mk.inj (Except.ok.inj (hrun.symm.trans hdel))
      exact ⟨ks, tbl', hremoved.kept⟩

theorem run_kept {n : Nat} (hn : 0 < n) {calls : List Call} (hcalls : ∀ c ∈ calls, c.Sized)
    {rs : List (Option Nat)} (hrun : run (call mix kind) (fresh n) calls = .ok (t, rs)) :
    ∃ ks tbl, Kept mix kind t ks tbl := by
  have keep : ∀ (_past : List Call) (s : GHashEntries) (c : Call) (s' : GHashEntries)
      (r : Option Nat), (∃ ks tbl, Kept mix kind s ks tbl) → c.Sized →
      call mix kind s c = .ok (s', r) → ∃ ks tbl, Kept mix kind s' ks tbl :=
    fun _ _ _ _ _ hs hc hr => call_kept hc hs hr
  exact @run_history _ _ _ _ _ (fun _ s => ∃ ks tbl, Kept mix kind s ks tbl) _ keep [] _ _ _ _
    ⟨[], _, kept_fresh hn⟩ hcalls hrun

def Matches (kind : GHashKind) (t : GHashEntries) (key : Bytes) (p : Nat) : Prop :=
  ∃ c, t.node (some p) = .ok c ∧ GHash.eq kind (GHash.keyNode kind key) c = true

def bucketOf (mix : Bytes → Nat) (kind : GHashKind) (t : GHashEntries) (key : Bytes) :
    Option EntryBucket :=
  t.bucket[GHashTable.hash mix kind (GHash.keyNode kind key) t.bucket.length]?

structure Takes (mix : Bytes → Nat) (kind : GHashKind) (t t' : GHashEntries) (key : Bytes) (p : Nat) :
    Prop where
  stored : t.stored.Perm (p :: t'.stored)
  nodes : t'.nodes = t.nodes
  entries : t'.nEntries + 1 = t.nEntries
  used : t'.nBucketsUsed + (if bucketOf mix kind t' key = some ⟨none, []⟩ then 1 else 0) =
    t.nBucketsUsed

structure Promised (mix : Bytes → Nat) (kind : GHashKind) (t t' : GHashEntries) (key : Bytes)
    (r : Option Nat) : Prop where
  present : ∀ p ∈ t.stored, Matches kind t key p → r = some p ∧ Takes mix kind t t' key p
  absent : (∀ p ∈ t.stored, ¬Matches kind t key p) → r = none ∧ t' = t
  told : r ≠ none ↔ ∃ p ∈ t.stored, Matches kind t key p

/-- The key is in an overflow entry, not in the head of its bucket. -/
def InOverflow (kind : GHashKind) (t : GHashEntries) (key : Bytes) : Prop :=
  ∃ e ∈ overflow t.bucket, ∃ p, t.entry.read e = some (some p) ∧ Matches kind t key p

theorem matches_iff (h : Kept mix kind t ks tbl) {key : Bytes} {p : Nat} (hp : p ∈ items tbl) :
    Matches kind t key p ↔ deref ks p = some (GHashTable.keyText kind key) := by
  obtain ⟨k, c, hk, hc, hs⟩ := h.node hp
  rw [hk, Option.some.injEq]
  constructor
  · rintro ⟨c', hc', heq⟩
    obtain rfl := Except.ok.inj (hc.symm.trans hc')
    rwa [GHashTable.eq_of_keeps hs, decide_eq_true_eq] at heq
  · rintro rfl
    exact ⟨c, hc, by rw [GHashTable.eq_of_keeps hs, decide_eq_true_eq]⟩

theorem takes_of_removed (h : Kept mix kind t ks tbl) {key : Bytes} {p : Nat} {t' : GHashEntries}
    {tbl' : List (List Nat)}
    (hr : Removed mix kind t ks tbl (mix (GHashTable.keyText kind key) % tbl.length) p t' tbl') :
    Takes mix kind t t' key p := by
  refine ⟨?_, hr.nodes, hr.entries, ?_⟩
  · rw [h.stored_eq, hr.kept.stored_eq]
    exact hr.items
  · have hhash : GHashTable.hash mix kind (GHash.keyNode kind key) t'.bucket.length =
        mix (GHashTable.keyText kind key) % tbl.length := by
      rw [GHashTable.hash_keyNode, hr.kept.shown.length, hr.length]
    have hlt : mix (GHashTable.keyText kind key) % tbl.length < tbl'.length := by
      rw [hr.length]
      exact Nat.mod_lt _ h.pos
    obtain ⟨b, ps, hb, hps, hshow⟩ := hr.kept.shown.bucket_at hlt
    have hempty : b = ⟨none, []⟩ ↔ ps = [] := by
      constructor
      · rintro rfl
        exact hshow.data_eq_none.mp rfl
      · rintro rfl
        exact hshow
    have hused := hr.used
    simp only [bucketOf, hhash, hb, Option.some.injEq, hempty]
    simpa only [hps, Option.some.injEq] using hused

theorem matches_unique (h : Kept mix kind t ks tbl) {key : Bytes} {p q : Nat}
    (hp : p ∈ t.stored) (hq : q ∈ t.stored) (hmp : Matches kind t key p)
    (hmq : Matches kind t key q) : p = q := by
  rw [h.stored_eq] at hp hq
  exact h.distinct p hp q hq _ ((matches_iff h hp).mp hmp) ((matches_iff h hq).mp hmq)

theorem mem_stored_of_next {b : EntryBucket} {e p : Nat} (hb : b ∈ t.bucket) (he : e ∈ b.next)
    (hread : t.entry.read e = some (some p)) : p ∈ nodesOf t.entry b ∧ p ∈ t.stored := by
  have hp : p ∈ nodesOf t.entry b := by
    refine List.reduceOption_mem_iff.mpr (List.mem_cons_of_mem _ (List.mem_map.mpr ⟨e, he, ?_⟩))
    rw [hread]
    rfl
  exact ⟨hp, List.mem_flatMap.mpr ⟨b, hb, hp⟩⟩

theorem promised_absent (h : Kept mix kind t ks tbl) {key : Bytes}
    (hnot : ∀ p ∈ items tbl, deref ks p ≠ some (GHashTable.keyText kind key)) :
    Promised mix kind t t key none ∧ ¬InOverflow kind t key := by
  have habsent : ∀ p ∈ t.stored, ¬Matches kind t key p := by
    intro p hp hm
    rw [h.stored_eq] at hp
    exact hnot p hp ((matches_iff h hp).mp hm)
  refine ⟨⟨fun p hp hm => absurd hm (habsent p hp), fun _ => ⟨rfl, rfl⟩, ?_⟩, ?_⟩
  · simpa using habsent
  · rintro ⟨e, he, p, hread, hm⟩
    obtain ⟨b, hb, heb⟩ := List.mem_flatMap.mp he
    exact habsent p (mem_stored_of_next hb heb hread).2 hm

theorem mem_of_forall₂ {entry : Heap (Option Nat)} {es qs : List Nat} {e p : Nat}
    (h : List.Forall₂ (fun e q => entry.read e = some (some q)) es qs) (he : e ∈ es)
    (hread : entry.read e = some (some p)) : p ∈ qs := by
  induction h with
  | nil => cases he
  | @cons f q es qs hf _ ih =>
    rcases List.mem_cons.mp he with rfl | he
    · rw [hread] at hf
      simp only [Option.some.injEq] at hf
      simp [hf]
    · exact List.mem_cons_of_mem q (ih he)

theorem head_not_overflow (h : Kept mix kind t ks tbl) {key : Bytes} {p j : Nat} {b : EntryBucket}
    (hb : t.bucket[j]? = some b) (hdata : b.data = some p) (hm : Matches kind t key p) :
    ¬InOverflow kind t key := by
  rintro ⟨e, he, q, hread, hmq⟩
  obtain ⟨b', hb', heb⟩ := List.mem_flatMap.mp he
  obtain ⟨i, hi⟩ := List.mem_iff_getElem?.mp hb'
  obtain ⟨-, hq⟩ := mem_stored_of_next hb' heb hread
  have hp : p ∈ t.stored :=
    List.mem_flatMap.mpr ⟨b, List.mem_of_getElem? hb, by simp [nodesOf, hdata, List.reduceOption]⟩
  obtain rfl := matches_unique h hp hq hm hmq
  have hlt : ∀ {m : Nat} {c : EntryBucket}, t.bucket[m]? = some c → m < tbl.length := by
    intro m c hmc
    rw [← h.shown.length]
    exact (List.getElem?_eq_some_iff.mp hmc).1
  obtain ⟨c, ps, hc, hps, hshow⟩ := h.shown.bucket_at (hlt hb)
  obtain rfl := Option.some.inj (hb.symm.trans hc)
  obtain ⟨c', ps', hc', hps', hshow'⟩ := h.shown.bucket_at (hlt hi)
  obtain rfl := Option.some.inj (hi.symm.trans hc')
  cases ps with
  | nil => simp [hshow.data_eq_none.mpr rfl] at hdata
  | cons r ps =>
    obtain rfl : r = p := Option.some.inj (hshow.1.symm.trans hdata)
    cases ps' with
    | nil =>
      rw [show b' = ⟨none, []⟩ from hshow'] at heb
      cases heb
    | cons r' ps' =>
      have hmem := mem_of_forall₂ hshow'.2 heb hread
      -- both buckets are the one of the node's hash
      have hij : i = j := (h.homed i _ hps' r (List.mem_cons_of_mem r' hmem)).symm.trans
        (h.homed j _ hps r (by simp))
      subst hij
      obtain ⟨rfl, rfl⟩ := List.cons.inj (Option.some.inj (hps.symm.trans hps'))
      have hnodup : (r :: ps).Nodup :=
        (List.nodup_flatten.mp h.nodup).1 _ (List.mem_of_getElem? hps)
      exact (List.nodup_cons.mp hnodup).1 hmem

theorem hashDelete_promised (h : Kept mix kind t ks tbl) (key : Bytes) :
    ∃ t' r, hashDelete mix kind t key = .ok (t', r) ∧
      (∀ p ∈ t.stored, Matches kind t key p → Takes mix kind t t' key p) ∧
      ((∀ p ∈ t.stored, ¬Matches kind t key p) → r = none ∧ t' = t) ∧
      (Promised mix kind t t' key r ↔ ¬InOverflow kind t key) := by
  have hfound : ∀ {p t' tbl'}, deref ks p = some (GHashTable.keyText kind key) →
      Removed mix kind t ks tbl (mix (GHashTable.keyText kind key) % tbl.length) p t' tbl' →
      p ∈ t.stored ∧ Matches kind t key p ∧ Takes mix kind t t' key p := by
    intro p t' tbl' hp hr
    have hmem : p ∈ items tbl := hr.items.mem_iff.mpr (by simp)
    exact ⟨h.stored_eq ▸ hmem, (matches_iff h hmem).mpr hp, takes_of_removed h hr⟩
  rcases hashDelete_spec h rfl with
    ⟨hnot, hrun⟩ | ⟨p, t', tbl', hp, hremoved, ⟨⟨b, hb, hdata⟩, hrun⟩ | ⟨⟨b, e, hb, he, hread⟩, hrun⟩⟩
  · obtain ⟨hpromised, hout⟩ := promised_absent h hnot
    exact ⟨t, none, hrun, fun p hp hm => (hpromised.present p hp hm).2, hpromised.absent,
      iff_of_true hpromised hout⟩
  all_goals
    obtain ⟨hmem, hm, htakes⟩ := hfound hp hremoved
    have honly : ∀ q ∈ t.stored, Matches kind t key q → q = p := fun q hq hmq =>
      matches_unique h hq hmem hmq hm
    refine ⟨t', _, hrun, fun q hq hmq => honly q hq hmq ▸ htakes, fun hnot => absurd hm (hnot p hmem), ?_⟩
  · refine iff_of_true ⟨fun q hq hmq => ?_, fun hnot => absurd hm (hnot p hmem), ?_⟩
      (head_not_overflow h hb hdata hm)
    · rw [honly q hq hmq]
      exact ⟨rfl, htakes⟩
    · exact iff_of_true (by simp) ⟨p, hmem, hm⟩
  · refine iff_of_false (fun hpromised => ?_) fun hout => hout
      ⟨e, List.mem_flatMap.mpr ⟨b, List.mem_of_getElem? hb, he⟩, p, hread, hm⟩
    exact absurd (hpromised.present p hmem hm).1 (by simp)

end GHashEntries

open GHashEntries in
/-- In every table that insertions and deletions can make, a deletion takes the node of its
key out, and no other. It is as promised, with its answer, just when the key is not in an
overflow entry. -/
theorem ghash_delete_iff (mix : Bytes → Nat) (kind : GHashKind) {n : Nat} (hn : 0 < n)
    {calls : List Call} (hcalls : ∀ c ∈ calls, c.Sized) {t : GHashEntries} {rs : List (Option Nat)}
    (hrun : run (call mix kind) (GHashEntries.fresh n) calls = .ok (t, rs)) (key : Bytes) :
    ∃ t' r, call mix kind t (.delete key) = .ok (t', r) ∧
      (∀ p ∈ t.stored, Matches kind t key p → Takes mix kind t t' key p) ∧
      ((∀ p ∈ t.stored, ¬Matches kind t key p) → r = none ∧ t' = t) ∧
      (Promised mix kind t t' key r ↔ ¬InOverflow kind t key) := by
  obtain ⟨ks, tbl, h⟩ := run_kept hn hcalls hrun
  exact hashDelete_promised h key

def GHashEntries.twoKeys : GHashEntries :=
  ⟨[⟨0, 0, [97, 0]⟩, ⟨0, 0, [108, 0]⟩], ⟨[some 2], []⟩,
    (List.replicate 11 ⟨none, []⟩).set 4 ⟨some 1, [1]⟩, 11, 1, 2, 1⟩

open GHashEntries in
theorem ghash_delete_head : ∃ t' r,
    call keyMix ⟨true, 16⟩ twoKeys (.delete [97]) = .ok (t', r) ∧
      Promised keyMix ⟨true, 16⟩ twoKeys t' [97] r := by
  have hrun : run (call keyMix ⟨true, 16⟩) (GHashEntries.fresh 11)
      [.insert [97] none, .insert [108] none] = .ok (twoKeys, [some 1, some 2]) := rfl
  have hsized : ∀ c ∈ [Call.insert [97] none, Call.insert [108] none], c.Sized := by
    simp [Call.Sized]
  obtain ⟨t', r, hdel, -, -, hiff⟩ :=
    ghash_delete_iff keyMix ⟨true, 16⟩ (by decide : 0 < 11) hsized hrun [97]
  refine ⟨t', r, hdel, hiff.mpr ?_⟩
  rintro ⟨e, he, p, hread, c, hc, heq⟩
  obtain rfl : e = 1 := by simpa [overflow, twoKeys, List.replicate] using he
  obtain rfl : 2 = p := by simpa [twoKeys, Recycled.Heap.read, deref] using hread
  obtain rfl : (⟨0, 0, [108, 0]⟩ : GHashNode) = c := Except.ok.inj hc
  exact absurd heq (by decide)

open GHashEntries in
/-- The other key is deleted too, and the answer is that it was not there. -/
theorem ghash_delete_overflow :
    run (call keyMix ⟨true, 16⟩) (GHashEntries.fresh 11) [.insert [97] none, .insert [108] none] =
      .ok (twoKeys, [some 1, some 2]) ∧
    ∃ t', call keyMix ⟨true, 16⟩ twoKeys (.delete [108]) = .ok (t', none) ∧
      twoKeys.stored = [1, 2] ∧ t'.stored = [1] ∧ t'.nEntries = 1 ∧
      ¬Promised keyMix ⟨true, 16⟩ twoKeys t' [108] none := by
  refine ⟨rfl, _, rfl, by decide, by decide, rfl, fun hpromised => ?_⟩
  have hmatches : Matches ⟨true, 16⟩ twoKeys [108] 2 := ⟨⟨0, 0, [108, 0]⟩, rfl, by decide⟩
  exact absurd (hpromised.present 2 (by decide) hmatches).1 (by simp)

end PathSet
