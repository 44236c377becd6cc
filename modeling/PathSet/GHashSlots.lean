import PathSet.GHashTable

/-!
Every insertion leaves the chained table sound, whatever sizes it grows to: each entry
is in the bucket of its hash, no slot is without data, and the counters are right. The
slot handed out for a new entry is the only one that is empty for a while.
-/

namespace PathSet
open Fallible Pointer Buckets

namespace GHashTable

variable {mix : Bytes → Nat} {kind : GHashKind}

def keyText (kind : GHashKind) (key : Bytes) : Bytes :=
  if kind.nullTermKey then key.takeWhile (· ≠ 0) else key

structure MadeOf (kind : GHashKind) (c : GHashNode) (key : Bytes) : Prop where
  str : c.str = key ++ [0]
  len : c.len = if kind.nullTermKey then 0 else key.length

theorem takeWhile_made {c : GHashNode} {key : Bytes} (h : MadeOf kind c key) :
    c.str.takeWhile (· ≠ 0) = key.takeWhile (· ≠ 0) := by
  rw [h.str, List.takeWhile_append]
  split_ifs with hall
  · rw [(List.takeWhile_prefix _).eq_of_length hall, List.takeWhile_cons_of_neg (by simp),
      List.append_nil]
  · rfl

theorem keyLength_keyNode (kind : GHashKind) (key : Bytes) :
    GHash.keyLength kind (GHash.keyNode kind key) = (keyText kind key).length := by
  rw [GHash.keyLength, GHash.keyNode, keyText]
  split_ifs <;> rfl

theorem keyLength_made {c : GHashNode} {key : Bytes} (h : MadeOf kind c key) :
    GHash.keyLength kind c = (keyText kind key).length := by
  rw [GHash.keyLength, h.len, keyText]
  split_ifs
  · rw [LHash.strlen, takeWhile_made h]
  · rfl

theorem keyText_begins (kind : GHashKind) (key : Bytes) : keyText kind key <+: key := by
  rw [keyText]
  split_ifs
  · exact List.takeWhile_prefix _
  · exact List.prefix_refl key

theorem hash_keyNode (mix : Bytes → Nat) (kind : GHashKind) (key : Bytes) (n : Nat) :
    hash mix kind (GHash.keyNode kind key) n = mix (keyText kind key) % n := by
  rw [hash, keyLength_keyNode, GHash.keyNode,
    ← List.prefix_iff_eq_take.mp (keyText_begins kind key)]

theorem hash_of_made {c : GHashNode} {key : Bytes} (h : MadeOf kind c key) (n : Nat) :
    hash mix kind c n = hash mix kind (GHash.keyNode kind key) n := by
  rw [hash_keyNode, hash, keyLength_made h, h.str,
    List.take_append_of_le_length (keyText_begins kind key).length_le,
    ← List.prefix_iff_eq_take.mp (keyText_begins kind key)]

theorem eq_congr {c c' : GHashNode} (hnull : kind.nullTermKey = true →
      c.str.takeWhile (· ≠ 0) = c'.str.takeWhile (· ≠ 0))
    (hlen : kind.nullTermKey = false → c.len = c'.len ∧ c.str.take c.len = c'.str.take c'.len)
    (d : GHashNode) : GHash.eq kind c d = GHash.eq kind c' d := by
  rw [GHash.eq, GHash.eq]
  cases hk : kind.nullTermKey with
  | true => simp only [hnull hk, if_true]
  | false =>
    obtain ⟨hl, ht⟩ := hlen hk
    rw [hl] at ht
    simp only [hl, ht, Bool.false_eq_true, if_false]

theorem eq_of_made {c : GHashNode} {key : Bytes} (h : MadeOf kind c key) (d : GHashNode) :
    GHash.eq kind c d = GHash.eq kind (GHash.keyNode kind key) d := by
  refine eq_congr (fun _ => takeWhile_made h) (fun hnull => ?_) d
  simp [h.str, h.len, GHash.keyNode, hnull]

theorem eq_keyNode {c : GHashNode} {k : Bytes} (h : MadeOf kind c k) (key : Bytes) :
    GHash.eq kind (GHash.keyNode kind key) c = decide (keyText kind k = keyText kind key) := by
  simp only [GHash.eq, keyText]
  split_ifs with hnull
  · rw [takeWhile_made h, GHash.keyNode, decide_eq_decide]
    exact eq_comm
  · simp only [GHash.keyNode, h.len, h.str, hnull, Bool.false_eq_true, if_false, decide_eq_decide]
    constructor
    · rintro ⟨hl, ht⟩
      rw [List.take_length, hl, List.take_left] at ht
      exact ht.symm
    · intro hk
      subst hk
      simp

theorem eq_keyNode_congr {key key' : Bytes} (h : keyText kind key = keyText kind key')
    (d : GHashNode) :
    GHash.eq kind (GHash.keyNode kind key) d = GHash.eq kind (GHash.keyNode kind key') d := by
  rw [keyText, keyText] at h
  refine eq_congr (fun hnull => ?_) (fun hnull => ?_) d
  · rwa [if_pos hnull, if_pos hnull] at h
  · rw [hnull] at h
    obtain rfl : key = key' := h
    exact ⟨rfl, rfl⟩

def Keeps (kind : GHashKind) (c : GHashNode) (text : Bytes) : Prop :=
  ∃ key, MadeOf kind c key ∧ keyText kind key = text

theorem hash_of_keeps {c : GHashNode} {text : Bytes} (h : Keeps kind c text) (n : Nat) :
    hash mix kind c n = mix text % n := by
  obtain ⟨key, hc, rfl⟩ := h
  rw [hash_of_made hc, hash_keyNode]

theorem eq_of_keeps {c : GHashNode} {text : Bytes} (h : Keeps kind c text) (key : Bytes) :
    GHash.eq kind (GHash.keyNode kind key) c = decide (text = keyText kind key) := by
  obtain ⟨k, hc, rfl⟩ := h
  exact eq_keyNode hc key

def ofList : List Nat → HashBucket
  | [] => ⟨none, []⟩
  | p :: ps => ⟨some p, ps.map some⟩

def home (mix : Bytes → Nat) (ks : List Bytes) (size p : Nat) : Nat :=
  mix ((deref ks p).getD []) % size

structure Sound (mix : Bytes → Nat) (kind : GHashKind) (t : GHashTable) (ks : List Bytes)
    (tbl : List (List Nat)) : Prop where
  bucket : t.bucket = tbl.map ofList
  sized : tbl.length = t.nBuckets
  pos : 0 < tbl.length
  used : t.nBucketsUsed = used tbl
  entries : t.nEntries = ks.length
  length : t.nodes.length = ks.length
  keeps : ∀ p k, deref ks p = some k → ∃ c, deref t.nodes p = some c ∧ Keeps kind c k
  nodup : ks.Nodup
  slots : (items tbl).Perm (List.range' 1 ks.length)
  homed : Homed (home mix ks tbl.length) tbl

theorem sound_fresh {n : Nat} (hn : 0 < n) :
    Sound mix kind (fresh n) [] (List.replicate n []) := by
  refine ⟨?_, by simp [fresh], by simpa using hn, (used_replicate n).symm, rfl, rfl, by simp,
    List.nodup_nil, ?_, homed_replicate _ n⟩
  · rw [List.map_replicate]
    rfl
  · simp [items_replicate]

section
variable {t : GHashTable} {ks : List Bytes} {tbl : List (List Nat)}

theorem Sound.mem_items (h : Sound mix kind t ks tbl) {p : Nat} :
    p ∈ items tbl ↔ ∃ k, deref ks p = some k := by
  rw [h.slots.mem_iff, List.mem_range'_1, ← Option.isSome_iff_exists, deref_isSome]
  omega

theorem Sound.node (h : Sound mix kind t ks tbl) {p : Nat} (hp : p ∈ items tbl) :
    ∃ k c, deref ks p = some k ∧ t.node (some p) = .ok c ∧ Keeps kind c k := by
  obtain ⟨k, hk⟩ := h.mem_items.mp hp
  obtain ⟨c, hc, hs⟩ := h.keeps p k hk
  exact ⟨k, c, hk, by simp [GHashTable.node, hc], hs⟩

theorem safeHasher_spec {c : GHashNode} {j : Nat} {bs : List (List Nat)}
    (hj : hash mix kind c bs.length = j) (hlt : j < bs.length) :
    ∃ ps, bs[j]? = some ps ∧ safeHasher mix kind (bs.map ofList) c = .ok (j, ofList ps) := by
  obtain ⟨ps, hps⟩ : ∃ ps, bs[j]? = some ps := ⟨_, List.getElem?_eq_getElem hlt⟩
  refine ⟨ps, hps, ?_⟩
  simp only [safeHasher, List.length_map, hj, List.getElem?_map, hps, Option.map_some]

theorem scanNext_spec (h : Sound mix kind t ks tbl) {key text : Bytes}
    (htext : keyText kind key = text) (j : Nat) {ps : List Nat} (hps : ∀ p ∈ ps, p ∈ items tbl) (i : Nat) :
    (∃ n p, scanNext kind t (GHash.keyNode kind key) j i (ps.map some) =
        .ok (some (.overflow j (i + n))) ∧ ps[n]? = some p ∧ deref ks p = some text) ∨
      (scanNext kind t (GHash.keyNode kind key) j i (ps.map some) = .ok none ∧
        ∀ p ∈ ps, deref ks p ≠ some text) := by
  induction ps generalizing i with
  | nil => exact Or.inr ⟨rfl, by simp⟩
  | cons p ps ih =>
    obtain ⟨k, c, hk, hc, hs⟩ := h.node (hps p (by simp))
    rw [List.map_cons, scanNext, hc, ok_bind, eq_of_keeps hs key, htext]
    by_cases hkk : k = text
    · subst hkk
      rw [if_pos (by simp)]
      exact Or.inl ⟨0, p, rfl, rfl, hk⟩
    · rw [if_neg (by simpa using hkk)]
      rcases ih (fun q hq => hps q (by simp [hq])) (i + 1) with ⟨n, q, hrun, hq, hkq⟩ | ⟨hrun, hnot⟩
      · exact Or.inl ⟨n + 1, q, by rw [hrun, Nat.add_right_comm]; rfl, hq, hkq⟩
      · refine Or.inr ⟨hrun, fun q hq => ?_⟩
        rcases List.mem_cons.mp hq with rfl | hq
        · rw [hk]
          simpa using hkk
        · exact hnot q hq

theorem hashFindEntry_spec (h : Sound mix kind t ks tbl) {key text : Bytes}
    (htext : keyText kind key = text) :
    (∃ slot p, hashFindEntry mix kind t (GHash.keyNode kind key) =
        .ok (mix text % tbl.length, some slot) ∧ t.readSlot slot = .ok (some p) ∧
        deref ks p = some text) ∨
      (hashFindEntry mix kind t (GHash.keyNode kind key) = .ok (mix text % tbl.length, none) ∧
        text ∉ ks) := by
  have hhash : hash mix kind (GHash.keyNode kind key) tbl.length = mix text % tbl.length := by
    rw [hash_keyNode, htext]
  obtain ⟨ps, hps, hsafe⟩ := safeHasher_spec hhash (Nat.mod_lt _ h.pos)
  have hmem : ∀ p ∈ ps, p ∈ items tbl := fun p hp =>
    List.mem_flatten.mpr ⟨ps, List.mem_of_getElem? hps, hp⟩
  -- a key of the table is in its own bucket
  have hnot : (∀ p ∈ ps, deref ks p ≠ some text) → text ∉ ks := by
    intro hall hin
    obtain ⟨p, hp⟩ := exists_deref hin
    obtain ⟨qs, hqs, hpq⟩ := mem_home h.homed (h.mem_items.mpr ⟨text, hp⟩)
    rw [home, hp, Option.getD_some, hps] at hqs
    exact hall p (Option.some.inj hqs ▸ hpq) hp
  rw [hashFindEntry, h.bucket, hsafe, ok_bind]
  cases ps with
  | nil => exact Or.inr ⟨rfl, hnot (by simp)⟩
  | cons p ps =>
    obtain ⟨k, c, hk, hc, hs⟩ := h.node (hmem p (by simp))
    have hbucket : t.bucket[mix text % tbl.length]? = some (ofList (p :: ps)) := by
      rw [h.bucket, List.getElem?_map, hps]
      rfl
    simp only [ofList, reduceCtorEq, if_false, hc, ok_bind, eq_of_keeps hs key, htext,
      decide_eq_true_eq]
    by_cases hkk : k = text
    · subst hkk
      rw [if_pos rfl]
      refine Or.inl ⟨.head (mix k % tbl.length), p, rfl, ?_, hk⟩
      simp only [readSlot, hbucket]
      rfl
    · rw [if_neg hkk]
      have hrest : ∀ q ∈ ps, q ∈ items tbl := fun q hq => hmem q (List.mem_cons_of_mem p hq)
      rcases scanNext_spec h htext (mix text % tbl.length) hrest 0 with
        ⟨n, q, hrun, hq, hkq⟩ | ⟨hrun, hall⟩
      · refine Or.inl ⟨.overflow (mix text % tbl.length) (0 + n), q, by rw [hrun]; rfl, ?_, hkq⟩
        simp only [readSlot, hbucket, Option.bind_some, ofList, Nat.zero_add, List.getElem?_map, hq,
          Option.map_some]
      · refine Or.inr ⟨by rw [hrun]; rfl, hnot fun q hq => ?_⟩
        rcases List.mem_cons.mp hq with rfl | hq
        · rw [hk]
          simpa using hkk
        · exact hall q hq

structure Placed (mix : Bytes → Nat) (ks : List Bytes) (dst : Dest) (tbl : List (List Nat)) :
    Prop where
  bucket : dst.bucket = tbl.map ofList
  pos : 0 < tbl.length
  used : dst.nBucketsUsed = used tbl
  homed : Homed (home mix ks tbl.length) tbl

def Moved (mix : Bytes → Nat) (ks : List Bytes) (tbl : List (List Nat)) (ps : List Nat)
    (r : Outcome Dest) : Prop :=
  ∃ dst tbl', r = .ok dst ∧ Placed mix ks dst tbl' ∧ tbl'.length = tbl.length ∧
    (items tbl').Perm (ps ++ items tbl)

theorem placed_set {dst : Dest} {new : List (List Nat)} (hd : Placed mix ks dst new) {p j : Nat}
    {ps : List Nat} (hj : new[j]? = some ps) (hp : home mix ks new.length p = j) (free : Nat) :
    Placed mix ks ⟨(new.set j (chain p ps)).map ofList,
      if ps = [] then dst.nBucketsUsed + 1 else dst.nBucketsUsed, free⟩ (new.set j (chain p ps)) := by
  refine ⟨rfl, by simpa using hd.pos, ?_, ?_⟩
  · simp only [used_set hj, hd.used]
    split_ifs <;> rfl
  · simp only [List.length_set]
    exact homed_set hd.homed hj hp

theorem moved_bucket (h : Sound mix kind t ks tbl) {dst : Dest} {new : List (List Nat)}
    (hd : Placed mix ks dst new) {p : Nat} (hp : p ∈ items tbl) :
    ∃ c j ps, t.node (some p) = .ok c ∧ safeHasher mix kind dst.bucket c = .ok (j, ofList ps) ∧
      new[j]? = some ps ∧ home mix ks new.length p = j := by
  obtain ⟨k, c, hk, hc, hs⟩ := h.node hp
  have hhash : hash mix kind c new.length = mix k % new.length :=
    hash_of_keeps hs _
  obtain ⟨ps, hps, hsafe⟩ := safeHasher_spec hhash (Nat.mod_lt _ hd.pos)
  refine ⟨c, _, ps, hc, hd.bucket ▸ hsafe, hps, ?_⟩
  rw [home, hk, Option.getD_some]

theorem moveOverflow_spec (h : Sound mix kind t ks tbl) {dst : Dest} {new : List (List Nat)}
    (hd : Placed mix ks dst new) {p : Nat} (hp : p ∈ items tbl) :
    Moved mix ks new [p] (moveOverflow mix kind t dst (some p)) := by
  obtain ⟨c, j, ps, hc, hsafe, hps, hhome⟩ := moved_bucket h hd hp
  rw [moveOverflow, hc, ok_bind, hsafe, ok_bind]
  cases ps with
  | nil =>
    refine ⟨_, _, rfl, ?_, by simp, items_set_perm hps⟩
    have hplaced := placed_set hd hps hhome (dst.freeEntries + 1)
    rw [hd.bucket, List.map_set] at *
    exact hplaced
  | cons q ps =>
    refine ⟨_, _, rfl, ?_, by simp, items_set_perm hps⟩
    have hplaced := placed_set hd hps hhome dst.freeEntries
    rw [hd.bucket, List.map_set] at *
    exact hplaced

theorem moveHead_spec (h : Sound mix kind t ks tbl) {dst : Dest} {new : List (List Nat)}
    (hd : Placed mix ks dst new) {p : Nat} (hp : p ∈ items tbl) :
    Moved mix ks new [p] (moveHead mix kind t dst (some p)) := by
  obtain ⟨c, j, ps, hc, hsafe, hps, hhome⟩ := moved_bucket h hd hp
  rw [moveHead, hc, ok_bind, hsafe, ok_bind]
  cases ps with
  | nil =>
    refine ⟨_, _, rfl, ?_, by simp, items_set_perm hps⟩
    have hplaced := placed_set hd hps hhome dst.freeEntries
    rw [hd.bucket, List.map_set] at *
    exact hplaced
  | cons q ps =>
    refine ⟨_, _, rfl, ?_, by simp, items_set_perm hps⟩
    have hplaced := placed_set hd hps hhome (dst.freeEntries - 1)
    rw [hd.bucket, List.map_set] at *
    exact hplaced

theorem Moved.bind {new : List (List Nat)} {ps qs : List Nat} {r : Outcome Dest}
    {f : Dest → Outcome Dest} (hr : Moved mix ks new ps r)
    (hf : ∀ dst tbl', Placed mix ks dst tbl' → Moved mix ks tbl' qs (f dst)) :
    Moved mix ks new (ps ++ qs) (r >>= f) := by
  obtain ⟨dst, tbl₁, rfl, hd, hlen, hperm⟩ := hr
  obtain ⟨dst', tbl₂, hrun, hd', hlen', hperm'⟩ := hf dst tbl₁ hd
  refine ⟨dst', tbl₂, hrun, hd', hlen'.trans hlen, hperm'.trans ((hperm.append_left qs).trans ?_)⟩
  rw [← List.append_assoc]
  exact List.perm_append_comm.append_right _

theorem transferOverflow_spec (h : Sound mix kind t ks tbl) {dst : Dest} {new : List (List Nat)}
    (hd : Placed mix ks dst new) {ps : List Nat} (hps : ∀ p ∈ ps, p ∈ items tbl) :
    Moved mix ks new ps (transferOverflow mix kind t dst (ps.map some)) := by
  induction ps generalizing dst new with
  | nil => exact ⟨dst, new, rfl, hd, rfl, List.Perm.refl _⟩
  | cons p ps ih =>
    have hmove := moveOverflow_spec h hd (hps p (by simp))
    exact hmove.bind fun mid tbl' hmid => ih hmid fun q hq => hps q (by simp [hq])

theorem transferEntries_spec (h : Sound mix kind t ks tbl) {dst : Dest} {new : List (List Nat)}
    (hd : Placed mix ks dst new) {bs : List (List Nat)} (hbs : ∀ p ∈ items bs, p ∈ items tbl) :
    ∃ dst' tbl', transferEntries mix kind t dst (bs.map ofList) = .ok dst' ∧
      Placed mix ks dst' tbl' ∧ tbl'.length = new.length ∧
      (items tbl').Perm (items bs ++ items new) := by
  induction bs generalizing dst new with
  | nil => exact ⟨dst, new, rfl, hd, rfl, List.Perm.refl _⟩
  | cons b bs ih =>
    have hrest : ∀ p ∈ items bs, p ∈ items tbl := fun p hp =>
      hbs p (by simp only [items, List.flatten_cons, List.mem_append] at hp ⊢; exact Or.inr hp)
    cases b with
    | nil => exact ih hd hrest
    | cons p ps =>
      have hmem : ∀ q ∈ p :: ps, q ∈ items tbl := fun q hq =>
        hbs q (by simp only [items, List.flatten_cons, List.mem_append]; exact Or.inl hq)
      have hover := transferOverflow_spec h hd fun q hq => hmem q (List.mem_cons_of_mem p hq)
      obtain ⟨top, tbl₁, htop, hd₁, hlen₁, hperm₁⟩ :=
        hover.bind fun mid tbl' hmid => moveHead_spec h hmid (hmem p (by simp))
      obtain ⟨dst', tbl₂, hend, hd₂, hlen₂, hperm₂⟩ := ih hd₁ hrest
      refine ⟨dst', tbl₂, ?_, hd₂, hlen₂.trans hlen₁, hperm₂.trans ((hperm₁.append_left _).trans ?_)⟩
      · rw [List.map_cons, transferEntries, if_neg (by simp [ofList])]
        obtain ⟨mid, hmid, hhead⟩ := bind_eq_ok.mp htop
        show (transferOverflow mix kind t dst (ps.map some) >>= _) = _
        rw [hmid, ok_bind]
        show (moveHead mix kind t mid (some p) >>= _) = _
        rw [hhead, ok_bind, hend]
      · rw [show items ((p :: ps) :: bs) = (p :: ps) ++ items bs from rfl, ← List.append_assoc]
        refine List.Perm.append_right _ (List.perm_append_comm.trans ?_)
        exact (List.perm_append_singleton p ps).append_right _

theorem hashRehash_spec (h : Sound mix kind t ks tbl) {n : Nat} (hn : 0 < n) :
    hashRehash mix kind t n = .error .alloc ∨
      ∃ t' tbl', hashRehash mix kind t n = .ok t' ∧ Sound mix kind t' ks tbl' ∧
        t'.nodes = t.nodes := by
  rw [hashRehash, if_neg hn.ne']
  split_ifs with hsame
  · exact Or.inr ⟨t, tbl, rfl, h, rfl⟩
  rcases calloc_cases n 16 (⟨none, []⟩ : HashBucket) with ⟨ha, -⟩ | ⟨ha, -⟩
  · left
    rw [ha, error_bind]
  · have hplaced : Placed mix ks ⟨List.replicate n ⟨none, []⟩, 0, t.freeEntries⟩
        (List.replicate n []) :=
      ⟨by rw [List.map_replicate]; rfl, by simpa using hn, (used_replicate n).symm,
        homed_replicate _ n⟩
    obtain ⟨dst, tbl', hrun, hd, hlen, hperm⟩ := transferEntries_spec h hplaced
      (fun p hp => hp : ∀ p ∈ items tbl, p ∈ items tbl)
    rw [List.length_replicate] at hlen
    rw [items_replicate, List.append_nil] at hperm
    rw [← h.bucket] at hrun
    right
    refine ⟨{ t with
      bucket := dst.bucket
      nBuckets := n
      nBucketsUsed := dst.nBucketsUsed
      freeEntries := dst.freeEntries }, tbl', ?_,
      ⟨hd.bucket, hlen, hd.pos, hd.used, h.entries, h.length, h.keeps, h.nodup,
        hperm.trans h.slots, hd.homed⟩, rfl⟩
    rw [ha, ok_bind, hrun]
    rfl

theorem grow_spec (h : Sound mix kind t ks tbl) {key text : Bytes} (htext : keyText kind key = text)
    (hnew : text ∉ ks) {newSize : Option Nat} (hsize : ∀ n ∈ newSize, 0 < n) :
    grow mix kind newSize t (GHash.keyNode kind key) (mix text % tbl.length) = .error .alloc ∨
      ∃ t' tbl', grow mix kind newSize t (GHash.keyNode kind key) (mix text % tbl.length) =
        .ok (t', mix text % tbl'.length) ∧ Sound mix kind t' ks tbl' ∧ t'.nodes = t.nodes := by
  cases newSize with
  | none => exact Or.inr ⟨t, tbl, rfl, h, rfl⟩
  | some n =>
    rw [grow]
    rcases hashRehash_spec h (hsize n rfl) with ha | ⟨t', tbl', hrun, h', hnodes⟩
    · left
      rw [ha, error_bind]
    · right
      rcases hashFindEntry_spec h' htext with ⟨slot, p, -, -, hp⟩ | ⟨hfind, -⟩
      · exact absurd (mem_of_deref hp) hnew
      · refine ⟨t', tbl', ?_, h', hnodes⟩
        rw [hrun, ok_bind, hfind]
        rfl

theorem sound_append (h : Sound mix kind t ks tbl) {text : Bytes} (hnew : text ∉ ks) {ps : List Nat}
    (hps : tbl[mix text % tbl.length]? = some ps) {c : GHashNode} (hc : Keeps kind c text)
    {t' : GHashTable}
    (hbucket : t'.bucket =
      (tbl.set (mix text % tbl.length) (chain (ks.length + 1) ps)).map ofList)
    (hsize : t'.nBuckets = t.nBuckets)
    (hused : t'.nBucketsUsed = t.nBucketsUsed + if ps = [] then 1 else 0)
    (hentries : t'.nEntries = t.nEntries + 1) (hnodes : t'.nodes = t.nodes ++ [c]) :
    Sound mix kind t' (ks ++ [text])
      (tbl.set (mix text % tbl.length) (chain (ks.length + 1) ps)) := by
  have hsame : ∀ p ∈ items tbl, home mix (ks ++ [text]) tbl.length p = home mix ks tbl.length p := by
    intro p hp
    obtain ⟨k, hk⟩ := h.mem_items.mp hp
    rw [home, home, deref_append_left _ hk, hk]
  refine ⟨hbucket, by rw [List.length_set, h.sized, hsize], by simpa using h.pos, ?_, ?_, ?_, ?_, ?_,
    ?_, ?_⟩
  · rw [hused, used_set hps, h.used]
  · rw [hentries, h.entries, List.length_append, List.length_singleton]
  · rw [hnodes, List.length_append, List.length_append, h.length]
    rfl
  · rw [hnodes]
    exact paired_concat h.keeps h.length hc
  · exact nodup_concat h.nodup hnew
  · exact (items_set_perm hps).trans (pointers_concat h.slots text)
  · rw [List.length_set]
    refine homed_set (homed_congr h.homed hsame) hps ?_
    rw [home, deref_append, if_pos rfl, Option.getD_some]

structure Handed (mix : Bytes → Nat) (kind : GHashKind) (t : GHashTable) (slot : Slot)
    (ks : List Bytes) (text : Bytes) : Prop where
  length : t.nodes.length = ks.length
  empty : t.readSlot slot = .ok none
  filled : ∀ c, Keeps kind c text →
    ∃ tbl, Sound mix kind
        (({ t with nodes := t.nodes ++ [c] } : GHashTable).writeSlot (ks.length + 1) slot)
        (ks ++ [text]) tbl ∧
      (({ t with nodes := t.nodes ++ [c] } : GHashTable).writeSlot (ks.length + 1) slot).readSlot slot =
        .ok (some (ks.length + 1))

theorem hashInsert_spec (h : Sound mix kind t ks tbl) {key text : Bytes}
    (htext : keyText kind key = text) {newSize : Option Nat} (hsize : ∀ n ∈ newSize, 0 < n) :
    (∃ slot p, hashInsert mix kind newSize t (GHash.keyNode kind key) = .ok (t, false, slot) ∧
      t.readSlot slot = .ok (some p) ∧ deref ks p = some text) ∨
    (text ∉ ks ∧ (hashInsert mix kind newSize t (GHash.keyNode kind key) = .error .alloc ∨
      ∃ t' slot, hashInsert mix kind newSize t (GHash.keyNode kind key) = .ok (t', true, slot) ∧
        t'.nodes = t.nodes ∧ Handed mix kind t' slot ks text)) := by
  rcases hashFindEntry_spec h htext with ⟨slot, p, hfind, hread, hp⟩ | ⟨hfind, hnew⟩
  · left
    refine ⟨slot, p, ?_, hread, hp⟩
    rw [hashInsert, hfind, ok_bind]
    rfl
  refine Or.inr ⟨hnew, ?_⟩
  rw [hashInsert, hfind, ok_bind]
  rcases grow_spec h htext hnew hsize with ha | ⟨t₁, tbl₁, hgrow, h₁, hnodes⟩
  · left
    simp only [ha, error_bind]
  right
  obtain ⟨ps, hps⟩ : ∃ ps, tbl₁[mix text % tbl₁.length]? = some ps :=
    ⟨_, List.getElem?_eq_getElem (Nat.mod_lt _ h₁.pos)⟩
  have hlt : mix text % tbl₁.length < (tbl₁.map ofList).length := by
    rw [List.length_map]
    exact Nat.mod_lt _ h₁.pos
  have hbucket : t₁.bucket[mix text % tbl₁.length]? = some (ofList ps) := by
    rw [h₁.bucket, List.getElem?_map, hps]
    rfl
  simp only [hgrow, ok_bind, hbucket]
  cases ps with
  | nil =>
    refine ⟨_, _, rfl, hnodes, h₁.length, ?_,
      fun c hc => ⟨_, sound_append h₁ hnew hps hc ?_ rfl rfl rfl rfl, ?_⟩⟩
    · simp only [readSlot, hbucket]
      rfl
    · rw [List.map_set, ← h₁.bucket]
      exact modify_bucket hbucket _
    · simp only [writeSlot, readSlot, List.getElem?_modify_eq, hbucket]
      rfl
  | cons q ps =>
    refine ⟨_, _, rfl, hnodes, h₁.length, ?_,
      fun c hc => ⟨_, sound_append h₁ hnew hps hc ?_ rfl rfl rfl rfl, ?_⟩⟩
    · simp only [readSlot, ofList, h₁.bucket, List.getElem?_set_self hlt]
      rfl
    · have hput : (t₁.bucket.set (mix text % tbl₁.length) ⟨some q, none :: ps.map some⟩)[
          mix text % tbl₁.length]? = some ⟨some q, none :: ps.map some⟩ :=
        List.getElem?_set_self (h₁.bucket ▸ hlt)
      rw [List.map_set, ← h₁.bucket]
      refine (modify_bucket hput _).trans ?_
      rw [List.set_set]
      rfl
    · simp only [writeSlot, readSlot, List.getElem?_modify_eq, h₁.bucket,
        List.getElem?_set_self hlt]
      rfl

end

end GHashTable

end PathSet
