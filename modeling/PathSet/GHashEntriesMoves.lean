import PathSet.GHashEntriesHolds

/-!
A rehash moves every entry to the bucket of its new hash. Overflow entries that become
heads are freed, heads that become overflow entries take a free one. A rehash takes an
entry from the store when there is none left at that moment.
-/

namespace PathSet
open Fallible Pointer Buckets Recycled

namespace GHashEntries

variable {mix : Bytes → Nat} {kind : GHashKind} {t : GHashEntries} {ks : List Bytes}
variable {tbl : List (List Nat)}

structure Moving (mix : Bytes → Nat) (ks : List Bytes) (rest : List Nat) (dst : Dest)
    (new : List (List Nat)) : Prop where
  shown : Shown dst.entry dst.bucket new
  owns : dst.entry.Owns (overflow dst.bucket ++ rest)
  pos : 0 < new.length
  used : dst.nBucketsUsed = used new
  homed : Homed (GHashTable.home mix ks new.length) new

structure Moved (mix : Bytes → Nat) (ks : List Bytes) (rest ps : List Nat) (dst : Dest)
    (new : List (List Nat)) (dst' : Dest) (new' : List (List Nat)) : Prop where
  moving : Moving mix ks rest dst' new'
  length : new'.length = new.length
  items : (items new').Perm (ps ++ items new)
  frame : ∀ x ∈ rest, dst'.entry.read x = dst.entry.read x

theorem Moved.trans {rest rest' ps qs : List Nat} {dst dst₁ dst₂ : Dest}
    {new new₁ new₂ : List (List Nat)} (h : Moved mix ks rest ps dst new dst₁ new₁)
    (h' : Moved mix ks rest' qs dst₁ new₁ dst₂ new₂) (hsub : ∀ x ∈ rest', x ∈ rest) :
    Moved mix ks rest' (ps ++ qs) dst new dst₂ new₂ := by
  refine ⟨h'.moving, h'.length.trans h.length, ?_, fun x hx => ?_⟩
  · refine h'.items.trans ((h.items.append_left qs).trans ?_)
    rw [← List.append_assoc]
    exact List.perm_append_comm.append_right _
  · rw [h'.frame x hx, h.frame x (hsub x hx)]

theorem moving_bucket (h : Kept mix kind t ks tbl) {rest : List Nat} {dst : Dest}
    {new : List (List Nat)} (hd : Moving mix ks rest dst new) {p : Nat} (hp : p ∈ items tbl) :
    ∃ c j b ps, t.node (some p) = .ok c ∧ safeHasher mix kind dst.bucket c = .ok (j, b) ∧
      dst.bucket[j]? = some b ∧ new[j]? = some ps ∧ Shows dst.entry b ps ∧
      GHashTable.home mix ks new.length p = j := by
  obtain ⟨k, c, hk, hc, hs⟩ := h.node hp
  obtain ⟨b, ps, hb, hps, hshow⟩ := hd.shown.bucket_at (Nat.mod_lt (mix k) hd.pos)
  have hhash : GHashTable.hash mix kind c dst.bucket.length = mix k % new.length := by
    rw [GHashTable.hash_of_keeps hs, hd.shown.length]
  refine ⟨c, _, b, ps, hc, safeHasher_spec hhash hb, hb, hps, hshow, ?_⟩
  rw [GHashTable.home, hk, Option.getD_some]

theorem used_head {new : List (List Nat)} {j : Nat} (hj : new[j]? = some []) (p : Nat) :
    used (new.set j [p]) = used new + 1 := by
  simpa using used_set_add hj [p]

theorem used_push {new : List (List Nat)} {j q : Nat} {ps : List Nat}
    (hj : new[j]? = some (q :: ps)) (p : Nat) : used (new.set j (q :: p :: ps)) = used new := by
  simpa using used_set_add hj (q :: p :: ps)

theorem moved_head {rest : List Nat} {dst : Dest} {new : List (List Nat)}
    (hd : Moving mix ks rest dst new) {p j : Nat} {b : EntryBucket} (hb : dst.bucket[j]? = some b)
    (hj : new[j]? = some []) (hshow : Shows dst.entry b []) (hp : GHashTable.home mix ks new.length p = j) :
    Moved mix ks rest [p] dst new
      { dst with bucket := dst.bucket.set j { b with data := some p }
                 nBucketsUsed := dst.nBucketsUsed + 1 } (new.set j [p]) := by
  have hset : Shows dst.entry { b with data := some p } [p] := by
    obtain rfl : b = ⟨none, []⟩ := hshow
    exact ⟨rfl, .nil⟩
  refine ⟨⟨hd.shown.set hset j, ?_, by simpa using hd.pos, ?_, ?_⟩, by simp, ?_, fun _ _ => rfl⟩
  · exact hd.owns.perm ((overflow_same hb (some p)).append_right rest)
  · rw [used_head hj, hd.used]
  · rw [List.length_set]
    exact homed_set hd.homed hj hp
  · exact items_set_perm hj

theorem moveOverflow_spec (h : Kept mix kind t ks tbl) {rest : List Nat} {dst : Dest}
    {new : List (List Nat)} {e p : Nat} (hd : Moving mix ks (e :: rest) dst new)
    (hread : dst.entry.read e = some (some p)) (hp : p ∈ items tbl) :
    ∃ dst' new', moveOverflow mix kind t dst e = .ok dst' ∧
      Moved mix ks rest [p] dst new dst' new' ∧
      dst'.entry.cell.length = dst.entry.cell.length ∧
      dst'.entry.free.length + used new = dst.entry.free.length + used new' := by
  obtain ⟨c, j, b, ps, hc, hsafe, hb, hps, hshow, hhome⟩ := moving_bucket h hd hp
  have hown : dst.entry.Owns (e :: (overflow dst.bucket ++ rest)) :=
    hd.owns.perm List.perm_middle.symm
  simp only [moveOverflow, readEntry_of hread, ok_bind, hc, hsafe]
  cases ps with
  | nil =>
    have hmoved := moved_head hd hb hps hshow hhome
    rw [if_pos (hshow.data_eq_none.mpr rfl)]
    have hne : ∀ x ∈ overflow (dst.bucket.set j { b with data := some p }) ++ rest, e ≠ x := by
      rintro x hx rfl
      refine hown.notMem (((overflow_same hb (some p)).append_right rest).mem_iff.mp hx)
    have hsame : ∀ x ∈ overflow (dst.bucket.set j { b with data := some p }) ++ rest,
        (freeEntry dst.entry e).read x = dst.entry.read x := fun x hx =>
      Heap.read_release_ne (hne x hx)
    refine ⟨_, new.set j [p], rfl, ⟨⟨?_, ?_, ?_, ?_, ?_⟩, ?_, ?_, ?_⟩, ?_, ?_⟩
    · exact hmoved.moving.shown.congr fun x hx => hsame x (List.mem_append_left _ hx)
    · have hown' : dst.entry.Owns (e :: (overflow (dst.bucket.set j { b with data := some p }) ++ rest)) :=
        hmoved.moving.owns.perm List.perm_middle.symm
      exact hown'.release none
    · exact hmoved.moving.pos
    · exact hmoved.moving.used
    · exact hmoved.moving.homed
    · exact hmoved.length
    · exact hmoved.items
    · exact fun x hx => hsame x (List.mem_append_right _ hx)
    · exact Heap.release_length _ _ _
    · rw [used_head hps, freeEntry, Heap.release_free, List.length_cons]
      omega
  | cons q ps =>
    have hnot : b.data ≠ none := fun hnone => List.cons_ne_nil q ps (hshow.data_eq_none.mp hnone)
    rw [if_neg hnot]
    have hset : Shows dst.entry { b with next := e :: b.next } (q :: p :: ps) :=
      ⟨hshow.1, .cons hread hshow.2⟩
    refine ⟨_, new.set j (q :: p :: ps), rfl, ⟨⟨hd.shown.set hset j, ?_, by simpa using hd.pos, ?_, ?_⟩,
      by simp, ?_, fun _ _ => rfl⟩, rfl, ?_⟩
    · refine hown.perm ?_
      exact (overflow_push hb b.data e).append_right rest
    · rw [used_push hps, hd.used]
    · rw [List.length_set]
      exact homed_set hd.homed hps hhome
    · exact items_set_perm hps
    · rw [used_push hps]

theorem shown_taken {entry entry' : Heap (Option Nat)} {bucket : List EntryBucket}
    {new : List (List Nat)} {es : List Nat} {e : Nat} (hshown : Shown entry bucket new)
    (ha : Heap.Allocated entry (overflow bucket ++ es) (entry', e)) (p : Nat) :
    (entry'.write (some p) e).Owns (e :: (overflow bucket ++ es)) ∧
      Shown (entry'.write (some p) e) bucket new ∧
      (entry'.write (some p) e).read e = some (some p) ∧
      ∀ x ∈ overflow bucket ++ es, (entry'.write (some p) e).read x = entry.read x := by
  have hsame := ha.read_write (some p)
  exact ⟨ha.owns.write _ _, hshown.congr fun x hx => hsame x (List.mem_append_left _ hx),
    ha.owns.read_write (by simp), hsame⟩

theorem moveHead_spec (h : Kept mix kind t ks tbl) {rest : List Nat} {dst : Dest}
    {new : List (List Nat)} {p : Nat} (hd : Moving mix ks rest dst new) (hp : p ∈ items tbl) :
    ∃ dst' new', moveHead mix kind t dst (some p) = .ok dst' ∧
      Moved mix ks rest [p] dst new dst' new' ∧
      dst'.entry.cell.length = dst.entry.cell.length +
        (if dst.entry.free.length + used new' = used new then 1 else 0) ∧
      dst'.entry.free.length = dst.entry.free.length + used new' - used new - 1 := by
  obtain ⟨c, j, b, ps, hc, hsafe, hb, hps, hshow, hhome⟩ := moving_bucket h hd hp
  simp only [moveHead, ok_bind, hc, hsafe]
  cases ps with
  | nil =>
    rw [if_pos (hshow.data_eq_none.mpr rfl)]
    refine ⟨_, _, rfl, moved_head hd hb hps hshow hhome, ?_, ?_⟩
    · rw [used_head hps, if_neg (by omega)]
      rfl
    · rw [used_head hps]
      show dst.entry.free.length = dst.entry.free.length + (used new + 1) - used new - 1
      omega
  | cons q ps =>
    have hnot : b.data ≠ none := fun hnone => List.cons_ne_nil q ps (hshow.data_eq_none.mp hnone)
    rw [if_neg hnot]
    have ha := hd.owns.allocate none
    rcases hentry : dst.entry.allocate none with ⟨entry', e⟩
    rw [hentry] at ha
    obtain ⟨hown, hshown, hread, hsame⟩ := shown_taken hd.shown ha p
    have hset : Shows (entry'.write (some p) e) { b with next := e :: b.next } (q :: p :: ps) := by
      have hshow' := hshown.shows j b (q :: ps) hb hps
      exact ⟨hshow'.1, .cons hread hshow'.2⟩
    simp only [allocateEntry, hentry]
    refine ⟨_, new.set j (q :: p :: ps), rfl, ⟨⟨hshown.set hset j, ?_, by simpa using hd.pos, ?_, ?_⟩,
      by simp, ?_, fun x hx => hsame x (List.mem_append_right _ hx)⟩, ?_, ?_⟩
    · exact hown.perm ((overflow_push hb b.data e).append_right rest)
    · rw [used_push hps, hd.used]
    · rw [List.length_set]
      exact homed_set hd.homed hps hhome
    · exact items_set_perm hps
    · rw [used_push hps, Heap.write_length, ha.length]
      simp
    · rw [used_push hps, Heap.write_free, ha.free]
      omega

theorem transferOverflow_spec (h : Kept mix kind t ks tbl) {rest es qs : List Nat} {dst : Dest}
    {new : List (List Nat)} (hd : Moving mix ks (es ++ rest) dst new)
    (hshow : List.Forall₂ (fun e q => dst.entry.read e = some (some q)) es qs)
    (hqs : ∀ q ∈ qs, q ∈ items tbl) :
    ∃ dst' new', transferOverflow mix kind t dst es = .ok dst' ∧
      Moved mix ks rest qs dst new dst' new' ∧
      dst'.entry.cell.length = dst.entry.cell.length ∧
      dst'.entry.free.length + used new = dst.entry.free.length + used new' := by
  induction es generalizing dst new qs with
  | nil =>
    cases hshow
    exact ⟨dst, new, rfl, ⟨hd, rfl, List.Perm.refl _, fun _ _ => rfl⟩, rfl, rfl⟩
  | cons e es ih =>
    obtain ⟨q, qs, heq, hrest, rfl⟩ := List.forall₂_cons_left_iff.mp hshow
    obtain ⟨dst₁, new₁, hrun, hmoved, hcell, hfree⟩ := moveOverflow_spec h hd heq (hqs q (by simp))
    have hrest₁ := reads_congr hrest fun x hx => hmoved.frame x (List.mem_append_left _ hx)
    obtain ⟨dst', new', hrun', hmoved', hcell', hfree'⟩ :=
      ih hmoved.moving hrest₁ fun p hp => hqs p (by simp [hp])
    refine ⟨dst', new', ?_, hmoved.trans hmoved' fun x hx => List.mem_append_right _ hx,
      hcell'.trans hcell, by omega⟩
    rw [transferOverflow, hrun, ok_bind, hrun']

theorem transferBucket_spec (h : Kept mix kind t ks tbl) {rest qs : List Nat} {dst : Dest}
    {new : List (List Nat)} {b : EntryBucket} {p : Nat} (hd : Moving mix ks (b.next ++ rest) dst new)
    (hshow : Shows dst.entry b (p :: qs)) (hqs : ∀ q ∈ p :: qs, q ∈ items tbl) :
    ∃ dst₁ dst' new', transferOverflow mix kind t dst b.next = .ok dst₁ ∧
      moveHead mix kind t dst₁ b.data = .ok dst' ∧
      Moved mix ks rest (p :: qs) dst new dst' new' ∧
      dst'.entry.cell.length = dst.entry.cell.length +
        (if dst.entry.free.length + used new' = used new then 1 else 0) ∧
      dst'.entry.free.length = dst.entry.free.length + used new' - used new - 1 := by
  obtain ⟨hdata, hnext⟩ := hshow
  obtain ⟨dst₁, new₁, hrun, hmoved, hcell, hfree⟩ :=
    transferOverflow_spec h hd hnext fun q hq => hqs q (List.mem_cons_of_mem p hq)
  obtain ⟨dst', new', hrun', hmoved', hcell', hfree'⟩ :=
    moveHead_spec h hmoved.moving (hqs p (by simp))
  have hall := hmoved.trans hmoved' fun x hx => hx
  refine ⟨dst₁, dst', new', hrun, hdata ▸ hrun',
    ⟨hall.moving, hall.length, ?_, hall.frame⟩, ?_, by omega⟩
  · exact hall.items.trans (List.perm_append_comm.append_right _)
  · rw [hcell', hcell]
    congr 1
    exact if_congr (by omega) rfl rfl

/-- Before any of the buckets is moved, the free entries and the buckets that are new
make up for the heads. -/
def Fitting (home : Nat → Nat) (free : Nat) (moved : List Nat) (bs : List (List Nat)) : Prop :=
  ∀ i, used (bs.take i) + homes home moved ≤ free + homes home (items (bs.take i) ++ moved)

theorem fitting_nil (home : Nat → Nat) (free : Nat) (moved : List Nat) :
    Fitting home free moved [] := by
  intro i
  rw [List.take_nil, used, items, List.countP_nil, List.flatten_nil, List.nil_append]
  omega

theorem fitting_empty (home : Nat → Nat) (free : Nat) (moved : List Nat) (bs : List (List Nat)) :
    Fitting home free moved ([] :: bs) ↔ Fitting home free moved bs := by
  constructor
  · exact fun h i => by simpa [used, items] using h (i + 1)
  · intro h i
    cases i with
    | zero =>
      simp [used, items]
    | succ i => simpa [used, items] using h i

theorem fitting_cons {home : Nat → Nat} {free : Nat} {ps moved moved' : List Nat}
    {bs : List (List Nat)} (hps : ps ≠ []) (hperm : moved'.Perm (ps ++ moved)) :
    Fitting home free moved (ps :: bs) ↔
      homes home moved + 1 ≤ free + homes home moved' ∧
        Fitting home (free + homes home moved' - homes home moved - 1) moved' bs := by
  have hhead : ∀ i, used ((ps :: bs).take (i + 1)) = used (bs.take i) + 1 := by
    intro i
    cases ps with
    | nil => exact absurd rfl hps
    | cons p ps => simp [used]
  have hitems : ∀ i, homes home (items ((ps :: bs).take (i + 1)) ++ moved) =
      homes home (items (bs.take i) ++ moved') := by
    intro i
    refine homes_perm ?_
    rw [List.take_succ_cons, items, List.flatten_cons, List.append_assoc]
    exact (List.perm_append_comm_assoc _ _ _).trans (hperm.symm.append_left _)
  constructor
  · intro h
    have hfirst := h 1
    rw [hhead 0, hitems 0] at hfirst
    simp only [List.take_zero, used, items, List.countP_nil, List.flatten_nil, List.nil_append,
      Nat.zero_add] at hfirst
    refine ⟨by omega, fun i => ?_⟩
    have hi := h (i + 1)
    rw [hhead, hitems] at hi
    omega
  · rintro ⟨hfirst, h⟩ i
    cases i with
    | zero => simp [used, items]
    | succ i =>
      have hi := h i
      rw [hhead, hitems]
      omega

theorem transferEntries_spec (h : Kept mix kind t ks tbl) {dst : Dest} {bs : List EntryBucket}
    {new qss : List (List Nat)} (hd : Moving mix ks (overflow bs) dst new)
    (hshown : Shown dst.entry bs qss) (hqs : ∀ q ∈ items qss, q ∈ items tbl) :
    ∃ dst' new', transferEntries mix kind t dst bs = .ok dst' ∧
      Moved mix ks [] (items qss) dst new dst' new' ∧
      dst.entry.cell.length ≤ dst'.entry.cell.length ∧
      (dst'.entry.cell.length = dst.entry.cell.length ↔
        Fitting (GHashTable.home mix ks new.length) dst.entry.free.length (items new) qss) := by
  induction bs generalizing dst new qss with
  | nil =>
    obtain rfl : qss = [] := List.length_eq_zero_iff.mp hshown.length.symm
    exact ⟨dst, new, rfl, ⟨hd, rfl, List.Perm.refl _, fun _ _ => rfl⟩, le_refl _,
      iff_of_true rfl (fitting_nil _ _ _)⟩
  | cons b bs ih =>
    cases qss with
    | nil => exact absurd hshown.length (by simp)
    | cons qs qss =>
      have hb := hshown.shows 0 b qs rfl rfl
      have hlen : bs.length = qss.length := by simpa using hshown.length
      have hrest : Shown dst.entry bs qss :=
        ⟨hlen, fun j b ps hb hps => hshown.shows (j + 1) b ps hb hps⟩
      cases qs with
      | nil =>
        have hnext : overflow (b :: bs) = overflow bs := by
          rw [overflow, List.flatMap_cons, show b = ⟨none, []⟩ from hb]
          rfl
        rw [hnext] at hd
        obtain ⟨dst', new', hrun, hmoved, hle, hiff⟩ := ih hd hrest hqs
        refine ⟨dst', new', ?_, hmoved, hle, hiff.trans (fitting_empty _ _ _ _).symm⟩
        rw [transferEntries, if_pos (hb.data_eq_none.mpr rfl), hrun]
      | cons q qs =>
        have hnot : b.data ≠ none := fun hnone =>
          List.cons_ne_nil q qs (hb.data_eq_none.mp hnone)
        have hd₀ : Moving mix ks (b.next ++ overflow bs) dst new := hd
        obtain ⟨dst₁, dst₂, new₂, hrun, hrun', hmoved, hcell, hfree⟩ :=
          transferBucket_spec h hd₀ hb fun p hp => hqs p (by
            rw [items, List.flatten_cons]
            exact List.mem_append_left _ hp)
        have hrest₂ := hrest.congr hmoved.frame
        obtain ⟨dst', new', hrun'', hmoved', hle, hiff⟩ := ih hmoved.moving hrest₂ fun p hp => hqs p (by
          rw [items, List.flatten_cons]
          exact List.mem_append_right _ hp)
        have hhomes : used new = homes (GHashTable.home mix ks new.length) (items new) :=
          used_eq_homes hd.homed
        have hhomes₂ : used new₂ = homes (GHashTable.home mix ks new.length) (items new₂) := by
          rw [← hmoved.length]
          exact used_eq_homes hmoved.moving.homed
        have hmono : used new ≤ used new₂ := by
          rw [hhomes, hhomes₂, homes_perm hmoved.items]
          exact homes_le_append _ _ _
        refine ⟨dst', new', ?_, ?_, by split_ifs at hcell <;> omega, ?_⟩
        · rw [transferEntries, if_neg hnot, hrun, ok_bind, hrun', ok_bind, hrun'']
        · have hall := hmoved.trans hmoved' fun x hx => by cases hx
          exact hall
        · rw [fitting_cons (List.cons_ne_nil q qs) hmoved.items, ← hhomes, ← hhomes₂, ← hfree,
            ← hmoved.length, ← hiff]
          split_ifs at hcell <;> omega

def FitsGrowth (mix : Bytes → Nat) (t : GHashEntries) (ks : List Bytes) (tbl : List (List Nat))
    (n : Nat) : Prop :=
  n ≠ t.nBuckets → Fitting (GHashTable.home mix ks n) t.entry.free.length [] tbl

theorem hashRehash_spec (h : Kept mix kind t ks tbl) {n : Nat} (hn : 0 < n) :
    (¬n * 16 ≤ sizeMax ∧ hashRehash mix kind t n = .error .alloc) ∨
      ∃ t' tbl', hashRehash mix kind t n = .ok t' ∧ Kept mix kind t' ks tbl' ∧
        (items tbl').Perm (items tbl) ∧ t'.nodes = t.nodes ∧ t'.nAllocEntries = t.nAllocEntries ∧
        t.entry.cell.length ≤ t'.entry.cell.length ∧
        (t'.entry.cell.length = t.entry.cell.length ↔ FitsGrowth mix t ks tbl n) := by
  rw [hashRehash, if_neg (Nat.pos_iff_ne_zero.mp hn)]
  by_cases hsame : n = t.nBuckets
  · rw [if_pos hsame]
    exact Or.inr ⟨t, tbl, rfl, h, List.Perm.refl _, rfl, rfl, le_refl _,
      iff_of_true rfl fun hne => absurd hsame hne⟩
  rw [if_neg hsame]
  by_cases hfit : n * 16 ≤ sizeMax
  · right
    rw [calloc, if_pos hfit, ok_bind]
    have hd : Moving mix ks (overflow t.bucket)
        ⟨t.entry, List.replicate n ⟨none, []⟩, 0, 0⟩ (List.replicate n []) := by
      refine ⟨shown_replicate _ n, ?_, by simpa using hn, (used_replicate n).symm,
        homed_replicate _ n⟩
      rw [overflow_replicate]
      exact h.owns
    obtain ⟨dst, tbl', hrun, hmoved, hle, hiff⟩ := transferEntries_spec h hd h.shown fun _ hq => hq
    rw [hrun, ok_bind]
    have hlen : tbl'.length = n := by rw [hmoved.length, List.length_replicate]
    have hitems : (items tbl').Perm (items tbl) := by
      have hperm := hmoved.items
      rwa [items_replicate, List.append_nil] at hperm
    have howns : dst.entry.Owns (overflow dst.bucket) := by
      have hown := hmoved.moving.owns
      rwa [List.append_nil] at hown
    refine ⟨_, tbl', rfl, ⟨hmoved.moving.shown, howns, hlen, hmoved.moving.pos, hmoved.moving.used,
      h.entries.trans hitems.length_eq.symm, h.length, h.keeps, ?_, hitems.nodup_iff.mpr h.nodup,
      ?_, hmoved.moving.homed⟩, hitems, rfl, rfl, hle, ?_⟩
    · exact fun p hp => h.nodes p (hitems.mem_iff.mp hp)
    · exact fun p hp q hq => h.distinct p (hitems.mem_iff.mp hp) q (hitems.mem_iff.mp hq)
    · rw [hiff, List.length_replicate, items_replicate]
      exact ⟨fun hf _ => hf, fun hf => hf hsame⟩
  · left
    refine ⟨hfit, ?_⟩
    rw [calloc, if_neg hfit, error_bind]

end GHashEntries

end PathSet
