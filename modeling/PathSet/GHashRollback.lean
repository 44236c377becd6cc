import PathSet.GHashScarceMoves

/-!
The rollback of a rehash. Two passes move back what the rehash has moved, the first one
without the bucket heads. The buckets that come into use again free an entry each, and so
the store is never asked in vain.
-/

namespace PathSet
open Fallible Pointer Buckets Recycled

namespace GHashEntries

variable {mix : Bytes → Nat} {kind : GHashKind} {t : GHashEntries} {ks : List Bytes}
variable {tbl : List (List Nat)}

theorem Kept.moved {entry : Heap (Option Nat)} {bucket : List EntryBucket} {n u a : Nat}
    {tbl' : List (List Nat)} (h : Kept mix kind t ks tbl)
    (hd : Moving mix ks [] ⟨entry, bucket, u, a⟩ tbl') (hlen : tbl'.length = n)
    (hitems : (items tbl').Perm (items tbl)) (a' : Nat) :
    Kept mix kind { t with
      entry := entry
      bucket := bucket
      nBuckets := n
      nBucketsUsed := u
      nAllocEntries := a' } ks tbl' := by
  refine ⟨hd.shown, ?_, hlen, hd.pos, hd.used, h.entries.trans hitems.length_eq.symm, h.length,
    h.keeps, fun p hp => h.nodes p (hitems.mem_iff.mp hp), hitems.nodup_iff.mpr h.nodup,
    fun p hp q hq => h.distinct p (hitems.mem_iff.mp hp) q (hitems.mem_iff.mp hq), hd.homed⟩
  have howns := hd.owns
  rwa [List.append_nil] at howns

namespace Scarce

theorem shown_heads {entry entry' : Heap (Option Nat)} {bs : List EntryBucket}
    {qss : List (List Nat)} (h : Shown entry bs qss) :
    Shown entry' (bs.map fun b => ⟨b.data, []⟩) (qss.map (List.take 1)) := by
  refine ⟨by simpa using h.length, fun j c ps hc hps => ?_⟩
  rw [List.getElem?_map] at hc hps
  obtain ⟨b, hb, rfl⟩ := Option.map_eq_some_iff.mp hc
  obtain ⟨qs, hqs, rfl⟩ := Option.map_eq_some_iff.mp hps
  have hshows := h.shows j b qs hb hqs
  cases qs with
  | nil =>
    rw [show b = ⟨none, []⟩ from hshows]
    exact rfl
  | cons q qs => exact ⟨hshows.1, .nil⟩

theorem overflow_heads (bs : List EntryBucket) :
    overflow (bs.map fun b => ⟨b.data, []⟩) = [] := by
  rw [overflow, List.flatMap_map, List.flatMap_eq_nil_iff]
  exact fun _ _ => rfl

theorem transferSafe_spec (h : Kept mix kind t ks tbl) {dst : Dest} {bs : List EntryBucket}
    {new qss : List (List Nat)} (supply : Supply) (u : Nat)
    (hd : Moving mix ks (overflow bs) dst new) (hshown : Shown dst.entry bs qss)
    (hqs : ∀ q ∈ items qss, q ∈ items tbl) :
    ∃ dst' new', transferEntries mix kind true t dst supply bs u =
        .ok ⟨true, dst', supply, bs.map fun b => ⟨b.data, []⟩, u⟩ ∧
      Moved mix ks [] (qss.flatMap List.tail) dst new dst' new' ∧
      dst'.entry.cell.length = dst.entry.cell.length := by
  induction bs generalizing dst new qss with
  | nil =>
    obtain rfl : qss = [] := List.length_eq_zero_iff.mp hshown.length.symm
    exact ⟨dst, new, rfl, ⟨hd, rfl, List.Perm.refl _, fun _ _ => rfl⟩, rfl⟩
  | cons b bs ih =>
    cases qss with
    | nil => exact absurd hshown.length (by simp)
    | cons qs qss =>
      have hb := hshown.shows 0 b qs rfl rfl
      have hrest : Shown dst.entry bs qss := hshown.drop 1
      have hsub : ∀ q ∈ items qss, q ∈ items tbl := fun q hq =>
        hqs q (List.mem_append_right qs hq)
      cases qs with
      | nil =>
        obtain rfl : b = ⟨none, []⟩ := hb
        obtain ⟨dst', new', hrun, hmoved, hcell⟩ := ih (show Moving _ _ (overflow bs) _ _ from hd)
          hrest hsub
        refine ⟨dst', new', ?_, hmoved, hcell⟩
        rw [transferEntries, if_pos rfl, hrun]
        rfl
      | cons q qs =>
        have hnot : b.data ≠ none := fun hnone =>
          List.cons_ne_nil q qs (hb.data_eq_none.mp hnone)
        have hd₀ : Moving mix ks (b.next ++ overflow bs) dst new := hd
        obtain ⟨dst₁, new₁, hover, hmoved, hcell, -⟩ :=
          transferOverflow_spec h hd₀ hb.2 fun p hp => hqs p (by
            rw [items, List.flatten_cons]
            exact List.mem_append_left _ (List.mem_cons_of_mem q hp))
        obtain ⟨dst', new', hrun, hmoved', hcell'⟩ :=
          ih hmoved.moving (hrest.congr hmoved.frame) hsub
        refine ⟨dst', new', ?_, hmoved.trans hmoved' fun x hx => (by cases hx), hcell'.trans hcell⟩
        rw [transferEntries, if_neg hnot, hover, ok_bind, if_pos rfl, hrun]
        rfl

theorem moving_new (h : Kept mix kind t ks tbl) {n : Nat} (hn : 0 < n) :
    Moving mix ks (overflow t.bucket) ⟨t.entry, List.replicate n ⟨none, []⟩, 0, 0⟩
      (List.replicate n []) := by
  refine ⟨shown_replicate _ n, ?_, by simpa using hn, (used_replicate n).symm, homed_replicate _ n⟩
  rw [overflow_replicate]
  exact h.owns

/-- What a rehash has left of a table when it stops. -/
structure Halfway (mix : Bytes → Nat) (t : GHashEntries) (ks : List Bytes) (tbl : List (List Nat))
    (r : Transfer) (new left : List (List Nat)) : Prop where
  old : Moving mix ks (overflow r.dst.bucket)
    ⟨r.dst.entry, r.bucket, r.nBucketsUsed, t.nAllocEntries⟩ left
  shown : Shown r.dst.entry r.dst.bucket new
  used : r.dst.nBucketsUsed = used new
  sized : left.length = tbl.length
  shares : (items new ++ items left).Perm (items tbl)
  cells : (items tbl).length ≤ r.dst.entry.cell.length + Buckets.used tbl

theorem cells_of_owns {entry : Heap (Option Nat)} {bs : List EntryBucket} {qss : List (List Nat)}
    {rest : List Nat} (howns : entry.Owns (overflow bs ++ rest)) (h : Shown entry bs qss) :
    (items qss).length + rest.length + entry.free.length = entry.cell.length + used qss := by
  have hlen := howns.length
  have hover := overflow_length h
  rw [List.length_append] at hlen
  omega

theorem halfway_of_stuck (h : Kept mix kind t ks tbl) {n : Nat} {r : Transfer}
    {new left : List (List Nat)} (hcells : t.entry.cell.length ≤ r.dst.entry.cell.length)
    (hstuck : Stuck mix ks ⟨t.entry, List.replicate n ⟨none, []⟩, 0, 0⟩ (List.replicate n [])
      t.bucket tbl t.nBucketsUsed r new left) : Halfway mix t ks tbl r new left := by
  obtain ⟨ps, hps, hperm⟩ := hstuck.moved
  have hsized : left.length = tbl.length := hstuck.part.length_eq
  have hnew : (items new).Perm ps := by
    have hitems := hps.items
    rwa [items_replicate, List.append_nil] at hitems
  refine ⟨⟨hstuck.shown, hps.moving.owns.perm List.perm_append_comm, hsized ▸ h.pos, ?_, ?_⟩,
    hps.moving.shown, hps.moving.used, hsized, (hnew.append_right _).trans hperm, ?_⟩
  · have hused := hstuck.used
    rw [h.used] at hused
    show r.nBucketsUsed = used left
    omega
  · rw [hsized]
    exact h.homed.part hstuck.part
  · have howns : t.entry.Owns (overflow t.bucket ++ []) := by
      rw [List.append_nil]
      exact h.owns
    have hown := cells_of_owns howns h.shown
    omega

theorem not_stuck_of_halfway (h : Kept mix kind t ks tbl) {r r' : Transfer} {dst : Dest}
    {bs : List EntryBucket} {old old' new left rest : List (List Nat)} {u : Nat}
    (hhalf : Halfway mix t ks tbl r new left) (hold : old.length = tbl.length)
    (hcells : r.dst.entry.cell.length ≤ r'.dst.entry.cell.length)
    (hall : (items (new.map (List.take 1)) ++ items old).Perm (items tbl)) :
    ¬Stuck mix ks dst old bs (new.map (List.take 1)) u r' old' rest := by
  intro hstuck
  obtain ⟨ps, hps, hperm⟩ := hstuck.moved
  obtain ⟨p, hp, hfull⟩ := hstuck.full
  rw [hold] at hfull
  have hitems : (items rest ++ items old').Perm (items tbl) := by
    have hback : (items rest ++ items old').Perm (items rest ++ (ps ++ items old)) :=
      hps.items.append_left _
    rw [← List.append_assoc] at hback
    exact hback.trans (((List.perm_append_comm.trans hperm).append_right _).trans hall)
  have hused : used old' = homes (GHashTable.home mix ks tbl.length) (items old') := by
    rw [← hold, ← hps.length]
    exact used_eq_homes hps.moving.homed
  -- the node that is stuck needs no bucket more, the others need one each at most
  have hneed : used tbl + 1 ≤ used old' + (items rest).length := by
    have hrest : (items rest).Perm (p :: (items rest).erase p) := List.perm_cons_erase hp
    have hsplit : (items tbl).Perm ((p :: items old') ++ (items rest).erase p) := by
      refine hitems.symm.trans ((hrest.append_right _).trans ?_)
      exact List.Perm.cons p List.perm_append_comm
    have hle := homes_append_le (GHashTable.home mix ks tbl.length) (p :: items old')
      ((items rest).erase p)
    rw [← homes_perm hsplit, ← used_eq_homes h.homed, hfull, ← hused] at hle
    have hlen := hrest.length_eq
    rw [List.length_cons] at hlen
    omega
  have howns := cells_of_owns hps.moving.owns hps.moving.shown
  have hover := overflow_length hstuck.shown
  have hheads := used_heads hstuck.part
  have hcount := hitems.length_eq
  have hhave := hhalf.cells
  rw [List.length_append] at hcount
  rw [hstuck.free, List.length_nil] at howns
  omega

theorem moveBack_spec (h : Kept mix kind t ks tbl) {r : Transfer} {new left : List (List Nat)}
    (hhalf : Halfway mix t ks tbl r new left) :
    ∃ t' tbl' supply, moveBack mix kind t r = .ok (t', supply) ∧ Kept mix kind t' ks tbl' ∧
      tbl'.length = tbl.length ∧ (items tbl').Perm (items tbl) ∧ t'.nodes = t.nodes := by
  have hmem : ∀ q ∈ items new, q ∈ items tbl := fun q hq =>
    hhalf.shares.mem_iff.mp (List.mem_append_left _ hq)
  obtain ⟨dst, old, hsafe, hback, hcell⟩ :=
    transferSafe_spec h r.supply r.dst.nBucketsUsed hhalf.old hhalf.shown hmem
  have hold : old.length = tbl.length := hback.length.trans hhalf.sized
  have hall : (items (new.map (List.take 1)) ++ items old).Perm (items tbl) := by
    refine (hback.items.append_left _).trans ?_
    rw [← List.append_assoc]
    exact ((heads_tails new).append_right _).trans hhalf.shares
  have hheads : ∀ q ∈ items (new.map (List.take 1)), q ∈ items tbl := fun q hq =>
    hall.mem_iff.mp (List.mem_append_left _ hq)
  have hmoving : Moving mix ks (overflow (r.dst.bucket.map fun b => ⟨b.data, []⟩)) dst old := by
    rw [overflow_heads]
    exact hback.moving
  have hused : used (new.map (List.take 1)) ≤ r.dst.nBucketsUsed := by
    have hlen : ∀ bucket : List Nat, (bucket.take 1).isEmpty = bucket.isEmpty := by
      intro bucket
      cases bucket <;> rfl
    rw [hhalf.used, used, used, List.countP_map]
    simp only [Function.comp_def, hlen, le_refl]
  obtain ⟨r', hrun, tbl', hle, hends⟩ :=
    transferEntries_spec h r.supply hmoving (shown_heads hhalf.shown) hheads hused
  rcases hends with ⟨hdone, hmoved⟩ | ⟨-, rest, hstuck⟩
  · have hitems : (items tbl').Perm (items tbl) := hmoved.items.trans hall
    have hlen : tbl'.length = tbl.length := hmoved.length.trans hold
    refine ⟨_, tbl', r'.supply, ?_, h.moved hmoved.moving (hlen.trans h.sized) hitems
      r'.dst.nAllocEntries, hlen, hitems, rfl⟩
    rw [moveBack, hsafe, ok_bind, if_neg (by simp), hrun, ok_bind, if_neg (by simp [hdone])]
    rfl
  · exact absurd hstuck (not_stuck_of_halfway h hhalf hold (hcell ▸ hle) hall)

theorem hashRehash_spec (h : Kept mix kind t ks tbl) (supply : Supply) (n : Nat) :
    ∃ t' tbl' supply' grown, hashRehash mix kind t supply n = .ok (t', supply', grown) ∧
      Kept mix kind t' ks tbl' ∧ (items tbl').Perm (items tbl) ∧ t'.nodes = t.nodes ∧
      t'.nBuckets = if grown then n else t.nBuckets := by
  have hsame : ∀ supply' : Supply, ∃ t' tbl' supply₁ grown,
      (.ok (t, supply', false) : Outcome (GHashEntries × Supply × Bool)) =
        .ok (t', supply₁, grown) ∧
      Kept mix kind t' ks tbl' ∧ (items tbl').Perm (items tbl) ∧ t'.nodes = t.nodes ∧
      t'.nBuckets = if grown then n else t.nBuckets :=
    fun supply' => ⟨t, tbl, supply', false, rfl, h, List.Perm.refl _, rfl, rfl⟩
  by_cases hzero : n = 0
  · rw [hashRehash, if_pos hzero]
    exact hsame supply
  by_cases hsize : n = t.nBuckets
  · rw [hashRehash, if_neg hzero, if_pos hsize]
    exact ⟨t, tbl, supply, true, rfl, h, List.Perm.refl _, rfl, hsize.symm⟩
  rw [hashRehash, if_neg hzero, if_neg hsize]
  rcases request supply with ⟨granted, supply⟩
  cases granted with
  | false => exact hsame supply
  | true =>
    by_cases hfit : sizeMax < n * 16
    · simp only [if_pos hfit]
      exact hsame supply
    simp only [if_neg hfit]
    obtain ⟨r, hrun, tbl', hle, hends⟩ := transferEntries_spec h supply
      (moving_new h (Nat.pos_of_ne_zero hzero)) h.shown (fun _ hq => hq) h.used.ge
    rw [hrun, ok_bind]
    rcases hends with ⟨hdone, hmoved⟩ | ⟨hnot, left, hstuck⟩
    · have hitems : (items tbl').Perm (items tbl) := by
        have hperm := hmoved.items
        rwa [items_replicate, List.append_nil] at hperm
      have hlen : tbl'.length = n := by rw [hmoved.length, List.length_replicate]
      refine ⟨_, tbl', r.supply, true, ?_,
        h.moved hmoved.moving hlen hitems t.nAllocEntries, hitems, rfl, rfl⟩
      rw [if_pos hdone]
      rfl
    · obtain ⟨t', tbl', supply₁, hback, hkept, hlen, hitems, hnodes⟩ :=
        moveBack_spec h (halfway_of_stuck h hle hstuck)
      refine ⟨t', tbl', supply₁, false, ?_, hkept, hitems, hnodes, ?_⟩
      · rw [if_neg (by simp [hnot]), hback, ok_bind]
        rfl
      · rw [if_neg Bool.false_ne_true, ← hkept.sized, hlen, h.sized]

end Scarce

end GHashEntries

end PathSet
