import PathSet.GHashScarce

/-!
A transfer of entries when memory can run out. It moves all of them, or it ends at a bucket
head that would need an entry. Then the free list is empty, and each table shows its part
of the nodes.
-/

namespace PathSet
open Fallible Pointer Buckets Recycled

namespace GHashEntries

variable {mix : Bytes → Nat} {kind : GHashKind} {t : GHashEntries} {ks : List Bytes}
variable {tbl : List (List Nat)}

theorem overflow_length {entry : Heap (Option Nat)} {bs : List EntryBucket}
    {qss : List (List Nat)} (h : Shown entry bs qss) :
    (overflow bs).length + used qss = (items qss).length := by
  induction bs generalizing qss with
  | nil =>
    obtain rfl : qss = [] := List.length_eq_zero_iff.mp h.length.symm
    rfl
  | cons b bs ih =>
    cases qss with
    | nil => exact absurd h.length (by simp)
    | cons qs qss =>
      have hb := h.shows 0 b qs rfl rfl
      have hrest : (overflow bs).length + used qss = (items qss).length := ih (h.drop 1)
      rw [overflow, items] at hrest ⊢
      rw [List.flatMap_cons, List.flatten_cons, List.length_append, List.length_append]
      cases qs with
      | nil =>
        rw [show b = ⟨none, []⟩ from hb]
        simpa [used] using hrest
      | cons q qs =>
        have hused : used ((q :: qs) :: qss) = used qss + 1 := by simp [used]
        rw [hb.length_next, hused, List.length_cons]
        omega

namespace Scarce

theorem allocateEntry_cases (entry : Heap (Option Nat)) (nAlloc : Nat) (supply : Supply) :
    (∃ supply', allocateEntry entry nAlloc supply =
        (supply', some (GHashEntries.allocateEntry entry nAlloc))) ∨
      ∃ supply', allocateEntry entry nAlloc supply = (supply', none) ∧ entry.free = [] := by
  unfold allocateEntry
  split_ifs with hfree
  · exact Or.inl ⟨supply, rfl⟩
  · rcases hreq : request supply with ⟨granted, supply'⟩
    cases granted with
    | true => exact Or.inl ⟨supply', rfl⟩
    | false => exact Or.inr ⟨supply', rfl, not_not.mp hfree⟩

theorem moveHead_cases (t : GHashEntries) (dst : Dest) (supply : Supply) {d : Option Nat}
    {c : GHashNode} {j : Nat} {b : EntryBucket} (hc : t.node d = .ok c)
    (hb : safeHasher mix kind dst.bucket c = .ok (j, b)) :
    (∃ supply', moveHead mix kind t dst supply d =
        GHashEntries.moveHead mix kind t dst d >>= fun dst' => .ok (supply', some dst')) ∨
      (∃ supply', moveHead mix kind t dst supply d = .ok (supply', none)) ∧ b.data ≠ none ∧
        dst.entry.free = [] := by
  simp only [moveHead, GHashEntries.moveHead, hc, hb, ok_bind]
  by_cases hempty : b.data = none
  · rw [if_pos hempty, if_pos hempty]
    exact Or.inl ⟨supply, rfl⟩
  · rw [if_neg hempty, if_neg hempty]
    rcases allocateEntry_cases dst.entry dst.nAllocEntries supply with
      ⟨supply', hrun⟩ | ⟨supply', hrun, hfree⟩
    · rw [hrun]
      exact Or.inl ⟨supply', rfl⟩
    · rw [hrun]
      exact Or.inr ⟨⟨supply', rfl⟩, hempty, hfree⟩

theorem moveHead_spec (h : Kept mix kind t ks tbl) {rest : List Nat} {dst : Dest}
    {new : List (List Nat)} {p : Nat} (hd : Moving mix ks rest dst new) (hp : p ∈ items tbl)
    (supply : Supply) :
    (∃ dst' new' supply', moveHead mix kind t dst supply (some p) = .ok (supply', some dst') ∧
        Moved mix ks rest [p] dst new dst' new' ∧
        dst.entry.cell.length ≤ dst'.entry.cell.length) ∨
      ∃ supply', moveHead mix kind t dst supply (some p) = .ok (supply', none) ∧
        dst.entry.free = [] ∧
        homes (GHashTable.home mix ks new.length) (p :: items new) =
          homes (GHashTable.home mix ks new.length) (items new) := by
  obtain ⟨c, j, b, ps, hc, hsafe, hb, hps, hshow, hhome⟩ := moving_bucket h hd hp
  rcases moveHead_cases t dst supply hc hsafe with ⟨supply', hrun⟩ | ⟨⟨supply', hrun⟩, hnot, hfree⟩
  · obtain ⟨dst', new', hmove, hmoved, hcell, -⟩ := GHashEntries.moveHead_spec h hd hp
    rw [hmove, ok_bind] at hrun
    exact Or.inl ⟨dst', new', supply', hrun, hmoved, by split_ifs at hcell <;> omega⟩
  · cases ps with
    | nil => exact absurd (hshow.data_eq_none.mpr rfl) hnot
    | cons q ps => exact Or.inr ⟨supply', hrun, hfree, homes_cons_eq hd.homed hps hhome⟩

structure Stuck (mix : Bytes → Nat) (ks : List Bytes) (dst : Dest) (new : List (List Nat))
    (bs : List EntryBucket) (qss : List (List Nat)) (u : Nat) (r : Transfer)
    (new' left : List (List Nat)) : Prop where
  moved : ∃ ps, Moved mix ks (overflow r.bucket) ps dst new r.dst new' ∧
    (ps ++ items left).Perm (items qss)
  sub : ∀ x ∈ overflow r.bucket, x ∈ overflow bs
  shown : Shown r.dst.entry r.bucket left
  part : List.Forall₂ List.Sublist left qss
  used : r.nBucketsUsed + used qss = u + used left
  free : r.dst.entry.free = []
  full : ∃ p ∈ items left, homes (GHashTable.home mix ks new.length) (p :: items new') =
    homes (GHashTable.home mix ks new.length) (items new')

def Ends (mix : Bytes → Nat) (ks : List Bytes) (dst : Dest) (new : List (List Nat))
    (bs : List EntryBucket) (qss : List (List Nat)) (u : Nat) (r : Transfer) : Prop :=
  ∃ new', dst.entry.cell.length ≤ r.dst.entry.cell.length ∧
    ((r.done = true ∧ Moved mix ks [] (items qss) dst new r.dst new') ∨
      (r.done = false ∧ ∃ left, Stuck mix ks dst new bs qss u r new' left))

section
variable {dst dst₁ : Dest} {new new₁ qss : List (List Nat)} {bs : List EntryBucket} {u u₁ : Nat}
variable {r : Transfer}

theorem Ends.cons {qs : List Nat} {b : EntryBucket}
    (hmoved : Moved mix ks (overflow bs) qs dst new dst₁ new₁)
    (hcells : dst.entry.cell.length ≤ dst₁.entry.cell.length)
    (hu : u = u₁ + if qs = [] then 0 else 1) (h : Ends mix ks dst₁ new₁ bs qss u₁ r) :
    Ends mix ks dst new (b :: bs) (qs :: qss) u { r with bucket := ⟨none, []⟩ :: r.bucket } := by
  obtain ⟨new', hle, hcases⟩ := h
  have hitems : items (qs :: qss) = qs ++ items qss := List.flatten_cons
  refine ⟨new', hcells.trans hle, ?_⟩
  rcases hcases with ⟨hdone, hrest⟩ | ⟨hnot, left, hstuck⟩
  · left
    rw [hitems]
    exact ⟨hdone, hmoved.trans hrest fun x hx => by cases hx⟩
  · right
    refine ⟨hnot, [] :: left, ?_⟩
    obtain ⟨ps, hps, hperm⟩ := hstuck.moved
    obtain ⟨p, hp, hfull⟩ := hstuck.full
    have hused : used (qs :: qss) = used qss + if qs = [] then 0 else 1 := by
      cases qs <;> simp [used]
    have hleft : used ([] :: left) = used left := by simp [used]
    refine ⟨⟨qs ++ ps, hmoved.trans hps hstuck.sub, ?_⟩, fun x hx => ?_, ?_,
      .cons (List.nil_sublist qs) hstuck.part, ?_, hstuck.free, p, hp, ?_⟩
    · rw [hitems, List.append_assoc]
      exact hperm.append_left qs
    · rw [overflow, List.flatMap_cons]
      exact List.mem_append_right _ (hstuck.sub x hx)
    · refine ⟨by simpa using hstuck.shown.length, fun j c ps hc hps => ?_⟩
      cases j with
      | zero =>
        obtain rfl : ⟨none, []⟩ = c := by simpa using hc
        obtain rfl : [] = ps := by simpa using hps
        exact rfl
      | succ j => exact hstuck.shown.shows j c ps (by simpa using hc) (by simpa using hps)
    · have h₁ := hstuck.used
      rw [hused, hleft, hu]
      show r.nBucketsUsed + _ = _
      omega
    · rwa [← hmoved.length]

theorem Ends.stuck {q : Nat} {qs : List Nat} {b : EntryBucket} {supply : Supply}
    (hmoved : Moved mix ks (overflow bs) qs dst new dst₁ new₁)
    (hcells : dst.entry.cell.length ≤ dst₁.entry.cell.length)
    (hshown : Shown dst.entry (b :: bs) ((q :: qs) :: qss)) (hfree : dst₁.entry.free = [])
    (hfull : homes (GHashTable.home mix ks new.length) (q :: items new₁) =
      homes (GHashTable.home mix ks new.length) (items new₁)) :
    Ends mix ks dst new (b :: bs) ((q :: qs) :: qss) u
      ⟨false, dst₁, supply, ⟨b.data, []⟩ :: bs, u⟩ := by
  have hb := hshown.shows 0 b (q :: qs) rfl rfl
  have hrest : Shown dst₁.entry bs qss := (hshown.drop 1).congr hmoved.frame
  have hnext : overflow ((⟨b.data, []⟩ : EntryBucket) :: bs) = overflow bs := rfl
  refine ⟨new₁, hcells, Or.inr ⟨rfl, [q] :: qss, ⟨qs, ?_, ?_⟩, fun x hx => ?_, ?_, ?_, ?_, hfree, q,
    by simp [items], hfull⟩⟩
  · rw [hnext]
    exact hmoved
  · have hleft : items ([q] :: qss) = q :: items qss := rfl
    have hall : items ((q :: qs) :: qss) = q :: (qs ++ items qss) := rfl
    rw [hleft, hall]
    exact List.perm_middle
  · rw [hnext] at hx
    exact List.mem_append_right _ hx
  · refine ⟨by simpa using hrest.length, fun j c ps hc hps => ?_⟩
    cases j with
    | zero =>
      obtain rfl : ⟨b.data, []⟩ = c := by simpa using hc
      obtain rfl : [q] = ps := by simpa using hps
      exact ⟨hb.1, .nil⟩
    | succ j => exact hrest.shows j c ps (by simpa using hc) (by simpa using hps)
  · exact .cons (List.singleton_sublist.mpr (by simp)) (List.forall₂_same.mpr fun _ _ => List.Sublist.refl _)
  · simp [used]

end

theorem transferEntries_spec (h : Kept mix kind t ks tbl) {dst : Dest} {bs : List EntryBucket}
    {new qss : List (List Nat)} (supply : Supply) {u : Nat}
    (hd : Moving mix ks (overflow bs) dst new) (hshown : Shown dst.entry bs qss)
    (hqs : ∀ q ∈ items qss, q ∈ items tbl) (hu : used qss ≤ u) :
    ∃ r, transferEntries mix kind false t dst supply bs u = .ok r ∧
      Ends mix ks dst new bs qss u r := by
  induction bs generalizing dst new qss supply u with
  | nil =>
    obtain rfl : qss = [] := List.length_eq_zero_iff.mp hshown.length.symm
    exact ⟨_, rfl, new, le_refl _, Or.inl ⟨rfl, hd, rfl, List.Perm.refl _, fun _ _ => rfl⟩⟩
  | cons b bs ih =>
    cases qss with
    | nil => exact absurd hshown.length (by simp)
    | cons qs qss =>
      have hb := hshown.shows 0 b qs rfl rfl
      have hrest : Shown dst.entry bs qss := hshown.drop 1
      have hsub : ∀ q ∈ items qss, q ∈ items tbl := fun q hq =>
        hqs q (List.mem_append_right qs hq)
      cases qs with
      | nil =>
        obtain rfl : b = ⟨none, []⟩ := hb
        have hd₀ : Moving mix ks (overflow bs) dst new := hd
        obtain ⟨r, hrun, hends⟩ := ih supply hd₀ hrest hsub (by simpa [used] using hu)
        refine ⟨_, ?_, Ends.cons ⟨hd₀, rfl, List.Perm.refl _, fun _ _ => rfl⟩ (le_refl _) rfl hends⟩
        rw [transferEntries, if_pos rfl, hrun]
        rfl
      | cons q qs =>
        have hnot : b.data ≠ none := fun hnone =>
          List.cons_ne_nil q qs (hb.data_eq_none.mp hnone)
        have hd₀ : Moving mix ks (b.next ++ overflow bs) dst new := hd
        obtain ⟨dst₁, new₁, hover, hmoved, hcell, -⟩ :=
          transferOverflow_spec h hd₀ hb.2 fun p hp => hqs p (by
            rw [items, List.flatten_cons]
            exact List.mem_append_left _ (List.mem_cons_of_mem q hp))
        have hq : q ∈ items tbl := hqs q (by simp [items])
        rw [transferEntries, if_neg hnot, hover, ok_bind, if_neg Bool.false_ne_true, hb.1]
        rcases moveHead_spec h hmoved.moving hq supply with
          ⟨dst₂, new₂, supply₂, hrun, hmoved₂, hle⟩ | ⟨supply₂, hrun, hfree, hfull⟩
        · have hall : Moved mix ks (overflow bs) (q :: qs) dst new dst₂ new₂ := by
            have htrans := hmoved.trans hmoved₂ fun x hx => hx
            exact ⟨htrans.moving, htrans.length, htrans.items.trans
              (List.perm_append_comm.append_right _), htrans.frame⟩
          have hu₁ : used qss ≤ u - 1 := by
            have hcons : used ((q :: qs) :: qss) = used qss + 1 := by simp [used]
            omega
          obtain ⟨r, hrun', hends⟩ :=
            ih (u := u - 1) supply₂ hall.moving (hrest.congr hall.frame) hsub hu₁
          refine ⟨_, ?_, Ends.cons hall (by omega) ?_ hends⟩
          · rw [hrun, ok_bind]
            simp only [hrun', ok_bind, pure_eq_ok]
          · have hcons : used ((q :: qs) :: qss) = used qss + 1 := by simp [used]
            rw [if_neg (List.cons_ne_nil q qs)]
            omega
        · refine ⟨⟨false, dst₁, supply₂, ⟨b.data, []⟩ :: bs, u⟩, ?_,
            Ends.stuck hmoved (by omega) hshown hfree (hmoved.length ▸ hfull)⟩
          rw [hrun, ok_bind, hb.1]
          rfl

end Scarce

end GHashEntries

end PathSet
