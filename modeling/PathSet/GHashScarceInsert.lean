import PathSet.GHashRollback

/-!
Insertion where memory can run out. A rehash that cannot be done ends the program, and so
does an entry that cannot be had. Otherwise the insertion does what it does when there is
memory enough.
-/

namespace PathSet
open Fallible Pointer Buckets Recycled

namespace GHashEntries.Scarce

variable {mix : Bytes → Nat} {kind : GHashKind} {t t' : GHashEntries} {ks : List Bytes}
variable {tbl : List (List Nat)} {supply supply' : Supply}

theorem moveHead_plain {dst dst' : Dest} {d : Option Nat}
    (h : moveHead mix kind t dst supply d = .ok (supply', some dst')) :
    GHashEntries.moveHead mix kind t dst d = .ok dst' := by
  obtain ⟨c, hc, h⟩ := bind_eq_ok.mp h
  obtain ⟨⟨j, b⟩, hb, h⟩ := bind_eq_ok.mp h
  rcases moveHead_cases t dst supply hc hb with ⟨supply₁, hrun⟩ | ⟨⟨supply₁, hrun⟩, -, -⟩
  · have hboth : moveHead mix kind t dst supply d = .ok (supply', some dst') := by
      rw [moveHead, hc, ok_bind, hb, ok_bind]
      exact h
    rw [hboth] at hrun
    obtain ⟨dst₁, hplain, heq⟩ := bind_eq_ok.mp hrun.symm
    cases heq
    exact hplain
  · rw [moveHead, hc, ok_bind, hb, ok_bind] at hrun
    cases h.symm.trans hrun

theorem transferEntries_plain {dst : Dest} {bs : List EntryBucket} {u : Nat} {r : Transfer}
    (h : transferEntries mix kind false t dst supply bs u = .ok r) (hdone : r.done = true) :
    GHashEntries.transferEntries mix kind t dst bs = .ok r.dst := by
  induction bs generalizing dst supply u r with
  | nil =>
    cases h
    rfl
  | cons b bs ih =>
    rw [transferEntries] at h
    rw [GHashEntries.transferEntries]
    by_cases hempty : b.data = none
    · rw [if_pos hempty] at h ⊢
      obtain ⟨r₁, hrun, h⟩ := bind_eq_ok.mp h
      cases h
      exact ih (r := r₁) hrun hdone
    · rw [if_neg hempty] at h ⊢
      obtain ⟨dst₁, hover, h⟩ := bind_eq_ok.mp h
      rw [hover, ok_bind]
      rw [if_neg Bool.false_ne_true] at h
      obtain ⟨⟨supply₁, moved⟩, hmove, h⟩ := bind_eq_ok.mp h
      cases moved with
      | none =>
        cases h
        cases hdone
      | some dst₂ =>
        obtain ⟨r₁, hrun, h⟩ := bind_eq_ok.mp h
        cases h
        rw [moveHead_plain hmove, ok_bind]
        exact ih (r := r₁) hrun hdone

theorem hashRehash_plain {n : Nat}
    (h : hashRehash mix kind t supply n = .ok (t', supply', true)) :
    GHashEntries.hashRehash mix kind t n = .ok t' := by
  rw [hashRehash] at h
  rw [GHashEntries.hashRehash]
  by_cases hzero : n = 0
  · rw [if_pos hzero] at h
    cases h
  rw [if_neg hzero] at h ⊢
  by_cases hsize : n = t.nBuckets
  · rw [if_pos hsize] at h ⊢
    cases h
    rfl
  rw [if_neg hsize] at h ⊢
  rcases hreq : request supply with ⟨granted, supply₁⟩
  rw [hreq] at h
  cases granted with
  | false => cases h
  | true =>
    by_cases hfit : sizeMax < n * 16
    · simp only [if_pos hfit] at h
      cases h
    · simp only [if_neg hfit] at h
      obtain ⟨r, hrun, h⟩ := bind_eq_ok.mp h
      rw [calloc, if_pos (Nat.le_of_not_lt hfit), ok_bind]
      by_cases hdone : r.done = true
      · rw [if_pos hdone] at h
        cases h
        rw [transferEntries_plain hrun hdone]
        rfl
      · rw [if_neg hdone] at h
        obtain ⟨x, -, h⟩ := bind_eq_ok.mp h
        cases h

theorem grow_plain {newSize : Option Nat} {c : GHashNode} {j j' : Nat}
    (h : grow mix kind newSize t supply c j = .ok (t', supply', j')) :
    GHashEntries.grow mix kind newSize t c j = .ok (t', j') := by
  cases newSize with
  | none =>
    cases h
    rfl
  | some n =>
    rw [grow] at h
    obtain ⟨⟨t₁, supply₁, grown⟩, hrehash, h⟩ := bind_eq_ok.mp h
    cases grown with
    | false => cases h
    | true =>
      rw [GHashEntries.grow, hashRehash_plain hrehash, ok_bind]
      dsimp only at h
      rw [if_neg (by simp)] at h
      obtain ⟨⟨t₂, j₂, r⟩, hfind, h⟩ := bind_eq_ok.mp h
      rw [hfind, ok_bind]
      dsimp only at h ⊢
      by_cases hr : r ≠ none
      · rw [if_pos hr] at h
        cases h
      · rw [if_neg hr] at h ⊢
        cases h
        rfl

theorem hashInsert_plain {newSize : Option Nat} {c : GHashNode} {new : Bool} {e : HashEntry}
    (h : hashInsert mix kind newSize t supply c = .ok (t', supply', new, e)) :
    GHashEntries.hashInsert mix kind newSize t c = .ok (t', new, e) := by
  obtain ⟨⟨t₁, j, r⟩, hfind, h⟩ := bind_eq_ok.mp h
  rw [GHashEntries.hashInsert, hfind, ok_bind]
  cases r with
  | some previous =>
    cases h
    rfl
  | none =>
    obtain ⟨⟨t₂, supply₂, j₂⟩, hgrow, h⟩ := bind_eq_ok.mp h
    simp only at h ⊢
    rw [grow_plain hgrow, ok_bind]
    simp only
    cases hb : t₂.bucket[j₂]? with
    | none =>
      rw [hb] at h
      cases h
    | some b =>
      rw [hb] at h
      simp only at h ⊢
      by_cases hempty : b.data = none
      · rw [if_pos hempty] at h ⊢
        cases h
        rfl
      · rw [if_neg hempty] at h ⊢
        rcases allocateEntry_cases t₂.entry t₂.nAllocEntries supply₂ with
          ⟨supply₃, hrun⟩ | ⟨supply₃, hrun, -⟩
        · rw [hrun] at h
          cases h
          rfl
        · rw [hrun] at h
          cases h

theorem insert_plain {input : Bytes × Option Nat} {new : Bool} {p : Nat}
    (h : insert mix kind t supply input = .ok (t', supply', new, p)) :
    GHashEntries.insert mix kind t input = .ok (t', new, p) := by
  obtain ⟨⟨t₁, supply₁, new₁, previous⟩, hins, h⟩ := bind_eq_ok.mp h
  rw [GHashEntries.insert, hashInsert_plain hins, ok_bind]
  dsimp only at h ⊢
  cases new₁ with
  | true =>
    rw [if_pos rfl] at h ⊢
    obtain ⟨⟨t₂, n⟩, hnode, h⟩ := bind_eq_ok.mp h
    rw [hnode, ok_bind]
    cases h
    rfl
  | false =>
    rw [if_neg Bool.false_ne_true] at h ⊢
    obtain ⟨d, hd, h⟩ := bind_eq_ok.mp h
    rw [hd, ok_bind]
    cases h
    rfl

theorem finds (h : Kept mix kind t ks tbl) {key text : Bytes}
    (htext : GHashTable.keyText kind key = text) :
    ∃ r, hashFindEntry mix kind false t (GHash.keyNode kind key) =
        .ok (t, mix text % tbl.length, r) ∧ (∀ e ∈ r, ∃ d, t.readData e = .ok d) ∧
      (r = none ↔ ∀ p ∈ items tbl, deref ks p ≠ some text) := by
  obtain ⟨b, ps, hb, hps, hshow, hplace⟩ := place h htext
  have hmem : ∀ {p}, p ∈ ps → deref ks p = some text → ¬∀ q ∈ items tbl, deref ks q ≠ some text :=
    fun hp hk hnone => (h.absent_iff hps).mpr hnone _ hp hk
  cases hplace with
  | absent found hnone => exact ⟨none, found false, by simp, by simpa using (h.absent_iff hps).mp hnone⟩
  | head hp found =>
    refine ⟨_, found, fun e he => ⟨b.data, ?_⟩, iff_of_false (by simp) (hmem (by simp) hp)⟩
    obtain rfl := Option.some.inj he
    simp only [readData, hb]
  | @overflow p _ _ _ _ _ _ hp _ hread _ found =>
    refine ⟨_, found, fun e he => ⟨some p, ?_⟩, iff_of_false (by simp) (hmem (by simp) hp)⟩
    obtain rfl := Option.some.inj he
    exact readEntry_of hread

theorem grow_ends (h : Kept mix kind t ks tbl) (supply : Supply) {key text : Bytes}
    (htext : GHashTable.keyText kind key = text) (hnew : ∀ p ∈ items tbl, deref ks p ≠ some text)
    (newSize : Option Nat) :
    grow mix kind newSize t supply (GHash.keyNode kind key) (mix text % tbl.length) =
        .error .alloc ∨
      ∃ t' tbl' supply', grow mix kind newSize t supply (GHash.keyNode kind key)
          (mix text % tbl.length) = .ok (t', supply', mix text % tbl'.length) ∧
        Kept mix kind t' ks tbl' := by
  cases newSize with
  | none => exact Or.inr ⟨t, tbl, supply, rfl, h⟩
  | some n =>
    obtain ⟨t₁, tbl₁, supply₁, grown, hrun, h₁, hitems, -⟩ := hashRehash_spec h supply n
    rw [grow, hrun, ok_bind]
    cases grown with
    | false => exact Or.inl rfl
    | true =>
      obtain ⟨r, hfind, -, hnone⟩ := finds h₁ htext
      obtain rfl : r = none := hnone.mpr fun p hp => hnew p (hitems.mem_iff.mp hp)
      dsimp only
      rw [if_neg (by simp), hfind, ok_bind]
      exact Or.inr ⟨t₁, tbl₁, supply₁, rfl, h₁⟩

theorem insert_ends (h : Kept mix kind t ks tbl) (supply : Supply) (input : Bytes × Option Nat) :
    insert mix kind t supply input = .error .alloc ∨
      ∃ t' supply' new p, insert mix kind t supply input = .ok (t', supply', new, p) := by
  obtain ⟨key, newSize⟩ := input
  obtain ⟨r, hfind, hread, hnone⟩ := finds h (rfl : GHashTable.keyText kind key = _)
  have hnode : ∀ (t₁ : GHashEntries) (f : GHashEntries × Nat → GHashEntries × Supply × Bool × Nat),
      (newNode kind t₁ key >>= fun x => .ok (f x)) = .error .alloc ∨
        ∃ t' supply' new p, (newNode kind t₁ key >>= fun x => .ok (f x)) =
          .ok (t', supply', new, p) := by
    intro t₁ f
    rcases newNode_cases kind t₁ key with ⟨-, hno⟩ | hrun
    · exact Or.inl (by rw [hno, error_bind])
    · exact Or.inr ⟨_, _, _, _, by rw [hrun, ok_bind]⟩
  simp only [insert, hashInsert, hfind, ok_bind]
  cases r with
  | some e =>
    obtain ⟨d, hd⟩ := hread e rfl
    simp only [pure_eq_ok, ok_bind, Bool.false_eq_true, if_false, hd]
    exact Or.inr ⟨_, _, _, _, rfl⟩
  | none =>
    dsimp only
    rcases grow_ends h supply rfl (hnone.mp rfl) newSize with
      hstop | ⟨t₁, tbl₁, supply₁, hgrow, h₁⟩
    · rw [hstop, error_bind, error_bind]
      exact Or.inl rfl
    · obtain ⟨b, ps, hb, -, -⟩ := h₁.shown.bucket_at
        (Nat.mod_lt (mix (GHashTable.keyText kind key)) h₁.pos)
      simp only [hgrow, ok_bind, hb]
      by_cases hempty : b.data = none
      · simp only [if_pos hempty, pure_eq_ok, ok_bind, if_true]
        exact hnode _ fun x => (x.1.writeData x.2 _, _, true, x.2)
      · simp only [if_neg hempty]
        rcases allocateEntry_cases t₁.entry t₁.nAllocEntries supply₁ with
          ⟨supply₂, hrun⟩ | ⟨supply₂, hrun, -⟩
        · simp only [hrun, pure_eq_ok, ok_bind, if_true]
          exact hnode _ fun x => (x.1.writeData x.2 _, _, true, x.2)
        · simp only [hrun, error_bind]
          exact Or.inl trivial

end GHashEntries.Scarce

end PathSet
