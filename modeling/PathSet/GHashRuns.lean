import PathSet.GHashSlots
import PathSet.Library.Numbered

/-!
Runs of insertions into the chained table, with any growth. The answers depend on the
keys alone, and after each call the slot it was about has the node that was answered.
-/

namespace PathSet
open Fallible Pointer Buckets FirstSeen Numbered

namespace GHashTable

variable {mix : Bytes → Nat} {kind : GHashKind}

theorem insert_spec {t : GHashTable} {ks : List Bytes} {tbl : List (List Nat)}
    (h : Sound mix kind t ks tbl) {input : Bytes × Option Nat} {text : Bytes}
    (htext : keyText kind input.1 = text)
    (hsize : ∀ n ∈ input.2, 0 < n) :
    (∃ slot p, insert mix kind t input = .ok (t, false, slot, p) ∧
      t.readSlot slot = .ok (some p) ∧ deref ks p = some text) ∨
    (text ∉ ks ∧ (insert mix kind t input = .error .alloc ∨
      ∃ t' slot tbl', insert mix kind t input = .ok (t', true, slot, ks.length + 1) ∧
        t'.readSlot slot = .ok (some (ks.length + 1)) ∧
        Sound mix kind t' (ks ++ [text]) tbl')) := by
  obtain ⟨key, newSize⟩ := input
  rcases hashInsert_spec h htext hsize with
    ⟨slot, p, hrun, hread, hp⟩ | ⟨hnew, ha | ⟨t₁, slot, hrun, hnodes, hhanded⟩⟩
  · left
    refine ⟨slot, p, ?_, hread, hp⟩
    simp only [insert, hrun, ok_bind, Bool.false_eq_true, if_false, hread]
    rfl
  · refine Or.inr ⟨hnew, Or.inl ?_⟩
    rw [insert, ha, error_bind]
  · refine Or.inr ⟨hnew, ?_⟩
    simp only [insert, hrun, ok_bind, if_true]
    rcases poolAllocate_cases kind.nodeSize 8 with ⟨ha, -⟩ | ha
    · left
      simp only [newNode, ha, error_bind]
    rcases poolAllocate_cases (key.length + 1) 1 with ⟨ha', -⟩ | ha'
    · left
      simp only [newNode, ha, ha', ok_bind, error_bind]
    right
    obtain ⟨tbl', hsound, hread⟩ := hhanded.filled
      ⟨0, if kind.nullTermKey then 0 else key.length, key ++ [0]⟩ ⟨key, ⟨rfl, rfl⟩, htext⟩
    refine ⟨_, slot, tbl', ?_, hread, hsound⟩
    simp only [newNode, ha, ha', ok_bind, pure_eq_ok, hhanded.length]

def texts (kind : GHashKind) (inputs : List (Bytes × Option Nat)) : List Bytes :=
  inputs.map fun x => keyText kind x.1

theorem insert_after {past : List Bytes} {t : GHashTable}
    (h : ∃ tbl, Sound mix kind t (firsts past) tbl) {x : Bytes × Option Nat} {text : Bytes}
    (htext : keyText kind x.1 = text) (hsize : ∀ n ∈ x.2, 0 < n) :
    insert mix kind t x = .error .alloc ∨
      ∃ t' slot, insert mix kind t x =
          .ok (t', decide (text ∉ past), slot, number (past ++ [text]) text) ∧
        t'.readSlot slot = .ok (some (number (past ++ [text]) text)) ∧
        ∃ tbl, Sound mix kind t' (firsts (past ++ [text])) tbl := by
  obtain ⟨tbl, hsound⟩ := h
  rcases insert_spec hsound htext hsize with
    ⟨slot, p, hins, hread, hp⟩ | ⟨hnew, ha | ⟨t₁, slot, tbl₁, hins, hread, hsound₁⟩⟩
  · have hmem : text ∈ past := mem_firsts.mp (mem_of_deref hp)
    obtain rfl : number (past ++ [text]) text = p :=
      (number_append [text] hmem).trans (number_eq_of_deref hp)
    refine Or.inr ⟨t, slot, by simpa [hmem] using hins, hread, tbl, ?_⟩
    rwa [firsts_concat, if_pos hmem]
  · exact Or.inl ha
  · have hnew : text ∉ past := fun hmem => hnew (mem_firsts.mpr hmem)
    rw [← number_concat hnew] at hins hread
    refine Or.inr ⟨t₁, slot, by simpa [hnew] using hins, hread, tbl₁, ?_⟩
    rwa [firsts_concat, if_neg hnew]

theorem run_spec {past : List Bytes} {inputs : List (Bytes × Option Nat)} {t : GHashTable}
    (h : ∃ tbl, Sound mix kind t (firsts past) tbl)
    (hinputs : ∀ x ∈ inputs, ∀ n ∈ x.2, 0 < n) :
    run (insert mix kind) t inputs = .error .alloc ∨
      ∃ t' rs, run (insert mix kind) t inputs = .ok (t', rs) ∧
        (∃ tbl, Sound mix kind t' (firsts (past ++ texts kind inputs)) tbl) ∧
        (∀ (i : Nat) text, (texts kind inputs)[i]? = some text → ∃ slot, rs[i]? =
          some (decide (text ∉ past ++ (texts kind inputs).take i), slot,
            number (past ++ texts kind inputs) text)) ∧
        ∀ b slot p, rs.getLast? = some (b, slot, p) → t'.readSlot slot = .ok (some p) := by
  induction inputs generalizing past t with
  | nil => exact Or.inr ⟨t, [], rfl, by simpa [texts] using h, by simp [texts], by simp⟩
  | cons x inputs ih =>
    rw [run_cons]
    rcases insert_after h rfl (hinputs x (by simp)) with ha | ⟨t₁, slot, hins, hread, hsound⟩
    · left
      rw [ha, error_bind]
    rw [hins, ok_bind]
    rcases ih hsound fun y hy => hinputs y (by simp [hy]) with
      ha | ⟨t', rs, hrun, hsound', hans, hlast⟩
    · left
      rw [ha, error_bind]
    right
    have htexts : texts kind (x :: inputs) = keyText kind x.1 :: texts kind inputs := rfl
    have happ : past ++ texts kind (x :: inputs) = past ++ [keyText kind x.1] ++ texts kind inputs := by
      rw [htexts, List.append_assoc, List.singleton_append]
    refine ⟨t', _ :: rs, by rw [hrun, ok_bind], happ ▸ hsound', ?_, ?_⟩
    · intro i text hi
      rw [htexts] at hi
      cases i with
      | zero =>
        obtain rfl : keyText kind x.1 = text := by simpa using hi
        refine ⟨slot, ?_⟩
        rw [happ, number_append _ (by simp : keyText kind x.1 ∈ past ++ [keyText kind x.1])]
        simp only [List.getElem?_cons_zero, List.take_zero, List.append_nil]
      | succ i =>
        obtain ⟨slot', hr⟩ := hans i text (by simpa using hi)
        refine ⟨slot', ?_⟩
        have htake : past ++ (texts kind (x :: inputs)).take (i + 1) =
            past ++ [keyText kind x.1] ++ (texts kind inputs).take i := by
          rw [htexts, List.take_succ_cons, List.append_assoc, List.singleton_append]
        rw [happ, htake]
        exact hr
    · intro b slot' p hp
      cases hrs : rs with
      | nil =>
        have hlen := run_length hrun
        rw [hrs] at hlen
        have hnil : inputs = [] := List.length_eq_zero_iff.mp hlen.symm
        subst hnil
        obtain ⟨rfl, -⟩ := Prod.mk.inj (Except.ok.inj hrun)
        rw [hrs] at hp
        simp only [List.getLast?_singleton, Option.some.injEq, Prod.mk.injEq] at hp
        obtain ⟨-, rfl, rfl⟩ := hp
        exact hread
      | cons r rs' =>
        refine hlast b slot' p ?_
        rw [hrs] at hp ⊢
        simpa using hp

def slots (b : HashBucket) : List (Option Nat) := b.data :: b.next

def entries (t : GHashTable) : List Nat := t.bucket.flatMap fun b => (slots b).reduceOption

structure WellPlaced (mix : Bytes → Nat) (kind : GHashKind) (t : GHashTable) : Prop where
  sized : t.bucket.length = t.nBuckets
  homed : ∀ (j : Nat) b p, t.bucket[j]? = some b → some p ∈ slots b →
    ∃ c, t.node (some p) = .ok c ∧ hash mix kind c t.nBuckets = j
  filled : ∀ b ∈ t.bucket, none ∈ slots b → b = ⟨none, []⟩
  used : t.nBucketsUsed = t.bucket.countP fun b => b.data.isSome
  entries : t.nEntries = t.entries.length
  nodes : t.entries.Perm (List.range' 1 t.nodes.length)
  distinct : ∀ p q c d, t.node (some p) = .ok c → t.node (some q) = .ok d →
    GHash.eq kind c d = true → p = q

theorem reduceOption_slots (ps : List Nat) : (slots (ofList ps)).reduceOption = ps := by
  cases ps with
  | nil => rfl
  | cons p ps => simp [slots, ofList, List.reduceOption]

theorem Sound.wellPlaced {t : GHashTable} {ks : List Bytes} {tbl : List (List Nat)}
    (h : Sound mix kind t ks tbl) : WellPlaced mix kind t := by
  have hentries : t.entries = items tbl := by
    rw [GHashTable.entries, h.bucket, List.flatMap_map, items, ← List.flatMap_id]
    simp only [reduceOption_slots]
    rfl
  refine ⟨?_, ?_, ?_, ?_, ?_, ?_, ?_⟩
  · rw [h.bucket, List.length_map, h.sized]
  · intro j b p hj hp
    rw [h.bucket, List.getElem?_map, Option.map_eq_some_iff] at hj
    obtain ⟨ps, hps, hb⟩ := hj
    have hmem : p ∈ ps := by
      rw [← reduceOption_slots ps, hb]
      exact List.reduceOption_mem_iff.mpr hp
    obtain ⟨k, c, hk, hc, hs⟩ := h.node (List.mem_flatten.mpr ⟨ps, List.mem_of_getElem? hps, hmem⟩)
    refine ⟨c, hc, ?_⟩
    rw [hash_of_keeps hs, ← h.sized, ← h.homed j ps hps p hmem, home, hk, Option.getD_some]
  · intro b hb hnone
    rw [h.bucket, List.mem_map] at hb
    obtain ⟨ps, -, rfl⟩ := hb
    cases ps with
    | nil => rfl
    | cons p ps => simp [GHashTable.slots, ofList] at hnone
  · rw [h.used, h.bucket, List.countP_map, Buckets.used]
    refine List.countP_congr fun ps _ => ?_
    cases ps <;> simp [ofList]
  · rw [h.entries, hentries, h.slots.length_eq, List.length_range']
  · rw [hentries, h.length]
    exact h.slots
  · intro p q c d hc hd heq
    have hkept : ∀ r e, t.node (some r) = .ok e → ∃ k, deref ks r = some k ∧ Keeps kind e k := by
      intro r e he
      have hderef : deref t.nodes r = some e := by
        simp only [GHashTable.node, Option.bind_some] at he
        split at he
        · cases he
        · rename_i c' hc'
          rw [hc', Except.ok.inj he]
      have hr : (deref ks r).isSome := by
        rw [deref_isSome, ← h.length, ← deref_isSome, hderef]
        rfl
      obtain ⟨k, hk⟩ := Option.isSome_iff_exists.mp hr
      obtain ⟨e', he', hkeep⟩ := h.keeps r k hk
      rw [hderef] at he'
      exact ⟨k, hk, Option.some.inj he' ▸ hkeep⟩
    obtain ⟨k, hk, key, hmade, rfl⟩ := hkept p c hc
    obtain ⟨k', hk', hkeep'⟩ := hkept q d hd
    rw [eq_of_made hmade, eq_of_keeps hkeep', decide_eq_true_eq] at heq
    exact deref_inj h.nodup hk (heq ▸ hk')

end GHashTable

open GHashTable in
/-- Every run of insertions keeps the table well placed. A call is true for a new key
only, and answers the node of its first insertion, which the slot has. -/
theorem ghash_insert_run (mix : Bytes → Nat) (kind : GHashKind) {n : Nat} (hn : 0 < n)
    (inputs : List (Bytes × Option Nat)) (hsizes : ∀ x ∈ inputs, ∀ m ∈ x.2, 0 < m) :
    run (GHashTable.insert mix kind) (fresh n) inputs = .error .alloc ∨
      ∃ t rs, run (GHashTable.insert mix kind) (fresh n) inputs = .ok (t, rs) ∧
        WellPlaced mix kind t ∧
        (∀ (i : Nat) x, inputs[i]? = some x → ∃ slot c,
          rs[i]? = some (decide (keyText kind x.1 ∉ (texts kind inputs).take i), slot,
            number (texts kind inputs) (keyText kind x.1)) ∧
          t.node (some (number (texts kind inputs) (keyText kind x.1))) = .ok c ∧
          (∀ m, GHashTable.hash mix kind c m = GHashTable.hash mix kind (GHash.keyNode kind x.1) m) ∧
          ∀ d, GHash.eq kind c d = GHash.eq kind (GHash.keyNode kind x.1) d) ∧
        ∀ b slot p, rs.getLast? = some (b, slot, p) → t.readSlot slot = .ok (some p) := by
  have hfresh : ∃ tbl, Sound mix kind (fresh n) (firsts ([] : List Bytes)) tbl :=
    ⟨_, sound_fresh hn⟩
  rcases run_spec hfresh hsizes with ha | ⟨t, rs, hrun, ⟨tbl, hsound⟩, hans, hlast⟩
  · exact Or.inl ha
  simp only [List.nil_append] at hsound hans
  refine Or.inr ⟨t, rs, hrun, hsound.wellPlaced, ?_, hlast⟩
  intro i x hi
  have htext : (texts kind inputs)[i]? = some (keyText kind x.1) := by
    rw [texts, List.getElem?_map, hi]
    rfl
  obtain ⟨slot, hr⟩ := hans i _ htext
  obtain ⟨c, hc, key, hmade, hkey⟩ := hsound.keeps _ _ (deref_number (List.mem_of_getElem? htext))
  refine ⟨slot, c, hr, ?_, fun m => ?_, fun d => ?_⟩
  · simp only [GHashTable.node, Option.bind_some]
    rw [hc]
  · rw [hash_of_made hmade, hash_keyNode, hash_keyNode, hkey]
  · rw [eq_of_made hmade, eq_keyNode_congr hkey]

open GHashTable in
theorem ghash_insert_run_moved :
    ∃ t, run (GHashTable.insert List.length ⟨true, 16⟩) (GHashTable.fresh 2)
        [([97], none), ([98], some 3), ([97], some 5)] =
      .ok (t, [(true, .head 1, 1), (true, .overflow 1 0, 2), (false, .head 1, 1)]) ∧
      WellPlaced List.length ⟨true, 16⟩ t := by
  have hrun : (run (GHashTable.insert List.length ⟨true, 16⟩) (GHashTable.fresh 2)
      [([97], none), ([98], some 3), ([97], some 5)]).map Prod.snd =
      .ok [(true, .head 1, 1), (true, .overflow 1 0, 2), (false, .head 1, 1)] := by decide
  rcases ghash_insert_run List.length ⟨true, 16⟩ (by decide : 0 < 2)
    [([97], none), ([98], some 3), ([97], some 5)] (by decide) with ha | ⟨t, rs, hr, hplaced, -, -⟩
  · rw [ha] at hrun
    cases hrun
  · rw [hr] at hrun
    obtain rfl := Except.ok.inj hrun
    exact ⟨t, hr, hplaced⟩

end PathSet
