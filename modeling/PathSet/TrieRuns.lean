import PathSet.SetPrint

/-!
What the printers of a trie write after any run of insertions. The node a key was
answered with writes this key whatever comes later, and the whole trie is written in
the order of its keys.
-/

namespace PathSet
open Fallible Pointer LinkedTree TernaryTree FirstSeen

namespace Trie

theorem wordLt_iff {a b : Bytes} : WordLt UInt8.toNat a b ↔ a < b := by
  have hrel : (fun x y : UInt8 => x.toNat < y.toNat) = (· < ·) := by
    funext x y
    exact propext UInt8.lt_iff_toNat_lt.symm
  rw [WordLt, hrel, List.lex_lt]

theorem eq_of_sorted {ls ls' : List Bytes} (h : ls.Pairwise (· < ·)) (h' : ls'.Pairwise (· < ·))
    (hmem : ∀ k, k ∈ ls ↔ k ∈ ls') : ls = ls' := by
  have hne : ∀ {a b : Bytes}, a < b → a ≠ b := fun hlt heq => List.lt_irrefl _ (heq ▸ hlt)
  have hnd : ls.Nodup := h.imp hne
  have hnd' : ls'.Nodup := h'.imp hne
  refine ((List.perm_ext_iff_of_nodup hnd hnd').mpr hmem).eq_of_pairwise ?_ h h'
  intro a b _ _ hab hba
  exact absurd (List.lt_trans hab hba) (List.lt_irrefl a)

theorem print_sorted {printOne : Bool} {t : Trie} {m : Bytes → Option Nat} {keys : List Bytes}
    (h : Represents printOne t m) (hdom : ∀ k, (m k).isSome ↔ k ∈ keys) :
    ∃ ls : List Bytes, ls.Pairwise (· < ·) ∧ (∀ k, k ∈ ls ↔ k ∈ keys) ∧
      t.print = writeAll printLine ls := by
  obtain ⟨T, hT, -, hm⟩ := h
  refine ⟨bodies 0 T, ?_, fun k => (mem_bodies_of_map hT hm).trans (hdom k), print_spec hT⟩
  refine (pairwise_bodies UInt8.toNat (fun s => ?_) hT.ordered).imp wordLt_iff.mp
  exact Nat.not_lt_zero _

theorem run_represents (printOne : Bool) {keys : List Bytes} (hkeys : ∀ k ∈ keys, 0 ∉ k) :
    ∃ t rs m, run (insert printOne) init keys = .ok (t, rs) ∧ Represents printOne t m ∧
      (∀ k, (m k).isSome ↔ k ∈ keys) ∧
      ∀ (i : Nat) k, keys[i]? = some k → ∃ b x, rs[i]? = some (b, x) ∧ m k = some x := by
  have hempty : ∀ k : Bytes, ((fun _ => none : Bytes → Option Nat) k).isSome ↔ k ∈ ([] : List Bytes) := by
    simp
  rcases (finder printOne).run_insert (represents_init printOne) hempty hkeys with
    ⟨_, hno, -⟩ | ⟨t, rs, m, hrun, hrep, -, hdom, hans⟩
  · exact absurd hno id
  · refine ⟨t, rs, m, hrun, hrep, hdom, fun i k hi => ?_⟩
    obtain ⟨x, b, hx, hr, -⟩ := hans i k hi
    exact ⟨b, x, hr, hx⟩

/-- After any run the node a key was answered with prints the key. -/
theorem trie_print_one_run {keys : List Bytes} (hkeys : ∀ k ∈ keys, k ≠ [] ∧ 0 ∉ k) :
    ∃ t rs, run (insert true) init keys = .ok (t, rs) ∧
      ∀ (i : Nat) k, keys[i]? = some k →
        ∃ b node, rs[i]? = some (b, node) ∧ t.printerPrintOne node = .ok k := by
  obtain ⟨t, rs, m, hrun, ⟨T, hT, hclimbs, hm⟩, -, hans⟩ :=
    run_represents true fun k hk => (hkeys k hk).2
  refine ⟨t, rs, hrun, fun i k hi => ?_⟩
  obtain ⟨b, node, hr, hk⟩ := hans i k hi
  obtain ⟨hnul, hfind⟩ := find_of_map hm hk
  exact ⟨b, node, hr,
    printerPrintOne_spec hT (hclimbs rfl) hnul (hkeys k (List.mem_of_getElem? hi)).1 hfind⟩

theorem trie_print_one_run_prefix :
    ∃ t rs, run (insert true) init [[97, 98], [97], [98], [97, 98]] = .ok (t, rs) ∧
      ∀ (i : Nat) k, [[97, 98], [97], [98], [97, 98]][i]? = some k →
        ∃ b node, rs[i]? = some (b, node) ∧ t.printerPrintOne node = .ok k :=
  trie_print_one_run (by decide)

/-- The output is the sorted list of the keys, a line each, as long as the lengths are
`int`. It does not depend on the order of the insertions, nor on what is repeated. -/
theorem trie_print_run (printOne : Bool) {keys : List Bytes} (hkeys : ∀ k ∈ keys, 0 ∉ k) :
    ∃ t rs, run (insert printOne) init keys = .ok (t, rs) ∧
      (∃ ls : List Bytes, ls.Pairwise (· < ·) ∧ (∀ k, k ∈ ls ↔ k ∈ keys) ∧
        ((∀ k ∈ keys, k.length ≤ 2 ^ 31 - 1) → t.print = .ok (textLines ls))) ∧
      ∀ keys' t' rs', (∀ k, k ∈ keys' ↔ k ∈ keys) →
        run (insert printOne) init keys' = .ok (t', rs') → t'.print = t.print := by
  obtain ⟨t, rs, m, hrun, hrep, hdom, -⟩ := run_represents printOne hkeys
  obtain ⟨ls, hsorted, hmem, hprint⟩ := print_sorted hrep hdom
  refine ⟨t, rs, hrun, ⟨ls, hsorted, hmem, fun hshort => ?_⟩, fun keys' t' rs' hsame hrun' => ?_⟩
  · rw [hprint, textLines]
    exact writeAll_ok fun k hk => printLine_short (hshort k ((hmem k).mp hk))
  · obtain ⟨t₂, rs₂, m', hrun₂, hrep', hdom', -⟩ :=
      run_represents printOne fun k hk => hkeys k ((hsame k).mp hk)
    rw [hrun'] at hrun₂
    obtain ⟨rfl, -⟩ := Prod.mk.inj (Except.ok.inj hrun₂)
    obtain ⟨ls', hsorted', hmem', hprint'⟩ := print_sorted hrep' hdom'
    have heq : ls' = ls := eq_of_sorted hsorted' hsorted fun k =>
      (hmem' k).trans ((hsame k).trans (hmem k).symm)
    rw [hprint', hprint, heq]

def longKey : Bytes := List.replicate (2 ^ 31) 97

/-- A key that is too long for `printf` stops the printing. -/
theorem trie_print_long :
    ∃ t rs, run (insert false) init [longKey] = .ok (t, rs) ∧ t.print = .error .assertion := by
  have hkey : ∀ k ∈ [longKey], 0 ∉ k := by
    intro k hk h0
    obtain rfl := List.mem_singleton.mp hk
    exact absurd (List.eq_of_mem_replicate h0) (by decide)
  obtain ⟨t, rs, m, hrun, hrep, hdom, -⟩ := run_represents false hkey
  obtain ⟨ls, -, hmem, hprint⟩ := print_sorted hrep hdom
  have hlong : ¬longKey.length ≤ 2 ^ 31 - 1 := by
    rw [longKey, List.length_replicate]
    omega
  refine ⟨t, rs, hrun, ?_⟩
  rw [hprint]
  refine writeAll_error (fun k hk => ?_) ⟨longKey, (hmem _).mpr (by simp), printLine_long hlong⟩
  obtain rfl := List.mem_singleton.mp ((hmem k).mp hk)
  exact Or.inl (printLine_long hlong)

theorem trie_print_run_bytes :
    ∃ t rs, run (insert false) init [[98], [], [97, 200], [98]] = .ok (t, rs) ∧
      t.print = .ok (textLines [[], [97, 200], [98]]) := by
  obtain ⟨t, rs, hrun, ⟨ls, hsorted, hmem, hprint⟩, -⟩ :=
    trie_print_run false (show ∀ k ∈ [[98], [], [97, 200], [98]], 0 ∉ k by decide)
  have heq : ls = [[], [97, 200], [98]] :=
    eq_of_sorted hsorted (by decide) fun k => (hmem k).trans (by simp; tauto)
  exact ⟨t, rs, hrun, heq ▸ hprint (by decide)⟩

end Trie

end PathSet
