import PathSet.PathTriePrint
import PathSet.PathTrieHistory

/-!
The printer of a path trie with the stack it shares among all its calls. An element is
pushed for the nodes behind its link and popped behind them, so a call leaves the stack
as it was, and prints what the printer with a stack of its own prints. This holds below
every node of a trie.
-/

namespace PathSet
open Fallible Pointer LinkedTree TernaryTree FirstSeen TreeWalk

/-- `PATH_TRIE_PRINTER_TYPE` with what was written to its file. -/
structure TriePrinter (w : Nat) where
  elems : List (BitVec w)
  file : Bytes
  deriving DecidableEq, Repr

namespace TriePrinter
variable {w : Nat}

/-- `STACK_PUSH` -/
def push (prt : TriePrinter w) (e : BitVec w) : TriePrinter w :=
  { prt with elems := prt.elems ++ [e] }

/-- `STACK_POP` -/
def pop (prt : TriePrinter w) : Outcome (TriePrinter w) := do
  ensure "stack underflow" (0 < prt.elems.length)
  pure { prt with elems := prt.elems.dropLast }

def puts (prt : TriePrinter w) (text : Bytes) : TriePrinter w :=
  { prt with file := prt.file ++ text }

theorem pop_push (stack : List (BitVec w)) (e : BitVec w) (file : Bytes) :
    pop ⟨stack ++ [e], file⟩ = .ok ⟨stack, file⟩ := by
  rw [pop, ensure_of (by simp), ok_bind, pure_eq_ok, List.dropLast_concat]

end TriePrinter

namespace PathTrie
variable {σ : Type} {w : Nat} (U : UintHash w) (P : PrintElems σ w)

def printerElems (elemSet : σ) (prt : TriePrinter w) : List (BitVec w) → Outcome (TriePrinter w)
  | [] => pure prt
  | e :: es => do
      let text ← P.printOne elemSet e
      printerElems elemSet (prt.puts text) es

/-- `PATH_TRIE_PRINTER_PRINT` -/
def printerRun (t : PathTrie σ w) : Nat → TriePrinter w → Nat → Outcome (TriePrinter w)
  | 0, _, _ => .error .hang
  | fuel + 1, prt, node => do
      let c ← t.node node
      let prt ← (if c.lo ≠ 0 then printerRun t fuel prt c.lo else pure prt)
      let prt ← (if c.elem = 0 then do
          let elems ← stackBegRef prt.elems
          let prt ← printerElems P t.elemSet prt elems
          pure (prt.puts [10])
        else if c.u ≠ 0 then do
          let prt ← printerRun t fuel (prt.push c.elem) c.u
          prt.pop
        else pure prt)
      if c.hi ≠ 0 then printerRun t fuel prt c.hi else pure prt

theorem printerElems_eq (elemSet : σ) (stack : List (BitVec w)) (file : Bytes)
    (es : List (BitVec w)) :
    printerElems P elemSet ⟨stack, file⟩ es =
      writeAll (P.printOne elemSet) es >>= fun text => .ok ⟨stack, file ++ text⟩ := by
  induction es generalizing file with
  | nil =>
    rw [printerElems, writeAll, ok_bind, List.append_nil]
    rfl
  | cons e es ih =>
    rw [printerElems, writeAll, Fallible.bind_assoc]
    refine bind_congr fun text _ => ?_
    rw [TriePrinter.puts, ih, Fallible.bind_assoc]
    refine bind_congr fun rest _ => ?_
    rw [pure_eq_ok, ok_bind, List.append_assoc]

theorem printerLine_eq (elemSet : σ) (stack : List (BitVec w)) (file : Bytes) :
    (do
      let elems ← stackBegRef stack
      let prt ← printerElems P elemSet ⟨stack, file⟩ elems
      pure (prt.puts [10])) =
      printLine P elemSet stack >>= fun text => .ok ⟨stack, file ++ text⟩ := by
  rw [printLine, Fallible.bind_assoc]
  refine bind_congr fun elems _ => ?_
  rw [printerElems_eq, Fallible.bind_assoc, Fallible.bind_assoc]
  refine bind_congr fun text _ => ?_
  rw [ok_bind, pure_eq_ok, pure_eq_ok, ok_bind, TriePrinter.puts, List.append_assoc]

theorem printerRun_eq (t : PathTrie σ w) (fuel : Nat) (stack : List (BitVec w)) (file : Bytes)
    (p : Nat) :
    printerRun P t fuel ⟨stack, file⟩ p =
      printerPrint P t fuel stack p >>= fun text => .ok ⟨stack, file ++ text⟩ := by
  induction fuel generalizing stack file p with
  | zero => rfl
  | succ fuel ih =>
    have link : ∀ (q : Nat) (file : Bytes),
        (if q ≠ 0 then printerRun P t fuel ⟨stack, file⟩ q else pure ⟨stack, file⟩) =
          onLink q (printerPrint P t fuel stack q) >>= fun text => .ok ⟨stack, file ++ text⟩ := by
      intro q file
      rw [onLink]
      split_ifs
      · exact ih stack file q
      · rw [ok_bind, List.append_nil]
        rfl
    have own : ∀ (c : PathTrieNode w) (file : Bytes),
        (if c.elem = 0 then do
            let elems ← stackBegRef stack
            let prt ← printerElems P t.elemSet ⟨stack, file⟩ elems
            pure (prt.puts [10])
          else if c.u ≠ 0 then do
            let prt ← printerRun P t fuel (TriePrinter.push ⟨stack, file⟩ c.elem) c.u
            prt.pop
          else pure ⟨stack, file⟩ : Outcome (TriePrinter w)) =
          (if c.elem = 0 then printLine P t.elemSet stack
            else onLink c.u (printerPrint P t fuel (stack ++ [c.elem]) c.u) : Outcome Bytes) >>=
            fun text => .ok ⟨stack, file ++ text⟩ := by
      intro c file
      by_cases hz : c.elem = 0
      · rw [if_pos hz, if_pos hz, printerLine_eq]
      · rw [if_neg hz, if_neg hz, onLink]
        by_cases hu : c.u ≠ 0
        · rw [if_pos hu, if_pos hu, TriePrinter.push, ih, Fallible.bind_assoc]
          refine bind_congr fun text _ => ?_
          rw [ok_bind, TriePrinter.pop_push]
        · rw [if_neg hu, if_neg hu, ok_bind, List.append_nil]
          rfl
    rw [printerRun, printerPrint, Fallible.bind_assoc]
    refine bind_congr fun c _ => ?_
    rw [link, Fallible.bind_assoc, Fallible.bind_assoc]
    refine bind_congr fun lo _ => ?_
    rw [ok_bind, own, Fallible.bind_assoc, Fallible.bind_assoc]
    refine bind_congr fun text _ => ?_
    rw [ok_bind, link, Fallible.bind_assoc]
    refine bind_congr fun hi _ => ?_
    rw [pure_eq_ok, ok_bind, List.append_assoc, List.append_assoc, List.append_assoc]

variable {U P}

def subtree (t : PathTrie σ w) (p : Nat) : SearchTree (BitVec w) :=
  decode 0 t.store.cells t.nodes.length p

theorem Holds.below {t : PathTrie σ w} {T : SearchTree (BitVec w)} (h : Holds U t T) {p : Nat}
    (hp : 0 < p) (hle : p ≤ t.nodes.length) :
    ∃ pre, Rep 0 t.store.cells (t.subtree p) p ∧ Ended 0 (t.subtree p) ∧ t.subtree p ≠ .nil ∧
      TernaryTree.size (t.subtree p) ≤ t.nodes.length ∧ ∀ b ∈ bodies 0 (t.subtree p), pre ++ b ∈ bodies 0 T := by
  have hmem : p ∈ ids T := by
    rw [h.layout.2.mem_iff, List.mem_range'_1, length_store]
    omega
  obtain ⟨S, pre, hrep, hend, hne, hsize, hbodies⟩ := exists_below h.layout.1 h.ended hmem
  rw [h.size] at hsize
  obtain rfl : t.subtree p = S := decode_eq_of_rep hrep hsize
  exact ⟨pre, hrep, hend, hne, hsize, hbodies⟩

theorem printerRun_below {t : PathTrie σ w} {T : SearchTree (BitVec w)} (h : Holds U t T) {p : Nat}
    (hp : 0 < p) (hle : p ≤ t.nodes.length) (stack : List (BitVec w)) (file : Bytes) :
    printerRun P t t.nodes.length ⟨stack, file⟩ p =
      writeAll (fun b => printLine P t.elemSet (stack ++ b)) (bodies 0 (t.subtree p)) >>=
        fun text => .ok ⟨stack, file ++ text⟩ := by
  obtain ⟨-, hrep, hend, hne, hsize, -⟩ := h.below hp hle
  rw [printerRun_eq, printerPrint_eq_walk,
    walk_spec (fun _ _ => readCell_of_deref) hrep hend hne hsize]

theorem printLine_elems {s : σ} {me : Bytes → Option (BitVec w)} (hE : P.Rep s me)
    (hknown : ∀ k i, me k = some i → k ≠ []) {els : List Bytes} {ids : List (BitVec w)}
    (h : els.map me = ids.map some) (hne : els ≠ []) :
    printLine P s ids = .ok (els.flatten ++ [10]) := by
  have hids : ids ≠ [] := by
    rintro rfl
    exact hne (List.map_eq_nil_iff.mp h)
  have hels : ∀ e ∈ els, e ≠ [] := by
    intro e he
    have hmem : me e ∈ ids.map some := h ▸ List.mem_map_of_mem he
    obtain ⟨i, -, hi⟩ := List.mem_map.mp hmem
    exact hknown e i hi.symm
  rw [printLine, stackBegRef_of_ne_nil hids, ok_bind, writeAll_printOne hE h hels]
  rfl

theorem writeAll_lines {s : σ} {me : Bytes → Option (BitVec w)} (hE : P.Rep s me)
    (hknown : ∀ k i, me k = some i → k ≠ []) {els : List Bytes} {ids : List (BitVec w)}
    (h : els.map me = ids.map some) {bs : List (List (BitVec w))}
    (hbs : ∀ b ∈ bs, ∃ l : List Bytes, l.map me = b.map some) (hne : els ≠ [] ∨ [] ∉ bs) :
    ∃ lines : List (List Bytes), lines.map (List.map me) = bs.map (List.map some) ∧
      writeAll (fun b => printLine P s (ids ++ b)) bs =
        .ok (textLines (lines.map fun l => (els ++ l).flatten)) := by
  induction bs with
  | nil => exact ⟨[], rfl, rfl⟩
  | cons b bs ih =>
    obtain ⟨l, hl⟩ := hbs b (by simp)
    obtain ⟨lines, hlines, hout⟩ := ih (fun b' hb' => hbs b' (by simp [hb']))
      (hne.imp_right fun hnot hmem => hnot (by simp [hmem]))
    have hall : (els ++ l).map me = (ids ++ b).map some := by
      rw [List.map_append, List.map_append, h, hl]
    have hpos : els ++ l ≠ [] := by
      intro hnil
      obtain ⟨rfl, rfl⟩ := List.append_eq_nil_iff.mp hnil
      have hb : b = [] := List.map_eq_nil_iff.mp hl.symm
      rcases hne with hels | hnot
      · exact hels rfl
      · exact hnot (by simp [hb])
    refine ⟨l :: lines, by rw [List.map_cons, List.map_cons, hl, hlines], ?_⟩
    rw [writeAll, printLine_elems hE hknown hall hpos, ok_bind, hout, ok_bind]
    rfl

section
variable {E : ElemSet σ w}

theorem interned_insertVal {sep : Bytes} {keys : List Bytes} {t t' : PathTrie σ w}
    {p : Bytes × Nat} {y : Bool × Nat × Nat} (h : Interned U E sep keys t) (hkey : 0 ∉ p.1)
    (hins : insertVal U E t p = .ok (t', y)) : Interned U E sep (keys ++ [p.1]) t' := by
  obtain ⟨⟨t₁, b, i⟩, hins₁, h₂⟩ := bind_eq_ok.mp hins
  have h₁ := interned_insert h hkey hins₁
  cases b with
  | false =>
    obtain ⟨rfl, -⟩ := Prod.mk.inj (Except.ok.inj h₂)
    exact h₁
  | true =>
    obtain ⟨rfl, -⟩ := Prod.mk.inj (Except.ok.inj h₂)
    obtain ⟨⟨m, hrep, hsep⟩, -⟩ := h
    refine ⟨?_, h₁.2⟩
    rcases insert_represents hrep hkey with
      ⟨-, e, -, he⟩ | ⟨t₂, j, hins₂, -⟩ | ⟨t₂, j, hins₂, -, ⟨T, me, hknows⟩, hsep₂, -⟩
    · cases hins₁.symm.trans he
    · cases hins₁.symm.trans hins₂
    · cases hins₁.symm.trans hins₂
      exact ⟨_, ⟨T, me, hknows.set_val (Function.update_self _ _ _) p.2⟩, hsep₂.trans hsep⟩

theorem interned_insertVal_run {s : σ} (hE : E.Seen [] s) (sepSet : Option Bytes)
    {ps : List (Bytes × Nat)} (hps : ∀ p ∈ ps, 0 ∉ p.1) {t : PathTrie σ w}
    {rs : List (Bool × Nat × Nat)} (hrun : run (insertVal U E) (init s sepSet) ps = .ok (t, rs)) :
    Interned U E (sepSet.getD defaultSep) (ps.map Prod.fst) t := by
  have keep : ∀ (past : List (Bytes × Nat)) t p t' y,
      Interned U E (sepSet.getD defaultSep) (past.map Prod.fst) t → 0 ∉ p.1 →
        insertVal U E t p = .ok (t', y) →
          Interned U E (sepSet.getD defaultSep) ((past ++ [p]).map Prod.fst) t' := by
    intro past t p t' y h hp hins
    rw [List.map_append]
    exact interned_insertVal h hp hins
  exact @run_history _ _ _ _ _ (fun past t => Interned U E _ (past.map Prod.fst) t) _ keep [] ps
    _ _ _ (interned_init hE sepSet) hps hrun

theorem Interned.ne_nil {sep : Bytes} {keys : List Bytes} {t : PathTrie σ w}
    (h : Interned U E sep keys t) {me : Bytes → Option (BitVec w)} (hme : E.Rep t.elemSet me)
    {k : Bytes} {i : BitVec w} (hk : me k = some i) : k ≠ [] := by
  obtain ⟨-, m, hm, hdom, -⟩ := h
  have hkey := E.rep_key hme hk
  have heq : me k = m k := Except.ok.inj ((E.lookup_eq hme hkey).symm.trans (E.lookup_eq hm hkey))
  have hsome : (m k).isSome := by
    rw [← heq, hk]
    rfl
  obtain ⟨key, -, hmem⟩ := List.mem_flatMap.mp ((hdom k).mp hsome)
  exact ne_nil_of_mem_elements hmem

end

/-- Below every node of a trie, the printer writes one line for each end node in order, the
elements on the stack followed by those on the way to the node, and leaves the stack as it was.
Only an empty stack must not meet an end node in the first level. -/
theorem path_trie_printer_run (U : UintHash w) (P : PrintElems σ w) {s₀ : σ} (hs₀ : P.Seen [] s₀)
    (sepSet : Option Bytes) {ps : List (Bytes × Nat)} (hps : ∀ p ∈ ps, 0 ∉ p.1) {t : PathTrie σ w}
    {rs : List (Bool × Nat × Nat)}
    (hrun : run (insertVal U P.toElemSet) (init s₀ sepSet) ps = .ok (t, rs)) :
    ∃ me, P.Rep t.elemSet me ∧ ∀ p, 0 < p → p ≤ t.nodes.length →
      Rep 0 t.store.cells (t.subtree p) p ∧
      ∀ (els : List Bytes) (ids : List (BitVec w)), els.map me = ids.map some →
        els ≠ [] ∨ 0 ∉ level (t.subtree p) →
        ∃ lines : List (List Bytes),
          lines.map (List.map me) = (bodies 0 (t.subtree p)).map (List.map some) ∧
          ∀ file, printerRun P t t.nodes.length ⟨ids, file⟩ p =
            .ok ⟨ids, file ++ textLines (lines.map fun l => (els ++ l).flatten)⟩ := by
  have hinterned := interned_insertVal_run hs₀ sepSet hps hrun
  obtain ⟨⟨m, ⟨T, me, h⟩, -⟩, -⟩ := id hinterned
  refine ⟨me, h.elems, fun p hp hle => ?_⟩
  obtain ⟨pre, hrep, -, -, -, hbodies⟩ := h.holds.below hp hle
  refine ⟨hrep, fun els ids hels htop => ?_⟩
  have hbs : ∀ b ∈ bodies 0 (t.subtree p), ∃ l : List Bytes, l.map me = b.map some := by
    intro b hb
    obtain ⟨k, -, hn⟩ := h.body_named (hbodies b hb)
    rw [Named, List.map_append] at hn
    obtain ⟨-, l, -, -, hl⟩ := List.map_eq_append_iff.mp hn
    exact ⟨l, hl⟩
  have hne : els ≠ [] ∨ [] ∉ bodies 0 (t.subtree p) :=
    htop.imp_right fun hnot hmem => hnot (level_of_mem_bodies hmem)
  obtain ⟨lines, hlines, hout⟩ := writeAll_lines h.elems
    (fun k i hk => hinterned.ne_nil h.elems hk) hels hbs hne
  refine ⟨lines, hlines, fun file => ?_⟩
  rw [printerRun_below h.holds hp hle, hout, ok_bind]

def printedElems : PrintElems Trie 64 :=
  Trie.printableNodes.placed fun p => BitVec.ofNat 64 (40 * p)

theorem path_trie_printer_run_branch :
    ∃ t rs, run (insertVal .mix64 printedElems.toElemSet) (init Trie.init none)
        [([97, 47, 98], 1), ([97, 47], 2)] = .ok (t, rs) ∧
      ∃ lines : List (List Bytes), lines.length = 2 ∧
        printerRun printedElems t t.nodes.length ⟨[], []⟩ 1 =
          .ok ⟨[], textLines (lines.map List.flatten)⟩ := by
  have hseen : printedElems.Seen [] Trie.init := trieElems.seen_empty trieElems_empty rfl rfl
  have hshape : (run (insertVal .mix64 printedElems.toElemSet) (init Trie.init none)
      [([97, 47, 98], 1), ([97, 47], 2)]).map (fun r =>
        (r.1.nodes.length, level (r.1.subtree 1), (bodies 0 (r.1.subtree 1)).length)) =
      .ok (4, [120], 2) := by decide +kernel
  cases hrun : run (insertVal .mix64 printedElems.toElemSet) (init Trie.init none)
      [([97, 47, 98], 1), ([97, 47], 2)] with
  | error e =>
    rw [hrun] at hshape
    cases hshape
  | ok r =>
    obtain ⟨t, rs⟩ := r
    rw [hrun] at hshape
    obtain ⟨hlen, hshape⟩ := Prod.mk.inj (Except.ok.inj hshape)
    obtain ⟨hlevel, hcount⟩ := Prod.mk.inj hshape
    obtain ⟨me, -, hall⟩ := path_trie_printer_run .mix64 printedElems hseen none (by decide) hrun
    obtain ⟨-, hprint⟩ := hall 1 (by decide) (by rw [hlen]; decide)
    obtain ⟨lines, hlines, hout⟩ := hprint [] [] rfl (Or.inr (by rw [hlevel]; decide))
    refine ⟨t, rs, rfl, lines, ?_, hout []⟩
    have hsame := congrArg List.length hlines
    rwa [List.length_map, List.length_map, hcount] at hsame

end PathTrie

end PathSet
