import PathSet.StackImpl
import PathSet.PathTriePrinter
import PathSet.Tables

/-!
The printers with the arrays they keep their stacks in. The printer of a path trie has a
stack of elements, and where the elements are in a trie, a printer of elements with a stack
of its own, which is cleared for each of them. Unless memory is refused, the printers write
what they write with lists.
-/

namespace PathSet
open Fallible Pointer LinkedTree TernaryTree FirstSeen Numbered TreeWalk Stack

/-- `TRIE_PRINTER_TYPE` with what was written to its file. -/
structure TriePrinterType where
  str : Stack UInt8
  file : Bytes
  deriving DecidableEq, Repr

namespace Trie

/-- The loop of `TRIE_PRINTER_PRINT_ONE`. -/
def printOneLoop (t : Trie) (val : Nat) : Nat → Nat → Stack UInt8 → Outcome (Stack UInt8)
  | 0, _, _ => .error .hang
  | fuel + 1, child, str => do
      let q := (← t.node child).up
      assert (q ≠ 0)
      let c ← t.node q
      let str ← (if c.ch ≠ 0 ∧ c.u = child then str.push 1 c.ch else pure str)
      if q ≠ val then printOneLoop t val fuel q str else pure str

/-- `TRIE_PRINTER_PRINT_ONE` -/
def printOneOn (t : Trie) (prt : TriePrinterType) (node : Nat) : Outcome TriePrinterType := do
  assert (node ≠ 0)
  let c ← t.node node
  assert (c.ch = 0)
  assert (c.u ≠ 0)
  let str ← prt.str.clear
  let str ← t.printOneLoop c.u (t.nodes.length + 1) node str
  let text ← str.members
  pure ⟨str, prt.file ++ text.reverse⟩

/-- What `%.*s` writes of at most `n` characters. -/
def formatted : Nat → List (Option UInt8) → Outcome Bytes
  | 0, _ => .ok []
  | n + 1, some ch :: cells =>
      if ch = 0 then .ok []
      else do
        let text ← formatted n cells
        pure (ch :: text)
  | _ + 1, _ => .error .stray

def printLineOn (prt : TriePrinterType) : Outcome TriePrinterType := do
  let n ← prt.str.size
  let precision ← sizeAsInt n
  let text ← (if n ≠ 0 then do
      let cells ← prt.str.begRef
      formatted precision cells
    else pure [] : Outcome Bytes)
  pure { prt with file := prt.file ++ text ++ [10] }

def pushOn (prt : TriePrinterType) (ch : UInt8) : Outcome TriePrinterType := do
  let str ← prt.str.push 1 ch
  pure { prt with str := str }

def popOn (prt : TriePrinterType) : Outcome TriePrinterType := do
  let (str, _) ← prt.str.pop
  pure { prt with str := str }

/-- `TRIE_PRINTER_PRINT` -/
def printerPrintOn (t : Trie) : Nat → TriePrinterType → Nat → Outcome TriePrinterType :=
  walkOn .hang t.readCell 0 printLineOn pushOn popOn

/-- `TRIE_PRINT` -/
def printOn (t : Trie) (supply : List Bool) : Outcome Bytes :=
  if t.rootNode = 0 then .ok []
  else do
    let str ← Stack.init 1 0 0 supply
    let prt ← t.printerPrintOn t.nodes.length ⟨str, []⟩ t.rootNode
    pure prt.file

theorem printOneLoop_agree (t : Trie) {val fuel child : Nat} {str : Stack UInt8} {xs : Bytes}
    (h : Stack.Holds 1 str xs) :
    AgreeUnless Refused (Stack.Holds 1) (t.printOneLoop val fuel child str)
      (t.climb val fuel child xs) := by
  induction fuel generalizing child str xs with
  | zero => exact Or.inr rfl
  | succ fuel ih =>
    rw [printOneLoop, climb]
    refine agreeUnless_bind _ fun d => ?_
    refine agreeUnless_bind _ fun _ => ?_
    refine agreeUnless_bind _ fun c => ?_
    have hpush : AgreeUnless Refused (Stack.Holds 1)
        (if c.ch ≠ 0 ∧ c.u = child then str.push 1 c.ch else pure str)
        (.ok (if c.ch ≠ 0 ∧ c.u = child then xs ++ [c.ch] else xs)) := by
      split_ifs
      · exact push_agree h c.ch
      · exact Or.inr h
    refine hpush.bind (g := fun ys =>
      if d.up ≠ val then t.climb val fuel d.up ys else pure ys) fun s ys hs => ?_
    split_ifs
    · exact ih hs
    · exact Or.inr hs

theorem printOneOn_agree (t : Trie) {prt : TriePrinterType} {xs : Bytes} (node : Nat)
    (h : Stack.Holds 1 prt.str xs) :
    AgreeUnless Refused
      (fun prt' text => (∃ ys, Stack.Holds 1 prt'.str ys) ∧ prt'.file = prt.file ++ text)
      (t.printOneOn prt node) (t.printerPrintOne node) := by
  obtain ⟨str, hclear, hstr, -⟩ := clear_spec h
  rw [printOneOn, printerPrintOne]
  refine agreeUnless_bind _ fun _ => ?_
  refine agreeUnless_bind _ fun c => ?_
  refine agreeUnless_bind _ fun _ => ?_
  refine agreeUnless_bind _ fun _ => ?_
  rw [hclear, ok_bind]
  refine (printOneLoop_agree t hstr).bind fun s ys hs => ?_
  rw [members_eq hs]
  exact agreeUnless_bind _ fun text => Or.inr ⟨⟨ys, hs⟩, rfl⟩

theorem formatted_eq {xs : Bytes} (h : 0 ∉ xs) (rest : List (Option UInt8)) :
    formatted xs.length (xs.map some ++ rest) = .ok xs := by
  induction xs with
  | nil => rfl
  | cons ch xs ih =>
    rw [List.mem_cons, not_or] at h
    rw [List.length_cons, List.map_cons, List.cons_append, formatted, if_neg (Ne.symm h.1), ih h.2]
    rfl

structure Printing (prt : TriePrinterType) (xs out : Bytes) : Prop where
  str : Stack.Holds 1 prt.str xs
  noNul : 0 ∉ xs
  file : prt.file = out

theorem printLineOn_agree {prt : TriePrinterType} {xs out : Bytes} (h : Printing prt xs out) :
    AgreeUnless Refused (fun prt' text => Printing prt' xs (out ++ text)) (printLineOn prt)
      (printLine xs) := by
  rw [printLineOn, size_eq h.str, ok_bind, printLine]
  cases hint : sizeAsInt xs.length with
  | error e => exact Or.inr rfl
  | ok n =>
    obtain rfl : n = xs.length := by
      obtain ⟨-, -, hn⟩ := bind_eq_ok.mp hint
      exact (Except.ok.inj hn).symm
    rw [ok_bind, ok_bind]
    have htext : (if xs.length ≠ 0 then do
          let cells ← prt.str.begRef
          formatted xs.length cells
        else pure [] : Outcome Bytes) = .ok xs := by
      by_cases hne : xs = []
      · rw [hne]
        rfl
      · obtain ⟨rest, hrest⟩ := h.str.cells
        rw [if_pos (mt List.length_eq_zero_iff.mp hne), begRef_eq h.str hne, ok_bind, hrest,
          formatted_eq h.noNul]
    have hline : (if xs.length ≠ 0 then stackBegRef xs else pure [] : Outcome Bytes) = .ok xs := by
      by_cases hne : xs = []
      · rw [hne]
        rfl
      · rw [if_pos (mt List.length_eq_zero_iff.mp hne), stackBegRef_of_ne_nil hne]
    rw [htext, hline]
    refine Or.inr ⟨h.str, h.noNul, ?_⟩
    rw [h.file, List.append_assoc]

theorem pushOn_spec {prt : TriePrinterType} {xs out : Bytes} {ch : UInt8}
    (h : Printing prt xs out) (hch : ch ≠ 0) :
    Stops Refused (pushOn prt ch) ∨
      ∃ prt', pushOn prt ch = .ok prt' ∧ Printing prt' (xs ++ [ch]) out := by
  rcases push_spec h.str ch with ⟨-, -, hrun⟩ | ⟨s, hrun, hs, -⟩
  · exact Or.inl ⟨_, Or.inr rfl, by rw [pushOn, hrun, error_bind]⟩
  · refine Or.inr ⟨⟨s, prt.file⟩, by rw [pushOn, hrun]; rfl, hs, ?_, h.file⟩
    simpa [h.noNul] using hch.symm

theorem popOn_spec {prt : TriePrinterType} {xs out : Bytes} {ch : UInt8}
    (h : Printing prt (xs ++ [ch]) out) :
    ∃ prt', popOn prt = .ok prt' ∧ Printing prt' xs out := by
  rcases pop_spec h.str with ⟨hnil, -⟩ | ⟨s, ys, v, heq, hrun, hs, -⟩
  · simp at hnil
  · obtain rfl : xs = ys := (List.append_inj' heq rfl).1
    exact ⟨⟨s, prt.file⟩, by rw [popOn, hrun]; rfl, hs,
      fun hmem => h.noNul (List.mem_append_left _ hmem), h.file⟩

theorem trie_print_on_stack (t : Trie) (supply : List Bool) :
    AgreeUnless Refused (· = ·) (t.printOn supply) t.print := by
  rw [printOn, print]
  split_ifs
  · exact Or.inr rfl
  · rcases @init_spec UInt8 1 Nat.one_pos 0 0 supply (by decide) with
      ⟨-, hrun⟩ | ⟨str, hrun, hstr, -⟩
    · exact Or.inl ⟨_, Or.inl rfl, by rw [hrun, error_bind]⟩
    · rw [hrun, ok_bind, printerPrint_eq_walk]
      have hstart : Printing ⟨str, []⟩ [] [] := ⟨hstr, by simp, rfl⟩
      have hwalk : AgreeUnless Refused (fun prt text => Printing prt [] ([] ++ text))
          (t.printerPrintOn t.nodes.length ⟨str, []⟩ t.rootNode)
          (walk .hang t.readCell 0 printLine t.nodes.length [] t.rootNode) :=
        walkOn_agree (R := Printing) printLineOn_agree pushOn_spec popOn_spec hstart
      exact hwalk.bind_left fun prt text hprt => ⟨prt.file, rfl, hprt.file⟩

end Trie

structure ElemPrinter {σ : Type} {w : Nat} (P : PrintElems σ w) where
  State : Type
  init : List Bool → Outcome State
  printOne : σ → State × Bytes → BitVec w → Outcome (State × Bytes)
  Ready : State → Prop
  init_ready : ∀ supply, AgreeUnless Refused (fun st _ => Ready st) (init supply) (.ok ())
  printOne_agree : ∀ s {x : State × Bytes} e, Ready x.1 →
    AgreeUnless Refused (fun y text => Ready y.1 ∧ y.2 = x.2 ++ text) (printOne s x e)
      (P.printOne s e)

namespace ElemPrinter
variable {σ : Type} {w : Nat} {P : PrintElems σ w}

/-- `PATH_TRIE_ELEM_PRINT_ONE`, which keeps nothing. -/
def direct (P : PrintElems σ w) : ElemPrinter P where
  State := Unit
  init _ := .ok ()
  printOne s x e := do
    let text ← P.printOne s e
    pure ((), x.2 ++ text)
  Ready _ := True
  init_ready _ := Or.inr trivial
  printOne_agree s x e _ := by
    cases hprint : P.printOne s e with
    | error a => exact Or.inr rfl
    | ok text => exact Or.inr ⟨trivial, rfl⟩

def climbPrintOne (addr : Nat → BitVec w) (t : Trie) (x : Stack UInt8 × Bytes) (e : BitVec w) :
    Outcome (Stack UInt8 × Bytes) :=
  match Trie.printableNodes.nodeAt addr t e with
  | none => .error .stray
  | some p => do
      let prt ← t.printOneOn ⟨x.1, x.2⟩ p
      pure (prt.str, prt.file)

theorem climbPrintOne_agree (addr : Nat → BitVec w) (t : Trie) {x : Stack UInt8 × Bytes}
    (e : BitVec w) (hx : ∃ xs, Stack.Holds 1 x.1 xs) :
    AgreeUnless Refused (fun y text => (∃ xs, Stack.Holds 1 y.1 xs) ∧ y.2 = x.2 ++ text)
      (climbPrintOne addr t x e) ((Trie.printableNodes.placed addr).printOne t e) := by
  obtain ⟨xs, hxs⟩ := hx
  have hplaced : (Trie.printableNodes.placed addr).printOne t e =
      Trie.printableNodes.placedPrintOne addr t e := rfl
  rw [hplaced, climbPrintOne, PrintNodes.placedPrintOne]
  cases Trie.printableNodes.nodeAt addr t e with
  | none => exact Or.inr rfl
  | some p =>
    have h : Stack.Holds 1 (⟨x.1, x.2⟩ : TriePrinterType).str xs := hxs
    exact (Trie.printOneOn_agree t p h).bind_left fun prt text hprt => ⟨_, rfl, hprt⟩

/-- `PATH_TRIE_ELEM_PRINTER_PRINT_ONE`, the printer of the trie the elements are in. -/
def climbing (addr : Nat → BitVec w) : ElemPrinter (Trie.printableNodes.placed addr) where
  State := Stack UInt8
  init := Stack.init 1 0 0
  printOne := climbPrintOne addr
  Ready str := ∃ xs, Stack.Holds 1 str xs
  init_ready supply := by
    rcases @init_agree UInt8 1 Nat.one_pos 0 0 supply (by decide) with hstop | hagree
    · exact Or.inl hstop
    · obtain ⟨str, hrun, hstr⟩ := hagree.ok_right
      rw [hrun]
      exact Or.inr ⟨[], hstr⟩
  printOne_agree t _ e hx := climbPrintOne_agree addr t e hx

end ElemPrinter

/-- `PATH_TRIE_PRINTER_TYPE` with what was written to its file. -/
structure PathTriePrinterType (w : Nat) (τ : Type) where
  elems : Stack (BitVec w)
  elemPrinter : τ
  file : Bytes

namespace PathTrie
variable {σ : Type} {w : Nat} {P : PrintElems σ w} (EP : ElemPrinter P)

def printElemsOn (elemSet : σ) :
    EP.State × Bytes → List (BitVec w) → Outcome (EP.State × Bytes)
  | x, [] => .ok x
  | x, e :: es => do
      let x ← EP.printOne elemSet x e
      printElemsOn elemSet x es

def printLineOn (elemSet : σ) (prt : PathTriePrinterType w EP.State) :
    Outcome (PathTriePrinterType w EP.State) := do
  let elems ← prt.elems.members
  let (elemPrinter, file) ← printElemsOn EP elemSet (prt.elemPrinter, prt.file) elems
  pure ⟨prt.elems, elemPrinter, file ++ [10]⟩

def pushOn (prt : PathTriePrinterType w EP.State) (e : BitVec w) :
    Outcome (PathTriePrinterType w EP.State) := do
  let elems ← prt.elems.push (w / 8) e
  pure { prt with elems := elems }

def popOn (prt : PathTriePrinterType w EP.State) :
    Outcome (PathTriePrinterType w EP.State) := do
  let (elems, _) ← prt.elems.pop
  pure { prt with elems := elems }

/-- `PATH_TRIE_PRINTER_PRINT` -/
def printerPrintOn (t : PathTrie σ w) :
    Nat → PathTriePrinterType w EP.State → Nat → Outcome (PathTriePrinterType w EP.State) :=
  walkOn .hang t.readCell 0 (printLineOn EP t.elemSet) (pushOn EP) (popOn EP)

/-- `PATH_TRIE_PRINT`, with the memory for both stacks. -/
def printOn (t : PathTrie σ w) (supply supply' : List Bool) : Outcome Bytes :=
  if t.rootNode = 0 then .ok []
  else do
    let elems ← Stack.init (w / 8) 0 0 supply
    let elemPrinter ← EP.init supply'
    let prt ← printerPrintOn EP t t.nodes.length ⟨elems, elemPrinter, []⟩ t.rootNode
    pure prt.file

variable {EP}

structure Printing (prt : PathTriePrinterType w EP.State) (xs : List (BitVec w)) (out : Bytes) :
    Prop where
  elems : Stack.Holds (w / 8) prt.elems xs
  ready : EP.Ready prt.elemPrinter
  file : prt.file = out

theorem printElemsOn_agree (elemSet : σ) {x : EP.State × Bytes} (es : List (BitVec w))
    (h : EP.Ready x.1) :
    AgreeUnless Refused (fun y text => EP.Ready y.1 ∧ y.2 = x.2 ++ text)
      (printElemsOn EP elemSet x es) (writeAll (P.printOne elemSet) es) := by
  induction es generalizing x with
  | nil => exact Or.inr ⟨h, (List.append_nil _).symm⟩
  | cons e es ih =>
    rw [printElemsOn, writeAll]
    refine (EP.printOne_agree elemSet e h).bind fun y text hy => ?_
    refine (ih hy.1).bind_right fun z rest hz => ⟨hz.1, ?_⟩
    rw [hz.2, hy.2, List.append_assoc]

theorem printLineOn_agree (elemSet : σ) {prt : PathTriePrinterType w EP.State}
    {xs : List (BitVec w)} {out : Bytes} (h : Printing prt xs out) :
    AgreeUnless Refused (fun prt' text => Printing prt' xs (out ++ text))
      (printLineOn EP elemSet prt) (printLine P elemSet xs) := by
  rw [printLineOn, members_eq h.elems, printLine]
  refine agreeUnless_bind _ fun elems => ?_
  refine (@printElemsOn_agree _ _ _ EP elemSet (prt.elemPrinter, prt.file) elems h.ready).bind
    fun y text hy => Or.inr ⟨h.elems, hy.1, ?_⟩
  rw [hy.2, h.file, List.append_assoc]

theorem pushOn_spec {prt : PathTriePrinterType w EP.State} {xs : List (BitVec w)} {out : Bytes}
    {e : BitVec w} (h : Printing prt xs out) (_ : e ≠ 0) :
    Stops Refused (pushOn EP prt e) ∨
      ∃ prt', pushOn EP prt e = .ok prt' ∧ Printing prt' (xs ++ [e]) out := by
  rcases push_spec h.elems e with ⟨-, -, hrun⟩ | ⟨s, hrun, hs, -⟩
  · exact Or.inl ⟨_, Or.inr rfl, by rw [pushOn, hrun, error_bind]⟩
  · exact Or.inr ⟨{ prt with elems := s }, by rw [pushOn, hrun]; rfl, hs, h.ready, h.file⟩

theorem popOn_spec {prt : PathTriePrinterType w EP.State} {xs : List (BitVec w)} {out : Bytes}
    {e : BitVec w} (h : Printing prt (xs ++ [e]) out) :
    ∃ prt', popOn EP prt = .ok prt' ∧ Printing prt' xs out := by
  rcases pop_spec h.elems with ⟨hnil, -⟩ | ⟨s, ys, v, heq, hrun, hs, -⟩
  · simp at hnil
  · obtain rfl : xs = ys := (List.append_inj' heq rfl).1
    exact ⟨{ prt with elems := s }, by rw [popOn, hrun]; rfl, hs, h.ready, h.file⟩

theorem printOn_agree (hw : w = 32 ∨ w = 64) (t : PathTrie σ w) (supply supply' : List Bool) :
    AgreeUnless Refused (· = ·) (printOn EP t supply supply') (print P t) := by
  have hsz : 0 < w / 8 := by omega
  have hfit : w / 8 * initCount 0 ≤ sizeMax := by
    rcases hw with rfl | rfl <;> decide
  rw [printOn, print]
  split_ifs
  · exact Or.inr rfl
  · rcases @init_spec (BitVec w) (w / 8) hsz 0 0 supply hfit with ⟨-, hrun⟩ | ⟨elems, hrun, helems, -⟩
    · exact Or.inl ⟨_, Or.inl rfl, by rw [hrun, error_bind]⟩
    rw [hrun, ok_bind, printerPrint_eq_walk]
    rcases EP.init_ready supply' with hstop | hready
    · exact Or.inl (hstop.bind _)
    obtain ⟨st, hst, hready⟩ := hready.ok_right
    rw [hst, ok_bind]
    have hstart : @Printing _ _ _ EP ⟨elems, st, []⟩ [] [] := ⟨helems, hready, rfl⟩
    have hwalk : AgreeUnless Refused (fun prt text => @Printing _ _ _ EP prt [] ([] ++ text))
        (printerPrintOn EP t t.nodes.length ⟨elems, st, []⟩ t.rootNode)
        (walk .hang t.readCell 0 (printLine P t.elemSet) t.nodes.length [] t.rootNode) :=
      walkOn_agree (R := Printing) (printLineOn_agree t.elemSet) pushOn_spec popOn_spec hstart
    exact hwalk.bind_left fun prt text hprt => ⟨prt.file, rfl, hprt.file⟩

end PathTrie

def Table.elemPrinter {w : Nat} (addr : Nat → BitVec w) :
    (k : Table) → ElemPrinter (k.printableNodes.placed addr)
  | .trie => .climbing addr
  | .lhash => .direct _
  | .ghash => .direct _

/-- What a path set prints on its stacks after loading lines. -/
theorem path_set_print_on_stacks (k : Table) {w : Nat} (hw : w = 32 ∨ w = 64) (U : UintHash w)
    (addr : Nat → BitVec w) {opt : Options} (hopt : opt.Accepted) (size : Nat)
    {lines : List Bytes} (hlines : ∀ l ∈ lines, 0 ∉ l) (supply supply' : List Bool) :
    ∃ s, k.create opt = .ok s ∧
      let path := PathTrie.printSet U (k.printableNodes.placed addr)
        (opt.sepSet.getD PathTrie.defaultSep)
      (run (path.put size) (PathTrie.init s opt.sepSet) (lines.zipIdx 1) = .error .alloc ∨
        ∃ t, run (path.put size) (PathTrie.init s opt.sepSet) (lines.zipIdx 1) =
            .ok (t, putAnswers size lines) ∧
          (Stops Refused (PathTrie.printOn (k.elemPrinter addr) t supply supply') ∨
            ([] ∈ lines ∧ PathTrie.printOn (k.elemPrinter addr) t supply supply' =
              .error (.ensure "stack is empty")) ∨
            ([] ∉ lines ∧ ∃ ls, ls.Perm (firsts lines) ∧
              PathTrie.printOn (k.elemPrinter addr) t supply supply' = .ok (textLines ls)))) := by
  obtain ⟨s, hs, htakes⟩ := k.path_takes_printable hopt hlines U addr size
  refine ⟨s, hs, ?_⟩
  rcases htakes with ⟨halloc, -⟩ | ⟨t, m, hrun, hrep, hdom⟩
  · exact Or.inl halloc
  refine Or.inr ⟨t, hrun, ?_⟩
  rcases @PathTrie.printOn_agree _ _ _ (k.elemPrinter addr) hw t supply supply' with
    hstop | hagree
  · exact Or.inl hstop
  right
  by_cases hempty : [] ∈ lines
  · have htrouble : PathTrie.print (k.printableNodes.placed addr) t =
        .error (.ensure "stack is empty") :=
      PrintSet.print_trouble _ hrep ((hdom []).mpr hempty) (not_not.mpr rfl)
    rw [htrouble] at hagree
    exact Or.inl ⟨hempty, hagree.error_right⟩
  · obtain ⟨ls, hperm, hprint⟩ := PrintSet.print_keys _ hrep (nodup_firsts lines)
      (fun l => (hdom l).trans mem_firsts.symm) fun l hl hnil => hempty (hnil ▸ mem_firsts.mp hl)
    have hlines : PathTrie.print (k.printableNodes.placed addr) t = .ok (textLines ls) := hprint
    rw [hlines] at hagree
    obtain ⟨text, htext, rfl⟩ := hagree.ok_right
    exact Or.inr ⟨hempty, ls, hperm, htext⟩

def printLoaded (lines : List Bytes) (supply supply' : List Bool) : Outcome Bytes := do
  let (t, _) ← run (packedPaths.put 64) (PathTrie.init Trie.init none) (lines.zipIdx 1)
  PathTrie.printOn (Table.elemPrinter packed .trie) t supply supply'

theorem path_set_print_on_stacks_branch :
    ∃ t ls, run (packedPaths.put 64) (PathTrie.init Trie.init none) (branchLines.zipIdx 1) =
        .ok (t, putAnswers 64 branchLines) ∧ ls.Perm (firsts branchLines) ∧
      PathTrie.printOn (Table.elemPrinter packed .trie) t [true] [true] = .ok (textLines ls) := by
  have hprint : printLoaded branchLines [true] [true] = .ok (textLines [[97, 47], [97, 47, 98]]) := by
    decide +kernel
  obtain ⟨x, hrun, hprint⟩ := bind_eq_ok.mp hprint
  obtain ⟨s, hs, hcases⟩ := path_set_print_on_stacks .trie (Or.inr rfl) .mix64 packed
    defaultOptions_accepted 64 (show ∀ l ∈ branchLines, 0 ∉ l by decide) [true] [true]
  obtain rfl : Trie.init = s := Except.ok.inj hs
  rcases hcases with halloc | ⟨t, hrun', hcases⟩
  · cases hrun.symm.trans halloc
  · obtain rfl := Except.ok.inj (hrun.symm.trans hrun')
    rcases hcases with ⟨e, -, hstop⟩ | ⟨hmem, -⟩ | ⟨-, ls, hperm, hls⟩
    · cases hprint.symm.trans hstop
    · exact absurd hmem (by decide)
    · exact ⟨t, ls, hrun', hperm, hls⟩

end PathSet
