import PathSet.PathTriePrint
import PathSet.PathTrieCounts
import PathSet.HashRoom

/-!
The three tables of the program. Each makes a plain set, whose keys are the lines, and
a path set, whose path trie keeps the elements of the lines in the table.
-/

namespace PathSet
open Fallible FirstSeen Numbered TernaryTree

inductive Table where
  | trie
  | lhash
  | ghash
  deriving DecidableEq, Repr

namespace Table

def State : Table → Type
  | .trie => Trie
  | .lhash => LHash
  | .ghash => GHash

def create (opt : Options) : (k : Table) → Outcome k.State
  | .trie => .ok Trie.init
  | .lhash => LHash.init opt
  | .ghash => GHash.init opt

def plain (size : Nat) : (k : Table) → PrintSet k.State
  | .trie => Trie.plainSet
  | .lhash => LHash.plainSet size
  | .ghash => GHash.plainSet

def nodes (printOne : Bool) : (k : Table) → NodeSet k.State
  | .trie => Trie.nodeSet printOne
  | .lhash => LHash.nodeSet LHash.elemKind
  | .ghash => GHash.nodeSet GHash.elemKind

def printableNodes : (k : Table) → PrintNodes k.State
  | .trie => Trie.printableNodes
  | .lhash => LHash.printableNodes LHash.elemKind
  | .ghash => GHash.printableNodes GHash.elemKind

theorem printableNodes_toNodeSet (k : Table) : k.printableNodes.toNodeSet = k.nodes true := by
  cases k <;> rfl

theorem plain_exhausted (size : Nat) (k : Table) {e : Abort} (h : (k.plain size).Exhausted e) :
    e = .alloc := by
  cases k with
  | trie => exact False.elim h
  | lhash => exact h
  | ghash => exact h

theorem nodes_exhausted (printOne : Bool) (k : Table) {e : Abort}
    (h : (k.nodes printOne).Exhausted e) : e = .alloc := by
  cases k with
  | trie => exact False.elim h
  | lhash => exact h
  | ghash => exact h

theorem create_spec (printOne : Bool) (size : Nat) {opt : Options} (hopt : opt.Accepted)
    (k : Table) : ∃ s, k.create opt = .ok s ∧ (k.plain size).Recorded [] s (fun _ => none) ∧
      (k.nodes printOne).Seen [] s ∧ (k.nodes printOne).Rep s (fun _ => none) ∧
      (k.nodes printOne).count s = 0 := by
  cases k with
  | trie =>
    have hrep : (Trie.nodeSet printOne).Rep Trie.init (fun _ => none) := Trie.represents_init printOne
    exact ⟨Trie.init, rfl, Trie.recorded_init, Interner.seen_empty _ hrep rfl rfl, hrep, rfl⟩
  | lhash =>
    obtain ⟨h, hinit, hh, hu, hd⟩ := LHash.init_numbered (LHash.plainKind size) hopt
    obtain ⟨h', hinit', hh', -, -⟩ := LHash.init_numbered LHash.elemKind hopt
    obtain rfl : h = h' := Except.ok.inj (hinit.symm.trans hinit')
    have hrep : (LHash.nodeSet LHash.elemKind).Rep h (fun _ => none) := Store.represents_empty _ hh'
    exact ⟨h, hinit, Dictionary.recorded_empty _ (Store.represents_empty _ hh) hu hd,
      Interner.seen_empty _ hrep hu hd, hrep, hh'.1.length⟩
  | ghash =>
    obtain ⟨h, hinit, hh, hu, hd⟩ := GHash.init_numbered GHash.plainKind hopt
    obtain ⟨h', hinit', hh', -, -⟩ := GHash.init_numbered GHash.elemKind hopt
    obtain rfl : h = h' := Except.ok.inj (hinit.symm.trans hinit')
    have hrep : (GHash.nodeSet GHash.elemKind).Rep h (fun _ => none) := Store.represents_empty _ hh'
    exact ⟨h, hinit, Dictionary.recorded_empty _ (Store.represents_empty _ hh) hu hd,
      Interner.seen_empty _ hrep hu hd, hrep, hh'.1.length⟩

/-- The trie takes no memory but its nodes, a hash table takes `Modest` keys. -/
def Room : Table → List Bytes → Prop
  | .trie, _ => True
  | .lhash, keys => Modest keys
  | .ghash, keys => Modest keys

instance (k : Table) (keys : List Bytes) : Decidable (k.Room keys) :=
  match k with
  | .trie => inferInstanceAs (Decidable True)
  | .lhash => inferInstanceAs (Decidable (Modest keys))
  | .ghash => inferInstanceAs (Decidable (Modest keys))

def nodeStruct : (k : Table) → k.State → Nat
  | .trie, t => t.nodeStruct
  | .lhash, h => h.nodeStruct
  | .ghash, h => h.nodeStruct

def nodesFor : Table → List Bytes → Nat
  | .trie, keys => prefixCount (keys.map (· ++ [0]))
  | .lhash, keys => keys.toFinset.card
  | .ghash, keys => keys.toFinset.card

/-- There is room for the elements, and their nodes have addresses. -/
def Enough {w : Nat} (k : Table) (addr : Nat → BitVec w) (els : List Bytes) : Prop :=
  k.Room els ∧ Fits addr (k.nodesFor els)

instance {w : Nat} (k : Table) (addr : Nat → BitVec w) (els : List Bytes) :
    Decidable (k.Enough addr els) := inferInstanceAs (Decidable (_ ∧ _))

theorem nodesFor_le (k : Table) (els els' : List Bytes) : k.nodesFor els ≤ k.nodesFor (els ++ els') := by
  have hsub : els ⊆ els ++ els' := List.subset_append_left _ _
  have hcard : els.toFinset.card ≤ (els ++ els').toFinset.card :=
    Finset.card_le_card fun e he => List.mem_toFinset.mpr (hsub (List.mem_toFinset.mp he))
  cases k with
  | trie => exact prefixCount_mono (List.map_subset _ hsub)
  | lhash => exact hcard
  | ghash => exact hcard

theorem nodeStruct_eq (printOne : Bool) (k : Table) {s : k.State} {m : Bytes → Option Nat}
    {els : List Bytes} (hrep : (k.nodes printOne).Rep s m) (hdom : ∀ e, (m e).isSome ↔ e ∈ els) :
    k.nodeStruct s = k.nodesFor els := by
  cases k with
  | trie => exact Trie.nodeStruct_eq printOne hrep hdom
  | lhash => exact LHash.nodeStruct_eq LHash.elemKind hrep hdom
  | ghash => exact GHash.nodeStruct_eq GHash.elemKind hrep hdom

theorem count_eq (printOne : Bool) (k : Table) {s : k.State} {m : Bytes → Option Nat}
    (hrep : (k.nodes printOne).Rep s m) : (k.nodes printOne).count s = k.nodeStruct s := by
  cases k with
  | trie =>
    obtain ⟨T, hT, -⟩ := hrep
    exact hT.counted.symm
  | lhash =>
    obtain ⟨ks, ⟨hh, -⟩, -⟩ := hrep
    exact hh.length.trans hh.counted.symm
  | ghash =>
    obtain ⟨ks, ⟨hh, -⟩, -⟩ := hrep
    exact hh.length.trans hh.counted.symm

theorem plain_supplied {size : Nat} (hsize : size ≤ 64) (k : Table) :
    (k.plain size).Supplied k.Room := by
  cases k with
  | trie => exact ⟨fun _ _ _ _ ⟨e, he, _⟩ => he.elim, fun _ _ _ => trivial⟩
  | lhash =>
    refine LHash.supplied ?_
    show size / 8 ≤ 2 ^ 40
    omega
  | ghash => exact GHash.supplied (by decide)

theorem nodes_supplied (printOne : Bool) (k : Table) : (k.nodes printOne).Supplied k.Room := by
  cases k with
  | trie => exact ⟨fun _ _ _ _ ⟨e, he, _⟩ => he.elim, fun _ _ _ => trivial⟩
  | lhash =>
    have h := @LHash.supplied LHash.elemKind (by decide)
    exact ⟨h.insert, h.fewer⟩
  | ghash =>
    have h := @GHash.supplied GHash.elemKind (by decide)
    exact ⟨h.insert, h.fewer⟩

theorem placed_supplied {w : Nat} (addr : Nat → BitVec w) (printOne : Bool) (k : Table) :
    ((k.nodes printOne).placed addr).Supplied (k.Enough addr) :=
  NodeSet.placed_supplied _ addr (k.nodes_supplied printOne)
    (fun hrep hdom => (k.count_eq printOne hrep).trans (k.nodeStruct_eq printOne hrep hdom))
    k.nodesFor_le

def Takes {σ : Type} (S : SetImpl σ) (size : Nat) (s₀ : σ) (keys : List Bytes) (enough : Prop) :
    Prop :=
  (run (S.put size) s₀ (keys.zipIdx 1) = .error .alloc ∧ ¬enough) ∨
    ∃ s m, run (S.put size) s₀ (keys.zipIdx 1) = .ok (s, putAnswers size keys) ∧
      S.Rep s m ∧ ∀ k, (m k).isSome ↔ k ∈ keys

theorem takes_of_recorded {σ : Type} (S : SetImpl σ) (size : Nat) {s₀ : σ} {enough : Prop}
    (h₀ : S.Recorded [] s₀ (fun _ => none)) (halloc : ∀ e, S.Exhausted e → e = .alloc)
    {keys : List Bytes} (hkeys : ∀ key ∈ keys, 0 ∉ key)
    (hroom : enough → ¬Stops S.Exhausted (run (S.put size) s₀ (keys.zipIdx 1))) :
    Takes S size s₀ keys enough := by
  rcases S.keys_run size h₀ hkeys with ⟨e, he, hrun⟩ | hrun
  · exact Or.inl ⟨halloc e he ▸ hrun, fun henough => hroom henough ⟨e, he, hrun⟩⟩
  · exact Or.inr hrun

section
variable (k : Table) {opt : Options} (hopt : opt.Accepted) {keys : List Bytes}
  (hkeys : ∀ key ∈ keys, 0 ∉ key)
include hopt hkeys

theorem plain_takes (width size : Nat) :
    ∃ s, k.create opt = .ok s ∧
      Takes (k.plain width).toSetImpl size s keys (width ≤ 64 ∧ k.Room keys) := by
  obtain ⟨s, hs, hrec, -⟩ := k.create_spec true width hopt
  refine ⟨s, hs, takes_of_recorded _ size hrec (fun _ => k.plain_exhausted width) hkeys ?_⟩
  rintro ⟨hwidth, hroom⟩
  exact SetImpl.put_supplied size (k.plain_supplied hwidth) hrec hkeys hroom

theorem path_takes {w : Nat} (U : UintHash w) (addr : Nat → BitVec w) (printOne : Bool) (size : Nat) :
    ∃ s, k.create opt = .ok s ∧
      Takes (PathTrie.set U ((k.nodes printOne).placed addr) (opt.sepSet.getD PathTrie.defaultSep))
        size (PathTrie.init s opt.sepSet) keys
        (k.Enough addr (keys.flatMap (elements (opt.sepSet.getD PathTrie.defaultSep)))) := by
  obtain ⟨s, hs, -, hseen, hrep, hcount⟩ := k.create_spec printOne 0 hopt
  have hempty := NodeSet.placed_empty _ addr hrep hcount
  refine ⟨s, hs, takes_of_recorded _ size (Dictionary.recorded_empty _
    (PathTrie.holding_init hempty opt.sepSet) rfl rfl) ?_ hkeys ?_⟩
  · rintro e (he | he)
    · exact k.nodes_exhausted printOne he
    · exact he
  · exact PathTrie.load_supplied (k.placed_supplied addr printOne)
      (NodeSet.placed_seen _ addr hseen hcount) opt.sepSet size hkeys

end

end Table

theorem Table.path_takes_printable (k : Table) {opt : Options} (hopt : opt.Accepted)
    {keys : List Bytes} (hkeys : ∀ key ∈ keys, 0 ∉ key) {w : Nat} (U : UintHash w)
    (addr : Nat → BitVec w) (size : Nat) :
    ∃ s, k.create opt = .ok s ∧
      Takes (PathTrie.printSet U (k.printableNodes.placed addr)
        (opt.sepSet.getD PathTrie.defaultSep)).toSetImpl size (PathTrie.init s opt.sepSet) keys
        (k.Enough addr (keys.flatMap (elements (opt.sepSet.getD PathTrie.defaultSep)))) := by
  have h := k.path_takes hopt hkeys U addr true size
  rw [← k.printableNodes_toNodeSet] at h
  exact h

/-- A path set and a plain set with the same lines print the same lines, each of them
once, if and only if the empty line is not one of them, and none is longer than an `int`
where the plain set is the trie. -/
theorem path_trie_print_iff {w : Nat} (U : UintHash w) (addr : Nat → BitVec w) {opt : Options}
    (hopt : opt.Accepted) (size : Nat) (k k' : Table) {lines : List Bytes}
    (hlines : ∀ l ∈ lines, 0 ∉ l) :
    ∃ s s', k.create opt = .ok s ∧ k'.create opt = .ok s' ∧
      let path := PathTrie.printSet U (k.printableNodes.placed addr)
        (opt.sepSet.getD PathTrie.defaultSep)
      let plain := k'.plain size
      (run (path.put size) (PathTrie.init s opt.sepSet) (lines.zipIdx 1) = .error .alloc ∨
        run (plain.put size) s' (lines.zipIdx 1) = .error .alloc ∨
        ∃ t rs t' rs',
          run (path.put size) (PathTrie.init s opt.sepSet) (lines.zipIdx 1) = .ok (t, rs) ∧
          run (plain.put size) s' (lines.zipIdx 1) = .ok (t', rs') ∧
          (PrintAlike (PathTrie.print (k.printableNodes.placed addr) t) (plain.print t')
              (firsts lines) ↔
            [] ∉ lines ∧ (k' = .trie → ∀ l ∈ lines, l.length ≤ 2 ^ 31 - 1))) := by
  obtain ⟨s, hs, hpath⟩ := k.path_takes_printable hopt hlines U addr size
  obtain ⟨s', hs', hplain⟩ := k'.plain_takes hopt hlines size size
  refine ⟨s, s', hs, hs', ?_⟩
  rcases hpath with ⟨halloc, -⟩ | ⟨t, m, hrun, hrep, hdom⟩
  · exact Or.inl halloc
  rcases hplain with ⟨halloc, -⟩ | ⟨t', m', hrun', hrep', hdom'⟩
  · exact Or.inr (Or.inl halloc)
  refine Or.inr (Or.inr ⟨t, _, t', _, hrun, hrun', ?_⟩)
  have hfirst : ∀ l, (m l).isSome ↔ l ∈ firsts lines := fun l => (hdom l).trans mem_firsts.symm
  have hfirst' : ∀ l, (m' l).isSome ↔ l ∈ firsts lines := fun l => (hdom' l).trans mem_firsts.symm
  have hiff := PrintSet.printAlike_iff _ (k'.plain size) hrep hrep' (nodup_firsts lines) hfirst hfirst'
  refine hiff.trans ?_
  constructor
  · intro h
    refine ⟨fun hnil => (h [] (mem_firsts.mpr hnil)).1 rfl, ?_⟩
    rintro rfl l hl
    exact (h l (mem_firsts.mpr hl)).2
  · rintro ⟨hnil, hlong⟩ l hl
    have hmem := mem_firsts.mp hl
    refine ⟨fun hempty => hnil (hempty ▸ hmem), ?_⟩
    cases k' with
    | trie => exact hlong rfl l hmem
    | lhash => exact trivial
    | ghash => exact trivial

def packed (p : Nat) : BitVec 64 := BitVec.ofNat 64 (40 * p)

def packedPaths : PrintSet (PathTrie Trie 64) :=
  PathTrie.printSet .mix64 (Trie.printableNodes.placed packed) PathTrie.defaultSep

def printBoth (lines : List Bytes) : Outcome (Outcome Bytes × Outcome Bytes) := do
  let (t, _) ← run (packedPaths.put 64) (PathTrie.init Trie.init none) (lines.zipIdx 1)
  let (t', _) ← run (Trie.plainSet.put 64) Trie.init (lines.zipIdx 1)
  pure (packedPaths.print t, Trie.plainSet.print t')

/-- The empty line stops the path set, a plain set prints it. -/
theorem path_trie_print_empty_line :
    printBoth [[]] = .ok (.error (.ensure "stack is empty"), .ok (textLines [[]])) := by
  decide +kernel

def branchLines : List Bytes := [[97, 47, 98], [97, 47], [97, 47, 98]]

theorem path_trie_print_branch :
    ∃ t rs t' rs',
      run (packedPaths.put 64) (PathTrie.init Trie.init none) (branchLines.zipIdx 1) = .ok (t, rs) ∧
      run (Trie.plainSet.put 64) Trie.init (branchLines.zipIdx 1) = .ok (t', rs') ∧
      PrintAlike (packedPaths.print t) (Trie.plainSet.print t') (firsts branchLines) := by
  have hpath : (run (packedPaths.put 64) (PathTrie.init Trie.init none) (branchLines.zipIdx 1)).map
      Prod.snd = .ok [0, 0, 1] := by decide +kernel
  have hplain : (run (Trie.plainSet.put 64) Trie.init (branchLines.zipIdx 1)).map
      Prod.snd = .ok [0, 0, 1] := by decide +kernel
  obtain ⟨s, s', hs, hs', hcases⟩ := path_trie_print_iff .mix64 packed defaultOptions_accepted 64
    .trie .trie (show ∀ l ∈ branchLines, 0 ∉ l by decide)
  obtain rfl : Trie.init = s := Except.ok.inj hs
  obtain rfl : Trie.init = s' := Except.ok.inj hs'
  rcases hcases with halloc | halloc | ⟨t, rs, t', rs', hrun, hrun', hiff⟩
  · have hpath : (Except.error .alloc : Outcome _).map Prod.snd = .ok [0, 0, 1] := halloc ▸ hpath
    cases hpath
  · have hplain : (Except.error .alloc : Outcome _).map Prod.snd = .ok [0, 0, 1] := halloc ▸ hplain
    cases hplain
  · exact ⟨t, rs, t', rs', hrun, hrun', hiff.mpr ⟨by decide, fun _ => by decide⟩⟩

end PathSet
