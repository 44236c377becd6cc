import PathSet.PathTrie32Runs
import PathSet.PathTrieCounts
import PathSet.Tables

/-!
The answers of all sets of lines: zero for a line that is new, and otherwise the number
of the first line equal to it. Over offsets a path set has to stop when its nodes are
more than there are offsets.
-/

namespace PathSet
open Fallible Pointer LinkedTree TernaryTree FirstSeen

def firstNumbers (lines : List Bytes) : List Nat :=
  lines.mapIdx fun i l => if l ∈ lines.take i then firstIndex lines l + 1 else 0

theorem putAnswers_eq {lines : List Bytes} (h : lines.length < 2 ^ 64) :
    putAnswers 64 lines = firstNumbers lines := by
  refine List.ext_getElem? fun i => ?_
  cases hl : lines[i]? with
  | none =>
    have hlen : lines.length ≤ i := List.getElem?_eq_none_iff.mp hl
    rw [putAnswers, answers_getElem?, List.getElem?_eq_none (by simpa using hlen), firstNumbers,
      List.getElem?_mapIdx, hl]
    rfl
  | some l =>
    rw [getElem?_putAnswers hl, firstNumbers, List.getElem?_mapIdx, hl, Option.map_some]
    split_ifs with hmem
    · have hfirst := firstIndex_lt (List.mem_of_mem_take hmem)
      rw [Nat.mod_eq_of_lt (by omega), Nat.add_comm]
    · rfl

/-- Ended with the expected answers, if not by lack of memory. -/
def AnswersWith {σ : Type} (rs : List Nat) (enough : Prop) (x : Outcome (σ × List Nat)) : Prop :=
  (x = .error .alloc ∧ ¬enough) ∨ ∃ s, x = .ok (s, rs)

/-- Over offsets a run also ends when there are more nodes than offsets. -/
def OffsetsAnswer {σ : Type} (rs : List Nat) (enough : Prop) (nodes : Nat)
    (x : Outcome (σ × List Nat)) : Prop :=
  (x = .error .alloc ∧ ¬enough) ∨
    (x = .error (.ensure "path trie node alloc failed") ∧ (enough → 2 ^ 32 - 1 < nodes)) ∨
    ((∃ s, x = .ok (s, rs)) ∧ nodes ≤ 2 ^ 32 - 1)

theorem answersWith_of_takes {σ : Type} {S : SetImpl σ} {s₀ : σ} {lines : List Bytes} {enough : Prop}
    (h : Table.Takes S 64 s₀ lines enough) (hlen : lines.length < 2 ^ 64) :
    AnswersWith (firstNumbers lines) enough (run (S.put 64) s₀ (lines.zipIdx 1)) := by
  rw [← putAnswers_eq hlen]
  rcases h with h | ⟨s, m, h, -⟩
  · exact Or.inl h
  · exact Or.inr ⟨s, h⟩

theorem offsets_answer {σ : Type} {w : Nat} (U : UintHash w) (E : ElemSet σ w) (hw : w ≤ 64) {s₀ : σ}
    {me₀ : Bytes → Option (BitVec w)} (hE : E.Rep s₀ me₀) {opt : Options} (hopt : opt.Accepted)
    (checked : Bool) {lines : List Bytes} {enough : Prop} (hlines : ∀ l ∈ lines, 0 ∉ l)
    (hlen : lines.length < 2 ^ 64)
    (htakes : Table.Takes (PathTrie.set U E (opt.sepSet.getD PathTrie.defaultSep)) 64
      (PathTrie.init s₀ opt.sepSet) lines enough) :
    ∃ t₀, PathTrie32.init s₀ opt.nodeSize opt.sepSet = .ok t₀ ∧
      OffsetsAnswer (firstNumbers lines) enough
        (prefixCount (lines.map (endMarked (opt.sepSet.getD PathTrie.defaultSep))))
        (run (PathTrie32.put U E checked 64) t₀ (lines.zipIdx 1)) := by
  obtain ⟨t₀, ht₀, h₀⟩ := @PathTrie32.init_refines σ w s₀ opt hopt
  refine ⟨t₀, ht₀, ?_⟩
  have hps : ∀ p ∈ lines.zipIdx 1, 0 ∉ p.1 := fun p hp => (zipIdx_noNul hlines p hp).1
  have hrefines := PathTrie32.run_refines checked hw (Nat.le_refl 64) hps h₀
    (@PathTrie.holding_init σ w U E s₀ me₀ hE opt.sepSet)
  rcases htakes with ⟨hstop, hfew⟩ | ⟨v, m, hrun, ⟨⟨T, me, hknows⟩, hsep⟩, hdom⟩
  · rcases hrefines with ⟨hover, -⟩ | hagree
    · exact Or.inr (Or.inl ⟨hover, fun henough => absurd henough hfew⟩)
    · rw [hstop] at hagree
      exact Or.inl ⟨hagree.error_right, hfew⟩
  · have hnodes : v.nodes.length =
        prefixCount (lines.map (endMarked (opt.sepSet.getD PathTrie.defaultSep))) := by
      rw [← hknows.holds.counted, PathTrie.nodeStruct_eq hknows hdom, hsep]
    rcases hrefines with ⟨hover, hmany⟩ | hagree
    · exact Or.inr (Or.inl ⟨hover, fun _ => hnodes ▸ hmany _ hrun⟩)
    · rw [hrun] at hagree
      obtain ⟨⟨t, rs⟩, hoff, hrs, href, -⟩ := hagree.ok_right
      obtain rfl : rs = _ := hrs
      rw [← putAnswers_eq hlen]
      exact Or.inr (Or.inr ⟨⟨t, hoff⟩, hnodes ▸ href.room⟩)

/-- All sets answer the lines alike, the path sets over offsets as long as there are offsets for
their nodes. -/
theorem dictionaries_answer {w : Nat} (hw : w ≤ 64) (U : UintHash w) (addr : Nat → BitVec w)
    (printOne checked : Bool) {opt : Options} (hopt : opt.Accepted) {lines : List Bytes}
    (hlines : ∀ l ∈ lines, 0 ∉ l) (hlen : lines.length < 2 ^ 64) (k : Table) :
    ∃ s t₀, k.create opt = .ok s ∧ PathTrie32.init s opt.nodeSize opt.sepSet = .ok t₀ ∧
      let E := (k.nodes printOne).placed addr
      let sep := opt.sepSet.getD PathTrie.defaultSep
      let ps := lines.zipIdx 1
      let enough := k.Enough addr (lines.flatMap (elements sep))
      (AnswersWith (firstNumbers lines) (k.Room lines) (run ((k.plain 64).put 64) s ps) ∧
        AnswersWith (firstNumbers lines) enough
          (run ((PathTrie.set U E sep).put 64) (PathTrie.init s opt.sepSet) ps) ∧
        OffsetsAnswer (firstNumbers lines) enough (prefixCount (lines.map (endMarked sep)))
          (run (PathTrie32.put U E checked 64) t₀ ps)) := by
  obtain ⟨s, hs, -, -, hrep, hcount⟩ := k.create_spec printOne 64 hopt
  obtain ⟨s', hs', hplain⟩ := k.plain_takes hopt hlines 64 64
  obtain rfl : s = s' := Except.ok.inj (hs.symm.trans hs')
  obtain ⟨s', hs', hpath⟩ := k.path_takes hopt hlines U addr printOne 64
  obtain rfl : s = s' := Except.ok.inj (hs.symm.trans hs')
  obtain ⟨t₀, ht₀, hoffsets⟩ := offsets_answer U _ hw (NodeSet.placed_empty _ addr hrep hcount) hopt
    checked hlines hlen hpath
  refine ⟨s, t₀, hs, ht₀, ?_, answersWith_of_takes hpath hlen, hoffsets⟩
  exact (answersWith_of_takes hplain hlen).imp_left
    (And.imp_right fun hfew hroom => hfew ⟨Nat.le_refl 64, hroom⟩)

def dottedLines : List Bytes := [[97, 46, 98], [97, 47], [97, 46, 98]]

theorem dictionaries_answer_dotted :
    ∃ s t₀, LHash.init tinyOptions = .ok s ∧ PathTrie32.init s 1 none = .ok t₀ ∧
      (∃ h, run ((LHash.plain 64).put 64) s (dottedLines.zipIdx 1) = .ok (h, [0, 0, 1])) ∧
      (∃ v, run ((PathTrie.set .mix64 ((LHash.nodeSet LHash.elemKind).placed packed)
        PathTrie.defaultSep).put 64) (PathTrie.init s none) (dottedLines.zipIdx 1) =
          .ok (v, [0, 0, 1])) ∧
      ∃ t, run (PathTrie32.put .mix64 ((LHash.nodeSet LHash.elemKind).placed packed) false 64) t₀
        (dottedLines.zipIdx 1) = .ok (t, [0, 0, 1]) := by
  have henough : Table.lhash.Enough packed (dottedLines.flatMap (elements PathTrie.defaultSep)) := by
    decide +kernel
  have hnodes : ¬2 ^ 32 - 1 < prefixCount (dottedLines.map (endMarked PathTrie.defaultSep)) := by
    decide +kernel
  obtain ⟨s, t₀, hs, ht₀, hplain, hpointers, hoffsets⟩ := dictionaries_answer (Nat.le_refl 64) .mix64
    packed true false tinyOptions_accepted (show ∀ l ∈ dottedLines, 0 ∉ l by decide)
    (show dottedLines.length < 2 ^ 64 by decide) .lhash
  refine ⟨s, t₀, hs, ht₀, hplain.resolve_left fun h => h.2 (by decide +kernel),
    hpointers.resolve_left fun h => h.2 henough, ?_⟩
  exact ((hoffsets.resolve_left fun h => h.2 henough).resolve_left
    fun h => hnodes (h.2 henough)).1

def slashes (n : Nat) : Bytes := List.replicate n 47

theorem elements_slashes (n : Nat) :
    elements PathTrie.defaultSep (slashes n) = List.replicate n [47] := by
  induction n with
  | zero => rfl
  | succ n ih =>
    have hcons : slashes (n + 1) = 47 :: slashes n := List.replicate_succ
    have hsep : (47 : UInt8) ∈ PathTrie.defaultSep := List.mem_cons_self
    rw [hcons, elements, if_pos hsep, ih, List.replicate_succ]

theorem notMem_slashes (n : Nat) : 0 ∉ slashes n := fun h =>
  absurd (List.eq_of_mem_replicate h) (by decide)

namespace PathTrie

theorem intern_slashes (n : Nat) :
    ∃ s ids, trieElems.internAll Trie.init (elements defaultSep (slashes n)) = .ok (s, ids) ∧
      ids.length = n := by
  have hall : ∃ s ids, trieElems.internAll Trie.init (List.replicate n [47]) = .ok (s, ids) := by
    cases n with
    | zero => exact ⟨_, _, rfl⟩
    | succ n =>
      rcases trieElems.insert_spec trieElems_empty ((trieElems.key_iff [47]).mpr (by decide)) with
        ⟨e, -, he⟩ | ⟨s, i, m, hins, hrep, -, hi, -⟩
      · have hok : (trieElems.insert Trie.init [47]).isOk = true := by decide +kernel
        rw [he] at hok
        cases hok
      · obtain ⟨s', ids, hrun, -⟩ := trieElems.internAll_known hrep
          (show ∀ k ∈ List.replicate n [47], (m k).isSome from fun k hk => by
            rw [List.eq_of_mem_replicate hk, hi]
            rfl)
        rw [List.replicate_succ, Interner.internAll_cons, hins, ok_bind, hrun]
        exact ⟨_, _, rfl⟩
  obtain ⟨s, ids, hall⟩ := hall
  refine ⟨s, ids, (elements_slashes n).symm ▸ hall, ?_⟩
  rw [run_length hall, List.length_replicate]

theorem insert_slashes (n : Nat) :
    ∃ v, insert .mix64 trieElems (init Trie.init none) (slashes n) = .ok (v, true, v.nodes.length) ∧
      v.nodes.length = n + 1 := by
  obtain ⟨s, ids, hall, hlen⟩ := intern_slashes n
  have hsep : (init Trie.init none : PathTrie Trie 64).sepSet = defaultSep := rfl
  rcases insert_cases (holds_init Trie.init none : Holds .mix64 (init Trie.init none) .nil)
      trieElems_empty (notMem_slashes n) with ⟨-, e, -, hfull⟩ | ⟨s', ids', hall', hcases⟩
  · rw [hsep, show (init Trie.init none : PathTrie Trie 64).elemSet = Trie.init from rfl, hall] at hfull
    cases hfull
  · have hids : ids' = ids := by
      rw [hsep, show (init Trie.init none : PathTrie Trie 64).elemSet = Trie.init from rfl, hall]
        at hall'
      exact (Prod.mk.inj (Except.ok.inj hall')).2.symm
    rcases hcases with ⟨i, stats, -, hfound, -⟩ | ⟨v, l, ks, hins, hhole, -, -, -, hnodes, -⟩
    · cases hfound
    · obtain ⟨-, rfl⟩ := Place.hole.inj hhole
      refine ⟨v, hins, ?_⟩
      rw [hnodes, hids, List.length_append, hlen]
      exact Nat.zero_add _

end PathTrie

/-- A line of 2³² - 1 separators needs 2³² nodes, one more than there are offsets. The
plain trie takes the line. -/
theorem offsets_run_out :
    ∃ t₀ : PathTrie32 Trie 64, PathTrie32.init Trie.init (KB 1) none = .ok t₀ ∧
      run (PathTrie32.put .mix64 PathTrie.trieElems false 64) t₀ [(slashes (2 ^ 32 - 1), 1)] =
        .error (.ensure "path trie node alloc failed") ∧
      ∃ s, run (Trie.plain.put 64) Trie.init [(slashes (2 ^ 32 - 1), 1)] = .ok (s, [0]) := by
  obtain ⟨t₀, ht₀, h₀⟩ :=
    @PathTrie32.init_refines Trie 64 Trie.init defaultOptions defaultOptions_accepted
  have hclosed := PathTrie.closed_of_holds
    (PathTrie.holds_init Trie.init none : PathTrie.Holds .mix64 (PathTrie.init Trie.init none) .nil)
  obtain ⟨v, hins, hlen⟩ := PathTrie.insert_slashes (2 ^ 32 - 1)
  refine ⟨t₀, ht₀, ?_, ?_⟩
  · have hput := PathTrie32.insert_refines .mix64 PathTrie.trieElems false
      (show PathTrie32.nodeBytes 64 64 ≤ 2 ^ 31 by decide) h₀ hclosed (slashes (2 ^ 32 - 1))
    rw [show PathTrie.insert _ _ (PathTrie.init Trie.init defaultOptions.sepSet) _ = _ from hins] at hput
    rcases hput with ⟨hfull, -⟩ | hagree
    · rw [run_cons, PathTrie32.put, assert_of Nat.one_pos, ok_bind, hfull]
      rfl
    · obtain ⟨⟨t, b, q⟩, -, -, href, -⟩ := hagree.ok_right
      have hroom : v.nodes.length ≤ 2 ^ 32 - 1 := PathTrie32.Refines.room href
      omega
  · have hline : ∀ p ∈ [(slashes (2 ^ 32 - 1), 1)], 0 ∉ p.1 ∧ 0 < p.2 := by
      intro p hp
      obtain rfl := List.mem_singleton.mp hp
      exact ⟨notMem_slashes _, Nat.one_pos⟩
    rcases Trie.plain.put_run 64 Trie.recorded_init hline with ⟨e, he, -⟩ | ⟨s, hrun, -⟩
    · exact he.elim
    · exact ⟨s, hrun⟩

end PathSet
