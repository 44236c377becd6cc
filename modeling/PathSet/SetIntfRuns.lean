import PathSet.SetIntf

/-!
What a set has behind its interface after a load. Whatever the type, the object is the one
that its options ask for, its functions find their tag, and it prints the lines that were
loaded, or their elements.
-/

namespace PathSet
open Fallible Pointer LinkedTree TernaryTree FirstSeen Numbered

structure Loadable (verbose : Bool) (stream : Bytes) : Prop where
  heads : ∀ line ∈ elements [10] stream, line.head? ≠ some 0
  count : (lines stream).length < 2 ^ 64
  total : totalLength (lines stream) ≤ sizeMax
  short : verbose = true → ∀ l ∈ lines stream, l.length ≤ 2 ^ 31 - 1

section
variable {σ : Type} {put : σ → Bytes × Nat → Outcome (σ × Nat)} {verbose : Bool}

theorem loadLines_error {st : LoadState σ} {k : Nat} (hk : st.k = k % 2 ^ 64) {bs : List LineBuffer}
    (hbs : ∀ b ∈ bs, 10 ∉ b.line.dropLast) (hheads : ∀ b ∈ bs, b.line.head? ≠ some 0)
    (hmem : st.set.lineMem + totalLength (bs.map fun b => lineKey b.line) ≤ sizeMax)
    (hshort : verbose = true → ∀ b ∈ bs, (lineKey b.line).length ≤ 2 ^ 31 - 1) {e : Abort}
    (hrun : run put st.set.impl (calls k (bs.map fun b => lineKey b.line)) = .error e) :
    loadLines put verbose st bs = .error e := by
  induction bs generalizing st k with
  | nil => cases hrun
  | cons b bs ih =>
    have htotal : totalLength ((b :: bs).map fun b => lineKey b.line) =
        (lineKey b.line).length + totalLength (bs.map fun b => lineKey b.line) := List.sum_cons
    rw [htotal] at hmem
    have hline := hbs b List.mem_cons_self
    have hhead := hheads b List.mem_cons_self
    rw [List.map_cons, calls_cons, run_cons, ← hk] at hrun
    rw [loadLines]
    cases hput : put st.set.impl (lineKey b.line, st.k) with
    | error e' =>
      rw [hput] at hrun
      cases hrun
      rcases @loadLine_cases σ put verbose st b hline with ⟨he, -⟩ | ⟨-, warnings, hcount⟩
      · exact absurd he hhead
      · rw [hcount, countLine, hput]
        rfl
    | ok x =>
      obtain ⟨impl, r⟩ := x
      rw [hput, ok_bind] at hrun
      have hrest : run put impl (calls (k + 1) (bs.map fun b => lineKey b.line)) = .error e := by
        cases hrest : run put impl (calls (k + 1) (bs.map fun b => lineKey b.line)) with
        | error e' =>
          rw [hrest] at hrun
          cases hrun
          rfl
        | ok y =>
          rw [hrest] at hrun
          cases hrun
      obtain ⟨st', hst'⟩ := loadLine_of_put hline hhead hput
        (fun hv _ => hshort hv b List.mem_cons_self) (by omega)
      obtain ⟨-, impl', r', hput', -, -, hset, hnext⟩ := counts_of_loadLine hline hst'
      rw [hput] at hput'
      obtain ⟨rfl, rfl⟩ := Prod.mk.inj (Except.ok.inj hput')
      rw [hk] at hnext
      have hnext' : st'.k = (k + 1) % 2 ^ 64 := by rw [hnext, Nat.mod_add_mod]
      rw [← Nat.add_assoc] at hmem
      rw [hst', ok_bind]
      refine ih hnext' (fun b' hb' => hbs b' (List.mem_cons_of_mem b hb'))
        (fun b' hb' => hheads b' (List.mem_cons_of_mem b hb')) (by rw [hset]; exact hmem)
        (fun hv b' hb' => hshort hv b' (List.mem_cons_of_mem b hb')) (by rw [hset]; exact hrest)

theorem load_of_run {bs : List LineBuffer} {stream : Bytes} (hbs : Delivers bs stream)
    (hload : Loadable verbose stream) (s : σ) :
    (∀ e, run put s ((lines stream).zipIdx 1) = .error e →
      load put verbose ⟨s, 0, 0, 0⟩ bs = .error e) ∧
    ∀ s' rs, run put s ((lines stream).zipIdx 1) = .ok (s', rs) →
      ∃ st, load put verbose ⟨s, 0, 0, 0⟩ bs = .ok st ∧ st.set =
        ⟨s', rs.countP (· = 0), rs.countP (· ≠ 0), totalLength (lines stream)⟩ := by
  have hcalls := (calls_eq_iff (lines stream)).mpr hload.count
  constructor
  · intro e hrun
    rw [← hcalls, ← keys_of_delivers hbs] at hrun
    have htotal := hload.total
    rw [← keys_of_delivers hbs] at htotal
    refine @loadLines_error _ put verbose ⟨⟨s, 0, 0, 0⟩, 1, []⟩ 1 rfl bs (dropLast_of_delivers hbs)
      ((heads_of_delivers hbs).mpr hload.heads) (by simpa using htotal) (fun hv b hb => ?_) e hrun
    refine hload.short hv _ ?_
    rw [← keys_of_delivers hbs]
    exact List.mem_map_of_mem hb
  · intro s' rs hrun
    rw [← hcalls] at hrun
    refine (load_iff hbs).mpr ⟨hload.heads, rs, hrun, fun hv x hx _ => ?_, by simpa using hload.total,
      by simp⟩
    exact hload.short hv x.1 (List.of_mem_zip hx).1

end

structure Prints (x : Outcome Output) (ls : List Bytes) (fine : Prop) : Prop where
  ok : fine → ∃ ls', ls'.Perm (firsts ls) ∧ x = .ok (.of (textLines ls'))
  error : ¬fine → ∃ e, x = .error e ∧ e ≠ .alloc

def Short (ls : List Bytes) : Prop := ∀ l ∈ ls, l.length ≤ 2 ^ 31 - 1

theorem PrintSet.prints {σ : Type} (S : PrintSet σ) (hS : S.trouble ≠ .alloc) {s : σ}
    {m : Bytes → Option Nat} {keys : List Bytes} (hrep : S.Rep s m)
    (hdom : ∀ key, (m key).isSome ↔ key ∈ keys) :
    Prints (Output.of <$> S.print s) keys (∀ key ∈ keys, S.Printable key) := by
  have hfirst : ∀ key, (m key).isSome ↔ key ∈ firsts keys := fun key =>
    (hdom key).trans mem_firsts.symm
  constructor
  · intro hall
    obtain ⟨ls, hperm, hprint⟩ := S.print_keys hrep (nodup_firsts keys) hfirst fun key hkey =>
      hall key (mem_firsts.mp hkey)
    exact ⟨ls, hperm, by rw [hprint]; rfl⟩
  · intro hno
    push Not at hno
    obtain ⟨key, hkey, hbad⟩ := hno
    exact ⟨S.trouble, by rw [S.print_trouble hrep ((hdom key).mpr hkey) hbad]; rfl, hS⟩

theorem Prints.congr {x : Outcome Output} {ls : List Bytes} {p q : Prop} (h : Prints x ls p)
    (hpq : p ↔ q) : Prints x ls q := propext hpq ▸ h

namespace Table

theorem plain_trouble (size : Nat) (k : Table) : (k.plain size).trouble ≠ .alloc := by
  have htrouble : Abort.assertion ≠ .alloc := by decide
  cases k <;> exact htrouble

theorem plain_printable (size : Nat) (k : Table) (keys : List Bytes) :
    (∀ key ∈ keys, (k.plain size).Printable key) ↔ (k = .trie → Short keys) := by
  cases k with
  | trie => exact ⟨fun h _ => h, fun h => h rfl⟩
  | lhash => exact ⟨fun _ => nofun, fun _ _ _ => trivial⟩
  | ghash => exact ⟨fun _ => nofun, fun _ _ _ => trivial⟩

theorem printElems_prints (k : Table) {printOne : Bool} {s : k.State} {m : Bytes → Option Nat}
    {els : List Bytes} (hrep : (k.nodes printOne).Rep s m)
    (hdom : ∀ e, (m e).isSome ↔ e ∈ els) :
    Prints (Output.of <$> k.printElems s) els (k = .trie → Short els) := by
  have hfirst : ∀ e, (m e).isSome ↔ e ∈ firsts els := fun e => (hdom e).trans mem_firsts.symm
  constructor
  · intro hshort
    obtain ⟨ls, hperm, hprint⟩ := k.printElems_keys hrep (nodup_firsts els) hfirst
      fun htrie e he => hshort htrie e (mem_firsts.mp he)
    exact ⟨ls, hperm, by rw [hprint]; rfl⟩
  · intro hno
    simp only [Short] at hno
    push Not at hno
    obtain ⟨htrie, e, he, hlong⟩ := hno
    refine ⟨.assertion, ?_, by decide⟩
    rw [printElems_long hrep ((hdom e).mpr he) htrie (Nat.not_le.mpr hlong)]
    rfl

theorem isEmpty_create {k : Table} {opt : Options} (hopt : opt.Accepted) {s : k.State}
    (h : k.create opt = .ok s) : k.isEmpty s = true := by
  cases k with
  | trie =>
    cases h
    rfl
  | lhash =>
    obtain ⟨h', hinit, hh, -⟩ := LHash.init_numbered LHash.elemKind hopt
    obtain rfl := Except.ok.inj (hinit.symm.trans h)
    exact decide_eq_true hh.1.used
  | ghash =>
    obtain ⟨h', hinit, hh, -⟩ := GHash.init_numbered GHash.elemKind hopt
    obtain rfl := Except.ok.inj (hinit.symm.trans h)
    exact decide_eq_true hh.1.entries

theorem isEmpty_plain {k : Table} {size : Nat} {s : k.State} {m : Bytes → Option Nat} {key : Bytes}
    (hrep : (k.plain size).Rep s m) (hkey : (m key).isSome) : k.isEmpty s = false := by
  obtain ⟨i, hi⟩ := Option.isSome_iff_exists.mp hkey
  cases k with
  | trie =>
    obtain ⟨T, hT, -, hm⟩ : Trie.Represents false s m := hrep
    obtain ⟨-, hfind⟩ := Trie.find_of_map hm hi
    have hroot : Rep 0 (Trie.store s).cells T (Trie.rootNode s) := hT.layout.1
    cases T with
    | nil => simp at hfind
    | node id symbol lo eq hi =>
      obtain ⟨hid, c, hc, -⟩ := hroot
      refine decide_eq_false fun hzero => ?_
      rw [hzero] at hc
      cases hc
  | lhash =>
    obtain ⟨ks, ⟨hh, -⟩, hm⟩ := hrep
    have hlen := deref_le_length ((hm key i).mp hi)
    refine decide_eq_false fun hzero => ?_
    rw [hh.used] at hzero
    omega
  | ghash =>
    obtain ⟨ks, ⟨hh, -⟩, hm⟩ := hrep
    have hlen := deref_le_length ((hm key i).mp hi)
    refine decide_eq_false fun hzero => ?_
    rw [hh.entries] at hzero
    omega

end Table

theorem PathTrie.rootNode_ne_zero {σ : Type} {w : Nat} {U : UintHash w} {E : ElemSet σ w}
    {t : PathTrie σ w} {m : Bytes → Option Nat} {key : Bytes} (hrep : Represents U E t m)
    (hkey : (m key).isSome) : t.rootNode ≠ 0 := by
  obtain ⟨T, me, h⟩ := hrep
  obtain ⟨i, hi⟩ := Option.isSome_iff_exists.mp hkey
  obtain ⟨-, ids, -, hfind⟩ := (h.keys key i).mp hi
  have hroot : Rep 0 t.store.cells T t.rootNode := h.holds.layout.1
  cases T with
  | nil => simp at hfind
  | node id symbol lo eq hi =>
    obtain ⟨hid, c, hc, -⟩ := hroot
    intro hzero
    rw [hzero] at hc
    cases hc

/-- What is behind the functions of a set with the keys. -/
structure Served {σ : Type} (F : SetFuncs σ) (s : σ) (keys : List Bytes) (implemented : Bool)
    (fine : Prop) (els : List Bytes) (fineElems : Prop) : Prop where
  empty : F.isEmpty s = true ↔ keys = []
  set : implemented = true → Prints (F.printSet s) keys fine
  none : implemented = false → F.printSet s = .ok ⟨[], [.notImplemented]⟩
  elems : Prints (F.printElems s) els fineElems

def Puts {σ : Type} (put : σ → Bytes × Nat → Outcome (σ × Nat)) (size : Nat) (s : σ)
    (keys : List Bytes) (enough : Prop) (P : σ → Prop) : Prop :=
  (run put s (keys.zipIdx 1) = .error .alloc ∧ ¬enough) ∨
    ∃ s', run put s (keys.zipIdx 1) = .ok (s', putAnswers size keys) ∧ P s'

section
variable (B : Build) (k : Table) {opt : Options} (hopt : opt.Accepted) {keys : List Bytes}
  (hkeys : ∀ key ∈ keys, 0 ∉ key)
include hopt hkeys

theorem plainFuncs_run :
    ∃ s, (B.plainFuncs k).create opt = .ok s ∧
      Puts (B.plainFuncs k).put B.valueSize s keys (B.valueSize ≤ 64 ∧ k.Room keys) fun s' =>
        Served (B.plainFuncs k) s' keys true (k = .trie → Short keys) keys
          (k = .trie → Short keys) := by
  obtain ⟨s, hs, htakes⟩ := k.plain_takes hopt hkeys B.valueSize B.valueSize
  refine ⟨s, hs, htakes.imp id ?_⟩
  rintro ⟨s', m, hrun, hrep, hdom⟩
  have hprints := ((k.plain B.valueSize).prints (k.plain_trouble _) hrep hdom).congr
    (k.plain_printable _ keys)
  refine ⟨s', hrun, ⟨?_, fun _ => hprints, nofun, hprints⟩⟩
  cases hkeys : keys with
  | nil =>
    rw [hkeys] at hrun
    cases hrun
    exact ⟨fun _ => rfl, fun _ => k.isEmpty_create hopt hs⟩
  | cons key rest =>
    have hkey : (m key).isSome := (hdom key).mpr (by simp [hkeys])
    have hempty : (B.plainFuncs k).isEmpty s' = false := Table.isEmpty_plain hrep hkey
    simp [hempty]

theorem pathFuncs_run :
    ∃ s, (B.pathFuncs k).create opt = .ok s ∧
      Puts (B.pathFuncs k).put B.valueSize s keys
          (k.Enough B.addr (keys.flatMap (elements (opt.sepSet.getD PathTrie.defaultSep)))) fun s' =>
        Served (B.pathFuncs k) s' keys (B.printOne k) ([] ∉ keys)
          (keys.flatMap (elements (opt.sepSet.getD PathTrie.defaultSep)))
          (k = .trie → Short (keys.flatMap (elements (opt.sepSet.getD PathTrie.defaultSep)))) := by
  obtain ⟨s, hs, htakes⟩ := k.path_takes hopt hkeys B.uintHash B.addr (B.printOne k) B.valueSize
  obtain ⟨s', hs', hload⟩ := k.load_elems hopt (B.printOne k) B.uintHash B.addr opt.sepSet
    B.valueSize hkeys
  obtain rfl := Except.ok.inj (hs.symm.trans hs')
  refine ⟨PathTrie.init s opt.sepSet, by simp [Build.pathFuncs, hs], htakes.imp id ?_⟩
  rintro ⟨t, m, hrun, hrep, hdom⟩
  obtain ⟨me, hrepe, hdome⟩ : ∃ me, (k.nodes (B.printOne k)).Rep t.elemSet me ∧
      ∀ e, (me e).isSome ↔ e ∈ keys.flatMap (elements (opt.sepSet.getD PathTrie.defaultSep)) := by
    rcases hload with ⟨ha, -⟩ | ⟨t', rs, me, hrun', hrepe, hdome⟩
    · cases hrun.symm.trans ha
    · obtain ⟨rfl, -⟩ := Prod.mk.inj (Except.ok.inj (hrun.symm.trans hrun'))
      exact ⟨me, hrepe, hdome⟩
  refine ⟨t, hrun, ⟨?_, fun himpl => ?_, fun himpl => ?_, k.printElems_prints hrepe hdome⟩⟩
  · cases hkeys : keys with
    | nil =>
      rw [hkeys] at hrun
      cases hrun
      exact ⟨fun _ => rfl, fun _ => rfl⟩
    | cons key rest =>
      have hroot := PathTrie.rootNode_ne_zero hrep.1 ((hdom key).mpr (by simp [hkeys]))
      simp [Build.pathFuncs, hroot]
  · rw [himpl, ← k.printableNodes_toNodeSet] at hrep
    have hprints := (PathTrie.printSet B.uintHash (k.printableNodes.placed B.addr)
      (opt.sepSet.getD PathTrie.defaultSep)).prints nofun hrep hdom
    simp only [Build.pathFuncs, himpl, if_true]
    exact hprints.congr ⟨fun h hnil => h [] hnil rfl, fun h key hkey hnil => h (hnil ▸ hkey)⟩
  · simp [Build.pathFuncs, himpl]

end

namespace SetIntfType

def of : OptionsStructType → OptionsSetType → SetIntfType
  | .plain, .ternaryTree => .plainTrie
  | .plain, .linearHash => .plainLhash
  | .plain, .gnulibHash => .plainGhash
  | .path, .ternaryTree => .pathTrie
  | .path, .linearHash => .pathLhash
  | .path, .gnulibHash => .pathGhash

def implemented (B : Build) (n : SetIntfType) : Bool :=
  match n.isPath with
  | true => B.printOne n.table
  | false => true

def Fine (n : SetIntfType) (keys : List Bytes) : Prop :=
  match n.isPath with
  | true => [] ∉ keys
  | false => n.table = .trie → Short keys

def elems (n : SetIntfType) (sep : Bytes) (keys : List Bytes) : List Bytes :=
  match n.isPath with
  | true => keys.flatMap (elements sep)
  | false => keys

/-- There is room for the lines in a plain set, and for their elements in a path set. -/
def Enough (B : Build) (n : SetIntfType) (sep : Bytes) (keys : List Bytes) : Prop :=
  match n.isPath with
  | true => n.table.Enough B.addr (keys.flatMap (elements sep))
  | false => B.valueSize ≤ 64 ∧ n.table.Room keys

end SetIntfType

def SetIntf.Serves (B : Build) (n : SetIntfType) (opt : Options) (keys : List Bytes)
    (s : B.State n) : Prop :=
  Served (B.funcs n) s keys (n.implemented B) (n.Fine keys)
    (n.elems (opt.sepSet.getD PathTrie.defaultSep) keys)
    (n.table = .trie → Short (n.elems (opt.sepSet.getD PathTrie.defaultSep) keys))

theorem funcs_run (B : Build) (n : SetIntfType) {opt : Options} (hopt : opt.Accepted)
    {keys : List Bytes} (hkeys : ∀ key ∈ keys, 0 ∉ key) :
    ∃ s, (B.funcs n).create opt = .ok s ∧
      Puts (B.funcs n).put B.valueSize s keys
        (n.Enough B (opt.sepSet.getD PathTrie.defaultSep) keys) (SetIntf.Serves B n opt keys) := by
  cases n with
  | pathTrie => exact pathFuncs_run B .trie hopt hkeys
  | pathLhash => exact pathFuncs_run B .lhash hopt hkeys
  | pathGhash => exact pathFuncs_run B .ghash hopt hkeys
  | plainTrie => exact plainFuncs_run B .trie hopt hkeys
  | plainLhash => exact plainFuncs_run B .lhash hopt hkeys
  | plainGhash => exact plainFuncs_run B .ghash hopt hkeys

namespace SetIntf
variable {B : Build}

theorem create_eq (opt : ProgramOptions) :
    create B opt = initObj B (.of opt.structType opt.setType) opt.toOptions := by
  cases hstruct : opt.structType <;> cases hset : opt.setType <;>
    simp only [create, hstruct, hset, SetIntfType.of]

theorem obj_self (n : SetIntfType) (set : SetState (B.State n)) :
    (⟨n, set, n⟩ : SetIntf B).obj n = .ok set := dif_pos rfl

def Loaded (B : Build) (n : SetIntfType) (opt : Options) (verbose : Bool) (bs : List LineBuffer)
    (set : SetState (B.State n)) : Prop :=
  ∃ s st, (B.funcs n).create opt = .ok s ∧
    PathSet.load (B.funcs n).put verbose ⟨s, 0, 0, 0⟩ bs = .ok st ∧ st.set = set

theorem load_run (B : Build) {opt : ProgramOptions} (hopt : opt.toOptions.Accepted)
    {bs : List LineBuffer} {stream : Bytes} (hbs : Delivers bs stream)
    (hload : Loadable opt.verbose stream) :
    let n := SetIntfType.of opt.structType opt.setType
    ∃ intf, create B opt = .ok intf ∧
      ((intf.load bs opt.verbose = .error .alloc ∧
          ¬n.Enough B (opt.sepSet.getD PathTrie.defaultSep) (lines stream)) ∨
        ∃ set warnings, intf.load bs opt.verbose = .ok (⟨n, set, n⟩, warnings) ∧
          Serves B n opt.toOptions (lines stream) set.impl ∧
          Loaded B n opt.toOptions opt.verbose bs set) := by
  intro n
  obtain ⟨s, hs, hputs⟩ := funcs_run B n hopt fun _ => noNul_of_mem_lines
  refine ⟨⟨n, ⟨s, 0, 0, 0⟩, n⟩, by rw [create_eq, initObj, hs]; rfl, ?_⟩
  have hobj := obj_self (B := B) n ⟨s, 0, 0, 0⟩
  obtain ⟨herror, hok⟩ := @load_of_run _ (B.funcs n).put opt.verbose bs stream hbs hload s
  rcases hputs with ⟨halloc, hfew⟩ | ⟨s', hrun, hserves⟩
  · refine Or.inl ⟨?_, hfew⟩
    simp only [load, hobj, ok_bind, herror _ halloc]
    rfl
  · obtain ⟨st, hst, hset⟩ := hok s' _ hrun
    have hserves : Serves B n opt.toOptions (lines stream) st.set.impl := by
      rw [hset]
      exact hserves
    refine Or.inr ⟨st.set, st.warnings, ?_, hserves, s, st, hs, hst, rfl⟩
    simp only [load, hobj, ok_bind, hst]
    rfl

end SetIntf

end PathSet
