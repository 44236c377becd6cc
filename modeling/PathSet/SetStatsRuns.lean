import PathSet.SetTallies

/-!
The report on a set that has been loaded. Its rows can be read back, and what they tell of
the lines, of the elements and of the memory of the nodes follows from the lines alone. The
program prints it behind the lines.
-/

namespace PathSet
open Fallible Pointer LinkedTree TernaryTree Decimal FirstSeen Numbered Rows

def sizeRow (n : StatParamName) (v : Nat) : Bytes × Bytes := (n.text, decimal v)

def timeRows (n : StatParamName) (clocks : Clocks) : List (Bytes × Bytes) :=
  [.real, .user, .sys].map fun q => (n.timeText q, decimal (clocks.part q).us)

/-- The times fit into a `size_t` of microseconds. -/
def Clocks.Tellable (clocks : Clocks) : Prop :=
  ∀ q, (clocks.part q).usecs ≤ clocksMaxUsecs ∧ (clocks.part q).us ≤ sizeMax

def FracFine (x : Nat × Nat) : Prop := 200000 * (x.1 % x.2) < 199999 * x.2

theorem getParamHashLoad_iff {used size : Nat} (hm : 0 < size) (hle : used ≤ size)
    {v : SizeFrac} :
    getParamHashLoad used size = .ok v ↔
      FracFine (used, size) ∧ v = ⟨used / size, divRound (fracScale * (used % size)) size, 5⟩ := by
  rw [getParamHashLoad, computeSizeFrac, sizeFrac_of_le hm hle]
  constructor
  · intro h
    obtain ⟨r, hr, h⟩ := bind_eq_ok.mp h
    obtain ⟨⟨⟩, hassert, hr⟩ := bind_eq_ok.mp hr
    obtain rfl := Except.ok.inj hr
    exact ⟨(divRound_lt_iff _ hm).mp (of_assert hassert), (Except.ok.inj h).symm⟩
  · rintro ⟨hfine, rfl⟩
    simp only [assert_of ((divRound_lt_iff _ hm).mpr hfine), ok_bind, pure_eq_ok]

section
variable {σ : Type} (x : TimedSet σ)

theorem timeRows_iff (n : StatParamName) {rows : List (Bytes × Bytes)} :
    (ftime n).rows (some x) = .ok rows ↔ (x.time n).Tellable ∧ rows = timeRows n (x.time n) := by
  have hok : (x.time n).Tellable → (ftime n).rows (some x) = .ok (timeRows n (x.time n)) := by
    intro htell
    refine @writeAll_ok _ _ _ _ (fun q => [(n.timeText q, decimal ((x.time n).part q).us)]) _
      fun q _ => ?_
    rw [ClocksTime.print_iff.mpr ⟨htell q, rfl⟩]
    rfl
  constructor
  · intro h
    have htell : (x.time n).Tellable := by
      intro q
      obtain ⟨out, hq⟩ := writeAll_isOk.mp ⟨rows, h⟩ q (by cases q <;> simp)
      obtain ⟨time, htime, -⟩ := bind_eq_ok.mp hq
      exact (ClocksTime.print_iff.mp htime).1
    exact ⟨htell, Except.ok.inj (h.symm.trans (hok htell))⟩
  · rintro ⟨htell, rfl⟩
    exact hok htell

theorem timeRows_isOk (n : StatParamName) :
    (∃ rows, (ftime n).rows (some x) = .ok rows) ↔ (x.time n).Tellable :=
  ⟨fun ⟨_, h⟩ => ((timeRows_iff x n).mp h).1, fun h => ⟨_, (timeRows_iff x n).mpr ⟨h, rfl⟩⟩⟩

theorem funcRows_iff (n : StatParamName) (func : σ → Outcome Nat) {rows : List (Bytes × Bytes)} :
    (sfunc n func).rows (some x) = .ok rows ↔
      ∃ v, func x.set.impl = .ok v ∧ rows = [sizeRow n v] := by
  constructor
  · intro h
    obtain ⟨v, hv, h⟩ := bind_eq_ok.mp h
    exact ⟨v, hv, (Except.ok.inj h).symm⟩
  · rintro ⟨v, hv, rfl⟩
    exact bind_eq_ok.mpr ⟨v, hv, rfl⟩

theorem funcRows_isOk (n : StatParamName) (func : σ → Outcome Nat) :
    (∃ rows, (sfunc n func).rows (some x) = .ok rows) ↔ ∃ v, func x.set.impl = .ok v :=
  ⟨fun ⟨_, h⟩ => ((funcRows_iff x n func).mp h).imp fun _ => And.left,
    fun ⟨v, hv⟩ => ⟨_, (funcRows_iff x n func).mpr ⟨v, hv, rfl⟩⟩⟩

theorem loadRows_isOk (get : σ → Nat × Nat) (hm : 0 < (get x.set.impl).2)
    (hle : (get x.set.impl).1 ≤ (get x.set.impl).2) :
    (∃ rows, (ffunc .hashLoad fun s => getParamHashLoad (get s).1 (get s).2).rows (some x) =
      .ok rows) ↔ FracFine (get x.set.impl) := by
  constructor
  · rintro ⟨rows, h⟩
    obtain ⟨v, hv, -⟩ := bind_eq_ok.mp h
    exact ((getParamHashLoad_iff hm hle).mp hv).1
  · intro hfine
    have hv := (getParamHashLoad_iff hm hle).mpr ⟨hfine, rfl⟩
    have hlt := (divRound_lt_iff _ hm).mpr hfine
    exact ⟨_, bind_eq_ok.mpr ⟨_, hv, bind_eq_ok.mpr ⟨_, printFrac_eq hlt, rfl⟩⟩⟩

theorem tableRows_isOk (N : InsertNames) {k : Table} (get : σ → k.State) {keys : List Bytes}
    (htally : k.Tallied (get x.set.impl) keys) :
    (∃ rows, statRows (k.params N get) (some x) = .ok rows) ↔
      (k ≠ .trie → (x.time .rehashTime).Tellable) ∧
        (k = .ghash → ∀ y ∈ k.fill (get x.set.impl), FracFine y) := by
  rw [statRows, writeAll_isOk]
  cases k with
  | trie =>
    refine iff_of_true ?_ ⟨fun h => absurd rfl h, nofun⟩
    simp only [Table.params, List.forall_mem_cons]
    exact ⟨⟨_, rfl⟩, ⟨_, rfl⟩, ⟨_, rfl⟩, nofun⟩
  | lhash =>
    obtain ⟨hm, hle⟩ := htally.fill _ rfl
    have hsparse := htally.sparse rfl _ rfl
    have hload := (loadRows_isOk x (fun s => ((get s).used, (get s).size)) hm hle).mpr (by
      have hmod := Nat.mod_le (get x.set.impl).used (get x.set.impl).size
      simp only [FracFine]
      omega)
    simp only [Table.params, List.forall_mem_cons, timeRows_isOk]
    constructor
    · rintro ⟨-, -, -, -, -, htime, -⟩
      exact ⟨fun _ => htime, nofun⟩
    · rintro ⟨htime, -⟩
      exact ⟨⟨_, rfl⟩, ⟨_, rfl⟩, ⟨_, rfl⟩, ⟨_, rfl⟩, ⟨_, rfl⟩, htime nofun, ⟨_, rfl⟩, ⟨_, rfl⟩,
        hload, nofun⟩
  | ghash =>
    obtain ⟨hm, hle⟩ := htally.fill _ rfl
    have hload := loadRows_isOk x (fun s => ((get s).nBucketsUsed, (get s).nBuckets)) hm hle
    simp only [Table.params, List.forall_mem_cons, timeRows_isOk]
    constructor
    · rintro ⟨-, -, -, -, -, htime, -, -, hfrac, -⟩
      refine ⟨fun _ => htime, fun _ y hy => ?_⟩
      obtain rfl := Option.some.inj hy
      exact hload.mp hfrac
    · rintro ⟨htime, hfine⟩
      exact ⟨⟨_, rfl⟩, ⟨_, rfl⟩, ⟨_, rfl⟩, ⟨_, rfl⟩, ⟨_, rfl⟩, htime nofun, ⟨_, rfl⟩, ⟨_, rfl⟩,
        hload.mpr (hfine trivial _ rfl), nofun⟩

end

theorem Table.getParamNodeMem_eq {k : Table} {nodeSize v : Nat} {s : k.State}
    (h : k.getParamNodeMem nodeSize s = .ok v) : v = k.nodeStruct s * nodeSize + k.textMem s := by
  cases k with
  | trie => exact eq_of_sizeMul h
  | lhash =>
    obtain ⟨n, hn, h⟩ := bind_eq_ok.mp h
    rw [eq_of_sizeAdd h, eq_of_sizeMul hn]
    rfl
  | ghash =>
    obtain ⟨n, hn, h⟩ := bind_eq_ok.mp h
    rw [eq_of_sizeAdd h, eq_of_sizeMul hn]
    rfl

structure Reportable {k : Table} (time : StatParamName → Clocks) (s : k.State)
    (total : Outcome Nat) : Prop where
  total : ∃ m, total = .ok m
  insert : (time .insertTime).Tellable
  rehash : k ≠ .trie → (time .rehashTime).Tellable
  load : k = .ghash → ∀ y ∈ k.fill s, FracFine y

def lastRows (time : StatParamName → Clocks) (total : Nat) : List (Bytes × Bytes) :=
  sizeRow .totalMem total :: timeRows .insertTime (time .insertTime)

theorem lastRows_of {σ : Type} {x : TimedSet σ} {total : σ → Outcome Nat}
    {rows : List (Bytes × Bytes)}
    (h : writeAll (StatParamInfo.rows (some x)) [sfunc .totalMem total, ftime .insertTime] =
      .ok rows) :
    ∃ m, total x.set.impl = .ok m ∧ rows = lastRows x.time m := by
  obtain ⟨_, _, htotal, h₁, rfl⟩ := writeAll_eq_cons h
  obtain ⟨_, _, htime, h₂, rfl⟩ := writeAll_eq_cons h₁
  obtain rfl := Except.ok.inj h₂
  obtain ⟨m, hm, rfl⟩ := (funcRows_iff x _ _).mp htotal
  obtain ⟨-, rfl⟩ := (timeRows_iff x _).mp htime
  exact ⟨m, hm, by rw [List.append_nil]; rfl⟩

namespace Build
variable (B : Build) (sizes : TypeSizes) {k : Table} {keys : List Bytes}

theorem printNames_lines (n : SetIntfType) : ∃ names, B.printNames sizes n = .ok names ∧
    splitLines 10 names = (B.params sizes n).map fun p => p.name.text :=
  statParamsPrint_names _ none

theorem printSizes_rows (n : SetIntfType) : ∃ text, B.printSizes n = .ok text ∧ readStats text =
    if n.isPath then
      [sizeRow .nodeStructSize B.pathNodeSize, sizeRow .elemStructSize (n.table.elemNodeSize B)]
    else [sizeRow .nodeStructSize (n.table.plainNodeSize B)] := by
  unfold printSizes
  cases n.isPath with
  | true =>
    obtain ⟨text, htext, htells⟩ := (statParamsPrint_agree (σ := TimedSet Unit)
      [sconst .nodeStructSize B.pathNodeSize, sconst .elemStructSize (n.table.elemNodeSize B)]
      none).ok_right
    exact ⟨text, htext, htells.readRows (by decide)⟩
  | false =>
    obtain ⟨text, htext, htells⟩ := (statParamsPrint_agree (σ := TimedSet Unit)
      [sconst .nodeStructSize (n.table.plainNodeSize B)] none).ok_right
    exact ⟨text, htext, htells.readRows (by decide)⟩

def plainCounts (ls : List Bytes) : List (Bytes × Bytes) :=
  let answers := putAnswers B.valueSize ls
  [sizeRow .dupsLine (answers.countP (· ≠ 0)),
    sizeRow .uniqLine (answers.countP (· = 0)),
    sizeRow .lineMem (totalLength ls),
    sizeRow .dupsNode (ls.length - ls.toFinset.card),
    sizeRow .uniqNode ls.toFinset.card]

def plainMem (k : Table) (ls : List Bytes) : List (Bytes × Bytes) :=
  let mem := k.nodesFor ls * k.plainNodeSize B + k.textFor ls
  [sizeRow .nodeStructSize (k.plainNodeSize B),
    sizeRow .nodeStruct (k.nodesFor ls),
    sizeRow .nodeMem mem,
    sizeRow .totalNodeMem mem]

theorem plainRows_isOk {x : TimedSet k.State} (htally : k.Tallied x.set.impl keys) :
    (∃ rows, statRows (B.plainParams sizes k) (some x) = .ok rows) ↔
      Reportable x.time x.set.impl (k.getParamTotalMem sizes (k.plainNodeSize B) x.set.impl) := by
  have htable := tableRows_isOk x nodeNames id htally
  rw [statRows, writeAll_isOk] at htable ⊢
  rw [plainParams, List.forall_mem_append, List.forall_mem_append, htable]
  simp only [List.forall_mem_cons, timeRows_isOk, funcRows_isOk]
  constructor
  · rintro ⟨⟨-, hrehash, hload⟩, -, -, -, -, htotal, htime, -⟩
    exact ⟨htotal, htime, hrehash, hload⟩
  · rintro ⟨⟨m, hm⟩, htime, hrehash, hload⟩
    obtain ⟨mem, hmem, -⟩ := bind_eq_ok.mp hm
    exact ⟨⟨⟨⟨_, rfl⟩, ⟨_, rfl⟩, ⟨_, rfl⟩, ⟨_, rfl⟩, ⟨_, rfl⟩, nofun⟩, hrehash, hload⟩,
      ⟨_, rfl⟩, ⟨_, rfl⟩, ⟨mem, hmem⟩, ⟨mem, hmem⟩, ⟨m, hm⟩, htime, nofun⟩

theorem plainRows_eq {x : TimedSet k.State} (htally : k.Tallied x.set.impl keys)
    (hdups : x.set.dupsLine = (putAnswers B.valueSize keys).countP (· ≠ 0))
    (huniq : x.set.uniqLine = (putAnswers B.valueSize keys).countP (· = 0))
    (hmem : x.set.lineMem = totalLength keys) {rows : List (Bytes × Bytes)}
    (h : statRows (B.plainParams sizes k) (some x) = .ok rows) :
    ∃ work total, k.getParamTotalMem sizes (k.plainNodeSize B) x.set.impl = .ok total ∧
      rows = B.plainCounts keys ++ work ++ B.plainMem k keys ++ lastRows x.time total := by
  rw [statRows, plainParams] at h
  obtain ⟨front, back, hfront, hback, rfl⟩ := writeAll_eq_append h
  obtain ⟨counts, work, hcounts, -, rfl⟩ := writeAll_eq_append hfront
  have hcounts : counts = B.plainCounts keys := by
    rw [plainCounts, ← hdups, ← huniq, ← hmem, ← htally.dups, ← htally.uniq]
    exact (Except.ok.inj hcounts).symm
  obtain ⟨_, _, hsize, h₁, rfl⟩ := writeAll_eq_cons hback
  obtain ⟨_, _, hstruct, h₂, rfl⟩ := writeAll_eq_cons h₁
  obtain ⟨_, _, hnode, h₃, rfl⟩ := writeAll_eq_cons h₂
  obtain ⟨_, _, hnodes, h₄, rfl⟩ := writeAll_eq_cons h₃
  obtain ⟨total, htotal, rfl⟩ := lastRows_of h₄
  obtain rfl := Except.ok.inj hsize
  obtain rfl := Except.ok.inj hstruct
  obtain ⟨v, hv, rfl⟩ := (funcRows_iff x _ _).mp hnode
  obtain ⟨v', hv', rfl⟩ := (funcRows_iff x _ _).mp hnodes
  obtain rfl : v = v' := Except.ok.inj (hv.symm.trans hv')
  refine ⟨work, total, htotal, ?_⟩
  have hmem := Table.getParamNodeMem_eq hv
  rw [htally.nodes, htally.text] at hmem
  rw [hcounts, plainMem, ← hmem, ← htally.nodes, List.append_assoc (B.plainCounts keys ++ work)]
  rfl

def pathCounts (sep : Bytes) (ls : List Bytes) : List (Bytes × Bytes) :=
  let els := ls.flatMap (elements sep)
  B.plainCounts ls ++
    [sizeRow .dupsElem (els.length - els.toFinset.card),
      sizeRow .uniqElem els.toFinset.card]

def pathMem (k : Table) (sep : Bytes) (ls : List Bytes) : List (Bytes × Bytes) :=
  let els := ls.flatMap (elements sep)
  let nodes := prefixCount (ls.map (endMarked sep))
  let nodeMem := nodes * B.pathNodeSize
  let elemMem := k.nodesFor els * k.elemNodeSize B + k.textFor els
  [sizeRow .nodeStructSize B.pathNodeSize,
    sizeRow .elemStructSize (k.elemNodeSize B),
    sizeRow .nodeStruct nodes,
    sizeRow .elemStruct (k.nodesFor els),
    sizeRow .nodeMem nodeMem,
    sizeRow .elemMem elemMem,
    sizeRow .totalNodeMem (nodeMem + elemMem)]

theorem pathRows_isOk {x : TimedSet (PathTrie k.State B.w)}
    (htally : k.Tallied x.set.impl.elemSet keys) :
    (∃ rows, statRows (B.pathParams sizes k) (some x) = .ok rows) ↔
      Reportable x.time x.set.impl.elemSet
        (x.set.impl.getParamTotalMem sizes B.pathNodeSize (k.elemNodeSize B) k) := by
  have htable := tableRows_isOk x elemNames PathTrie.elemSet htally
  rw [statRows, writeAll_isOk] at htable ⊢
  rw [pathParams, List.forall_mem_append, List.forall_mem_append, htable]
  simp only [List.forall_mem_cons, timeRows_isOk, funcRows_isOk]
  constructor
  · rintro ⟨⟨-, hrehash, hload⟩, -, -, -, -, -, -, -, htotal, htime, -⟩
    exact ⟨htotal, htime, hrehash, hload⟩
  · rintro ⟨⟨m, hm⟩, htime, hrehash, hload⟩
    obtain ⟨total, htotal, -⟩ := bind_eq_ok.mp hm
    obtain ⟨nodeMem, hnode, htotal'⟩ := bind_eq_ok.mp htotal
    obtain ⟨elemMem, helem, -⟩ := bind_eq_ok.mp htotal'
    exact ⟨⟨⟨⟨_, rfl⟩, ⟨_, rfl⟩, ⟨_, rfl⟩, ⟨_, rfl⟩, ⟨_, rfl⟩, ⟨_, rfl⟩, ⟨_, rfl⟩, ⟨_, rfl⟩,
      ⟨_, rfl⟩, ⟨_, rfl⟩, nofun⟩, hrehash, hload⟩, ⟨_, rfl⟩, ⟨_, rfl⟩, ⟨_, rfl⟩, ⟨_, rfl⟩, ⟨nodeMem, hnode⟩,
      ⟨elemMem, helem⟩, ⟨total, htotal⟩, ⟨m, hm⟩, htime, nofun⟩

theorem pathRows_eq {x : TimedSet (PathTrie k.State B.w)} {sep : Bytes}
    (htally : k.Tallied x.set.impl.elemSet (keys.flatMap (elements sep)))
    (hnew : x.set.impl.stats.uniqNode = keys.toFinset.card)
    (hold : x.set.impl.stats.dupsNode = keys.length - keys.toFinset.card)
    (hnodes : x.set.impl.nodeStruct = prefixCount (keys.map (endMarked sep)))
    (hdups : x.set.dupsLine = (putAnswers B.valueSize keys).countP (· ≠ 0))
    (huniq : x.set.uniqLine = (putAnswers B.valueSize keys).countP (· = 0))
    (hmem : x.set.lineMem = totalLength keys) {rows : List (Bytes × Bytes)}
    (h : statRows (B.pathParams sizes k) (some x) = .ok rows) :
    ∃ work total,
      x.set.impl.getParamTotalMem sizes B.pathNodeSize (k.elemNodeSize B) k = .ok total ∧
      rows = B.pathCounts sep keys ++ work ++ B.pathMem k sep keys ++ lastRows x.time total := by
  rw [statRows, pathParams] at h
  obtain ⟨front, back, hfront, hback, rfl⟩ := writeAll_eq_append h
  obtain ⟨counts, work, hcounts, -, rfl⟩ := writeAll_eq_append hfront
  obtain ⟨inserts, hcounts⟩ : ∃ inserts, counts = B.pathCounts sep keys ++ inserts := by
    rw [pathCounts, plainCounts, ← hdups, ← huniq, ← hmem, ← hold, ← hnew, ← htally.dups,
      ← htally.uniq]
    exact ⟨[_, _, _], (Except.ok.inj hcounts).symm⟩
  obtain ⟨_, _, hsize, h₁, rfl⟩ := writeAll_eq_cons hback
  obtain ⟨_, _, hesize, h₂, rfl⟩ := writeAll_eq_cons h₁
  obtain ⟨_, _, hstruct, h₃, rfl⟩ := writeAll_eq_cons h₂
  obtain ⟨_, _, hestruct, h₄, rfl⟩ := writeAll_eq_cons h₃
  obtain ⟨_, _, hnode, h₅, rfl⟩ := writeAll_eq_cons h₄
  obtain ⟨_, _, helem, h₆, rfl⟩ := writeAll_eq_cons h₅
  obtain ⟨_, _, hboth, h₇, rfl⟩ := writeAll_eq_cons h₆
  obtain ⟨total, htotal, rfl⟩ := lastRows_of h₇
  obtain rfl := Except.ok.inj hsize
  obtain rfl := Except.ok.inj hesize
  obtain rfl := Except.ok.inj hstruct
  obtain rfl := Except.ok.inj hestruct
  obtain ⟨nodeMem, hn, rfl⟩ := (funcRows_iff x _ _).mp hnode
  obtain ⟨elemMem, he, rfl⟩ := (funcRows_iff x _ _).mp helem
  obtain ⟨both, hb, rfl⟩ := (funcRows_iff x _ _).mp hboth
  have hsum : both = nodeMem + elemMem := by
    obtain ⟨n, hn', hb⟩ := bind_eq_ok.mp hb
    obtain ⟨e, he', hb⟩ := bind_eq_ok.mp hb
    obtain rfl : nodeMem = n := Except.ok.inj (hn.symm.trans hn')
    obtain rfl : elemMem = e := Except.ok.inj (he.symm.trans he')
    exact eq_of_sizeAdd hb
  have hnodeMem : nodeMem = x.set.impl.nodeStruct * B.pathNodeSize := eq_of_sizeMul hn
  have helemMem := Table.getParamNodeMem_eq he
  refine ⟨inserts ++ work, total, htotal, ?_⟩
  rw [htally.nodes, htally.text] at helemMem
  rw [hcounts, pathMem, ← helemMem, ← hnodes, ← hnodeMem, ← hsum, ← htally.nodes,
    ← List.append_assoc (B.pathCounts sep keys),
    List.append_assoc (B.pathCounts sep keys ++ _ ++ work)]
  rfl

end Build

/-- A report fails just when something in it cannot be told. Otherwise it has the counters in
front, the memory behind and its end, and what the insertions have cost in between. -/
structure Reported {k : Table} (report : Outcome Bytes) (counts mem : List (Bytes × Bytes))
    (time : StatParamName → Clocks) (s : k.State) (total : Outcome Nat) : Prop where
  ok : (∃ text, report = .ok text) ↔ Reportable time s total
  rows : ∀ text, report = .ok text → ∃ work m, total = .ok m ∧
    readStats text = counts ++ work ++ mem ++ lastRows time m

theorem Reported.of_rows {σ : Type} {params : List (StatParamInfo σ)} {obj : Option σ} {k : Table}
    {counts mem : List (Bytes × Bytes)} {time : StatParamName → Clocks} {s : k.State}
    {total : Outcome Nat}
    (hok : (∃ rows, statRows params obj = .ok rows) ↔ Reportable time s total)
    (hrows : ∀ rows, statRows params obj = .ok rows → ∃ work m, total = .ok m ∧
      rows = counts ++ work ++ mem ++ lastRows time m) :
    Reported (statParamsPrint params obj false) counts mem time s total := by
  have hagree := statParamsPrint_agree params obj
  refine ⟨?_, fun text htext => ?_⟩
  · rw [← hok]
    constructor
    · rintro ⟨text, htext⟩
      rw [htext] at hagree
      obtain ⟨rows, hrows', -⟩ := hagree.ok_left
      exact ⟨rows, hrows'⟩
    · rintro ⟨rows, hrows'⟩
      rw [hrows'] at hagree
      obtain ⟨text, htext, -⟩ := hagree.ok_right
      exact ⟨text, htext⟩
  · rw [htext] at hagree
    obtain ⟨rows, hrows', htells⟩ := hagree.ok_left
    rw [readStats, htells.readRows (by decide)]
    exact hrows rows hrows'

theorem run_of_loads {σ : Type} {put : σ → Bytes × Nat → Outcome (σ × Nat)} {verbose : Bool} {s : σ}
    {ls : List Bytes} (hcount : ls.length < 2 ^ 64) {set : SetState σ}
    (h : Loads put verbose ⟨s, 0, 0, 0⟩ 1 ls set) :
    ∃ rs, run put s (ls.zipIdx 1) = .ok (set.impl, rs) ∧ set.dupsLine = rs.countP (· ≠ 0) ∧
      set.uniqLine = rs.countP (· = 0) ∧ set.lineMem = totalLength ls := by
  obtain ⟨rs, hrun, -, -, hset⟩ := h
  rw [(calls_eq_iff ls).mpr hcount] at hrun
  have hdups := congrArg SetState.dupsLine hset
  have huniq := congrArg SetState.uniqLine hset
  have hmem := congrArg SetState.lineMem hset
  simp only [Nat.zero_add] at hdups huniq hmem
  exact ⟨rs, hrun, hdups, huniq, hmem⟩

namespace Build
variable (B : Build) (sizes : TypeSizes) (time : StatParamName → Clocks) {opt : Options}
  {verbose : Bool} {ls : List Bytes}

theorem plain_told (k : Table) (hopt : opt.Accepted) (hls : ∀ l ∈ ls, 0 ∉ l)
    (hcount : ls.length < 2 ^ 64) {s : k.State} (hcreate : (B.plainFuncs k).create opt = .ok s)
    {set : SetState k.State}
    (hloads : Loads (B.plainFuncs k).put verbose ⟨s, 0, 0, 0⟩ 1 ls set) :
    Reported (statParamsPrint (B.plainParams sizes k) (some ⟨set, time⟩) false) (B.plainCounts ls)
      (B.plainMem k ls) time set.impl (k.getParamTotalMem sizes (k.plainNodeSize B) set.impl) := by
  obtain ⟨rs, hrun, hdups, huniq, hmem⟩ := run_of_loads hcount hloads
  obtain ⟨rfl, htally⟩ := k.plain_tallied hopt hls hcreate hrun
  exact Reported.of_rows (B.plainRows_isOk sizes htally) fun rows hrows =>
    B.plainRows_eq sizes htally hdups huniq hmem hrows

theorem path_told (k : Table) (hopt : opt.Accepted) (hls : ∀ l ∈ ls, 0 ∉ l)
    (hcount : ls.length < 2 ^ 64) {t : PathTrie k.State B.w}
    (hcreate : (B.pathFuncs k).create opt = .ok t) {set : SetState (PathTrie k.State B.w)}
    (hloads : Loads (B.pathFuncs k).put verbose ⟨t, 0, 0, 0⟩ 1 ls set) :
    let sep := opt.sepSet.getD PathTrie.defaultSep
    Reported (statParamsPrint (B.pathParams sizes k) (some ⟨set, time⟩) false) (B.pathCounts sep ls)
      (B.pathMem k sep ls) time set.impl.elemSet
      (set.impl.getParamTotalMem sizes B.pathNodeSize (k.elemNodeSize B) k) := by
  intro sep
  obtain ⟨s, hs, ht⟩ := bind_eq_ok.mp hcreate
  obtain rfl := Except.ok.inj ht
  obtain ⟨rs, hrun, hdups, huniq, hmem⟩ := run_of_loads hcount hloads
  obtain ⟨rfl, hnew, hold, hnodes, htally⟩ :=
    k.path_tallied hopt hls hs B.uintHash B.addr (B.printOne k) hrun
  exact Reported.of_rows (B.pathRows_isOk sizes htally) fun rows hrows =>
    B.pathRows_eq sizes htally hnew hold hnodes hdups huniq hmem hrows

def tableOf : (n : SetIntfType) → B.State n → n.table.State
  | .pathTrie, t => t.elemSet
  | .pathLhash, t => t.elemSet
  | .pathGhash, t => t.elemSet
  | .plainTrie, s => s
  | .plainLhash, s => s
  | .plainGhash, s => s

def totalMem : (n : SetIntfType) → B.State n → Outcome Nat
  | .pathTrie => PathTrie.getParamTotalMem sizes B.pathNodeSize (Table.trie.elemNodeSize B) .trie
  | .pathLhash =>
      PathTrie.getParamTotalMem sizes B.pathNodeSize (Table.lhash.elemNodeSize B) .lhash
  | .pathGhash =>
      PathTrie.getParamTotalMem sizes B.pathNodeSize (Table.ghash.elemNodeSize B) .ghash
  | .plainTrie => Table.getParamTotalMem sizes (Table.trie.plainNodeSize B) .trie
  | .plainLhash => Table.getParamTotalMem sizes (Table.lhash.plainNodeSize B) .lhash
  | .plainGhash => Table.getParamTotalMem sizes (Table.ghash.plainNodeSize B) .ghash

def counts (n : SetIntfType) (sep : Bytes) (ls : List Bytes) : List (Bytes × Bytes) :=
  if n.isPath then B.pathCounts sep ls else B.plainCounts ls

def mem (n : SetIntfType) (sep : Bytes) (ls : List Bytes) : List (Bytes × Bytes) :=
  if n.isPath then B.pathMem n.table sep ls else B.plainMem n.table ls

end Build

theorem Build.told (B : Build) (sizes : TypeSizes) (time : StatParamName → Clocks)
    (n : SetIntfType) {opt : Options} (hopt : opt.Accepted) {verbose : Bool}
    {bs : List LineBuffer} {stream : Bytes} (hbs : Delivers bs stream)
    (hcount : (lines stream).length < 2 ^ 64) {set : SetState (B.State n)}
    (hload : SetIntf.Loaded B n opt verbose bs set) :
    let sep := opt.sepSet.getD PathTrie.defaultSep
    Reported (B.printStats sizes time n set) (B.counts n sep (lines stream))
      (B.mem n sep (lines stream)) time (B.tableOf n set.impl) (B.totalMem sizes n set.impl) := by
  intro sep
  obtain ⟨s, st, hcreate, hload⟩ := hload
  have hls : ∀ l ∈ lines stream, 0 ∉ l := fun _ => noNul_of_mem_lines
  have hloads := ((load_iff hbs).mp ⟨st, hload⟩).2
  cases n with
  | pathTrie => exact B.path_told sizes time .trie hopt hls hcount hcreate hloads
  | pathLhash => exact B.path_told sizes time .lhash hopt hls hcount hcreate hloads
  | pathGhash => exact B.path_told sizes time .ghash hopt hls hcount hcreate hloads
  | plainTrie => exact B.plain_told sizes time .trie hopt hls hcount hcreate hloads
  | plainLhash => exact B.plain_told sizes time .lhash hopt hls hcount hcreate hloads
  | plainGhash => exact B.plain_told sizes time .ghash hopt hls hcount hcreate hloads

/-- Whatever its command line and its input, a program that is asked for statistics prints them
behind what it prints of the lines, and they are those of the lines. It fails where there is not
enough memory, and when something in them cannot be told. -/
theorem program_statistics (B : Build) (sizes : TypeSizes) (time : StatParamName → Clocks)
    {strtof : Bytes → ScannedFloat} {program : Bytes} {args : List Bytes}
    (hargs : ∀ w ∈ args, ArgText w) {opt : ProgramOptions}
    (hoptions : options false strtof program args = .ok (opt, OptBits.none))
    (haction : opt.action.OfSet) (hstats : opt.printStats = true) {stdin : List LineBuffer}
    {stream : Bytes} (hstdin : Delivers stdin stream) (hload : Loadable opt.verbose stream)
    (hfine : Printable B opt (lines stream)) :
    let n := SetIntfType.of opt.structType opt.setType
    let sep := opt.sepSet.getD PathTrie.defaultSep
    let run := main B strtof (B.printStats sizes time) program args stdin
    (run = .error (.abort .alloc) ∧ ¬n.Enough B sep (lines stream)) ∨
      ∃ set, SetIntf.Loaded B n opt.toOptions opt.verbose stdin set ∧
        ((∃ out, run = .ok (.set out)) ↔
          Reportable time (B.tableOf n set.impl) (B.totalMem sizes n set.impl)) ∧
        ∀ out, run = .ok (.set out) → ∃ ls stats work m,
          ls.Perm (firsts (asked B opt (lines stream))) ∧
          out.text = textLines ls ++ blankOf opt.action (lines stream) ++ stats ∧
          B.totalMem sizes n set.impl = .ok m ∧
          readStats stats = B.counts n sep (lines stream) ++ work ++
            B.mem n sep (lines stream) ++ lastRows time m := by
  intro n sep run
  have hopt := accepted_of_options hargs hoptions
  rcases execSet_spec (B.printStats sizes time) hopt haction hstdin hload with
    ⟨halloc, hfew⟩ | ⟨set, hloaded, hok, -⟩
  · refine Or.inl ⟨?_, hfew⟩
    rw [show run = _ from main_eq _ hoptions haction stdin, halloc]
    rfl
  obtain ⟨ls, warnings, hperm, hexec⟩ := hok hfine
  have hreport := B.told sizes time n hopt hstdin hload.count hloaded
  have hrun : run = ((B.printStats sizes time n set).mapError .abort).map fun stats =>
      .set ⟨textLines ls ++ blankOf opt.action (lines stream) ++ stats, warnings⟩ := by
    rw [show run = _ from main_eq _ hoptions haction stdin, hexec, outputOf, if_pos hstats]
    cases B.printStats sizes time n set <;> rfl
  refine Or.inr ⟨set, hloaded, ?_⟩
  rw [← hreport.ok, hrun]
  cases hprint : B.printStats sizes time n set with
  | error e =>
    refine ⟨iff_of_false ?_ ?_, fun out hout => by cases hout⟩
    · rintro ⟨out, hout⟩
      cases hout
    · rintro ⟨stats, hout⟩
      cases hout
  | ok stats =>
    refine ⟨iff_of_true ⟨_, rfl⟩ ⟨stats, rfl⟩, fun out hout => ?_⟩
    obtain rfl : _ = out := ProgramRun.set.inj (Except.ok.inj hout)
    obtain ⟨work, m, hm, hread⟩ := hreport.rows stats hprint
    exact ⟨ls, stats, work, m, hperm, rfl, hm, hread⟩

def packedSizes : TypeSizes := ⟨88, 80, 72⟩

def elemsOptions : ProgramOptions :=
  { defaultProgramOptions with action := .printElems, printStats := true }

theorem program_statistics_dotted :
    ∃ out ls stats work m, main packedBuild noFloat
        (packedBuild.printStats packedSizes fun _ => Clocks.init) [] [ascii "-ES"] dottedBuffers =
          .ok (.set out) ∧
      ls.Perm [[97, 46], [98], [97, 47]] ∧ out.text = textLines ls ++ [10] ++ stats ∧
      readStats stats =
        [sizeRow .dupsLine 1, sizeRow .uniqLine 2, sizeRow .lineMem 8, sizeRow .dupsNode 1,
          sizeRow .uniqNode 2, sizeRow .dupsElem 2, sizeRow .uniqElem 3] ++ work ++
        [sizeRow .nodeStructSize 32, sizeRow .elemStructSize 40, sizeRow .nodeStruct 5,
          sizeRow .elemStruct 7, sizeRow .nodeMem 160, sizeRow .elemMem 280,
          sizeRow .totalNodeMem 440] ++ lastRows (fun _ => Clocks.init) m := by
  have hargs : ∀ w ∈ [ascii "-ES"], ArgText w := fun w hw => by
    obtain rfl := List.mem_singleton.mp hw
    exact ⟨by decide, by decide⟩
  have hoptions : options false noFloat [] [ascii "-ES"] = .ok (elemsOptions, OptBits.none) := rfl
  have hload : Loadable false dottedStream := ⟨by decide, by decide, by decide, nofun⟩
  have hshort : Short ((lines dottedStream).flatMap (elements PathTrie.defaultSep)) := by
    unfold Short
    decide +kernel
  have henough : Table.trie.Enough packed
      ((lines dottedStream).flatMap (elements PathTrie.defaultSep)) := by decide +kernel
  have hvalue : (execSet packedBuild (packedBuild.printStats packedSizes fun _ => Clocks.init)
      elemsOptions dottedBuffers).toOption.isSome = true := by decide +kernel
  obtain ⟨out, hexec⟩ := Option.isSome_iff_exists.mp hvalue
  have hrun : main packedBuild noFloat (packedBuild.printStats packedSizes fun _ => Clocks.init) []
      [ascii "-ES"] dottedBuffers = .ok (.set out) := by
    rw [main_eq _ hoptions trivial, ok_of_toOption hexec]
    rfl
  obtain ⟨set, -, -, hout⟩ := (program_statistics packedBuild packedSizes (fun _ => Clocks.init) hargs
    hoptions trivial rfl (show Delivers dottedBuffers dottedStream by decide) hload
      fun _ => hshort).resolve_left fun h => h.2 henough
  obtain ⟨ls, stats, work, m, hperm, htext, -, hread⟩ := hout out hrun
  exact ⟨out, ls, stats, work, m, hrun, hperm, htext, hread⟩

end PathSet
