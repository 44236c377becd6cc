import PathSet.SetStats

/-!
What the counters of a table tell. After a load they depend on the keys alone: the numbers
of distinct and of repeated keys, the nodes, and the bytes of the texts. Only how full a hash
table is depends on its growth.
-/

namespace PathSet
open Fallible Pointer LinkedTree TernaryTree FirstSeen Numbered

def LHash.Measured (h : LHash) : Prop := h.nodeMem = (h.nodes.map fun c => c.str.length).sum

def GHash.Measured (h : GHash) : Prop := h.nodeMem = (h.nodes.map fun c => c.str.length).sum

theorem LHash.measured_insert {kind : LHashKind} {h h' : LHash} {key : Bytes} {new : Bool} {p : Nat}
    (hh : h.Measured) (hins : h.insert kind key = .ok (h', new, p)) : h'.Measured := by
  rcases insertWith_cases hins with ⟨-, heq, -⟩ | ⟨-, h₁, j, hframe, hnew⟩
  · rw [Measured, heq]
    exact hh
  · obtain ⟨-, -, heq⟩ := newNode_frame hnew
    rw [Measured, heq, hframe]
    simp [hh.symm]

theorem LHash.measured_init {opt : Options} {h : LHash} (hinit : LHash.init opt = .ok h) :
    h.Measured := by
  rw [init] at hinit
  split_ifs at hinit
  all_goals
    obtain ⟨n, -, hinit⟩ := bind_eq_ok.mp hinit
    obtain ⟨table, -, hinit⟩ := bind_eq_ok.mp hinit
    obtain rfl := Except.ok.inj hinit
    rfl

theorem LHash.measured_setVal {h : LHash} (hh : h.Measured) (p v : Nat) : (h.setVal p v).Measured := by
  have hsame := @map_update _ _ (fun c : LHashNode => c.str.length) (fun c => { c with val := v })
    (fun _ => rfl) h.nodes p
  exact Eq.trans hh (congrArg List.sum hsame.symm)

namespace LHash
variable {kind : LHashKind} {h h' : LHash}

theorem size_of_rehash {growth : Growth} (hre : h.rehash kind growth = .ok h') :
    growth.grown h.size = .ok h'.size ∧ h.size < h'.size ∧ h'.size * 8 ≤ sizeMax := by
  obtain ⟨-, -, hre⟩ := bind_eq_ok.mp hre
  obtain ⟨s, hs, hre⟩ := bind_eq_ok.mp hre
  obtain ⟨⟨⟩, hverify, hre⟩ := bind_eq_ok.mp hre
  obtain ⟨t, hcalloc, hre⟩ := bind_eq_ok.mp hre
  obtain ⟨⟨t', hit⟩, -, hre⟩ := bind_eq_ok.mp hre
  obtain rfl := Except.ok.inj hre
  refine ⟨hs, of_verify hverify, ?_⟩
  rcases calloc_cases s 8 (none : Option Nat) with ⟨ha, -⟩ | ⟨-, hfit⟩
  · cases hcalloc.symm.trans ha
  · exact hfit

theorem size_of_insert {key : Bytes} {new : Bool} {p : Nat}
    (hins : h.insert kind key = .ok (h', new, p)) :
    h'.rehashSize = h.rehashSize ∧ h'.rehashLoad = h.rehashLoad ∧
      ((h'.used = h.used ∧ h'.size = h.size) ∨
        (h'.used = h.used + 1 ∧ h'.size = h.size ∧
          ∃ s, sizeMulFloat h.size h.rehashLoad = .ok s ∧ h.used < s) ∨
        (h'.used = h.used + 1 ∧ h.growth.grown h.size = .ok h'.size ∧ h.size < h'.size ∧
          h'.size * 8 ≤ sizeMax)) := by
  obtain ⟨-, -, hins⟩ := bind_eq_ok.mp hins
  obtain ⟨⟨j, r, ne⟩, -, hins⟩ := bind_eq_ok.mp hins
  cases r with
  | some q =>
    obtain ⟨rfl, -⟩ := Prod.mk.inj (Except.ok.inj hins)
    exact ⟨rfl, rfl, Or.inl ⟨rfl, rfl⟩⟩
  | none =>
    obtain ⟨s, hs, hins⟩ := bind_eq_ok.mp hins
    obtain ⟨-, -, hins⟩ := bind_eq_ok.mp hins
    split_ifs at hins with hload
    · obtain ⟨-, -, heq⟩ := newNode_frame hins
      rw [heq]
      exact ⟨rfl, rfl, Or.inr (Or.inl ⟨rfl, rfl, s, hs, hload⟩)⟩
    · obtain ⟨h₁, hre, hins⟩ := bind_eq_ok.mp hins
      obtain ⟨⟨j', r', hit⟩, -, hins⟩ := bind_eq_ok.mp hins
      obtain ⟨-, -, heq⟩ := newNode_frame hins
      have hframe := rehash_frame hre
      have hsize := size_of_rehash hre
      rw [heq]
      refine ⟨by rw [hframe], by rw [hframe], Or.inr (Or.inr ⟨?_, hsize⟩)⟩
      rw [hframe]

structure Roomy (h : LHash) : Prop extends Fits h where
  sparse : h.used * 10 ≤ h.size * 9

theorem roomy_insert {key : Bytes} {new : Bool} {p : Nat} (hh : h.Roomy)
    (hins : h.insert kind key = .ok (h', new, p)) : h'.Roomy := by
  obtain ⟨⟨hlarge, hbytes, ⟨hs1, hs2⟩, hl1, hl2⟩, hsparse⟩ := hh
  obtain ⟨hrs, hrl, hcases⟩ := size_of_insert hins
  have hsize : (32 : ℚ) ≤ h.size := by exact_mod_cast hlarge
  have htop : (h.size : ℚ) < 2 ^ 61 := by
    have hlt : h.size < 2 ^ 61 := by
      simp only [sizeMax] at hbytes
      omega
    exact_mod_cast hlt
  rcases hcases with ⟨hused, heq⟩ | ⟨hused, heq, s, hs, hlt⟩ | ⟨hused, hgrown, hlt, hfit⟩
  · refine ⟨⟨heq ▸ hlarge, heq ▸ hbytes, hrs ▸ ⟨hs1, hs2⟩, hrl ▸ ⟨hl1, hl2⟩⟩, ?_⟩
    rw [hused, heq]
    exact hsparse
  · refine ⟨⟨heq ▸ hlarge, heq ▸ hbytes, hrs ▸ ⟨hs1, hs2⟩, hrl ▸ ⟨hl1, hl2⟩⟩, ?_⟩
    obtain ⟨r, hr, hle, -⟩ := @sizeMulFloat_spec h.size h.rehashLoad (by nlinarith) (by nlinarith)
    obtain rfl : s = r := Except.ok.inj (hs.symm.trans hr)
    have hlow : (s * 10 : ℚ) ≤ h.size * 9 := by nlinarith
    have hlow : s * 10 ≤ h.size * 9 := by exact_mod_cast hlow
    rw [hused, heq]
    omega
  · refine ⟨⟨by omega, hfit, hrs ▸ ⟨hs1, hs2⟩, hrl ▸ ⟨hl1, hl2⟩⟩, ?_⟩
    -- the size grows by a tenth, which is more than three slots
    obtain ⟨r, hr, -, hlow⟩ := @sizeMulFloat_spec h.size h.rehashSize (by nlinarith) (by nlinarith)
    obtain ⟨n, hn, hle, -⟩ := nextPrime_spec r
    simp only [growth, hr, ok_bind, hn] at hgrown
    obtain rfl : n = h'.size := Except.ok.inj hgrown
    have hmore : (h.size + 2 : ℚ) < r := by nlinarith
    have hmore : h.size + 2 < r := by exact_mod_cast hmore
    rw [hused]
    omega

end LHash

namespace GHash
variable {kind : GHashKind} {h h' : GHash}

theorem measured_init {opt : Options} (hinit : init opt = .ok h) : h.Measured := by
  obtain ⟨⟨⟩, -, hinit⟩ := bind_eq_ok.mp hinit
  obtain ⟨n, -, hinit⟩ := bind_eq_ok.mp hinit
  obtain ⟨⟨⟩, -, hinit⟩ := bind_eq_ok.mp hinit
  obtain ⟨bucket, -, hinit⟩ := bind_eq_ok.mp hinit
  obtain rfl := Except.ok.inj hinit
  rfl

theorem measured_setVal (hh : h.Measured) (p v : Nat) : (h.setVal p v).Measured := by
  have hsame := @map_update _ _ (fun c : GHashNode => c.str.length) (fun c => { c with val := v })
    (fun _ => rfl) h.nodes p
  exact Eq.trans hh (congrArg List.sum hsame.symm)

theorem hashRehash_frame {candidate : Nat} (hre : h.hashRehash kind candidate = .ok h') :
    h'.nodes = h.nodes ∧ h'.nodeMem = h.nodeMem := by
  obtain ⟨n, -, hre⟩ := bind_eq_ok.mp hre
  split_ifs at hre
  · obtain rfl := Except.ok.inj hre
    exact ⟨rfl, rfl⟩
  · obtain ⟨bucket, -, hre⟩ := bind_eq_ok.mp hre
    obtain ⟨dst, -, hre⟩ := bind_eq_ok.mp hre
    obtain rfl := Except.ok.inj hre
    exact ⟨rfl, rfl⟩

theorem grow_frame {c : GHashNode} {i j : Nat} (hgrow : h.grow kind c i = .ok (h', j)) :
    h'.nodes = h.nodes ∧ h'.nodeMem = h.nodeMem := by
  rw [grow] at hgrow
  generalize hstart : (if checkTuning h.tuning then h else { h with tuning := defaultTuning }) = h₁
    at hgrow
  have htuned : h₁.nodes = h.nodes ∧ h₁.nodeMem = h.nodeMem := by
    rw [← hstart]
    split_ifs <;> exact ⟨rfl, rfl⟩
  by_cases hload : h₁.loaded = true
  · rw [if_pos hload] at hgrow
    generalize growthCandidate h₁ = candidate at hgrow
    dsimp only at hgrow
    split_ifs at hgrow
    obtain ⟨h₂, hre, hgrow⟩ := bind_eq_ok.mp hgrow
    obtain ⟨⟨j', r, ne⟩, -, hgrow⟩ := bind_eq_ok.mp hgrow
    cases r with
    | some q => cases hgrow
    | none =>
      obtain ⟨rfl, -⟩ := Prod.mk.inj (Except.ok.inj hgrow)
      obtain ⟨hnodes, hmem⟩ := hashRehash_frame hre
      exact ⟨hnodes.trans htuned.1, hmem.trans htuned.2⟩
  · rw [if_neg hload] at hgrow
    obtain ⟨rfl, -⟩ := Prod.mk.inj (Except.ok.inj hgrow)
    exact htuned

theorem measured_newNode {j : Nat} {key : Bytes} {new : Bool} {p : Nat} (hh : h.Measured)
    (hnew : h.newNode kind j key = .ok (h', new, p)) : h'.Measured := by
  obtain ⟨b, -, hnew⟩ := bind_eq_ok.mp hnew
  obtain ⟨-, -, hnew⟩ := bind_eq_ok.mp hnew
  obtain ⟨-, -, hnew⟩ := bind_eq_ok.mp hnew
  obtain ⟨rfl, -⟩ := Prod.mk.inj (Except.ok.inj hnew)
  simp [Measured, hh.symm]

theorem measured_insert {key : Bytes} {new : Bool} {p : Nat} (hh : h.Measured)
    (hins : h.insert kind key = .ok (h', new, p)) : h'.Measured := by
  obtain ⟨⟨j, r, ne⟩, -, hins⟩ := bind_eq_ok.mp hins
  cases r with
  | some q =>
    obtain ⟨rfl, -⟩ := Prod.mk.inj (Except.ok.inj hins)
    exact hh
  | none =>
    obtain ⟨⟨h₁, j'⟩, hgrow, hins⟩ := bind_eq_ok.mp hins
    refine measured_newNode ?_ hins
    split_ifs at hgrow
    · obtain ⟨hnodes, hmem⟩ := grow_frame hgrow
      rw [Measured, hnodes, hmem]
      exact hh
    · obtain ⟨rfl, -⟩ := Prod.mk.inj (Except.ok.inj hgrow)
      exact hh

end GHash

def NodeSet.keeping {σ : Type} (N : NodeSet σ) (P : σ → Prop)
    (hP : ∀ s key s' b i, P s → N.insert s key = .ok (s', b, i) → P s') : NodeSet σ where
  toFinder := N.toFinder.keeping P hP
  count := N.count
  key_iff := N.key_iff
  id_bound h := N.id_bound h.1
  count_known h := N.count_known h.1

namespace Table

/-- What a table keeps beside its keys. -/
def Sound : (k : Table) → k.State → Prop
  | .trie, _ => True
  | .lhash, h => h.Measured ∧ h.Roomy
  | .ghash, h => h.Measured

theorem sound_create {opt : Options} (hopt : opt.Accepted) {k : Table} {s : k.State}
    (h : k.create opt = .ok s) : k.Sound s := by
  cases k with
  | trie => exact trivial
  | lhash =>
    obtain ⟨h', hinit, hfits⟩ := LHash.init_accepted hopt
    obtain rfl : h' = s := Except.ok.inj (hinit.symm.trans h)
    obtain ⟨hh, -⟩ := LHash.init_holds LHash.elemKind hinit
    refine ⟨LHash.measured_init hinit, hfits, ?_⟩
    rw [hh.used]
    exact Nat.zero_le _
  | ghash => exact GHash.measured_init h

theorem sound_plain (size : Nat) {k : Table} {s s' : k.State} {key : Bytes} {b : Bool} {i : Nat}
    (hs : k.Sound s) (hins : (k.plain size).insert s key = .ok (s', b, i)) : k.Sound s' := by
  cases k with
  | trie => exact trivial
  | lhash => exact ⟨LHash.measured_insert hs.1 hins, LHash.roomy_insert hs.2 hins⟩
  | ghash => exact GHash.measured_insert hs hins

theorem sound_nodes (printOne : Bool) {k : Table} (s : k.State) (key : Bytes) (s' : k.State)
    (b : Bool) (i : Nat) (hs : k.Sound s) (hins : (k.nodes printOne).insert s key = .ok (s', b, i)) :
    k.Sound s' := by
  cases k with
  | trie => exact trivial
  | lhash => exact ⟨LHash.measured_insert hs.1 hins, LHash.roomy_insert hs.2 hins⟩
  | ghash => exact GHash.measured_insert hs hins

theorem sound_setVal (size : Nat) {k : Table} {s : k.State} (hs : k.Sound s) (i v : Nat) :
    k.Sound ((k.plain size).setVal s i v) := by
  cases k with
  | trie => exact trivial
  | lhash =>
    exact ⟨LHash.measured_setVal hs.1 i v, ⟨hs.2.large, hs.2.bytes, hs.2.rehashSize, hs.2.rehashLoad⟩,
      hs.2.sparse⟩
  | ghash => exact GHash.measured_setVal hs i v

theorem sound_put {size : Nat} {k : Table} {s s' : k.State} {p : Bytes × Nat} {r : Nat}
    (hs : k.Sound s) (hput : (k.plain size).put size s p = .ok (s', r)) : k.Sound s' := by
  obtain ⟨⟨⟩, -, hput⟩ := bind_eq_ok.mp hput
  obtain ⟨⟨s₁, b, i⟩, hins, hput⟩ := bind_eq_ok.mp hput
  obtain ⟨⟨⟩, -, hput⟩ := bind_eq_ok.mp hput
  have hs₁ := sound_plain size hs hins
  cases b with
  | false =>
    obtain ⟨rfl, -⟩ := Prod.mk.inj (Except.ok.inj hput)
    exact hs₁
  | true =>
    obtain ⟨rfl, -⟩ := Prod.mk.inj (Except.ok.inj hput)
    exact sound_setVal size hs₁ i _

end Table

theorem LHash.nodeMem_eq {kind : LHashKind} {h : LHash} {m : Bytes → Option Nat}
    (hrep : (LHash.numbered kind).Represents h m) (hh : h.Measured) {keys : List Bytes}
    (hdom : ∀ k, (m k).isSome ↔ k ∈ keys) :
    h.nodeMem = ((firsts keys).map fun key => key.length + 1).sum := by
  obtain ⟨ks, ⟨hholds, -⟩, hm⟩ := hrep
  have hmap : (h.nodes.map fun c => c.str.length) = ks.map fun key => key.length + 1 :=
    map_of_paired hholds.stores hholds.length fun key c hc => by simp [hc.str]
  have hsum : h.nodeMem = _ := hh
  rw [hsum, hmap, ((hm.perm_firsts hdom).map _).sum_eq]

theorem GHash.nodeMem_eq {kind : GHashKind} {h : GHash} {m : Bytes → Option Nat}
    (hrep : (GHash.numbered kind).Represents h m) (hh : h.Measured) {keys : List Bytes}
    (hdom : ∀ k, (m k).isSome ↔ k ∈ keys) :
    h.nodeMem = ((firsts keys).map fun key => key.length + 1).sum := by
  obtain ⟨ks, ⟨hholds, -⟩, hm⟩ := hrep
  have hmap : (h.nodes.map fun c => c.str.length) = ks.map fun key => key.length + 1 :=
    map_of_paired hholds.stores hholds.length fun key c hc => by simp [hc.str]
  have hsum : h.nodeMem = _ := hh
  rw [hsum, hmap, ((hm.perm_firsts hdom).map _).sum_eq]

theorem GHash.used_le {kind : GHashKind} {h : GHash} {m : Bytes → Option Nat}
    (hrep : (GHash.numbered kind).Represents h m) :
    0 < h.nBuckets ∧ h.nBucketsUsed ≤ h.nBuckets := by
  obtain ⟨ks, ⟨hh, -⟩, -⟩ := hrep
  refine ⟨hh.pos, ?_⟩
  rw [hh.used, ← hh.sized]
  exact List.countP_le_length

namespace Table

def textFor : Table → List Bytes → Nat
  | .trie, _ => 0
  | .lhash, keys => ((firsts keys).map fun key => key.length + 1).sum
  | .ghash, keys => ((firsts keys).map fun key => key.length + 1).sum

def textMem : (k : Table) → k.State → Nat
  | .trie, _ => 0
  | .lhash, h => h.nodeMem
  | .ghash, h => h.nodeMem

def fill : (k : Table) → k.State → Option (Nat × Nat)
  | .trie, _ => none
  | .lhash, h => some (h.used, h.size)
  | .ghash, h => some (h.nBucketsUsed, h.nBuckets)

structure Tallied (k : Table) (s : k.State) (keys : List Bytes) : Prop where
  uniq : k.uniqNode s = keys.toFinset.card
  dups : k.dupsNode s = keys.length - keys.toFinset.card
  nodes : k.nodeStruct s = k.nodesFor keys
  text : k.textMem s = k.textFor keys
  fill : ∀ x ∈ k.fill s, 0 < x.2 ∧ x.1 ≤ x.2
  sparse : k = .lhash → ∀ x ∈ k.fill s, x.1 * 10 ≤ x.2 * 9

def Knows (k : Table) (s : k.State) (keys : List Bytes) : Prop :=
  ∃ m, (∀ key, (m key).isSome ↔ key ∈ keys) ∧
    ((∃ size, (k.plain size).Rep s m) ∨ ∃ printOne, (k.nodes printOne).Rep s m)

theorem Tallied.of_knows {k : Table} {s : k.State} {keys : List Bytes} (hkeys : k.Knows s keys)
    (hs : k.Sound s) (huniq : k.uniqNode s = keys.toFinset.card)
    (htotal : k.uniqNode s + k.dupsNode s = keys.length) : Tallied k s keys := by
  obtain ⟨m, hdom, hrep⟩ := hkeys
  have hdups : k.dupsNode s = keys.length - keys.toFinset.card := by omega
  cases k with
  | trie =>
    have hnodes : Trie.nodeStruct s = prefixCount (keys.map (· ++ [0])) := by
      rcases hrep with ⟨size, hrep⟩ | ⟨printOne, hrep⟩
      · exact Trie.nodeStruct_eq false hrep hdom
      · exact Trie.nodeStruct_eq printOne hrep hdom
    exact ⟨huniq, hdups, hnodes, rfl, nofun, nofun⟩
  | lhash =>
    obtain ⟨kind, hrep⟩ : ∃ kind, (LHash.numbered kind).Represents s m := by
      rcases hrep with ⟨size, hrep⟩ | ⟨printOne, hrep⟩
      · exact ⟨_, hrep⟩
      · exact ⟨_, hrep⟩
    have hroom := hs.2
    have hlarge := hroom.large
    have hsparse := hroom.sparse
    refine ⟨huniq, hdups, LHash.nodeStruct_eq kind hrep hdom, LHash.nodeMem_eq hrep hs.1 hdom, ?_, ?_⟩
    · intro x hx
      obtain rfl := Option.some.inj hx
      exact ⟨Nat.lt_of_lt_of_le (by decide) hlarge, by omega⟩
    · intro _ x hx
      obtain rfl := Option.some.inj hx
      exact hsparse
  | ghash =>
    obtain ⟨kind, hrep⟩ : ∃ kind, (GHash.numbered kind).Represents s m := by
      rcases hrep with ⟨size, hrep⟩ | ⟨printOne, hrep⟩
      · exact ⟨_, hrep⟩
      · exact ⟨_, hrep⟩
    refine ⟨huniq, hdups, GHash.nodeStruct_eq kind hrep hdom, GHash.nodeMem_eq hrep hs hdom, ?_, nofun⟩
    intro x hx
    obtain rfl := Option.some.inj hx
    exact GHash.used_le hrep

end Table

namespace PathTrie
variable {σ : Type} {w : Nat} {U : UintHash w} {E E' : ElemSet σ w}

theorem insert_congr (h : E'.insert = E.insert) : insert U E' = insert U E := by
  have hnext : putNext E' = putNext E := by
    funext sepSet s cur
    simp only [putNext, putElem, h]
  have hdescend : ∀ t fuel s ptr cur stats,
      descend U E' t fuel s ptr cur stats = descend U E t fuel s ptr cur stats := by
    intro t fuel
    induction fuel with
    | zero => exact fun _ _ _ _ => rfl
    | succ fuel ih =>
      intro s ptr cur stats
      simp only [descend, hnext, ih]
  have hbuild : ∀ fuel t ptr cur, build E' fuel t ptr cur = build E fuel t ptr cur := by
    intro fuel
    induction fuel with
    | zero => exact fun _ _ _ => rfl
    | succ fuel ih =>
      intro t ptr cur
      simp only [build, hnext, ih]
  funext t key
  simp only [insert, hdescend, hbuild]

theorem put_congr (h : E'.insert = E.insert) (sep : Bytes) (size : Nat) :
    (set U E' sep).put size = (set U E sep).put size := by
  have hins : (set U E' sep).insert = (set U E sep).insert := insert_congr h
  funext t p
  rw [SetImpl.put, SetImpl.put, hins]
  rfl

end PathTrie

section
variable (k : Table) {opt : Options} (hopt : opt.Accepted) {keys : List Bytes}
  (hkeys : ∀ key ∈ keys, 0 ∉ key) {s : k.State} (hcreate : k.create opt = .ok s)
include hopt hkeys hcreate

theorem Table.plain_tallied {size : Nat} {s' : k.State} {rs : List Nat}
    (hrun : run ((k.plain size).put size) s (keys.zipIdx 1) = .ok (s', rs)) :
    rs = putAnswers size keys ∧ k.Tallied s' keys := by
  obtain ⟨s₀, hs₀, hrec, -⟩ := k.create_spec true size hopt
  obtain rfl : s₀ = s := Except.ok.inj (hs₀.symm.trans hcreate)
  have hsound : k.Sound s' := @run_history _ _ _ _ _ (fun _ s => k.Sound s) (fun _ => True)
    (fun _ _ _ _ _ hs _ hput => sound_put hs hput) [] _ _ _ _ (sound_create hopt hcreate)
    (fun _ _ => trivial) hrun
  rcases (k.plain size).toSetImpl.put_run size hrec (zipIdx_noNul hkeys) with
    ⟨e, -, he⟩ | ⟨s₁, hrun₁, m, hrec₁⟩
  · cases hrun.symm.trans he
  obtain ⟨rfl, rfl⟩ := Prod.mk.inj (Except.ok.inj (hrun.symm.trans hrun₁))
  have hdom : ∀ key, (m key).isSome ↔ key ∈ keys := fun key => by
    rw [← keys_stored size keys 1, ← firstValue_isSome, ← hrec₁.vals, Option.isSome_map]
  have huniq := hrec₁.uniq
  have htotal := hrec₁.total
  rw [keys_stored] at huniq
  rw [show (stored size (keys.zipIdx 1)).length = keys.length by simp [stored]] at htotal
  refine ⟨rfl, Table.Tallied.of_knows ⟨m, hdom, Or.inl ⟨size, hrec₁.rep⟩⟩ hsound ?_ ?_⟩
  · cases k <;> exact huniq
  · cases k <;> exact htotal

theorem Table.path_tallied {w : Nat} (U : UintHash w) (addr : Nat → BitVec w) (printOne : Bool)
    {size : Nat} {t : PathTrie k.State w} {rs : List Nat}
    (hrun : run ((PathTrie.set U ((k.nodes printOne).placed addr)
      (opt.sepSet.getD PathTrie.defaultSep)).put size) (PathTrie.init s opt.sepSet)
      (keys.zipIdx 1) = .ok (t, rs)) :
    rs = putAnswers size keys ∧ t.stats.uniqNode = keys.toFinset.card ∧
      t.stats.dupsNode = keys.length - keys.toFinset.card ∧
      t.nodeStruct = prefixCount (keys.map (endMarked (opt.sepSet.getD PathTrie.defaultSep))) ∧
      k.Tallied t.elemSet (keys.flatMap (elements (opt.sepSet.getD PathTrie.defaultSep))) := by
  obtain ⟨s₀, hs₀, -, hseen, hrep, hcount⟩ := k.create_spec printOne size hopt
  obtain rfl : s₀ = s := Except.ok.inj (hs₀.symm.trans hcreate)
  obtain ⟨-, -, -, huniq, htotal⟩ := hseen
  -- the elements are put into a set whose states are sound, which has the same insertions
  let N := (k.nodes printOne).keeping k.Sound (Table.sound_nodes printOne)
  have hempty : (N.placed addr).Rep s₀ (fun _ => none) :=
    NodeSet.placed_empty N addr ⟨hrep, Table.sound_create hopt hcreate⟩ hcount
  have hdups : (k.nodes printOne).dups s₀ = 0 := by
    rw [huniq] at htotal
    simpa using htotal
  have hseen : (N.placed addr).Seen [] s₀ := Interner.seen_empty _ hempty huniq hdups
  have hinsert : (N.placed addr).insert = ((k.nodes printOne).placed addr).insert := rfl
  have hput : (PathTrie.set U (N.placed addr) (opt.sepSet.getD PathTrie.defaultSep)).put size =
      (PathTrie.set U ((k.nodes printOne).placed addr) (opt.sepSet.getD PathTrie.defaultSep)).put size :=
    PathTrie.put_congr hinsert _ _
  rw [← hput] at hrun
  have hloaded := PathTrie.loaded_run hseen opt.sepSet hkeys hrun
  have hcounters := @PathTrie.loaded_counters _ _ U (N.placed addr) (fun _ => 0) (fun _ => 0)
    (fun _ _ => rfl) _ _ _ _ hloaded
  obtain ⟨⟨m, hrec⟩, -, me, ⟨-, m₀, ⟨hrep₀, hsound⟩, hm⟩, hdom, huniqe, htotale⟩ := hloaded
  rw [List.zipIdx_map_fst] at hdom huniqe htotale
  have hknows : k.Knows t.elemSet (keys.flatMap (elements (opt.sepSet.getD PathTrie.defaultSep))) :=
    ⟨m₀, fun e => by rw [← hdom e, hm e, Option.isSome_map], Or.inr ⟨printOne, hrep₀⟩⟩
  obtain ⟨hu, hd, -, -, hn, -⟩ := PathCounters.mk.inj hcounters
  refine ⟨?_, hu, hd, hn, Table.Tallied.of_knows hknows hsound ?_ ?_⟩
  · have hstart : (PathTrie.set U (N.placed addr) (opt.sepSet.getD PathTrie.defaultSep)).Recorded []
        (PathTrie.init s₀ opt.sepSet) (fun _ => none) :=
      Dictionary.recorded_empty _ (PathTrie.holding_init hempty opt.sepSet) rfl rfl
    rcases SetImpl.put_run _ size hstart (zipIdx_noNul hkeys) with ⟨e, -, he⟩ | ⟨t', hrun', -⟩
    · cases hrun.symm.trans he
    · exact (Prod.mk.inj (Except.ok.inj (hrun.symm.trans hrun'))).2
  · cases k <;> exact huniqe
  · cases k <;> exact htotale

end

end PathSet
