import PathSet.LHashGrowth
import PathSet.Library.Numbered

/-!
The linear hash table as a store of keys. With any sound growth, chosen anew for
every insertion, a run keeps the table probed without gaps. With the growth of the
program the table is an interner for path elements and a dictionary of lines.
-/

namespace PathSet
open Fallible Pointer ProbeTable FirstSeen Numbered

namespace LHash

def key (kind : LHashKind) (h : LHash) (p : Nat) : Bytes :=
  ((deref h.nodes p).map fun c => c.str.take (keyLength kind c)).getD []

structure Probed (kind : LHashKind) (h : LHash) : Prop where
  sized : h.table.length = h.size
  used : h.used = (items h.table).length
  free : h.used < h.size
  distinct : ((items h.table).map (h.key kind)).Nodup
  settled : ∀ (j : Nat) p, h.table[j]? = some (some p) →
    Path h.table (fun _ => True) (slot h.size (h.key kind p)) j

theorem key_of_holds {kind : LHashKind} {h : LHash} {ks : List Bytes} (hh : Holds kind h ks)
    {p : Nat} {k : Bytes} (hp : deref ks p = some k) : h.key kind p = k := by
  obtain ⟨c, hc, hs⟩ := hh.stores p k hp
  rw [key, hc, Option.map_some, Option.getD_some, take_of_stores hs]

theorem probed_of_holds {kind : LHashKind} {h : LHash} {ks : List Bytes} (hh : Holds kind h ks) :
    Probed kind h := by
  refine ⟨hh.sized, hh.occupied.symm, hh.free, ?_, ?_⟩
  · refine List.Nodup.map_on ?_ (hh.slots.nodup_iff.mpr List.nodup_range')
    intro p hp q hq heq
    obtain ⟨k, hk⟩ := hh.mem_items.mp hp
    obtain ⟨k', hk'⟩ := hh.mem_items.mp hq
    rw [key_of_holds hh hk, key_of_holds hh hk'] at heq
    exact deref_inj hh.nodup hk (heq ▸ hk')
  · intro j p hj
    obtain ⟨k, hk⟩ := hh.mem_items.mp (mem_items.mpr ⟨j, hj⟩)
    have hway := hh.settled j p hj
    rwa [home, hk, Option.getD_some, hh.sized, ← key_of_holds hh hk] at hway

def insertStep (kind : LHashKind) (h : LHash) (x : Growth × Bytes) : Outcome (LHash × Bool × Nat) :=
  insertWith kind x.1 h x.2

def Growth.Always (growth : Growth) : Prop := ∀ size, 2 ≤ size → Growth.Sound growth size

def expected (past : List (Growth × Bytes)) (x : Growth × Bytes) : Bool × Nat :=
  (decide (x.2 ∉ past.map Prod.snd), number (past.map Prod.snd ++ [x.2]) x.2)

theorem insertStep_spec {kind : LHashKind} {past : List (Growth × Bytes)} {h : LHash}
    {x : Growth × Bytes}
    (hinv : Holds kind h (firsts (past.map Prod.snd)) ∧ 2 ≤ h.size)
    (hx : Growth.Always x.1 ∧ 0 ∉ x.2) :
    Stops (· = .alloc) (insertStep kind h x) ∨
      ∃ h', insertStep kind h x = .ok (h', expected past x) ∧
        Holds kind h' (firsts ((past ++ [x]).map Prod.snd)) ∧ 2 ≤ h'.size := by
  obtain ⟨hh, hsize⟩ := hinv
  rw [List.map_append, List.map_singleton, firsts_concat]
  rcases insertWith_spec hh (hx.1 _ hsize) hx.2 with
    ⟨p, stats, hins, hp, -⟩ | ⟨hnew, ⟨ha, -⟩ | ⟨h', hins, hh', hsize', -⟩⟩
  · have hmem : x.2 ∈ past.map Prod.snd := mem_firsts.mp (mem_of_deref hp)
    right
    refine ⟨{ h with stats := stats }, ?_, ?_, hsize⟩
    · rw [insertStep, hins, expected, number_append _ hmem, number_eq_of_deref hp]
      simp [hmem]
    · rw [if_pos hmem]
      exact ⟨hh.sized, hh.used, hh.free, hh.length, hh.stores, hh.nodup, hh.slots, hh.settled,
        hh.counted⟩
  · exact Or.inl ⟨_, rfl, ha⟩
  · have hmem : x.2 ∉ past.map Prod.snd := fun hin => hnew (mem_firsts.mpr hin)
    right
    refine ⟨h', ?_, ?_, ?_⟩
    · rw [insertStep, hins, expected, number_concat hmem]
      simp [hmem]
    · rwa [if_neg hmem]
    · rcases hsize' with heq | ⟨hgrown, -⟩
      · rwa [heq]
      · obtain ⟨n, hn, hlt⟩ := (hx.1 _ hsize).grown
        rw [hgrown] at hn
        obtain rfl := Except.ok.inj hn
        omega

theorem lookup_holds {kind : LHashKind} {h : LHash} {keys : List Bytes}
    (hh : Holds kind h (firsts keys)) {q : Bytes} (hq : 0 ∉ q) :
    h.lookup kind q = .ok (if q ∈ keys then some (number keys q) else none) := by
  rcases lookup_spec hh hq with ⟨p, hrun, hp⟩ | ⟨hrun, hnot⟩
  · rw [hrun, if_pos (mem_firsts.mp (mem_of_deref hp)), number_eq_of_deref hp]
  · rw [hrun, if_neg fun hin => hnot (mem_firsts.mpr hin)]

theorem insertStep_run {kind : LHashKind} {opt : Options} {h₀ : LHash} (hinit : init opt = .ok h₀)
    {xs : List (Growth × Bytes)} (hxs : ∀ x ∈ xs, Growth.Always x.1 ∧ 0 ∉ x.2) :
    Stops (· = .alloc) (run (insertStep kind) h₀ xs) ∨
      ∃ h, run (insertStep kind) h₀ xs = .ok (h, answers expected [] xs) ∧
        Holds kind h (firsts (xs.map Prod.snd)) ∧ 2 ≤ h.size := by
  obtain ⟨hh, hsize, -⟩ := init_holds kind hinit
  have next : ∀ past h x, (Holds kind h (firsts (past.map Prod.snd)) ∧ 2 ≤ h.size) →
      Growth.Always x.1 ∧ 0 ∉ x.2 → Stops (· = .alloc) (insertStep kind h x) ∨
        ∃ h', insertStep kind h x = .ok (h', expected past x) ∧
          Holds kind h' (firsts ((past ++ [x]).map Prod.snd)) ∧ 2 ≤ h'.size :=
    fun _ _ _ hinv hx => insertStep_spec hinv hx
  exact run_answers next ⟨hh, by omega⟩ hxs

theorem answers_expected {xs : List (Growth × Bytes)} {i : Nat} {k : Bytes}
    (hi : (xs.map Prod.snd)[i]? = some k) :
    (answers expected [] xs)[i]? =
      some (decide (k ∉ (xs.map Prod.snd).take i), number (xs.map Prod.snd) k) := by
  rw [List.getElem?_map] at hi
  obtain ⟨x, hx, rfl⟩ := Option.map_eq_some_iff.mp hi
  have hsplit : (xs.take i).map Prod.snd ++ [x.2] ++ (xs.drop (i + 1)).map Prod.snd =
      xs.map Prod.snd := by
    obtain ⟨hlt, rfl⟩ := List.getElem?_eq_some_iff.mp hx
    rw [← List.map_singleton, ← List.map_append, ← List.map_append, List.append_assoc,
      List.singleton_append, List.cons_getElem_drop_succ, List.take_append_drop]
  have hnumber : number (xs.map Prod.snd) x.2 = number ((xs.take i).map Prod.snd ++ [x.2]) x.2 := by
    rw [← hsplit, number_append _ (by simp)]
  rw [answers_getElem?, hx, Option.map_some, expected, List.nil_append, hnumber, List.map_take]

/-- Every run of insertions, with any sound growth at each of them, keeps the table
probed without gaps, answers each key with the node of its first insertion, and is
looked up accordingly. Rehashing keeps the nodes. -/
theorem lhash_insert_run (kind : LHashKind) {opt : Options} {h₀ : LHash}
    (hinit : init opt = .ok h₀) {xs : List (Growth × Bytes)}
    (hxs : ∀ x ∈ xs, Growth.Always x.1 ∧ 0 ∉ x.2) :
    run (insertStep kind) h₀ xs = .error .alloc ∨
      ∃ h rs, run (insertStep kind) h₀ xs = .ok (h, rs) ∧ Probed kind h ∧
        (∀ k, k ∈ (items h.table).map (h.key kind) ↔ k ∈ xs.map Prod.snd) ∧
        (∀ (i : Nat) k, (xs.map Prod.snd)[i]? = some k →
          rs[i]? = some (decide (k ∉ (xs.map Prod.snd).take i), number (xs.map Prod.snd) k)) ∧
        (∀ k ∈ xs.map Prod.snd, h.key kind (number (xs.map Prod.snd) k) = k) ∧
        (∀ q, 0 ∉ q → h.lookup kind q =
          .ok (if q ∈ xs.map Prod.snd then some (number (xs.map Prod.snd) q) else none)) ∧
        ∀ growth, Growth.Sound growth h.size →
          h.rehash kind growth = .error .alloc ∨
            ∃ h', h.rehash kind growth = .ok h' ∧ Probed kind h' ∧ h'.nodes = h.nodes ∧
              (items h'.table).Perm (items h.table) := by
  rcases insertStep_run hinit hxs with ⟨_, rfl, hrun⟩ | ⟨h, hrun, hh, -⟩
  · exact Or.inl hrun
  refine Or.inr ⟨h, _, hrun, probed_of_holds hh, ?_, fun i k hi => answers_expected hi, ?_,
    fun q hq => lookup_holds hh hq, ?_⟩
  · intro k
    rw [List.mem_map]
    constructor
    · rintro ⟨p, hp, rfl⟩
      obtain ⟨k, hk⟩ := hh.mem_items.mp hp
      rw [key_of_holds hh hk]
      exact mem_firsts.mp (mem_of_deref hk)
    · intro hk
      exact ⟨_, hh.mem_items.mpr ⟨k, deref_number hk⟩, key_of_holds hh (deref_number hk)⟩
  · exact fun k hk => key_of_holds hh (deref_number hk)
  · intro growth hg
    rcases rehash_spec hh hg with ⟨ha, -⟩ | ⟨h', hre, hh', -, -, -, hperm, hframe, -⟩
    · exact Or.inl ha
    · exact Or.inr ⟨h', hre, probed_of_holds hh', by rw [hframe], hperm⟩

def tight : Growth := ⟨fun _ => .ok 1, fun size => .ok (size + 1)⟩

theorem tight_always : Growth.Always tight := fun size hsize =>
  ⟨⟨1, rfl, Nat.one_pos, hsize⟩, ⟨size + 1, rfl, Nat.lt_succ_self size⟩⟩

def table37 : LHash :=
  ⟨[], List.replicate 37 none, 37, 0, 2, 3 / 4, ⟨0, 0, 0, 0, 0, 0, 0⟩, 0, 0⟩

def tightRun : List (Growth × Bytes) := [(tight, [97]), (tight, []), (tight, [97])]

theorem lhash_insert_run_tight : init ⟨32, none, none, MB 1, MB 1, none⟩ = .ok table37 ∧
    ∃ h, run (insertStep ⟨false, 1⟩) table37 tightRun = .ok (h, [(true, 1), (true, 2), (false, 1)]) ∧
      Probed ⟨false, 1⟩ h ∧ h.lookup ⟨false, 1⟩ [] = .ok (some 2) := by
  have hinit : init ⟨32, none, none, MB 1, MB 1, none⟩ = .ok table37 := rfl
  have hxs : ∀ x ∈ tightRun, Growth.Always x.1 ∧ 0 ∉ x.2 := by
    intro x hx
    simp only [tightRun, List.mem_cons, List.not_mem_nil, or_false] at hx
    rcases hx with rfl | rfl | rfl <;> exact ⟨tight_always, by decide⟩
  have hvalue : (run (insertStep ⟨false, 1⟩) table37 tightRun).map Prod.snd =
      .ok [(true, 1), (true, 2), (false, 1)] := by decide +kernel
  refine ⟨hinit, ?_⟩
  rcases lhash_insert_run ⟨false, 1⟩ hinit hxs with
    halloc | ⟨h, rs, hrun, hprobed, -, -, -, hlookup, -⟩
  · rw [halloc] at hvalue
    cases hvalue
  · rw [hrun] at hvalue
    obtain rfl : rs = _ := Except.ok.inj hvalue
    exact ⟨h, hrun, hprobed, hlookup [] (by decide)⟩

theorem holds_setVal {kind : LHashKind} {h : LHash} {ks : List Bytes} (hh : Holds kind h ks)
    (p v : Nat) : Holds kind (h.setVal p v) ks := by
  refine ⟨hh.sized, hh.used, hh.free, by simpa [setVal] using hh.length, ?_, hh.nodup, hh.slots,
    hh.settled, hh.counted⟩
  intro q k hq
  obtain ⟨c, hc, hs⟩ := hh.stores q k hq
  exact stores_setVal hc hs p v

theorem fits_insert {h h' : LHash} (hfits : Fits h)
    (hsize : h'.size = h.size ∨ (h.growth.grown h.size = .ok h'.size ∧ h'.size * 8 ≤ sizeMax))
    (hrs : h'.rehashSize = h.rehashSize) (hrl : h'.rehashLoad = h.rehashLoad) : Fits h' := by
  obtain ⟨n, hn, hlt⟩ := (growth_sound hfits).grown
  obtain ⟨hlarge, hbytes, hsz, hld⟩ := hfits
  rcases hsize with heq | ⟨hgrown, hfit⟩
  · exact ⟨heq ▸ hlarge, heq ▸ hbytes, hrs ▸ hsz, hrl ▸ hld⟩
  · rw [hgrown] at hn
    obtain rfl := Except.ok.inj hn
    exact ⟨by omega, hfit, hrs ▸ hsz, hrl ▸ hld⟩

def numbered (kind : LHashKind) : Store LHash Bytes Abort where
  insert h key := h.insert kind key
  lookup h key := h.lookup kind key
  uniq h := h.stats.uniqNode
  dups h := h.stats.dupsNode
  val := val
  setVal := setVal
  Exhausted e := e = .alloc
  Key k := 0 ∉ k
  Holds h ks := Holds kind h ks ∧ Fits h
  holds_key := by
    rintro h ks k ⟨hh, -⟩ hk
    obtain ⟨p, hp⟩ := exists_deref hk
    obtain ⟨c, -, hs⟩ := hh.stores p k hp
    exact hs.noNul
  lookup_spec := by
    rintro h ks k ⟨hh, -⟩ hk
    exact lookup_spec hh hk
  insert_spec := by
    rintro h ks k ⟨hh, hfits⟩ hk
    rcases insertWith_spec hh (growth_sound hfits) hk with
      ⟨p, stats, hins, hp, hu, hd⟩ | ⟨hnew, ⟨ha, -⟩ | ⟨h', hins, hh', hsize, hrs, hrl, hu, hd, hval⟩⟩
    · exact Or.inl ⟨_, p, hins, hp, ⟨holds_stats hh stats, hfits.1, hfits.2, hfits.3, hfits.4⟩,
        hu, hd, fun _ => rfl⟩
    · exact Or.inr ⟨hnew, Or.inl ⟨_, rfl, ha⟩⟩
    · exact Or.inr ⟨hnew, Or.inr ⟨h', hins, ⟨hh', fits_insert hfits hsize hrs hrl⟩, hu, hd, hval⟩⟩
  holds_setVal := by
    rintro h ks p v ⟨hh, hfits⟩
    exact ⟨holds_setVal hh p v, hfits.1, hfits.2, hfits.3, hfits.4⟩
  val_setVal := by
    rintro h ks p k v ⟨hh, -⟩ hp
    obtain ⟨c, hc, -⟩ := hh.stores p k hp
    simp [val, setVal, deref_update, hc]
  val_setVal_ne := by
    intro h p q v hpq
    simp [val, setVal, deref_update, hpq]
  uniq_setVal _ _ _ := rfl
  dups_setVal _ _ _ := rfl

theorem init_numbered (kind : LHashKind) {opt : Options} (hopt : opt.Accepted) :
    ∃ h, init opt = .ok h ∧ (numbered kind).Holds h [] ∧
      (numbered kind).uniq h = 0 ∧ (numbered kind).dups h = 0 := by
  obtain ⟨h, hinit, hfits⟩ := init_accepted hopt
  obtain ⟨hh, -, -, -, -, hu, hd⟩ := init_holds kind hinit
  exact ⟨h, hinit, ⟨hh, hfits⟩, hu, hd⟩

end LHash

end PathSet
