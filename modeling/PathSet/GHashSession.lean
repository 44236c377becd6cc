import PathSet.GHashScarceInsert

/-!
A table in use. Its owner inserts, deletes, looks up, rehashes, clears and walks in any
order, and memory may run out at any time. The table is a dictionary from texts to nodes.
-/

namespace PathSet
open Fallible Pointer Buckets Recycled

/-- The nodes by their texts, and how many were made. -/
structure TextMap where
  pairs : List (Bytes × Nat)
  made : Nat
  deriving DecidableEq, Repr

inductive Request where
  | insert (key : Bytes) (newSize : Option Nat)
  | delete (key : Bytes)
  | lookup (key : Bytes)
  | rehash (newSize : Nat)
  | clear
  /-- The loop from the first entry to the last. -/
  | walk
  | entries (bufferSize : Nat)
  deriving DecidableEq, Repr

inductive Answer where
  | inserted (new : Bool) (p : Nat)
  | deleted (r : Option Nat)
  | found (r : Option Nat)
  | rehashed (grown : Bool)
  | cleared
  | walked (ps : List Nat)
  | filled (buffer : List (Option Nat)) (n : Nat)
  deriving DecidableEq, Repr

namespace TextMap

def empty : TextMap := ⟨[], 0⟩

def find (d : TextMap) (text : Bytes) : Option Nat :=
  (d.pairs.find? fun x => x.1 = text).map (·.2)

def nodes (d : TextMap) : List Nat := d.pairs.map (·.2)

def next (kind : GHashKind) (d : TextMap) : Request → TextMap
  | .insert key _ =>
      if (d.find (GHashTable.keyText kind key)).isSome then d
      else ⟨(GHashTable.keyText kind key, d.made + 1) :: d.pairs, d.made + 1⟩
  | .delete key => { d with pairs := d.pairs.filter fun x => x.1 ≠ GHashTable.keyText kind key }
  | .clear => { d with pairs := [] }
  | _ => d

/-- The answer to a request. The deletion of a `hidden` key does not tell its node. -/
def Allows (kind : GHashKind) (hidden : Bytes → Prop) (d : TextMap) : Request → Answer → Prop
  | .insert key _, .inserted new p =>
      match d.find (GHashTable.keyText kind key) with
      | some q => new = false ∧ p = q
      | none => new = true ∧ p = d.made + 1
  | .delete key, .deleted r =>
      (hidden key → r = none) ∧ (¬hidden key → r = d.find (GHashTable.keyText kind key))
  | .lookup key, .found r => r = d.find (GHashTable.keyText kind key)
  | .rehash _, .rehashed _ => True
  | .clear, .cleared => True
  | .walk, .walked ps => ps.Perm d.nodes
  | .entries bufferSize, .filled buffer n =>
      n = min bufferSize d.pairs.length ∧
        ∃ ps : List Nat, ps.Perm d.nodes ∧ buffer = (ps.take bufferSize).map some
  | _, _ => False

end TextMap

namespace GHashEntries

def respond (mix : Bytes → Nat) (kind : GHashKind) (s : GHashEntries × Supply) :
    Request → Outcome ((GHashEntries × Supply) × Answer)
  | .insert key newSize => do
      let (t, supply, new, p) ← Scarce.insert mix kind s.1 s.2 (key, newSize)
      pure ((t, supply), .inserted new p)
  | .delete key => do
      let (t, r) ← hashDelete mix kind s.1 key
      pure ((t, s.2), .deleted r)
  | .lookup key => do
      let r ← hashLookup mix kind s.1 (GHash.keyNode kind key)
      pure (s, .found r)
  | .rehash newSize => do
      let (t, supply, grown) ← Scarce.hashRehash mix kind s.1 s.2 newSize
      pure ((t, supply), .rehashed grown)
  | .clear => pure ((hashClear s.1, s.2), .cleared)
  | .walk => do
      let ps ← walk mix kind s.1
      pure (s, .walked ps)
  | .entries bufferSize => do
      let (buffer, n) ← hashGetEntries s.1 bufferSize
      pure (s, .filled buffer n)

variable {mix : Bytes → Nat} {kind : GHashKind} {t : GHashEntries} {ks : List Bytes}
variable {tbl : List (List Nat)} {d : TextMap}

def labelled (ks : List Bytes) (ps : List Nat) : List (Bytes × Nat) :=
  ps.map fun p => ((deref ks p).getD [], p)

structure Holds (mix : Bytes → Nat) (kind : GHashKind) (t : GHashEntries) (ks : List Bytes)
    (tbl : List (List Nat)) (d : TextMap) : Prop where
  kept : Kept mix kind t ks tbl
  pairs : d.pairs.Perm (labelled ks (items tbl))
  made : d.made = ks.length

theorem labelled_congr {ks' : List Bytes} {ps : List Nat}
    (same : ∀ p ∈ ps, deref ks' p = deref ks p) : labelled ks' ps = labelled ks ps :=
  List.map_congr_left fun p hp => by rw [same p hp]

theorem Holds.nodes (h : Holds mix kind t ks tbl d) : t.stored.Perm d.nodes := by
  have hmap : (labelled ks (items tbl)).map (·.2) = items tbl := by
    rw [labelled, List.map_map]
    exact List.map_id _
  rw [h.kept.stored_eq, TextMap.nodes, ← hmap]
  exact (h.pairs.map _).symm

theorem Holds.mem_pairs (h : Holds mix kind t ks tbl d) {text : Bytes} {p : Nat} :
    (text, p) ∈ d.pairs ↔ p ∈ items tbl ∧ deref ks p = some text := by
  rw [h.pairs.mem_iff, labelled, List.mem_map]
  constructor
  · rintro ⟨q, hq, heq⟩
    obtain ⟨htext, rfl⟩ := Prod.mk.inj heq
    obtain ⟨k, hk⟩ := h.kept.nodes q hq
    rw [hk, Option.getD_some] at htext
    exact ⟨hq, htext ▸ hk⟩
  · rintro ⟨hp, hk⟩
    exact ⟨p, hp, by rw [hk, Option.getD_some]⟩

theorem Holds.find_eq_some (h : Holds mix kind t ks tbl d) {text : Bytes} {p : Nat} :
    d.find text = some p ↔ p ∈ items tbl ∧ deref ks p = some text := by
  rw [TextMap.find, Option.map_eq_some_iff]
  constructor
  · rintro ⟨⟨k, q⟩, hfind, rfl⟩
    have hk : k = text := by simpa using List.find?_some hfind
    exact h.mem_pairs.mp (hk ▸ List.mem_of_find?_eq_some hfind)
  · intro hp
    have hmem := h.mem_pairs.mpr hp
    cases hfind : d.pairs.find? fun x => x.1 = text with
    | none => simpa using List.find?_eq_none.mp hfind _ hmem
    | some x =>
      obtain ⟨k, q⟩ := x
      obtain rfl : k = text := by simpa using List.find?_some hfind
      obtain ⟨hq, hkq⟩ := h.mem_pairs.mp (List.mem_of_find?_eq_some hfind)
      exact ⟨_, rfl, h.kept.distinct q hq p hp.1 k hkq hp.2⟩

theorem Holds.find_eq_none (h : Holds mix kind t ks tbl d) {text : Bytes} :
    d.find text = none ↔ ∀ p ∈ items tbl, deref ks p ≠ some text := by
  rw [Option.eq_none_iff_forall_ne_some]
  constructor
  · exact fun hnot p hp hk => hnot p (h.find_eq_some.mpr ⟨hp, hk⟩)
  · exact fun hnot p hp => hnot p (h.find_eq_some.mp hp).1 (h.find_eq_some.mp hp).2

theorem Holds.moved {t' : GHashEntries} {tbl' : List (List Nat)} (h : Holds mix kind t ks tbl d)
    (hkept : Kept mix kind t' ks tbl') (hitems : (items tbl').Perm (items tbl)) :
    Holds mix kind t' ks tbl' d :=
  ⟨hkept, h.pairs.trans (hitems.symm.map _), h.made⟩

theorem Holds.inserted {text : Bytes} {newSize : Option Nat} {t' : GHashEntries}
    {tbl' : List (List Nat)} (h : Holds mix kind t ks tbl d)
    (hi : Inserted mix kind t ks tbl text newSize t' tbl') :
    Holds mix kind t' (ks ++ [text]) tbl' ⟨(text, d.made + 1) :: d.pairs, d.made + 1⟩ := by
  have hlast : deref (ks ++ [text]) (ks.length + 1) = some text := by rw [deref_append, if_pos rfl]
  have hsame : labelled (ks ++ [text]) (items tbl) = labelled ks (items tbl) := by
    refine labelled_congr fun p hp => ?_
    obtain ⟨k, hk⟩ := h.kept.nodes p hp
    rw [deref_append_left _ hk, hk]
  have hall : (labelled (ks ++ [text]) (items tbl')).Perm
      ((text, ks.length + 1) :: labelled ks (items tbl)) := by
    have hmap := hi.items.map fun p => ((deref (ks ++ [text]) p).getD [], p)
    rw [List.map_cons, hlast, Option.getD_some] at hmap
    rw [← hsame]
    exact hmap
  refine ⟨hi.kept, ?_, by simp [h.made]⟩
  rw [h.made]
  exact (h.pairs.cons _).trans hall.symm

theorem Holds.removed {j p : Nat} {t' : GHashEntries} {tbl' : List (List Nat)}
    (h : Holds mix kind t ks tbl d) {text : Bytes} (hp : deref ks p = some text)
    (hr : Removed mix kind t ks tbl j p t' tbl') :
    Holds mix kind t' ks tbl' { d with pairs := d.pairs.filter fun x => x.1 ≠ text } := by
  have hnodup : p ∉ items tbl' :=
    (List.nodup_cons.mp (hr.items.nodup_iff.mp h.kept.nodup)).1
  have hmem : p ∈ items tbl := hr.items.mem_iff.mpr (by simp)
  have hrest : (labelled ks (items tbl')).filter (fun x => x.1 ≠ text) = labelled ks (items tbl') := by
    refine List.filter_eq_self.mpr fun x hx => decide_eq_true ?_
    obtain ⟨q, hq, rfl⟩ := List.mem_map.mp hx
    rintro rfl
    have hq' : q ∈ items tbl := hr.items.mem_iff.mpr (List.mem_cons_of_mem p hq)
    obtain ⟨k, hk⟩ := h.kept.nodes q hq'
    rw [hk, Option.getD_some] at hp
    exact hnodup (h.kept.distinct p hmem q hq' k hp hk ▸ hq)
  have hall := (h.pairs.trans (hr.items.map _)).filter fun x => decide (x.1 ≠ text)
  rw [List.map_cons, hp, Option.getD_some, List.filter_cons_of_neg (by simp)] at hall
  refine ⟨hr.kept, ?_, h.made⟩
  rw [← hrest]
  exact hall

theorem insert_of_zero {key : Bytes} {x : GHashEntries × Bool × Nat}
    (h : insert mix kind t (key, some 0) = .ok x) : insert mix kind t (key, none) = .ok x := by
  obtain ⟨y, hins, hrest⟩ := bind_eq_ok.mp h
  obtain ⟨⟨t₁, j, r⟩, hfind, hins⟩ := bind_eq_ok.mp hins
  cases r with
  | none =>
    obtain ⟨z, hgrow, -⟩ := bind_eq_ok.mp hins
    obtain ⟨t₂, hrehash, -⟩ := bind_eq_ok.mp hgrow
    cases hrehash
  | some previous =>
    have hfound : hashInsert mix kind none t (GHash.keyNode kind key) = .ok y := by
      rw [hashInsert, hfind, ok_bind]
      exact hins
    rw [insert, hfound, ok_bind]
    exact hrest

theorem insert_holds (h : Holds mix kind t ks tbl d) (supply : Supply) (key : Bytes)
    (newSize : Option Nat) :
    Scarce.insert mix kind t supply (key, newSize) = .error .alloc ∨
      ∃ t' supply' new p, Scarce.insert mix kind t supply (key, newSize) =
          .ok (t', supply', new, p) ∧
        d.Allows kind (InOverflow kind t) (.insert key newSize) (.inserted new p) ∧
        ∃ ks' tbl', Holds mix kind t' ks' tbl' (d.next kind (.insert key newSize)) := by
  rcases Scarce.insert_ends h.kept supply (key, newSize) with
    hstop | ⟨t', supply', new, p, hrun⟩
  · exact Or.inl hstop
  right
  refine ⟨t', supply', new, p, hrun, ?_⟩
  obtain ⟨size, hsize, hplain⟩ : ∃ size : Option Nat, (∀ n ∈ (key, size).2, 0 < n) ∧
      insert mix kind t (key, size) = .ok (t', new, p) := by
    have hplain := Scarce.insert_plain hrun
    by_cases hzero : newSize = some 0
    · subst hzero
      exact ⟨none, by simp, insert_of_zero hplain⟩
    · refine ⟨newSize, fun n hn => Nat.pos_of_ne_zero ?_, hplain⟩
      rintro rfl
      exact hzero hn
  rcases insert_spec h.kept rfl hsize with
    ⟨q, hq, hk, hins⟩ | ⟨hnew, ⟨-, hno⟩ | ⟨t₁, tbl₁, hins, hinserted⟩⟩
  · cases hplain.symm.trans hins
    have hfind : d.find (GHashTable.keyText kind key) = some p := h.find_eq_some.mpr ⟨hq, hk⟩
    simp only [TextMap.Allows, TextMap.next, hfind, Option.isSome_some, if_true, and_self,
      true_and]
    exact ⟨ks, tbl, h⟩
  · cases hplain.symm.trans hno
  · cases hplain.symm.trans hins
    have hfind : d.find (GHashTable.keyText kind key) = none := h.find_eq_none.mpr hnew
    simp only [TextMap.Allows, TextMap.next, hfind, Option.isSome_none, h.made, and_self,
      true_and]
    refine ⟨ks ++ [GHashTable.keyText kind key], tbl₁, ?_⟩
    have hheld := h.inserted hinserted
    rwa [h.made] at hheld

theorem delete_holds (h : Holds mix kind t ks tbl d) (key : Bytes) :
    ∃ t' r, hashDelete mix kind t key = .ok (t', r) ∧
      d.Allows kind (InOverflow kind t) (.delete key) (.deleted r) ∧
      ∃ tbl', Holds mix kind t' ks tbl' (d.next kind (.delete key)) := by
  rcases hashDelete_spec h.kept (rfl : GHashTable.keyText kind key = _) with
    ⟨hnot, hrun⟩ |
    ⟨p, t', tbl', hp, hr, ⟨⟨b, hb, hdata⟩, hrun⟩ | ⟨⟨b, e, hb, he, hread⟩, hrun⟩⟩
  · refine ⟨t, none, hrun, ⟨fun _ => rfl, fun _ => (h.find_eq_none.mpr hnot).symm⟩, tbl, h.kept, ?_,
      h.made⟩
    have hfilter : d.pairs.filter (fun x => x.1 ≠ GHashTable.keyText kind key) = d.pairs := by
      refine List.filter_eq_self.mpr fun x hx => decide_eq_true ?_
      rintro heq
      obtain ⟨hmem, hk⟩ := h.mem_pairs.mp (show (GHashTable.keyText kind key, x.2) ∈ d.pairs from
        heq ▸ hx)
      exact hnot _ hmem hk
    rw [TextMap.next, hfilter]
    exact h.pairs
  all_goals
    have hmem : p ∈ items tbl := hr.items.mem_iff.mpr (by simp)
    have hmatches := (matches_iff h.kept hmem).mpr hp
  · have hout := head_not_overflow h.kept hb hdata hmatches
    exact ⟨t', some p, hrun, ⟨fun hin => absurd hin hout,
      fun _ => (h.find_eq_some.mpr ⟨hmem, hp⟩).symm⟩, tbl', h.removed hp hr⟩
  · have hin : InOverflow kind t key :=
      ⟨e, List.mem_flatMap.mpr ⟨b, List.mem_of_getElem? hb, he⟩, p, hread, hmatches⟩
    exact ⟨t', none, hrun, ⟨fun _ => rfl, fun hout => absurd hin hout⟩, tbl', h.removed hp hr⟩

theorem lookup_holds (h : Holds mix kind t ks tbl d) (key : Bytes) :
    hashLookup mix kind t (GHash.keyNode kind key) =
      .ok (d.find (GHashTable.keyText kind key)) := by
  rcases hashLookup_spec h.kept (rfl : GHashTable.keyText kind key = _) with
    ⟨p, hp, hk, hrun⟩ | ⟨hnot, hrun⟩
  · rw [hrun, h.find_eq_some.mpr ⟨hp, hk⟩]
  · rw [hrun, h.find_eq_none.mpr hnot]

theorem respond_holds (h : Holds mix kind t ks tbl d) (supply : Supply) (req : Request) :
    respond mix kind (t, supply) req = .error .alloc ∨
      ∃ s' a, respond mix kind (t, supply) req = .ok (s', a) ∧
        d.Allows kind (InOverflow kind t) req a ∧
        ∃ ks' tbl', Holds mix kind s'.1 ks' tbl' (d.next kind req) := by
  cases req with
  | insert key newSize =>
    rcases insert_holds h supply key newSize with hstop | ⟨t', supply', new, p, hrun, ha, hheld⟩
    · left
      rw [respond, hstop, error_bind]
    · refine Or.inr ⟨(t', supply'), .inserted new p, ?_, ha, hheld⟩
      rw [respond, hrun]
      rfl
  | delete key =>
    obtain ⟨t', r, hrun, ha, tbl', hheld⟩ := delete_holds h key
    refine Or.inr ⟨(t', supply), .deleted r, ?_, ha, ks, tbl', hheld⟩
    rw [respond, hrun]
    rfl
  | lookup key =>
    refine Or.inr ⟨(t, supply), .found (d.find (GHashTable.keyText kind key)), ?_, rfl, ks, tbl, h⟩
    rw [respond, lookup_holds h key, ok_bind, pure_eq_ok]
  | rehash newSize =>
    obtain ⟨t', tbl', supply', grown, hrun, hkept, hitems, -⟩ :=
      Scarce.hashRehash_spec h.kept supply newSize
    refine Or.inr ⟨(t', supply'), .rehashed grown, ?_, trivial, ks, tbl', h.moved hkept hitems⟩
    rw [respond, hrun]
    rfl
  | clear =>
    obtain ⟨hkept, -, -⟩ := hashClear_spec h.kept
    refine Or.inr ⟨(hashClear t, supply), .cleared, rfl, trivial, ks, _, hkept, ?_, h.made⟩
    rw [items_replicate]
    exact List.Perm.refl _
  | walk =>
    refine Or.inr ⟨(t, supply), .walked t.stored, ?_, h.nodes, ks, tbl, h⟩
    rw [respond, walk_spec h.kept, ok_bind, pure_eq_ok]
  | entries bufferSize =>
    have hlen : t.stored.length = d.pairs.length := by
      rw [h.nodes.length_eq, TextMap.nodes, List.length_map]
    refine Or.inr ⟨(t, supply), .filled ((t.stored.take bufferSize).map some)
      (min bufferSize t.stored.length), ?_, ⟨hlen ▸ rfl, t.stored, h.nodes, rfl⟩, ks, tbl, h⟩
    rw [respond, hashGetEntries_spec h.kept]
    rfl

theorem holds_fresh {n : Nat} (hn : 0 < n) :
    Holds mix kind (fresh n) [] (List.replicate n []) .empty := by
  refine ⟨kept_fresh hn, ?_, rfl⟩
  rw [items_replicate]
  exact List.Perm.refl _

theorem session_refines {n : Nat} (hn : 0 < n) (supply : Supply) (reqs : List Request) :
    Stops (· = .alloc) (run (respond mix kind) (fresh n, supply) reqs) ∨
      ∃ s answers, run (respond mix kind) (fresh n, supply) reqs = .ok (s, answers) ∧
        ∃ ks tbl, Holds mix kind s.1 ks tbl (reqs.foldl (TextMap.next kind) .empty) := by
  have hstep : ∀ (s : GHashEntries × Supply) (d : TextMap) (req : Request),
      (∃ ks tbl, Holds mix kind s.1 ks tbl d) →
      Stops (· = .alloc) (respond mix kind s req) ∨
        ∃ s' a, respond mix kind s req = .ok (s', a) ∧
          ∃ ks tbl, Holds mix kind s'.1 ks tbl (d.next kind req) := by
    rintro s d req ⟨ks, tbl, h⟩
    rcases respond_holds h s.2 req with hstop | ⟨s', a, hrun, -, hheld⟩
    · exact Or.inl ⟨_, rfl, hstop⟩
    · exact Or.inr ⟨s', a, hrun, hheld⟩
  have hinit : ∃ ks tbl, Holds mix kind (fresh n, supply).1 ks tbl .empty :=
    ⟨[], _, holds_fresh hn⟩
  exact run_refines hstep hinit reqs

theorem session_holds {n : Nat} (hn : 0 < n) {supply : Supply} {reqs : List Request}
    {s : GHashEntries × Supply} {answers : List Answer}
    (hrun : run (respond mix kind) (fresh n, supply) reqs = .ok (s, answers)) :
    ∃ ks tbl, Holds mix kind s.1 ks tbl (reqs.foldl (TextMap.next kind) .empty) := by
  rcases session_refines hn supply reqs with ⟨e, -, he⟩ | ⟨s', ys, hrun', hheld⟩
  · cases hrun.symm.trans he
  · cases hrun.symm.trans hrun'
    exact hheld

theorem Kept.buckets_perm {t' : GHashEntries} {tbl' : List (List Nat)}
    (h : Kept mix kind t ks tbl) (h' : Kept mix kind t' ks tbl')
    (hitems : (items tbl').Perm (items tbl)) (hlen : t'.nBuckets = t.nBuckets) :
    List.Forall₂ List.Perm (t'.bucket.map (nodesOf t'.entry)) (t.bucket.map (nodesOf t.entry)) := by
  have hsized : tbl'.length = tbl.length := by rw [h'.sized, h.sized, hlen]
  rw [h.shown.map_nodesOf, h'.shown.map_nodesOf]
  refine List.forall₂_iff_get.mpr ⟨hsized, fun j hj hj' => ?_⟩
  have hleft := bucket_eq_filter h'.homed (List.getElem?_eq_getElem hj)
  have hright := bucket_eq_filter h.homed (List.getElem?_eq_getElem hj')
  rw [hsized] at hleft
  rw [List.get_eq_getElem, List.get_eq_getElem, hleft, hright]
  exact hitems.filter _

def threeKeys : GHashEntries :=
  ⟨[⟨0, 0, [97, 0]⟩, ⟨0, 0, [98, 0]⟩, ⟨0, 0, [108, 0]⟩], ⟨[some 3], []⟩,
    ((List.replicate 11 ⟨none, []⟩).set 4 ⟨some 1, [1]⟩).set 5 ⟨some 2, []⟩, 11, 2, 3, 1⟩

theorem threeKeys_run :
    run (respond keyMix ⟨true, 16⟩) (fresh 11, [true, true])
        [.insert [97] none, .insert [98] none, .insert [108] none] =
      .ok ((threeKeys, [true]), [.inserted true 1, .inserted true 2, .inserted true 3]) := rfl

structure Visits (mix : Bytes → Nat) (kind : GHashKind) (t : GHashEntries) (order : List Nat) :
    Prop where
  walked : walk mix kind t = .ok order
  processed : ∀ {σ : Type} (processor : σ → Option Nat → σ × Bool) (s : σ),
    hashDoForEach processor t s = .ok (process (fun s p => processor s (some p)) s order)
  buffered : ∀ size,
    hashGetEntries t size = .ok ((order.take size).map some, min size order.length)

end GHashEntries

open GHashEntries

section
variable (mix : Bytes → Nat) (kind : GHashKind) {n : Nat}

/-- Over any run of requests, with memory failing at any point, each answer is that of the
dictionary, but that the deletion of a key in an overflow entry of the table answers `NULL`.
The run ends early for want of memory, and for nothing else. -/
theorem ghash_session_run (hn : 0 < n) (supply : Supply) (reqs : List Request) :
    run (respond mix kind) (GHashEntries.fresh n, supply) reqs = .error .alloc ∨
      ∃ s answers, run (respond mix kind) (GHashEntries.fresh n, supply) reqs = .ok (s, answers) ∧
        answers.length = reqs.length ∧
        (∀ i req a, reqs[i]? = some req → answers[i]? = some a →
          ∃ sᵢ, run (respond mix kind) (GHashEntries.fresh n, supply) (reqs.take i) =
              .ok (sᵢ, answers.take i) ∧
            ((reqs.take i).foldl (TextMap.next kind) .empty).Allows kind (InOverflow kind sᵢ.1) req a) ∧
        s.1.stored.Perm (reqs.foldl (TextMap.next kind) .empty).nodes := by
  rcases session_refines hn supply reqs with ⟨e, rfl, hstop⟩ | ⟨s, answers, hrun, ks, tbl, hheld⟩
  · exact Or.inl hstop
  refine Or.inr ⟨s, answers, hrun, run_length hrun, fun i req a hreq ha => ?_, hheld.nodes⟩
  obtain ⟨sᵢ, s', hpast, hstep⟩ := run_take hrun hreq ha
  obtain ⟨ksᵢ, tblᵢ, hᵢ⟩ := session_holds hn hpast
  refine ⟨sᵢ, hpast, ?_⟩
  rcases respond_holds hᵢ sᵢ.2 req with hstop | ⟨s₁, a₁, hanswer, hallows, -⟩
  · cases hstep.symm.trans hstop
  · cases hstep.symm.trans hanswer
    exact hallows

theorem ghash_session_short :
    ∃ s, run (respond keyMix ⟨true, 16⟩) (GHashEntries.fresh 11, [true])
        [.insert [97] none, .insert [108] none, .delete [108], .lookup [108], .delete [97],
          .rehash 13] =
      .ok (s, [.inserted true 1, .inserted true 2, .deleted none, .found none, .deleted (some 1),
        .rehashed false]) ∧ s.1.stored = [] := by
  rcases ghash_session_run keyMix ⟨true, 16⟩ (by decide : 0 < 11) [true]
      [.insert [97] none, .insert [108] none, .delete [108], .lookup [108], .delete [97],
        .rehash 13] with hstop | ⟨s, answers, hrun, -, -, hstored⟩
  · cases hstop
  · cases hrun
    exact ⟨_, rfl, List.Perm.eq_nil hstored⟩

variable {mix kind} {t : GHashEntries} {supply supply' : Supply} {reqs : List Request}
variable {answers : List Answer}

/-- In every table a run can make, a rehash ends without an abort, with or without success.
The nodes are the same, and every key is found as before. When it fails, every bucket has
its own nodes back. -/
theorem ghash_rehash_atomic (hn : 0 < n)
    (hrun : run (respond mix kind) (GHashEntries.fresh n, supply) reqs = .ok ((t, supply'), answers))
    (newSize : Nat) :
    ∃ t' supply'' grown, Scarce.hashRehash mix kind t supply' newSize = .ok (t', supply'', grown) ∧
      t'.nodes = t.nodes ∧ t'.stored.Perm t.stored ∧ t'.nEntries = t.nEntries ∧
      hashTableOk t' = true ∧
      (∀ key, hashLookup mix kind t' (GHash.keyNode kind key) =
        hashLookup mix kind t (GHash.keyNode kind key)) ∧
      (grown = true → t'.nBuckets = newSize) ∧
      (grown = false → t'.nBuckets = t.nBuckets ∧ t'.nBucketsUsed = t.nBucketsUsed ∧
        List.Forall₂ List.Perm (t'.bucket.map (nodesOf t'.entry))
          (t.bucket.map (nodesOf t.entry))) := by
  obtain ⟨ks, tbl, h⟩ := session_holds hn hrun
  obtain ⟨t', tbl', supply'', grown, hrehash, hkept, hitems, hnodes, hsize⟩ :=
    Scarce.hashRehash_spec h.kept supply' newSize
  have hmoved := h.moved hkept hitems
  refine ⟨t', supply'', grown, hrehash, hnodes, ?_, ?_, hashTableOk_spec hkept, fun key => ?_,
    fun hgrown => ?_, fun hgrown => ?_⟩
  · rw [hkept.stored_eq, h.kept.stored_eq]
    exact hitems
  · rw [hkept.entries, h.kept.entries, hitems.length_eq]
  · rw [lookup_holds hmoved, lookup_holds h]
  · rw [hsize, if_pos hgrown]
  · rw [hgrown, if_neg Bool.false_ne_true] at hsize
    refine ⟨hsize, ?_, h.kept.buckets_perm hkept hitems hsize⟩
    have hlen : tbl'.length = tbl.length := by rw [hkept.sized, h.kept.sized, hsize]
    rw [hkept.used, h.kept.used, used_eq_homes hkept.homed, used_eq_homes h.kept.homed, hlen,
      homes_perm hitems]

theorem ghash_rehash_back :
    ∃ t', Scarce.hashRehash keyMix ⟨true, 16⟩ threeKeys [true] 1 = .ok (t', [], false) ∧
      t'.stored.Perm threeKeys.stored := by
  obtain ⟨t', supply, grown, hrun, -, hstored, -⟩ :=
    ghash_rehash_atomic (by decide : 0 < 11) threeKeys_run 1
  have hfails : (Scarce.hashRehash keyMix ⟨true, 16⟩ threeKeys [true] 1).toOption.map (·.2) =
      some ([], false) := rfl
  rw [hrun] at hfails
  obtain ⟨rfl, rfl⟩ := Prod.mk.inj (Option.some.inj hfails)
  exact ⟨t', hrun, hstored⟩

/-- The loop over a table, the callback and the buffer all see every node once, in one order. -/
theorem ghash_visits_agree (hn : 0 < n)
    (hrun : run (respond mix kind) (GHashEntries.fresh n, supply) reqs =
      .ok ((t, supply'), answers)) :
    ∃ order, Visits mix kind t order ∧ order.Nodup ∧ order.length = t.nEntries ∧
      order.Perm (reqs.foldl (TextMap.next kind) .empty).nodes := by
  obtain ⟨ks, tbl, h⟩ := session_holds hn hrun
  refine ⟨t.stored, ⟨walk_spec h.kept, fun processor s => hashDoForEach_spec processor h.kept s,
    hashGetEntries_spec h.kept⟩, ?_, ?_, h.nodes⟩
  · rw [h.kept.stored_eq]
    exact h.kept.nodup
  · rw [h.kept.stored_eq, h.kept.entries]

theorem ghash_visits_three : ∃ order, Visits keyMix ⟨true, 16⟩ threeKeys order ∧ order.length = 3 := by
  obtain ⟨order, hvisits, -, hlen, -⟩ := ghash_visits_agree (by decide : 0 < 11) threeKeys_run
  exact ⟨order, hvisits, hlen⟩

/-- The counters and the statistics tell what is in the buckets. -/
theorem ghash_statistics_exact (hn : 0 < n)
    (hrun : run (respond mix kind) (GHashEntries.fresh n, supply) reqs =
      .ok ((t, supply'), answers)) :
    hashTableOk t = true ∧ t.nEntries = t.stored.length ∧
      t.nBucketsUsed = t.bucket.countP (fun b => b.data.isSome) ∧
      (∀ b ∈ t.bucket, (nodesOf t.entry b).length ≤ hashGetMaxBucketLength t) ∧
      ∃ b ∈ t.bucket, (nodesOf t.entry b).length = hashGetMaxBucketLength t := by
  obtain ⟨ks, tbl, ⟨h, -, -⟩⟩ := session_holds hn hrun
  obtain ⟨hle, ps, hps, hmax⟩ := hashGetMaxBucketLength_spec h
  have hmap := h.shown.map_nodesOf
  refine ⟨hashTableOk_spec h, by rw [h.stored_eq, h.entries], ?_, fun b hb => ?_, ?_⟩
  · have hheads : ∀ b ∈ t.bucket, (!(nodesOf t.entry b).isEmpty) = b.data.isSome := by
      intro b hb
      obtain ⟨j, hj⟩ := List.mem_iff_getElem?.mp hb
      obtain ⟨c, qs, hc, -, hshow⟩ := h.shown.bucket_at
        (h.shown.length ▸ (List.getElem?_eq_some_iff.mp hj).1)
      obtain rfl := Option.some.inj (hj.symm.trans hc)
      rw [hshow.nodesOf]
      cases qs with
      | nil => rw [hshow.data_eq_none.mpr rfl]; rfl
      | cons q qs => rw [hshow.1]; rfl
    rw [h.used, used, ← hmap, List.countP_map]
    exact List.countP_congr fun b hb => by simp [hheads b hb]
  · exact hle _ (hmap ▸ List.mem_map_of_mem hb)
  · rw [← hmap] at hps
    obtain ⟨b, hb, rfl⟩ := List.mem_map.mp hps
    exact ⟨b, hb, hmax⟩

theorem ghash_statistics_three :
    threeKeys.nBucketsUsed = threeKeys.bucket.countP fun b => b.data.isSome :=
  (ghash_statistics_exact (by decide : 0 < 11) threeKeys_run).2.2.1

/-- Freeing a table frees each overflow entry it has ever allocated, and none of them twice. -/
theorem ghash_free_once (hn : 0 < n)
    (hrun : run (respond mix kind) (GHashEntries.fresh n, supply) reqs =
      .ok ((t, supply'), answers)) : hashFree t = .ok [] := by
  obtain ⟨ks, tbl, h⟩ := session_holds hn hrun
  exact hashFree_spec h.kept

theorem ghash_free_three : hashFree threeKeys = .ok [] :=
  ghash_free_once (by decide : 0 < 11) threeKeys_run

end

end PathSet
