import PathSet.SetLoad
import PathSet.Sets

/-!
What the puts of a set answer. The number of a line is stored in the value of its node,
so a number that does not fit comes back shortened, and as zero it makes a repeated line
look new.
-/

namespace PathSet
open Fallible FirstSeen

section
variable {σ : Type} (S : SetImpl σ) (size : Nat)

def stored (ps : List (Bytes × Nat)) : List (Bytes × Nat) := ps.map fun p => (p.1, p.2 % 2 ^ size)

theorem firstValue_stored (ps : List (Bytes × Nat)) (k : Bytes) :
    firstValue (stored size ps) k = (firstValue ps k).map (· % 2 ^ size) := by
  induction ps using List.reverseRecOn with
  | nil => rfl
  | append_singleton ps p ih =>
    rw [stored, List.map_append, List.map_singleton, firstValue_concat, firstValue_concat, ← stored,
      ih]
    cases firstValue ps k <;> by_cases h : k = p.1 <;> simp [h]

theorem SetImpl.put_eq (s : σ) (p : Bytes × Nat) :
    S.put size s p = (do
      assert (0 < p.2)
      let (s, b, n, v) ← S.enter s (p.1, p.2 % 2 ^ size)
      assert (n ≠ 0)
      pure (s, if b then 0 else v)) := by
  simp only [SetImpl.put, Dictionary.enter]
  congr 1
  funext _
  cases S.insert s p.1 with
  | error e => rfl
  | ok x =>
    obtain ⟨t, b, n⟩ := x
    cases b <;> rfl

def putAnswer (past : List (Bytes × Nat)) (p : Bytes × Nat) : Nat :=
  ((firstValue past p.1).getD 0) % 2 ^ size

theorem SetImpl.put_step {past : List (Bytes × Nat)} {s : σ} {p : Bytes × Nat}
    (h : ∃ m, S.Recorded (stored size past) s m) (hp : 0 ∉ p.1 ∧ 0 < p.2) :
    Stops S.Exhausted (S.put size s p) ∨
      ∃ s', S.put size s p = .ok (s', putAnswer size past p) ∧
        ∃ m, S.Recorded (stored size (past ++ [p])) s' m := by
  obtain ⟨m, hrec⟩ := h
  rw [S.put_eq size, assert_of hp.2, ok_bind]
  rcases @Dictionary.enter_step _ _ _ _ _ S.toDictionary _ _ _ (p.1, p.2 % 2 ^ size) hrec
    ((S.key_iff p.1).mpr hp.1) with hs | ⟨s', n, m', hent, hrec', -, hn⟩
  · exact Or.inl (hs.bind _)
  · have hne : n ≠ 0 := (S.id_pos hrec'.rep hn).ne'
    refine Or.inr ⟨s', ?_, m', ?_⟩
    · rw [hent, ok_bind]
      simp only [assert_of hne, ok_bind, pure_eq_ok, firstValue_stored, putAnswer]
      cases firstValue past p.1 <;> simp
    · rwa [stored, List.map_append, List.map_singleton]

theorem SetImpl.put_run {s₀ : σ} (h₀ : S.Recorded [] s₀ (fun _ => none)) {ps : List (Bytes × Nat)}
    (hps : ∀ p ∈ ps, 0 ∉ p.1 ∧ 0 < p.2) :
    Stops S.Exhausted (run (S.put size) s₀ ps) ∨
      ∃ s, run (S.put size) s₀ ps = .ok (s, answers (putAnswer size) [] ps) ∧
        ∃ m, S.Recorded (stored size ps) s m := by
  have next : ∀ past s p, (∃ m, S.Recorded (stored size past) s m) → 0 ∉ p.1 ∧ 0 < p.2 →
      Stops S.Exhausted (S.put size s p) ∨ ∃ s', S.put size s p = .ok (s', putAnswer size past p) ∧
        ∃ m, S.Recorded (stored size (past ++ [p])) s' m :=
    fun _ _ _ h hp => S.put_step size h hp
  have hstart : ∃ m, S.Recorded (stored size []) s₀ m := ⟨_, h₀⟩
  exact run_answers next hstart hps

end

def Repeated (keys : List Bytes) (i : Nat) (key : Bytes) : Prop :=
  keys[i]? = some key ∧ key ∈ keys.take i

theorem take_zipIdx (keys : List Bytes) (n i : Nat) :
    (keys.zipIdx n).take i = (keys.take i).zipIdx n := by
  induction keys generalizing n i with
  | nil => simp
  | cons key keys ih =>
    cases i with
    | zero => rfl
    | succ i => simp [List.zipIdx_cons, ih]

theorem firstIndex_take {keys : List Bytes} {i : Nat} {key : Bytes} (h : key ∈ keys.take i) :
    firstIndex (keys.take i) key = firstIndex keys key := by
  have happ := firstIndex_append (keys.drop i) h
  rw [List.take_append_drop] at happ
  exact happ.symm

theorem putAnswer_keys (size : Nat) (keys : List Bytes) (i : Nat) (key : Bytes) (n : Nat) :
    putAnswer size ((keys.zipIdx 1).take i) (key, n) =
      if key ∈ keys.take i then (1 + firstIndex keys key) % 2 ^ size else 0 := by
  rw [putAnswer, take_zipIdx, firstValue_zipIdx]
  split_ifs with h
  · rw [firstIndex_take h]
    rfl
  · simp

section
variable {keys : List Bytes} {size : Nat}

def putAnswers (size : Nat) (keys : List Bytes) : List Nat :=
  answers (putAnswer size) [] (keys.zipIdx 1)

theorem getElem?_putAnswers {i : Nat} {key : Bytes} (h : keys[i]? = some key) :
    (putAnswers size keys)[i]? =
      some (if key ∈ keys.take i then (1 + firstIndex keys key) % 2 ^ size else 0) := by
  have hi : (keys.zipIdx 1)[i]? = some (key, 1 + i) := by
    rw [List.getElem?_zipIdx, h]
    rfl
  rw [putAnswers, answers_getElem?, hi, Option.map_some, List.nil_append, putAnswer_keys]

def NumbersFit (size : Nat) (keys : List Bytes) : Prop :=
  ∀ (i : Nat) key, Repeated keys i key → firstIndex keys key + 1 < 2 ^ size

theorem zeros_putAnswers (h : NumbersFit size keys) :
    (putAnswers size keys).countP (· = 0) = keys.toFinset.card := by
  have hnew := count_fresh [] keys
  rw [List.toFinset_nil, Finset.card_empty, Nat.zero_add, List.nil_append] at hnew
  have hmap : (putAnswers size keys).map (fun r => decide (r = 0)) = fresh [] keys := by
    refine List.ext_getElem? fun i => ?_
    rw [List.getElem?_map, getElem?_fresh]
    cases hk : keys[i]? with
    | none =>
      have hlen : keys.length ≤ i := List.getElem?_eq_none_iff.mp hk
      rw [List.getElem?_eq_none]
      · rfl
      · rw [putAnswers, answers_length, List.length_zipIdx]
        exact hlen
    | some key =>
      rw [getElem?_putAnswers hk, Option.map_some, Option.map_some, List.nil_append]
      by_cases hmem : key ∈ keys.take i
      · have hfit := h i key ⟨hk, hmem⟩
        have hne : (1 + firstIndex keys key) % 2 ^ size ≠ 0 := by
          rw [Nat.mod_eq_of_lt (by omega)]
          omega
        simp [hmem, hne]
      · simp [hmem]
  rw [← hnew, ← hmap, List.count, List.countP_map]
  congr 1
  funext r
  simp

end

theorem noNul_of_mem_lines {stream key : Bytes} (h : key ∈ lines stream) : 0 ∉ key := by
  obtain ⟨line, -, rfl⟩ := List.mem_map.mp h
  intro hmem
  have hz := List.mem_takeWhile_imp hmem
  simp at hz

theorem heads_of_noNul {stream : Bytes} (h : 0 ∉ stream) :
    ∀ line ∈ elements [10] stream, line.head? ≠ some 0 := fun _ hline hz =>
  notMem_of_mem_elements h hline (List.mem_of_mem_head? hz)

theorem zipIdx_noNul {keys : List Bytes} (h : ∀ key ∈ keys, 0 ∉ key) :
    ∀ p ∈ keys.zipIdx 1, 0 ∉ p.1 ∧ 0 < p.2 := by
  intro p hp
  have hmem := List.mem_zipIdx hp
  exact ⟨h _ (hmem.2.2 ▸ List.getElem_mem _), by omega⟩

theorem zipIdx_lines {stream : Bytes} : ∀ p ∈ (lines stream).zipIdx 1, 0 ∉ p.1 ∧ 0 < p.2 :=
  zipIdx_noNul fun _ => noNul_of_mem_lines

theorem keys_stored (size : Nat) (keys : List Bytes) (n : Nat) :
    (stored size (keys.zipIdx n)).map Prod.fst = keys := by
  rw [stored, List.map_map]
  exact List.zipIdx_map_fst n keys

theorem SetImpl.keys_run {σ : Type} (S : SetImpl σ) (size : Nat) {s₀ : σ}
    (h₀ : S.Recorded [] s₀ (fun _ => none)) {keys : List Bytes} (hkeys : ∀ key ∈ keys, 0 ∉ key) :
    Stops S.Exhausted (run (S.put size) s₀ (keys.zipIdx 1)) ∨
      ∃ s m, run (S.put size) s₀ (keys.zipIdx 1) = .ok (s, putAnswers size keys) ∧
        S.Rep s m ∧ ∀ k, (m k).isSome ↔ k ∈ keys := by
  rcases S.put_run size h₀ (zipIdx_noNul hkeys) with hs | ⟨s, hrun, m, hrec⟩
  · exact Or.inl hs
  · refine Or.inr ⟨s, m, hrun, hrec.rep, fun k => ?_⟩
    rw [← keys_stored size keys 1, ← firstValue_isSome, ← hrec.vals, Option.isSome_map]

section
variable {σ : Type} (S : SetImpl σ) (size : Nat)

theorem SetImpl.stops_put {s : σ} {m : Bytes → Option Nat} {p : Bytes × Nat} (hrep : S.Rep s m)
    (hp : 0 ∉ p.1 ∧ 0 < p.2) (h : Stops S.Exhausted (S.put size s p)) :
    Stops S.Exhausted (S.insert s p.1) := by
  rw [SetImpl.put, assert_of hp.2, ok_bind] at h
  rcases S.insert_spec hrep ((S.key_iff p.1).mpr hp.1) with hstop | ⟨t', i, m', hins', hrep', -, hi, -⟩
  · exact hstop
  rcases stops_bind.mp h with hstop | ⟨⟨t, b, n⟩, hins, h⟩
  · exact hstop
  obtain ⟨rfl, -, rfl⟩ := Prod.mk.inj (Except.ok.inj (hins.symm.trans hins')) |>.imp_right Prod.mk.inj
  have hne : n ≠ 0 := (S.id_pos hrep' hi).ne'
  simp only [assert_of hne, ok_bind] at h
  cases b
  · exact absurd h (not_stops_ok _)
  · exact absurd h (not_stops_ok _)

variable {S}

theorem SetImpl.put_supplied {Enough : List Bytes → Prop} (hS : S.Supplied Enough) {s₀ : σ}
    (h₀ : S.Recorded [] s₀ (fun _ => none)) {keys : List Bytes} (hkeys : ∀ key ∈ keys, 0 ∉ key)
    (henough : Enough keys) : ¬Stops S.Exhausted (run (S.put size) s₀ (keys.zipIdx 1)) := by
  have next : ∀ past s p, (∃ m, S.Recorded (stored size past) s m) → 0 ∉ p.1 ∧ 0 < p.2 →
      Enough ((past ++ [p]).map Prod.fst) → ¬Stops S.Exhausted (S.put size s p) := by
    rintro past s p ⟨m, hrec⟩ hp hroom hstop
    rw [List.map_append, List.map_singleton] at hroom
    have hdom : ∀ k, (m k).isSome ↔ k ∈ past.map Prod.fst := by
      intro k
      rw [show past.map Prod.fst = (stored size past).map Prod.fst by simp [stored],
        ← firstValue_isSome, ← hrec.vals, Option.isSome_map]
    exact hS.insert hrec.rep hdom ((S.key_iff p.1).mpr hp.1) hroom
      (S.stops_put size hrec.rep hp hstop)
  have keep : ∀ past s p s' r, (∃ m, S.Recorded (stored size past) s m) → 0 ∉ p.1 ∧ 0 < p.2 →
      S.put size s p = .ok (s', r) → ∃ m, S.Recorded (stored size (past ++ [p])) s' m := by
    intro past s p s' r hrec hp hput
    rcases S.put_step size hrec hp with ⟨e, -, he⟩ | ⟨t, hput', hrec'⟩
    · cases hput.symm.trans he
    · obtain ⟨rfl, -⟩ := Prod.mk.inj (Except.ok.inj (hput.symm.trans hput'))
      exact hrec'
  refine @run_supplied _ _ _ _ _ _ _ (fun ps => Enough (ps.map Prod.fst)) _ next keep
    (fun xs ys h => ?_) [] _ _ ⟨_, h₀⟩ (zipIdx_noNul hkeys) ?_
  · rw [List.map_append] at h
    exact hS.fewer _ _ h
  · rw [List.nil_append, List.zipIdx_map_fst]
    exact henough

end

theorem length_putAnswers (size : Nat) (keys : List Bytes) :
    (putAnswers size keys).length = keys.length := by
  rw [putAnswers, answers_length, List.length_zipIdx]

theorem mem_zip_putAnswers {size : Nat} {keys : List Bytes} {x : Bytes × Nat}
    (hx : x ∈ keys.zip (putAnswers size keys)) (hr : x.2 ≠ 0) :
    ∃ i, Repeated keys i x.1 := by
  obtain ⟨i, hi⟩ := List.mem_iff_getElem?.mp hx
  obtain ⟨hkey, hans⟩ := List.getElem?_zip_eq_some.mp hi
  rw [getElem?_putAnswers hkey] at hans
  refine ⟨i, hkey, ?_⟩
  by_contra hmem
  rw [if_neg hmem] at hans
  exact hr (Option.some.inj hans).symm

/-- The counters of a load are those of its distinct lines, and its repeated lines are
answered with the first ones, if and only if the numbers of the first ones fit. -/
theorem set_load_counts_iff {σ : Type} (S : SetImpl σ) (size : Nat) (verbose : Bool) {s₀ : σ}
    (h₀ : S.Recorded [] s₀ (fun _ => none)) {bs : List LineBuffer} {stream : Bytes}
    (hbs : Delivers bs stream) (hnul : 0 ∉ stream) (hcount : (lines stream).length < 2 ^ 64) :
    Stops S.Exhausted (run (S.put size) s₀ ((lines stream).zipIdx 1)) ∨
      ∃ s rs, run (S.put size) s₀ ((lines stream).zipIdx 1) = .ok (s, rs) ∧
        ((∃ st, load (S.put size) verbose ⟨s₀, 0, 0, 0⟩ bs = .ok st ∧
            st.set.uniqLine = (lines stream).toFinset.card ∧
            st.set.dupsLine = (lines stream).length - (lines stream).toFinset.card ∧
            st.set.uniqLine = S.uniq st.set.impl ∧
            ∀ (i : Nat) key, Repeated (lines stream) i key →
              rs[i]? = some (firstIndex (lines stream) key + 1)) ↔
          (∀ (i : Nat) key, Repeated (lines stream) i key →
            firstIndex (lines stream) key + 1 < 2 ^ size) ∧
          totalLength (lines stream) ≤ sizeMax ∧
          (verbose = true → ∀ (i : Nat) key, Repeated (lines stream) i key →
            key.length ≤ 2 ^ 31 - 1)) := by
  rcases S.put_run size h₀ zipIdx_lines with hs | ⟨s, hrun, m, hrec⟩
  · exact Or.inl hs
  refine Or.inr ⟨s, _, hrun, ?_⟩
  have hiff := fun set => @load_iff _ (S.put size) verbose bs stream hbs s₀ set
  have hcalls := (calls_eq_iff _).mpr hcount
  have huniq := hrec.uniq
  rw [keys_stored] at huniq
  change ((∃ st, _ ∧ _ ∧ _ ∧ _ ∧ ∀ i key, _ → (putAnswers size (lines stream))[i]? = _) ↔ _)
  have hheads := heads_of_noNul hnul
  generalize lines stream = keys at *
  constructor
  · rintro ⟨st, hload, -, -, -, hans⟩
    obtain ⟨-, rs, hrun', hlong, hmem, -⟩ := (hiff st.set).mp ⟨st, hload, rfl⟩
    rw [hcalls, hrun] at hrun'
    obtain ⟨-, rfl⟩ := Prod.mk.inj (Except.ok.inj hrun')
    have hfirst : ∀ (i : Nat) key, Repeated keys i key →
        (1 + firstIndex keys key) % 2 ^ size = firstIndex keys key + 1 := by
      intro i key hrep
      have heq := hans i key hrep
      rw [getElem?_putAnswers hrep.1, if_pos hrep.2] at heq
      exact Option.some.inj heq
    refine ⟨fun i key hrep => ?_, by simpa using hmem, fun hv i key hrep => ?_⟩
    · rw [← hfirst i key hrep]
      exact Nat.mod_lt _ (by positivity)
    · refine hlong hv (key, firstIndex keys key + 1) ?_ (Nat.succ_ne_zero _)
      refine List.mem_of_getElem? (List.getElem?_zip_eq_some.mpr ⟨hrep.1, hans i key hrep⟩)
  · rintro ⟨hfit, hmem, hlong⟩
    have hzeros := zeros_putAnswers hfit
    have hsum := @List.length_eq_countP_add_countP _ (fun r => decide (r = 0)) (putAnswers size keys)
    rw [length_putAnswers, hzeros] at hsum
    obtain ⟨st, hst, hset⟩ := (hiff ⟨s, _, _, _⟩).mpr
      ⟨hheads, _, by rw [hcalls, hrun], fun hv x hx hr => by
        obtain ⟨i, hrep⟩ := mem_zip_putAnswers hx hr
        exact hlong hv i x.1 hrep, by simpa using hmem, rfl⟩
    refine ⟨st, hst, ?_, ?_, ?_, fun i key hrep => ?_⟩
    · rw [hset]
      exact (Nat.zero_add _).trans hzeros
    · rw [hset, hsum, Nat.add_sub_cancel_left]
      simp [putAnswers]
    · rw [hset, huniq]
      exact (Nat.zero_add _).trans hzeros
    · rw [getElem?_putAnswers hrep.1, if_pos hrep.2, Nat.mod_eq_of_lt (by have := hfit i key hrep; omega),
        Nat.add_comm]

theorem Trie.recorded_init : Trie.plain.Recorded [] Trie.init (fun _ => none) :=
  Trie.plain.recorded_empty (Trie.represents_init false) rfl rfl

def wrapLines : List Bytes :=
  (List.range 256).map (fun i => [UInt8.ofNat (97 + i / 16), UInt8.ofNat (97 + i % 16)]) ++
    [[112, 112]]

/-- With values of eight bits the line 257 is not known to repeat the line 256. -/
theorem set_put_wraps :
    Repeated wrapLines 256 [112, 112] ∧ firstIndex wrapLines [112, 112] + 1 = 256 ∧
      ∃ s rs, run (Trie.plain.put 8) Trie.init (wrapLines.zipIdx 1) = .ok (s, rs) ∧
        rs[256]? = some 0 := by
  have hrep : Repeated wrapLines 256 [112, 112] := ⟨by decide +kernel, by decide +kernel⟩
  have hfirst : firstIndex wrapLines [112, 112] = 255 := by decide +kernel
  have hlines : ∀ p ∈ wrapLines.zipIdx 1, 0 ∉ p.1 ∧ 0 < p.2 := by decide +kernel
  refine ⟨hrep, by rw [hfirst], ?_⟩
  rcases Trie.plain.put_run 8 Trie.recorded_init hlines with ⟨_, hno, -⟩ | ⟨s, hrun, -⟩
  · exact absurd hno id
  · refine ⟨s, _, hrun, ?_⟩
    have hanswer := @getElem?_putAnswers wrapLines 8 256 [112, 112] hrep.1
    rw [if_pos hrep.2, hfirst] at hanswer
    exact hanswer

def twoBuffers : List LineBuffer :=
  [⟨[97, 10, 0], 2, Nat.two_pos, by decide, by decide⟩,
    ⟨[97, 10, 0], 2, Nat.two_pos, by decide, by decide⟩]

theorem set_load_counts_two :
    ∃ st, load (Trie.plain.put 8) true ⟨Trie.init, 0, 0, 0⟩ twoBuffers = .ok st ∧
      st.set.uniqLine = 1 ∧ st.set.dupsLine = 1 := by
  have hdelivers : Delivers twoBuffers [97, 10, 97, 10] := by decide
  have hlines : lines [97, 10, 97, 10] = [[97], [97]] := by decide
  rcases set_load_counts_iff Trie.plain 8 true Trie.recorded_init hdelivers (by decide) (by decide)
    with ⟨_, hno, -⟩ | ⟨s, rs, -, hiff⟩
  · exact absurd hno id
  rw [hlines] at hiff
  have hfit : ∀ (i : Nat) key, Repeated [[97], [97]] i key →
      firstIndex [[97], [97]] key + 1 < 2 ^ 8 := by
    rintro i key ⟨-, hmem⟩
    have hlt := firstIndex_lt (List.mem_of_mem_take hmem)
    rw [show ([[97], [97]] : List Bytes).length = 2 from rfl] at hlt
    omega
  have hlong : ∀ (i : Nat) key, Repeated [[97], [97]] i key → key.length ≤ 2 ^ 31 - 1 := by
    rintro i key ⟨-, hmem⟩
    have hkey : key = [97] := by simpa using List.mem_of_mem_take hmem
    rw [hkey]
    decide
  obtain ⟨st, hload, hu, hd, -⟩ := hiff.mpr ⟨hfit, by decide, fun _ => hlong⟩
  exact ⟨st, hload, hu, hd⟩

end PathSet
