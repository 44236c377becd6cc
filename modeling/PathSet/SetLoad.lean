import PathSet.SetImpl

/-!
What `SET_LOAD` makes of a stream. Lines are cut at the newlines as path elements are at
the separators. The key of a line reaches to its first NUL or its newline, except for a
line that begins with NUL: there the load reads before the start of its buffer.
-/

namespace PathSet
open Fallible

def lineKey (line : Bytes) : Bytes := line.takeWhile fun ch => ch ≠ 0 ∧ ch ≠ 10

def lines (stream : Bytes) : List Bytes := (elements [10] stream).map lineKey

def Delivers (bs : List LineBuffer) (stream : Bytes) : Prop :=
  bs.map LineBuffer.line = elements [10] stream

instance (bs : List LineBuffer) (stream : Bytes) : Decidable (Delivers bs stream) :=
  inferInstanceAs (Decidable (_ = _))

theorem takeWhile_eq_take {p : UInt8 → Bool} {xs : Bytes} {n : Nat}
    (hall : ∀ x ∈ xs.take n, p x = true) (hstop : ∀ x, xs[n]? = some x → p x = false) :
    xs.takeWhile p = xs.take n := by
  induction n generalizing xs with
  | zero =>
    cases xs with
    | nil => rfl
    | cons x xs => simp [hstop x rfl]
  | succ n ih =>
    cases xs with
    | nil => rfl
    | cons x xs =>
      have hx := hall x (by simp)
      rw [List.takeWhile_cons, hx, if_pos rfl, List.take_succ_cons,
        ih (fun y hy => hall y (by simp [hy])) (fun y hy => hstop y (by simpa using hy))]

theorem ne_of_mem_take_idxOf {xs : Bytes} {a : UInt8} : ∀ x ∈ xs.take (xs.idxOf a), x ≠ a := by
  induction xs with
  | nil => simp
  | cons y ys ih =>
    by_cases h : y = a
    · simp [h]
    · rw [List.idxOf_cons_ne _ h, List.take_succ_cons]
      intro x hx
      rcases List.mem_cons.mp hx with rfl | hx
      · exact h
      · exact ih x hx

theorem LineBuffer.length_line (b : LineBuffer) : b.line.length = b.length := by
  have := b.room
  rw [LineBuffer.line, List.length_take]
  omega

theorem truncate_spec (verbose : Bool) (k : Nat) (b : LineBuffer) :
    ∃ warnings, truncate verbose k b = .ok (b.line.idxOf 0, warnings) := by
  have hroom := b.room
  have hpos := b.pos
  have hbytes : 0 < b.bytes.length := by omega
  simp only [truncate, assert_of hbytes, assert_of hpos, assert_of hroom, ok_bind, memchr]
  rw [show b.bytes.take b.length = b.line from rfl]
  by_cases h : b.line.idxOf 0 < b.length
  · simp only [if_pos h, assert_of h, ok_bind]
    exact ⟨_, rfl⟩
  · have hle : b.line.idxOf 0 ≤ b.line.length := List.idxOf_le_length
    have hlen := b.length_line
    simp only [if_neg h]
    exact ⟨[], by rw [show b.line.idxOf 0 = b.length by omega]; rfl⟩

theorem chomp_head {b : LineBuffer} (h : b.line.head? = some 0) :
    chomp b.bytes (b.line.idxOf 0) = .error .stray := by
  obtain ⟨rest, hrest⟩ : ∃ rest, b.line = 0 :: rest := by
    cases hb : b.line with
    | nil => simp [hb] at h
    | cons a rest => exact ⟨rest, by simpa [hb] using h⟩
  have hsize := b.size
  have hnone : b.bytes[(0 + sizeMax) % 2 ^ 64]? = none := by
    rw [List.getElem?_eq_none]
    unfold sizeMax at *
    omega
  rw [hrest, List.idxOf_cons_self]
  simp only [chomp, hnone]

section
variable {xs : Bytes}

theorem inside_of_line (hline : 10 ∉ xs.dropLast) :
    ∀ x ∈ xs.take (xs.idxOf 0 - 1), x ≠ 0 ∧ x ≠ 10 := by
  have hle : xs.idxOf 0 ≤ xs.length := List.idxOf_le_length
  intro x hx
  refine ⟨ne_of_mem_take_idxOf x (List.take_subset_take_left _ (by omega) hx), ?_⟩
  rintro rfl
  rw [List.dropLast_eq_take] at hline
  exact hline (List.take_subset_take_left _ (by omega) hx)

theorem lineKey_newline (hline : 10 ∉ xs.dropLast) (hpos : 0 < xs.idxOf 0)
    (hnl : xs[xs.idxOf 0 - 1]? = some 10) :
    xs.idxOf 0 = xs.length ∧ lineKey xs = xs.take (xs.length - 1) := by
  have hle : xs.idxOf 0 ≤ xs.length := List.idxOf_le_length
  obtain ⟨hlt, hlast⟩ := List.getElem?_eq_some_iff.mp hnl
  have hfull : xs.idxOf 0 = xs.length := by
    by_contra hne
    refine hline (List.mem_iff_getElem.mpr ⟨xs.idxOf 0 - 1, ?_, ?_⟩)
    · rw [List.length_dropLast]
      omega
    · rw [List.getElem_dropLast, hlast]
  refine ⟨hfull, takeWhile_eq_take (fun x hx => ?_) fun x hx => ?_⟩
  · exact decide_eq_true (inside_of_line hline x (hfull ▸ hx))
  · rw [← hfull, hnl] at hx
    obtain rfl := Option.some.inj hx
    simp

theorem lineKey_nul (hline : 10 ∉ xs.dropLast) (hnl : xs[xs.idxOf 0 - 1]? ≠ some 10) :
    lineKey xs = xs.take (xs.idxOf 0) := by
  refine takeWhile_eq_take (fun x hx => decide_eq_true ⟨ne_of_mem_take_idxOf x hx, ?_⟩) fun x hx => ?_
  · rintro rfl
    obtain ⟨j, hj⟩ := List.mem_iff_getElem?.mp hx
    rw [List.getElem?_take] at hj
    split_ifs at hj with hlt
    by_cases hlast : j = xs.idxOf 0 - 1
    · exact hnl (hlast ▸ hj)
    · refine (inside_of_line hline 10 (List.mem_iff_getElem?.mpr ⟨j, ?_⟩)).2 rfl
      rw [List.getElem?_take_of_lt (by omega), hj]
  · obtain ⟨hlt, hx⟩ := List.getElem?_eq_some_iff.mp hx
    rw [List.getElem_idxOf] at hx
    simp [← hx]

end

theorem LineBuffer.idxOf_pos {b : LineBuffer} (h : b.line.head? ≠ some 0) : 0 < b.line.idxOf 0 := by
  have hlen := b.length_line
  cases hb : b.line with
  | nil =>
    rw [hb] at hlen
    exact absurd hlen.symm b.pos.ne'
  | cons a rest =>
    have ha : a ≠ 0 := fun h0 => h (by rw [hb, h0]; rfl)
    rw [List.idxOf_cons_ne _ ha]
    omega

theorem chomp_spec {b : LineBuffer} (hline : 10 ∉ b.line.dropLast) (h : b.line.head? ≠ some 0) :
    ∃ bytes, chomp b.bytes (b.line.idxOf 0) = .ok (bytes, (lineKey b.line).length) ∧
      bytes.take (lineKey b.line).length = lineKey b.line ∧
      bytes[(lineKey b.line).length]? = some 0 := by
  have hlen := b.length_line
  have hroom := b.room
  have hsize := b.size
  have hle : b.line.idxOf 0 ≤ b.line.length := List.idxOf_le_length
  have hpos := LineBuffer.idxOf_pos h
  have hget : ∀ j < b.length, b.bytes[j]? = b.line[j]? := by
    intro j hj
    rw [LineBuffer.line, List.getElem?_take_of_lt hj]
  have hwrap : (b.line.idxOf 0 + sizeMax) % 2 ^ 64 = b.line.idxOf 0 - 1 := by
    unfold sizeMax at *
    omega
  have hlt : b.line.idxOf 0 - 1 < b.line.length := by omega
  have hlast : b.bytes[b.line.idxOf 0 - 1]? = some b.line[b.line.idxOf 0 - 1] := by
    rw [hget _ (by omega), List.getElem?_eq_getElem hlt]
  simp only [chomp, hwrap, hlast]
  split_ifs with hnl
  · obtain ⟨hfull, hkey⟩ := lineKey_newline hline hpos (by rw [List.getElem?_eq_getElem hlt, hnl])
    have hkeylen : (lineKey b.line).length = b.length - 1 := by
      rw [hkey, List.length_take]
      omega
    refine ⟨_, by rw [hfull, hlen, hkeylen], ?_, ?_⟩
    · rw [hkeylen, hkey, hlen, List.take_set_of_le (le_refl _), LineBuffer.line, List.take_take,
        Nat.min_eq_left (by omega)]
    · rw [hkeylen, List.getElem?_set_self (by omega)]
  · have hkey := lineKey_nul hline (by
      rw [List.getElem?_eq_getElem hlt]
      exact fun heq => hnl (Option.some.inj heq))
    have hkeylen : (lineKey b.line).length = b.line.idxOf 0 := by
      rw [hkey, List.length_take]
      omega
    refine ⟨_, by rw [hkeylen], ?_, ?_⟩
    · rw [hkeylen, hkey, LineBuffer.line, List.take_take, Nat.min_eq_left]
      exact hle.trans hlen.le
    · rw [hkeylen]
      rcases Nat.lt_or_ge (b.line.idxOf 0) b.length with hl | hl
      · rw [hget _ hl, List.getElem?_eq_getElem (by omega), List.getElem_idxOf]
      · rw [show b.line.idxOf 0 = b.length by omega, b.ended]

section
variable {σ : Type} {put : σ → Bytes × Nat → Outcome (σ × Nat)} {verbose : Bool}

/-- What a round does to the set and the line number, when it does not stop. -/
def Counts (put : σ → Bytes × Nat → Outcome (σ × Nat)) (verbose : Bool) (st : LoadState σ)
    (key : Bytes) (st' : LoadState σ) : Prop :=
  ∃ impl r, put st.set.impl (key, st.k) = .ok (impl, r) ∧
    (verbose = true → r ≠ 0 → key.length ≤ 2 ^ 31 - 1) ∧
    st.set.lineMem + key.length ≤ sizeMax ∧
    st'.set = ⟨impl, if r = 0 then st.set.uniqLine + 1 else st.set.uniqLine,
      if r = 0 then st.set.dupsLine else st.set.dupsLine + 1, st.set.lineMem + key.length⟩ ∧
    st'.k = (st.k + 1) % 2 ^ 64

theorem countLine_eq {st : LoadState σ} {key : Bytes} {impl : σ} {r : Nat}
    (hput : put st.set.impl (key, st.k) = .ok (impl, r)) :
    countLine put verbose st key key.length =
      if verbose = true ∧ r ≠ 0 ∧ ¬key.length ≤ 2 ^ 31 - 1 then .error .assertion
      else if ¬st.set.lineMem + key.length ≤ sizeMax then .error .assertion
      else .ok ⟨⟨impl, if r = 0 then st.set.uniqLine + 1 else st.set.uniqLine,
        if r = 0 then st.set.dupsLine else st.set.dupsLine + 1, st.set.lineMem + key.length⟩,
        (st.k + 1) % 2 ^ 64,
        if verbose = true ∧ r ≠ 0 then st.warnings ++ [.duplicate r st.k key] else st.warnings⟩ := by
  simp only [countLine, hput, ok_bind, sizeAsInt, assert]
  generalize 2 ^ 31 - 1 = top
  by_cases hr : r = 0 <;> by_cases hv : verbose = true <;>
    by_cases hint : key.length ≤ top <;>
    by_cases hm : st.set.lineMem + key.length ≤ sizeMax <;> simp [hr, hv, hint, hm]

theorem loadLine_cases (st : LoadState σ) {b : LineBuffer} (hline : 10 ∉ b.line.dropLast) :
    (b.line.head? = some 0 ∧ loadLine put verbose st b = .error .stray) ∨
      (b.line.head? ≠ some 0 ∧ ∃ warnings, loadLine put verbose st b =
        countLine put verbose { st with warnings := warnings } (lineKey b.line)
          (lineKey b.line).length) := by
  obtain ⟨warnings, htrunc⟩ := truncate_spec verbose st.k b
  by_cases h : b.line.head? = some 0
  · refine Or.inl ⟨h, ?_⟩
    simp only [loadLine, htrunc, chomp_head h, ok_bind, error_bind]
  · obtain ⟨bytes, hchomp, htake, -⟩ := chomp_spec hline h
    refine Or.inr ⟨h, st.warnings ++ warnings, ?_⟩
    simp only [loadLine, htrunc, hchomp, htake, ok_bind]

theorem counts_of_loadLine {st st' : LoadState σ} {b : LineBuffer} (hline : 10 ∉ b.line.dropLast)
    (h : loadLine put verbose st b = .ok st') :
    b.line.head? ≠ some 0 ∧ Counts put verbose st (lineKey b.line) st' := by
  rcases @loadLine_cases σ put verbose st b hline with ⟨-, he⟩ | ⟨hhead, warnings, hcount⟩
  · rw [h] at he
    cases he
  · refine ⟨hhead, ?_⟩
    rw [h] at hcount
    cases hput : put st.set.impl (lineKey b.line, st.k) with
    | error e => simp [countLine, hput] at hcount
    | ok x =>
      rw [@countLine_eq σ put verbose { st with warnings := warnings } _ _ _ hput] at hcount
      have hlong : ¬(verbose = true ∧ x.2 ≠ 0 ∧ ¬(lineKey b.line).length ≤ 2 ^ 31 - 1) := fun hc => by
        rw [if_pos hc] at hcount
        cases hcount
      rw [if_neg hlong] at hcount
      have hmem : st.set.lineMem + (lineKey b.line).length ≤ sizeMax := by
        by_contra hm
        rw [if_pos hm] at hcount
        cases hcount
      rw [if_neg (not_not.mpr hmem)] at hcount
      obtain rfl := Except.ok.inj hcount
      refine ⟨x.1, x.2, hput, fun hv hr => ?_, hmem, rfl, rfl⟩
      by_contra hlen
      exact hlong ⟨hv, hr, hlen⟩

theorem loadLine_of_put {st : LoadState σ} {b : LineBuffer} (hline : 10 ∉ b.line.dropLast)
    (hhead : b.line.head? ≠ some 0) {impl : σ} {r : Nat}
    (hput : put st.set.impl (lineKey b.line, st.k) = .ok (impl, r))
    (hlong : verbose = true → r ≠ 0 → (lineKey b.line).length ≤ 2 ^ 31 - 1)
    (hmem : st.set.lineMem + (lineKey b.line).length ≤ sizeMax) :
    ∃ st', loadLine put verbose st b = .ok st' := by
  rcases @loadLine_cases σ put verbose st b hline with ⟨he, -⟩ | ⟨-, warnings, hcount⟩
  · exact absurd he hhead
  · rw [hcount, @countLine_eq σ put verbose { st with warnings := warnings } _ _ _ hput,
      if_neg fun h => h.2.2 (hlong h.1 h.2.1), if_neg (not_not.mpr hmem)]
    exact ⟨_, rfl⟩

/-- What a load puts: the keys, numbered by a `size_t` from `k`. -/
def calls (k : Nat) (keys : List Bytes) : List (Bytes × Nat) :=
  (keys.zipIdx k).map fun p => (p.1, p.2 % 2 ^ 64)

theorem calls_cons (k : Nat) (key : Bytes) (keys : List Bytes) :
    calls k (key :: keys) = (key, k % 2 ^ 64) :: calls (k + 1) keys := rfl

def totalLength (keys : List Bytes) : Nat := (keys.map List.length).sum

def Loads (put : σ → Bytes × Nat → Outcome (σ × Nat)) (verbose : Bool) (set : SetState σ) (k : Nat)
    (keys : List Bytes) (set' : SetState σ) : Prop :=
  ∃ rs, run put set.impl (calls k keys) = .ok (set'.impl, rs) ∧
    (verbose = true → ∀ x ∈ keys.zip rs, x.2 ≠ 0 → x.1.length ≤ 2 ^ 31 - 1) ∧
    set.lineMem + totalLength keys ≤ sizeMax ∧
    set' = ⟨set'.impl, set.uniqLine + rs.countP (· = 0), set.dupsLine + rs.countP (· ≠ 0),
      set.lineMem + totalLength keys⟩

theorem loads_cons {set set' : SetState σ} {k : Nat} {key : Bytes} {keys : List Bytes} :
    Loads put verbose set k (key :: keys) set' ↔
      ∃ impl r, put set.impl (key, k % 2 ^ 64) = .ok (impl, r) ∧
        (verbose = true → r ≠ 0 → key.length ≤ 2 ^ 31 - 1) ∧
        set.lineMem + key.length ≤ sizeMax ∧
        Loads put verbose ⟨impl, if r = 0 then set.uniqLine + 1 else set.uniqLine,
          if r = 0 then set.dupsLine else set.dupsLine + 1, set.lineMem + key.length⟩ (k + 1) keys
          set' := by
  have htotal : totalLength (key :: keys) = key.length + totalLength keys := by simp [totalLength]
  constructor
  · rintro ⟨rs, hrun, hlong, hmem, hset⟩
    rw [calls_cons] at hrun
    obtain ⟨t, r, zs, hput, hrest, rfl⟩ := run_eq_cons hrun
    rw [htotal] at hmem hset
    refine ⟨t, r, hput, fun hv => hlong hv (key, r) (by simp), by omega, zs, hrest,
      fun hv x hx => hlong hv x (by simp [hx]), by simpa [Nat.add_assoc] using hmem, ?_⟩
    rw [hset]
    by_cases hr : r = 0 <;> simp [hr] <;> omega
  · rintro ⟨impl, r, hput, hlong, hmem, zs, hrest, hlong', hmem', hset⟩
    refine ⟨r :: zs, ?_, ?_, by rw [htotal]; simpa [Nat.add_assoc] using hmem', ?_⟩
    · rw [calls_cons, run_cons, hput, ok_bind, hrest]
      rfl
    · intro hv x hx
      rcases List.mem_cons.mp hx with rfl | hx
      · exact hlong hv
      · exact hlong' hv x hx
    · rw [hset, htotal]
      by_cases hr : r = 0 <;> simp [hr] <;> omega

theorem loadLines_iff {st : LoadState σ} {k : Nat} (hk : st.k = k % 2 ^ 64) {bs : List LineBuffer}
    (hbs : ∀ b ∈ bs, 10 ∉ b.line.dropLast) (hmem : st.set.lineMem ≤ sizeMax) {set : SetState σ} :
    (∃ st', loadLines put verbose st bs = .ok st' ∧ st'.set = set) ↔
      (∀ b ∈ bs, b.line.head? ≠ some 0) ∧
        Loads put verbose st.set k (bs.map fun b => lineKey b.line) set := by
  induction bs generalizing st k with
  | nil =>
    constructor
    · rintro ⟨st', h, rfl⟩
      obtain rfl := Except.ok.inj h
      exact ⟨by simp, [], rfl, by simp, hmem, rfl⟩
    · rintro ⟨-, rs, hrun, -, -, hset⟩
      obtain ⟨himpl, rfl⟩ := Prod.mk.inj (Except.ok.inj hrun)
      refine ⟨st, rfl, ?_⟩
      rw [hset, ← himpl]
      rfl
  | cons b bs ih =>
    have hline := hbs b (by simp)
    have hrest : ∀ b ∈ bs, 10 ∉ b.line.dropLast := fun b' hb' => hbs b' (by simp [hb'])
    rw [List.map_cons, loads_cons, List.forall_mem_cons]
    constructor
    · rintro ⟨st', h, rfl⟩
      obtain ⟨t, ht, hts⟩ := bind_eq_ok.mp h
      obtain ⟨hhead, impl, r, hput, hlong, hm, hset, hnext⟩ := counts_of_loadLine hline ht
      rw [hk] at hput hnext
      have hnext' : t.k = (k + 1) % 2 ^ 64 := by rw [hnext, Nat.mod_add_mod]
      obtain ⟨hheads, hloads⟩ := (ih hnext' hrest (by rw [hset]; exact hm)).mp ⟨st', hts, rfl⟩
      exact ⟨⟨hhead, hheads⟩, impl, r, hput, hlong, hm, hset ▸ hloads⟩
    · rintro ⟨⟨hhead, hheads⟩, impl, r, hput, hlong, hm, hloads⟩
      rw [← hk] at hput
      obtain ⟨t, ht⟩ := loadLine_of_put hline hhead hput hlong hm
      obtain ⟨-, impl', r', hput', -, -, hset, hnext⟩ := counts_of_loadLine hline ht
      rw [hput] at hput'
      obtain ⟨rfl, rfl⟩ := Prod.mk.inj (Except.ok.inj hput')
      rw [hk] at hnext
      have hnext' : t.k = (k + 1) % 2 ^ 64 := by rw [hnext, Nat.mod_add_mod]
      rw [← hset] at hloads
      obtain ⟨st', hst', rfl⟩ := (ih hnext' hrest (by rw [hset]; exact hm)).mpr ⟨hheads, hloads⟩
      exact ⟨st', by rw [loadLines, ht, ok_bind, hst'], rfl⟩

end

theorem keys_of_delivers {bs : List LineBuffer} {stream : Bytes} (h : Delivers bs stream) :
    (bs.map fun b => lineKey b.line) = lines stream := by
  rw [lines, ← h, List.map_map]
  rfl

theorem dropLast_of_delivers {bs : List LineBuffer} {stream : Bytes} (h : Delivers bs stream) :
    ∀ b ∈ bs, 10 ∉ b.line.dropLast := fun b hb =>
  sep_notMem_dropLast (List.mem_singleton_self 10)
    (show b.line ∈ elements [10] stream from h ▸ List.mem_map_of_mem hb)

theorem heads_of_delivers {bs : List LineBuffer} {stream : Bytes} (h : Delivers bs stream) :
    (∀ b ∈ bs, b.line.head? ≠ some 0) ↔ ∀ line ∈ elements [10] stream, line.head? ≠ some 0 := by
  rw [← h, List.forall_mem_map]

/-- `loadLines_iff` for the load of a stream. -/
theorem load_iff {σ : Type} {put : σ → Bytes × Nat → Outcome (σ × Nat)} {verbose : Bool}
    {bs : List LineBuffer} {stream : Bytes} (hbs : Delivers bs stream) {s : σ}
    {set : SetState σ} :
    (∃ st, load put verbose ⟨s, 0, 0, 0⟩ bs = .ok st ∧ st.set = set) ↔
      (∀ line ∈ elements [10] stream, line.head? ≠ some 0) ∧
        Loads put verbose ⟨s, 0, 0, 0⟩ 1 (lines stream) set := by
  rw [← keys_of_delivers hbs, ← heads_of_delivers hbs]
  exact @loadLines_iff _ put verbose ⟨⟨s, 0, 0, 0⟩, 1, []⟩ 1 rfl bs (dropLast_of_delivers hbs)
    (Nat.zero_le _) set

theorem getElem?_calls (k : Nat) (keys : List Bytes) (i : Nat) :
    (calls k keys)[i]? = keys[i]?.map fun key => (key, (k + i) % 2 ^ 64) := by
  rw [calls, List.getElem?_map, List.getElem?_zipIdx, Option.map_map]
  rfl

/-- The line numbers are those of the lines as long as they fit into a `size_t`. -/
theorem calls_eq_iff (keys : List Bytes) :
    calls 1 keys = keys.zipIdx 1 ↔ keys.length < 2 ^ 64 := by
  constructor
  · intro h
    by_contra hlen
    have hlt : 2 ^ 64 - 1 < keys.length := by omega
    have hat := congrArg (fun cs => cs[2 ^ 64 - 1]?) h
    simp only [getElem?_calls, List.getElem?_zipIdx, List.getElem?_eq_getElem hlt, Option.map_some,
      Option.some.injEq, Prod.mk.injEq, true_and] at hat
    omega
  · intro h
    refine List.ext_getElem? fun i => ?_
    rw [getElem?_calls, List.getElem?_zipIdx]
    rcases Nat.lt_or_ge i keys.length with hi | hi
    · rw [List.getElem?_eq_getElem hi, Option.map_some, Option.map_some,
        Nat.mod_eq_of_lt (by omega)]
    · rw [List.getElem?_eq_none hi, Option.map_none, Option.map_none]

def logPut (answer : List (Bytes × Nat) → Bytes × Nat → Nat) (log : List (Bytes × Nat))
    (p : Bytes × Nat) : Outcome (List (Bytes × Nat) × Nat) :=
  .ok (log ++ [p], answer log p)

theorem run_logPut (answer : List (Bytes × Nat) → Bytes × Nat → Nat) (ps : List (Bytes × Nat)) :
    run (logPut answer) [] ps = .ok (ps, answers answer [] ps) := by
  have next : ∀ past log p, log = past → True → Stops (fun _ => False) (logPut answer log p) ∨
      ∃ log', logPut answer log p = .ok (log', answer past p) ∧ log' = past ++ [p] := by
    rintro past log p rfl -
    exact Or.inr ⟨_, rfl, rfl⟩
  rcases run_answers next (rfl : ([] : List (Bytes × Nat)) = []) (fun x _ => trivial) with
    ⟨_, hno, -⟩ | ⟨log, hrun, hlog⟩
  · exact absurd hno id
  · rw [hrun, hlog]
    rfl

theorem forall_zip_answers {answer : List (Bytes × Nat) → Bytes × Nat → Nat} {keys : List Bytes}
    (Q : Bytes → Nat → Prop) :
    (∀ x ∈ keys.zip (answers answer [] (keys.zipIdx 1)), Q x.1 x.2) ↔
      ∀ (i : Nat) p, (keys.zipIdx 1)[i]? = some p → Q p.1 (answer ((keys.zipIdx 1).take i) p) := by
  have hat : ∀ (i : Nat) p, (keys.zipIdx 1)[i]? = some p →
      (keys.zip (answers answer [] (keys.zipIdx 1)))[i]? =
        some (p.1, answer ((keys.zipIdx 1).take i) p) := by
    intro i p hi
    have hkey := hi
    rw [List.getElem?_zipIdx, Option.map_eq_some_iff] at hkey
    obtain ⟨key, hkey, rfl⟩ := hkey
    rw [List.getElem?_zip_eq_some]
    exact ⟨hkey, by rw [answers_getElem?, hi]; rfl⟩
  constructor
  · intro h i p hi
    exact h _ (List.mem_of_getElem? (hat i p hi))
  · intro h x hx
    obtain ⟨i, hi⟩ := List.mem_iff_getElem?.mp hx
    obtain ⟨hkey, -⟩ := List.getElem?_zip_eq_some.mp hi
    have hp : (keys.zipIdx 1)[i]? = some (x.1, 1 + i) := by
      rw [List.getElem?_zipIdx, hkey]
      rfl
    rw [hat i _ hp] at hi
    rw [← Option.some.inj hi]
    exact h i _ hp

/-- A load stays in its buffers and puts the keys of all lines in order, whatever the
set answers, if and only if no line begins with NUL and its sums do not overflow. -/
theorem set_load_calls_iff (answer : List (Bytes × Nat) → Bytes × Nat → Nat) (verbose : Bool)
    {bs : List LineBuffer} {stream : Bytes} (hbs : Delivers bs stream) :
    (∃ st, load (logPut answer) verbose ⟨[], 0, 0, 0⟩ bs = .ok st ∧
      st.set.impl = (lines stream).zipIdx 1 ∧ st.set.lineMem = totalLength (lines stream)) ↔
      (∀ line ∈ elements [10] stream, line.head? ≠ some 0) ∧ (lines stream).length < 2 ^ 64 ∧
        totalLength (lines stream) ≤ sizeMax ∧
        (verbose = true → ∀ (i : Nat) p, ((lines stream).zipIdx 1)[i]? = some p →
          answer (((lines stream).zipIdx 1).take i) p ≠ 0 → p.1.length ≤ 2 ^ 31 - 1) := by
  constructor
  · rintro ⟨st, hload, himpl, -⟩
    obtain ⟨hheads, rs, hrun, hlong, hmem, -⟩ := (load_iff hbs).mp ⟨st, hload, rfl⟩
    rw [run_logPut] at hrun
    obtain ⟨hcalls, hrs⟩ := Prod.mk.inj (Except.ok.inj hrun)
    rw [himpl] at hcalls
    rw [hcalls] at hrs
    refine ⟨hheads, (calls_eq_iff _).mp hcalls, by simpa using hmem, fun hv => ?_⟩
    have hall := hlong hv
    rw [← hrs] at hall
    exact (forall_zip_answers fun key r => r ≠ 0 → key.length ≤ 2 ^ 31 - 1).mp hall
  · rintro ⟨hheads, hcount, hmem, hlong⟩
    have hcalls := (calls_eq_iff _).mpr hcount
    obtain ⟨st, hst, hset⟩ := (@load_iff _ (logPut answer) verbose bs stream hbs []
      ⟨(lines stream).zipIdx 1, _, _, _⟩).mpr ⟨hheads, _, by rw [hcalls, run_logPut], fun hv =>
        (forall_zip_answers fun key r => r ≠ 0 → key.length ≤ 2 ^ 31 - 1).mpr (hlong hv),
        by simpa using hmem, rfl⟩
    exact ⟨st, hst, by rw [hset], by rw [hset]; exact Nat.zero_add _⟩

def nulBuffer : LineBuffer := ⟨[0, 10, 0], 2, by decide, by decide, by decide⟩

theorem set_load_nul_line :
    Delivers [nulBuffer] [0, 10] ∧
      load (logPut fun _ _ => 0) false ⟨[], 0, 0, 0⟩ [nulBuffer] = .error .stray := by
  refine ⟨by decide, rfl⟩

def threeBuffers : List LineBuffer :=
  [⟨[97, 0, 98, 10, 0, 0], 4, by decide, by decide, by decide⟩,
    ⟨[10, 0, 98, 10, 0, 0], 1, by decide, by decide, by decide⟩,
    ⟨[99, 0, 98, 10, 0, 0], 1, by decide, by decide, by decide⟩]

theorem set_load_three_lines :
    ∃ st, load (logPut fun _ _ => 0) true ⟨[], 0, 0, 0⟩ threeBuffers = .ok st ∧
      st.set.impl = [([97], 1), ([], 2), ([99], 3)] ∧ st.set.lineMem = 2 := by
  have hdelivers : Delivers threeBuffers [97, 0, 98, 10, 10, 99] := by decide
  have hlines : lines [97, 0, 98, 10, 10, 99] = [[97], [], [99]] := by decide
  have h := (set_load_calls_iff (fun _ _ => 0) true hdelivers).mpr
    ⟨by decide, by decide, by decide, fun _ i p _ hne => absurd rfl hne⟩
  rw [hlines] at h
  exact h

end PathSet
