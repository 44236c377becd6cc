import PathSet.Machine
import PathSet.PathElements
import PathSet.Library.FirstSeen

/-!
The sets of lines. A set stores the number of a line under the line, as a value of
`CONFIG_VALUE_TYPE_SIZE` bits, and counts the lines it has loaded. What a set is made of
is a dictionary that names its nodes by positive numbers.
-/

namespace PathSet
open Fallible FirstSeen

structure SetImpl (σ : Type) extends Dictionary σ Bytes Nat Abort where
  key_iff : ∀ k, Key k ↔ 0 ∉ k
  id_pos : ∀ {s m k n}, Rep s m → m k = some n → 0 < n

structure SetState (σ : Type) where
  impl : σ
  uniqLine : Nat
  dupsLine : Nat
  lineMem : Nat

variable {σ : Type}

/-- `SET_PUT` in a build with values of `size` bits. The answer is zero for a new key. -/
def SetImpl.put (S : SetImpl σ) (size : Nat) (s : σ) (p : Bytes × Nat) : Outcome (σ × Nat) := do
  assert (0 < p.2)
  let (s, b, n) ← S.insert s p.1
  assert (n ≠ 0)
  if b then pure (S.setVal s n (p.2 % 2 ^ size), 0) else pure (s, S.val s n)

theorem SetImpl.put_rep (S : SetImpl σ) {size : Nat} {s s' : σ} {m : Bytes → Option Nat}
    {p : Bytes × Nat} {r : Nat} (h : S.Rep s m) (hp : 0 ∉ p.1) (hput : S.put size s p = .ok (s', r)) :
    ∃ m', S.Rep s' m' := by
  rw [SetImpl.put] at hput
  obtain ⟨-, -, hput⟩ := bind_eq_ok.mp hput
  rcases S.insert_spec h ((S.key_iff p.1).mpr hp) with ⟨e, -, he⟩ | ⟨s₁, i, m', hins, hrep, -, hi, -⟩
  · rw [he] at hput
    cases hput
  · rw [hins, ok_bind] at hput
    obtain ⟨-, -, hput⟩ := bind_eq_ok.mp hput
    split_ifs at hput with hnew
    · obtain ⟨rfl, -⟩ := Prod.mk.inj (Except.ok.inj hput)
      exact ⟨m', S.rep_setVal hrep hi⟩
    · obtain ⟨rfl, -⟩ := Prod.mk.inj (Except.ok.inj hput)
      exact ⟨m', hrep⟩

/-- A line as `getline` leaves it: the buffer, and the length of the line at its start. -/
structure LineBuffer where
  bytes : Bytes
  length : Nat
  pos : 0 < length
  ended : bytes[length]? = some 0
  size : bytes.length ≤ sizeMax

def LineBuffer.line (b : LineBuffer) : Bytes := b.bytes.take b.length

theorem LineBuffer.room (b : LineBuffer) : b.length < b.bytes.length :=
  (List.getElem?_eq_some_iff.mp b.ended).1

inductive Warning where
  /-- `NUL char in line #%zu: truncating it from length %zu to %zu` -/
  | nulChar (line length d : Nat)
  /-- `duplicate lines #%zu and #%zu: '%.*s'` -/
  | duplicate (r line : Nat) (key : Bytes)
  deriving DecidableEq, Repr

structure LoadState (σ : Type) where
  set : SetState σ
  k : Nat
  warnings : List Warning

def truncate (verbose : Bool) (k : Nat) (b : LineBuffer) : Outcome (Nat × List Warning) := do
  let l := b.length
  assert (0 < b.bytes.length)
  assert (0 < l)
  assert (l < b.bytes.length)
  match memchr b.bytes 0 l with
  | some d => do
      assert (d < l)
      pure (d, if verbose then [.nulChar k l d] else [])
  | none => pure (l, [])

/-- Replace a newline at the end of the line. An index is a `size_t`, that before the
first one is the largest. -/
def chomp (bytes : Bytes) (l : Nat) : Outcome (Bytes × Nat) :=
  let i := (l + sizeMax) % 2 ^ 64
  match bytes[i]? with
  | none => .error .stray
  | some ch => if ch = 10 then .ok (bytes.set i 0, i) else .ok (bytes, l)

/-- Put the key of length `l` into the set, and count its line. -/
def countLine (put : σ → Bytes × Nat → Outcome (σ × Nat)) (verbose : Bool) (st : LoadState σ)
    (key : Bytes) (l : Nat) : Outcome (LoadState σ) := do
  let (impl, r) ← put st.set.impl (key, st.k)
  let set := { st.set with impl := impl }
  let (set, warnings) ← (if r = 0 then
      pure ({ set with uniqLine := set.uniqLine + 1 }, st.warnings)
    else do
      let set := { set with dupsLine := set.dupsLine + 1 }
      if verbose then do
        let _ ← sizeAsInt l
        pure (set, st.warnings ++ [.duplicate r st.k key])
      else pure (set, st.warnings) : Outcome (SetState σ × List Warning))
  assert (set.lineMem + l ≤ sizeMax)
  pure ⟨{ set with lineMem := set.lineMem + l }, (st.k + 1) % 2 ^ 64, warnings⟩

/-- One round of `SET_LOAD`. -/
def loadLine (put : σ → Bytes × Nat → Outcome (σ × Nat)) (verbose : Bool) (st : LoadState σ)
    (b : LineBuffer) : Outcome (LoadState σ) := do
  let (l, warnings) ← truncate verbose st.k b
  let (bytes, l) ← chomp b.bytes l
  countLine put verbose { st with warnings := st.warnings ++ warnings } (bytes.take l) l

def loadLines (put : σ → Bytes × Nat → Outcome (σ × Nat)) (verbose : Bool) :
    LoadState σ → List LineBuffer → Outcome (LoadState σ)
  | st, [] => .ok st
  | st, b :: bs => do loadLines put verbose (← loadLine put verbose st b) bs

/-- `SET_LOAD` -/
def load (put : σ → Bytes × Nat → Outcome (σ × Nat)) (verbose : Bool) (set : SetState σ)
    (bs : List LineBuffer) : Outcome (LoadState σ) :=
  loadLines put verbose ⟨set, 1, []⟩ bs

end PathSet
