import PathSet.Machine

/-!
The stack of the printers, an array that is doubled when it is full. Its members are
undetermined until they are written. Every operation checks the ends of the array.
-/

namespace PathSet
open Fallible

/-- The array from `beg` to `end`, with the place of `top` in it. -/
structure Stack (α : Type) where
  cells : List (Option α)
  top : Nat
  /-- What the next calls of `malloc` and `realloc` do. There is no memory behind them. -/
  supply : List Bool
  deriving DecidableEq, Repr

namespace Stack
variable {α : Type}

/-- Whether a block of `n` bytes is delivered. None is larger than half of the address space. -/
def Delivered (supply : List Bool) (n : Nat) : Prop := n ≤ sizeMax / 2 ∧ supply.head? = some true

instance (supply : List Bool) (n : Nat) : Decidable (Delivered supply n) :=
  inferInstanceAs (Decidable (_ ∧ _))

/-- `STACK_INIT` for members of `sz` bytes. -/
def init (sz : Nat) (zero : α) (initSize : Nat) (supply : List Bool) : Outcome (Stack α) := do
  let initSize := if initSize = 0 then 1024 else initSize
  let n ← sizeMul sz initSize
  ensure "malloc failed" (Delivered supply n)
  pure ⟨List.replicate initSize (some zero), 0, supply.tail⟩

/-- `STACK_ASSERT_INVARIANTS` -/
def assertInvariants (s : Stack α) : Outcome Unit := do
  assert (0 < s.cells.length)
  assert (s.top ≤ s.cells.length)
  assert (0 ≤ s.top)

/-- `STACK_ENLARGE` -/
def enlarge (sz : Nat) (s : Stack α) : Outcome (Stack α) := do
  s.assertInvariants
  let n := s.cells.length
  let t := s.top
  assert (0 < n)
  assert (t ≤ n)
  let n ← sizeMul n 2
  let bytes ← sizeMul n sz
  ensure "realloc failed" (Delivered s.supply bytes)
  pure ⟨s.cells ++ List.replicate (n - s.cells.length) none, t, s.supply.tail⟩

/-- `STACK_PUSH` -/
def push (sz : Nat) (s : Stack α) (v : α) : Outcome (Stack α) := do
  s.assertInvariants
  let s ← (if s.top = s.cells.length then s.enlarge sz else pure s)
  assert (s.top < s.cells.length)
  pure { s with cells := s.cells.set s.top (some v), top := s.top + 1 }

def read : Nat → List (Option α) → Outcome (List α)
  | 0, _ => .ok []
  | n + 1, some v :: cells => do
      let vs ← read n cells
      pure (v :: vs)
  | _ + 1, _ => .error .stray

/-- `STACK_POP` -/
def pop (s : Stack α) : Outcome (Stack α × α) := do
  s.assertInvariants
  ensure "stack underflow" (0 < s.top)
  let s := { s with top := s.top - 1 }
  match s.cells[s.top]? with
  | some (some v) => pure (s, v)
  | _ => .error .stray

/-- `STACK_CLEAR` -/
def clear (s : Stack α) : Outcome (Stack α) := do
  s.assertInvariants
  pure { s with top := 0 }

/-- `STACK_SIZE` -/
def size (s : Stack α) : Outcome Nat := do
  s.assertInvariants
  pure s.top

/-- `STACK_IS_EMPTY` -/
def isEmpty (s : Stack α) : Outcome Bool := do
  s.assertInvariants
  pure (s.top = 0)

/-- `STACK_BEG_REF`, the array from its first member. -/
def begRef (s : Stack α) : Outcome (List (Option α)) := do
  s.assertInvariants
  ensure "stack is empty" (0 < s.top)
  pure s.cells

def members (s : Stack α) : Outcome (List α) := do
  let cells ← s.begRef
  let n ← s.size
  read n cells

variable {sz : Nat} {s : Stack α} {xs : List α}

structure Holds (sz : Nat) (s : Stack α) (xs : List α) : Prop where
  top : s.top = xs.length
  cells : ∃ rest, s.cells = xs.map some ++ rest
  pos : 0 < s.cells.length
  elem : 0 < sz
  block : s.cells.length * sz ≤ sizeMax / 2

def Refused (e : Abort) : Prop := e = .ensure "malloc failed" ∨ e = .ensure "realloc failed"

theorem Holds.le (h : Holds sz s xs) : s.top ≤ s.cells.length := by
  obtain ⟨rest, hrest⟩ := h.cells
  rw [h.top, hrest, List.length_append, List.length_map]
  exact Nat.le_add_right _ _

theorem Holds.invariants (h : Holds sz s xs) : s.assertInvariants = .ok () := by
  rw [assertInvariants, assert_of h.pos, ok_bind, assert_of h.le, ok_bind, assert_of (Nat.zero_le _)]

theorem sizeMul_of {x y : Nat} (h : x * y ≤ sizeMax) : sizeMul x y = .ok (x * y) := by
  have hle : y = 0 ∨ x ≤ sizeMax / y := by
    rcases Nat.eq_zero_or_pos y with hzero | hpos
    · exact Or.inl hzero
    · exact Or.inr ((Nat.le_div_iff_mul_le hpos).mpr h)
  rw [sizeMul, assert_of hle]
  rfl

def initCount (initSize : Nat) : Nat := if initSize = 0 then 1024 else initSize

theorem init_spec (hsz : 0 < sz) {zero : α} {initSize : Nat} {supply : List Bool}
    (hfit : sz * initCount initSize ≤ sizeMax) :
    (¬Delivered supply (sz * initCount initSize) ∧
      init sz zero initSize supply = .error (.ensure "malloc failed")) ∨
    ∃ s, init sz zero initSize supply = .ok s ∧ Holds sz s [] ∧ s.supply = supply.tail := by
  have hpos : 0 < initCount initSize := by
    unfold initCount
    split_ifs <;> omega
  rw [init, ← initCount, sizeMul_of hfit, ok_bind]
  by_cases hd : Delivered supply (sz * initCount initSize)
  · rw [ensure_of hd, ok_bind]
    refine Or.inr ⟨_, rfl, ⟨rfl, ⟨_, rfl⟩, by simpa using hpos, hsz, ?_⟩, rfl⟩
    rw [List.length_replicate, Nat.mul_comm]
    exact hd.1
  · exact Or.inl ⟨hd, by rw [ensure, if_neg hd]; rfl⟩

theorem init_agree (hsz : 0 < sz) {zero : α} {initSize : Nat} {supply : List Bool}
    (hfit : sz * initCount initSize ≤ sizeMax) :
    AgreeUnless Refused (Holds sz) (init sz zero initSize supply) (.ok []) := by
  rcases init_spec hsz hfit with ⟨-, hrun⟩ | ⟨s, hrun, hs, -⟩
  · exact Or.inl ⟨_, Or.inl rfl, hrun⟩
  · rw [hrun]
    exact Or.inr hs

theorem enlarge_spec (h : Holds sz s xs) :
    (¬Delivered s.supply (s.cells.length * 2 * sz) ∧
      enlarge sz s = .error (.ensure "realloc failed")) ∨
    ∃ s', enlarge sz s = .ok s' ∧ Holds sz s' xs ∧ s'.top < s'.cells.length ∧
      s'.supply = s.supply.tail := by
  have hpos := h.pos
  have hle := h.le
  have hblock := h.block
  have hcells : s.cells.length ≤ s.cells.length * sz := Nat.le_mul_of_pos_right _ h.elem
  have hdouble : s.cells.length * 2 * sz = s.cells.length * sz * 2 := Nat.mul_right_comm _ _ _
  have hfit : s.cells.length * 2 ≤ sizeMax := by omega
  have hbytes : s.cells.length * 2 * sz ≤ sizeMax := by omega
  simp only [enlarge, h.invariants, assert_of hpos, assert_of hle, sizeMul_of hfit,
    sizeMul_of hbytes, ok_bind]
  by_cases hd : Delivered s.supply (s.cells.length * 2 * sz)
  · obtain ⟨rest, hrest⟩ := h.cells
    have hlen : (s.cells ++ List.replicate (s.cells.length * 2 - s.cells.length) none).length =
        s.cells.length * 2 := by
      rw [List.length_append, List.length_replicate]
      omega
    right
    refine ⟨⟨s.cells ++ List.replicate (s.cells.length * 2 - s.cells.length) none, s.top,
      s.supply.tail⟩, ?_, ⟨h.top, ⟨rest ++ List.replicate
      (s.cells.length * 2 - s.cells.length) none, ?_⟩, ?_, h.elem, ?_⟩, ?_, rfl⟩
    · rw [ensure_of hd, ok_bind]
      rfl
    · rw [← List.append_assoc, ← hrest]
    · rw [hlen]
      omega
    · rw [hlen]
      exact hd.1
    · exact lt_of_le_of_lt hle (by rw [hlen]; omega)
  · exact Or.inl ⟨hd, by rw [ensure, if_neg hd]; rfl⟩

theorem holds_set (h : Holds sz s xs) (hroom : s.top < s.cells.length) (v : α) :
    Holds sz { s with cells := s.cells.set s.top (some v), top := s.top + 1 } (xs ++ [v]) := by
  obtain ⟨rest, hrest⟩ := h.cells
  have htop : s.top = (xs.map some).length := by rw [List.length_map, h.top]
  refine ⟨by simp [h.top], ?_, by simpa using h.pos, h.elem, by simpa using h.block⟩
  cases rest with
  | nil =>
    rw [hrest, List.append_nil] at hroom
    omega
  | cons cell rest =>
    refine ⟨rest, ?_⟩
    simp only [hrest, htop, List.set_append_right _ _ (Nat.le_refl _), Nat.sub_self,
      List.set_cons_zero, List.map_append, List.map_cons, List.map_nil, List.append_assoc,
      List.singleton_append]

theorem push_spec (h : Holds sz s xs) (v : α) :
    (s.top = s.cells.length ∧ ¬Delivered s.supply (s.cells.length * 2 * sz) ∧
      push sz s v = .error (.ensure "realloc failed")) ∨
    ∃ s', push sz s v = .ok s' ∧ Holds sz s' (xs ++ [v]) ∧
      s'.supply = if s.top = s.cells.length then s.supply.tail else s.supply := by
  rw [push, h.invariants, ok_bind]
  by_cases hfull : s.top = s.cells.length
  · rw [if_pos hfull]
    rcases enlarge_spec h with ⟨hno, hrun⟩ | ⟨s', hrun, hs, hroom, hsupply⟩
    · exact Or.inl ⟨hfull, hno, by rw [hrun, error_bind]⟩
    · refine Or.inr ⟨_, by rw [hrun, ok_bind, assert_of hroom, ok_bind]; rfl,
        holds_set hs hroom v, ?_⟩
      rw [if_pos hfull, ← hsupply]
  · have hroom : s.top < s.cells.length := lt_of_le_of_ne h.le hfull
    rw [if_neg hfull]
    refine Or.inr ⟨_, by rw [pure_eq_ok, ok_bind, assert_of hroom, ok_bind]; rfl,
      holds_set h hroom v, ?_⟩
    rw [if_neg hfull]

theorem push_agree (h : Holds sz s xs) (v : α) :
    AgreeUnless Refused (Holds sz) (push sz s v) (.ok (xs ++ [v])) := by
  rcases push_spec h v with ⟨-, -, hrun⟩ | ⟨s', hrun, hs, -⟩
  · exact Or.inl ⟨_, Or.inr rfl, hrun⟩
  · rw [hrun]
    exact Or.inr hs

theorem read_members (xs : List α) (rest : List (Option α)) :
    read xs.length (xs.map some ++ rest) = .ok xs := by
  induction xs with
  | nil => rfl
  | cons x xs ih =>
    rw [List.length_cons, List.map_cons, List.cons_append, read, ih]
    rfl

theorem size_eq (h : Holds sz s xs) : s.size = .ok xs.length := by
  rw [size, h.invariants, ok_bind, h.top]
  rfl

theorem begRef_eq (h : Holds sz s xs) (hne : xs ≠ []) : s.begRef = .ok s.cells := by
  have hpos : 0 < s.top := h.top ▸ List.length_pos_iff.mpr hne
  rw [begRef, h.invariants, ok_bind, ensure_of hpos]
  rfl

theorem members_eq (h : Holds sz s xs) : s.members = stackBegRef xs := by
  by_cases hne : xs = []
  · have htop : ¬0 < s.top := by simp [h.top, hne]
    rw [members, begRef, h.invariants, ok_bind, ensure, if_neg htop, hne]
    rfl
  · obtain ⟨rest, hrest⟩ := h.cells
    rw [members, begRef_eq h hne, ok_bind, size_eq h, ok_bind, hrest, read_members,
      stackBegRef_of_ne_nil hne]

theorem clear_spec (h : Holds sz s xs) :
    ∃ s', s.clear = .ok s' ∧ Holds sz s' [] ∧ s'.supply = s.supply := by
  refine ⟨{ s with top := 0 }, ?_, ⟨rfl, ⟨_, rfl⟩, h.pos, h.elem, h.block⟩, rfl⟩
  rw [clear, h.invariants, ok_bind]
  rfl

theorem isEmpty_eq (h : Holds sz s xs) : s.isEmpty = .ok xs.isEmpty := by
  rw [isEmpty, h.invariants, ok_bind, h.top]
  cases xs <;> rfl

theorem pop_spec (h : Holds sz s xs) :
    (xs = [] ∧ s.pop = .error (.ensure "stack underflow")) ∨
    ∃ s' ys v, xs = ys ++ [v] ∧ s.pop = .ok (s', v) ∧ Holds sz s' ys ∧ s'.supply = s.supply := by
  rw [pop, h.invariants, ok_bind]
  rcases List.eq_nil_or_concat xs with rfl | ⟨ys, v, rfl⟩
  · have htop : ¬0 < s.top := by simp [h.top]
    refine Or.inl ⟨rfl, ?_⟩
    rw [ensure, if_neg htop]
    rfl
  · obtain ⟨rest, hrest⟩ := h.cells
    rw [List.concat_eq_append, List.map_append, List.map_singleton, List.append_assoc,
      List.singleton_append] at hrest
    have htop : s.top - 1 = ys.length := by simp [h.top]
    have hpos : 0 < s.top := by simp [h.top]
    have hcell : s.cells[s.top - 1]? = some (some v) := by
      rw [hrest, htop, List.getElem?_append_right (by simp), List.length_map, Nat.sub_self]
      rfl
    refine Or.inr ⟨{ s with top := s.top - 1 }, ys, v, List.concat_eq_append, ?_,
      ⟨htop, ⟨some v :: rest, hrest⟩, h.pos, h.elem, h.block⟩, rfl⟩
    rw [ensure_of hpos, ok_bind]
    simp only [hcell, pure_eq_ok]

inductive Op (α : Type) where
  | push (v : α)
  | pop
  | clear
  | size
  | isEmpty
  | members
  deriving DecidableEq, Repr

inductive Result (α : Type) where
  | done
  | popped (v : α)
  | sized (n : Nat)
  | emptied (b : Bool)
  | members (vs : List α)
  deriving DecidableEq, Repr

def step (sz : Nat) (s : Stack α) : Op α → Outcome (Stack α × Result α)
  | .push v => do
      let s ← s.push sz v
      pure (s, .done)
  | .pop => do
      let (s, v) ← s.pop
      pure (s, .popped v)
  | .clear => do
      let s ← s.clear
      pure (s, .done)
  | .size => do
      let n ← s.size
      pure (s, .sized n)
  | .isEmpty => do
      let b ← s.isEmpty
      pure (s, .emptied b)
  | .members => do
      let vs ← s.members
      pure (s, .members vs)

/-- `STACK_POP` on the list of the members. -/
def popLast (xs : List α) : Outcome (List α × α) :=
  match xs.getLast? with
  | none => .error (.ensure "stack underflow")
  | some v => .ok (xs.dropLast, v)

def listStep (xs : List α) : Op α → Outcome (List α × Result α)
  | .push v => .ok (xs ++ [v], .done)
  | .pop => do
      let (xs, v) ← popLast xs
      pure (xs, .popped v)
  | .clear => .ok ([], .done)
  | .size => .ok (xs, .sized xs.length)
  | .isEmpty => .ok (xs, .emptied xs.isEmpty)
  | .members => do
      let vs ← stackBegRef xs
      pure (xs, .members vs)

theorem step_spec (h : Holds sz s xs) (op : Op α) :
    (¬Delivered s.supply (xs.length * 2 * sz) ∧
      step sz s op = .error (.ensure "realloc failed")) ∨
    Agree (fun p q => (Holds sz p.1 q.1 ∧ p.2 = q.2) ∧
      (p.1.supply = s.supply ∨ p.1.supply = s.supply.tail) ∧ q.1.length ≤ xs.length + 1)
      (step sz s op) (listStep xs op) := by
  cases op with
  | push v =>
    rcases push_spec h v with ⟨hfull, hno, hrun⟩ | ⟨s', hrun, hs, hsupply⟩
    · rw [← hfull, h.top] at hno
      exact Or.inl ⟨hno, by rw [step, hrun, error_bind]⟩
    · right
      rw [step, hrun, ok_bind]
      refine ⟨⟨hs, rfl⟩, ?_, by simp⟩
      rw [hsupply]
      split_ifs
      · exact Or.inr rfl
      · exact Or.inl rfl
  | pop =>
    right
    rcases pop_spec h with ⟨rfl, hrun⟩ | ⟨s', ys, v, rfl, hrun, hs, hsupply⟩
    · rw [step, hrun]
      exact rfl
    · rw [step, hrun, listStep, popLast, List.getLast?_concat, List.dropLast_concat]
      have hlen : ys.length ≤ (ys ++ [v]).length := by simp
      exact ⟨⟨hs, rfl⟩, Or.inl hsupply, Nat.le_succ_of_le hlen⟩
  | clear =>
    obtain ⟨s', hclear, hs, hsupply⟩ := clear_spec h
    rw [step, hclear, ok_bind]
    exact Or.inr ⟨⟨hs, rfl⟩, Or.inl hsupply, Nat.zero_le _⟩
  | size =>
    rw [step, size_eq h, ok_bind]
    exact Or.inr ⟨⟨h, rfl⟩, Or.inl rfl, Nat.le_succ _⟩
  | isEmpty =>
    rw [step, isEmpty_eq h, ok_bind]
    exact Or.inr ⟨⟨h, rfl⟩, Or.inl rfl, Nat.le_succ _⟩
  | members =>
    rw [step, members_eq h, listStep]
    exact Or.inr (agree_bind _ fun vs _ => ⟨⟨h, rfl⟩, Or.inl rfl, Nat.le_succ _⟩)

theorem step_agree (h : Holds sz s xs) (op : Op α) :
    AgreeUnless Refused (fun p q => Holds sz p.1 q.1 ∧ p.2 = q.2) (step sz s op)
      (listStep xs op) := by
  rcases step_spec h op with ⟨-, hrun⟩ | hagree
  · exact Or.inl ⟨_, Or.inr rfl, hrun⟩
  · exact Or.inr (hagree.mono fun p q hpq => hpq.1)

theorem run_served {n : Nat} (h : Holds sz s xs) (hsupply : s.supply = List.replicate n true)
    {ops : List (Op α)} (hops : ops.length ≤ n)
    (hroom : (xs.length + ops.length) * 2 * sz ≤ sizeMax / 2) :
    Agree (fun p q => Holds sz p.1 q.1 ∧ p.2 = q.2) (run (step sz) s ops)
      (run listStep xs ops) := by
  induction ops generalizing s xs n with
  | nil => exact ⟨h, rfl⟩
  | cons op ops ih =>
    rw [List.length_cons] at hops hroom
    obtain ⟨n, rfl⟩ : ∃ m, n = m + 1 := ⟨n - 1, by omega⟩
    rw [run_cons, run_cons]
    rcases step_spec h op with ⟨hno, -⟩ | hagree
    · have hfit : xs.length * 2 * sz ≤ sizeMax / 2 :=
        le_trans (Nat.mul_le_mul_right sz (by omega)) hroom
      refine absurd ⟨hfit, ?_⟩ hno
      rw [hsupply]
      rfl
    · refine hagree.bind fun p q hpq => ?_
      obtain ⟨⟨hs, hans⟩, hleft, hlen⟩ := hpq
      have hmem : ∃ m, p.1.supply = List.replicate m true ∧ n ≤ m := by
        rcases hleft with hkept | htail
        · exact ⟨n + 1, hkept.trans hsupply, Nat.le_succ n⟩
        · exact ⟨n, by rw [htail, hsupply]; rfl, le_refl n⟩
      obtain ⟨m, hm, hle⟩ := hmem
      have hfit : (q.1.length + ops.length) * 2 * sz ≤ sizeMax / 2 :=
        le_trans (Nat.mul_le_mul_right sz (by omega)) hroom
      refine (ih hs hm (by omega) hfit).bind fun p' q' hpq' => ?_
      exact ⟨hpq'.1, by rw [hans, hpq'.2]⟩

def runNew (sz : Nat) (zero : α) (initSize : Nat) (supply : List Bool) (ops : List (Op α)) :
    Outcome (Stack α × List (Result α)) := do
  let s ← init sz zero initSize supply
  run (step sz) s ops

/-- Unless memory is refused, a run on the array is the run on a list, with its errors. With
enough memory it always is. -/
theorem stack_run (hsz : 0 < sz) (zero : α) {initSize : Nat}
    (hfit : sz * initCount initSize ≤ sizeMax) (supply : List Bool) (ops : List (Op α)) :
    AgreeUnless Refused (fun p q => Holds sz p.1 q.1 ∧ p.2 = q.2)
      (runNew sz zero initSize supply ops) (run listStep [] ops) ∧
    (supply = List.replicate (ops.length + 1) true → sz * initCount initSize ≤ sizeMax / 2 →
      ops.length * 2 * sz ≤ sizeMax / 2 →
      Agree (fun p q => Holds sz p.1 q.1 ∧ p.2 = q.2) (runNew sz zero initSize supply ops)
        (run listStep [] ops)) := by
  constructor
  · have hstart := @init_agree α sz hsz zero initSize supply hfit
    rw [← ok_bind ([] : List α) fun xs => run listStep xs ops]
    exact hstart.bind fun s xs hs => run_agreeUnless (fun s xs op hs => step_agree hs op) hs ops
  · rintro rfl hblock hroom
    rcases @init_spec α sz hsz zero initSize (List.replicate (ops.length + 1) true) hfit with
      ⟨hno, -⟩ | ⟨s, hrun, hs, hsupply⟩
    · exact absurd ⟨hblock, rfl⟩ hno
    · rw [runNew, hrun, ok_bind]
      exact run_served hs hsupply le_rfl (by simpa using hroom)

theorem stack_run_doubled :
    0 < 1 ∧ 1 * initCount 1 ≤ sizeMax ∧
      Agree (fun p q => Holds 1 p.1 q.1 ∧ p.2 = q.2)
        (runNew 1 (0 : UInt8) 1 (List.replicate 5 true) [.push 97, .push 98, .pop, .members])
        (run listStep [] [.push 97, .push 98, .pop, .members]) :=
  ⟨Nat.one_pos, by decide,
    (stack_run Nat.one_pos (0 : UInt8) (by decide) (List.replicate 5 true)
      [.push 97, .push 98, .pop, .members]).2 rfl (by decide) (by decide)⟩

end Stack

end PathSet
