import PathSet.Machine
import Mathlib.Tactic.Ring
import Mathlib.Algebra.BigOperators.Group.List.Basic

/-!
The clocks of the statistics. A time is kept in seconds and microseconds. Adding carries
a million microseconds into a second. Subtracting borrows a second, but puts one
microsecond less than a million in its place.
-/

namespace PathSet
open Fallible

structure ClocksTime where
  secs : Nat
  usecs : Nat
  deriving DecidableEq, Repr

/-- `struct timeval`, whose members are signed. -/
structure TimeVal where
  tvSec : Int
  tvUsec : Int
  deriving DecidableEq, Repr

def clocksMaxUsecs : Nat := 999999

def clocksLimUsecs : Nat := 1000000

/-- `INT_AS_SIZE` -/
def intAsSize (x : Int) : Outcome Nat := do
  assert (0 ≤ x)
  pure x.toNat

namespace ClocksTime

def init (timeval : TimeVal) : Outcome ClocksTime := do
  let secs ← intAsSize timeval.tvSec
  let usecs ← intAsSize timeval.tvUsec
  if clocksLimUsecs ≤ usecs then do
    let q := usecs / clocksLimUsecs
    let usecs := usecs % clocksLimUsecs
    assert (secs ≤ sizeMax - q)
    pure ⟨secs + q, usecs⟩
  else pure ⟨secs, usecs⟩

def assign (time2 : ClocksTime) : Outcome ClocksTime := do
  assert (time2.usecs ≤ clocksMaxUsecs)
  pure time2

def add (time time2 : ClocksTime) : Outcome ClocksTime := do
  assert (time.usecs ≤ clocksMaxUsecs)
  assert (time2.usecs ≤ clocksMaxUsecs)
  let secs ← sizeAdd time.secs time2.secs
  let usecs ← sizeAdd time.usecs time2.usecs
  if clocksLimUsecs ≤ usecs then do
    let usecs := usecs - clocksLimUsecs
    assert (secs < sizeMax)
    pure ⟨secs + 1, usecs⟩
  else pure ⟨secs, usecs⟩

def sub (time time2 : ClocksTime) : Outcome ClocksTime := do
  assert (time.usecs ≤ clocksMaxUsecs)
  assert (time2.usecs ≤ clocksMaxUsecs)
  let secs ← sizeSub time.secs time2.secs
  if time.usecs < time2.usecs then do
    assert (time.usecs ≤ sizeMax - clocksMaxUsecs)
    let usecs := time.usecs + clocksMaxUsecs
    assert (0 < secs)
    let usecs ← sizeSub usecs time2.usecs
    pure ⟨secs - 1, usecs⟩
  else do
    let usecs ← sizeSub time.usecs time2.usecs
    pure ⟨secs, usecs⟩

end ClocksTime

structure UTime where
  rtime : ClocksTime
  utime : ClocksTime
  stime : ClocksTime
  deriving DecidableEq, Repr

structure Clocks where
  real : ClocksTime
  user : ClocksTime
  sys : ClocksTime
  deriving DecidableEq, Repr

/-- What `gettimeofday` and `getrusage` tell at one moment. -/
structure Moment where
  time : TimeVal
  ruUtime : TimeVal
  ruStime : TimeVal
  deriving DecidableEq, Repr

def utimeInit (now : Moment) : Outcome UTime := do
  let rtime ← ClocksTime.init now.time
  let utime ← ClocksTime.init now.ruUtime
  let stime ← ClocksTime.init now.ruStime
  pure ⟨rtime, utime, stime⟩

/-- `utime_clocks` at the moment `now`. The times of children are not configured. -/
def utimeClocks (now : Moment) (time : UTime) : Outcome Clocks := do
  let u ← utimeInit now
  let real ← ClocksTime.assign u.rtime
  let real ← real.sub time.rtime
  let user ← ClocksTime.assign u.utime
  let user ← user.sub time.utime
  let sys ← ClocksTime.assign u.stime
  let sys ← sys.sub time.stime
  pure ⟨real, user, sys⟩

def Clocks.init : Clocks := ⟨⟨0, 0⟩, ⟨0, 0⟩, ⟨0, 0⟩⟩

def Clocks.add (clocks clocks2 : Clocks) : Outcome Clocks := do
  let real ← clocks.real.add clocks2.real
  let user ← clocks.user.add clocks2.user
  let sys ← clocks.sys.add clocks2.sys
  pure ⟨real, user, sys⟩

def measure (clocks : Clocks) (interval : Moment × Moment) : Outcome (Clocks × Unit) := do
  let u ← utimeInit interval.1
  let c ← utimeClocks interval.2 u
  let clocks ← clocks.add c
  pure (clocks, ())

namespace ClocksTime

def us (t : ClocksTime) : Nat := 1000000 * t.secs + t.usecs

structure Normal (t : ClocksTime) : Prop where
  secs : t.secs ≤ sizeMax
  usecs : t.usecs ≤ clocksMaxUsecs

theorem us_inj {a b : ClocksTime} (ha : a.Normal) (hb : b.Normal) (h : a.us = b.us) : a = b := by
  obtain ⟨s, u⟩ := a
  obtain ⟨s', u'⟩ := b
  have hu := ha.usecs
  have hu' := hb.usecs
  simp only [us, clocksMaxUsecs] at h hu hu'
  obtain ⟨rfl, rfl⟩ : s = s' ∧ u = u' := by omega
  rfl

def limit : Nat := 1000000 * 2 ^ 64

theorem add_spec {a b : ClocksTime} (ha : a.Normal) (hb : b.Normal) (hfit : a.us + b.us < limit) :
    ∃ r, a.add b = .ok r ∧ r.Normal ∧ r.us = a.us + b.us := by
  have hua := ha.usecs
  have hub := hb.usecs
  simp only [us, limit, clocksMaxUsecs] at hfit hua hub
  rw [add, assert_of ha.usecs, ok_bind, assert_of hb.usecs, ok_bind,
    sizeAdd_of (by unfold sizeMax; omega), ok_bind, sizeAdd_of (by unfold sizeMax; omega), ok_bind]
  by_cases hcarry : clocksLimUsecs ≤ a.usecs + b.usecs
  · have hsecs : a.secs + b.secs < sizeMax := by
      simp only [clocksLimUsecs] at hcarry
      unfold sizeMax
      omega
    rw [if_pos hcarry, assert_of hsecs]
    refine ⟨_, rfl, ⟨hsecs, ?_⟩, ?_⟩
    · simp only [clocksLimUsecs, clocksMaxUsecs] at *
      omega
    · simp only [us, clocksLimUsecs] at *
      omega
  · rw [if_neg hcarry]
    refine ⟨_, rfl, ⟨?_, ?_⟩, ?_⟩
    · show a.secs + b.secs ≤ sizeMax
      unfold sizeMax
      omega
    · simp only [clocksLimUsecs, clocksMaxUsecs] at *
      omega
    · simp only [us]
      omega

theorem sub_spec {a b : ClocksTime} (ha : a.Normal) (hb : b.Normal) (hle : b.us ≤ a.us) :
    ∃ r, a.sub b = .ok r ∧ r.Normal ∧
      r.us + b.us + (if a.usecs < b.usecs then 1 else 0) = a.us := by
  have hua := ha.usecs
  have hub := hb.usecs
  have hsa := ha.secs
  simp only [us, clocksMaxUsecs] at hle hua hub
  have hsecs : b.secs ≤ a.secs := by omega
  rw [sub, assert_of ha.usecs, ok_bind, assert_of hb.usecs, ok_bind, sizeSub_of hsecs, ok_bind]
  by_cases hborrow : a.usecs < b.usecs
  · have hpos : 0 < a.secs - b.secs := by omega
    rw [if_pos hborrow, assert_of (by unfold sizeMax clocksMaxUsecs; omega), ok_bind,
      assert_of hpos, ok_bind, sizeSub_of (by unfold clocksMaxUsecs; omega), ok_bind]
    refine ⟨_, rfl, ⟨?_, ?_⟩, ?_⟩
    · show a.secs - b.secs - 1 ≤ sizeMax
      omega
    · simp only [clocksMaxUsecs]
      omega
    · rw [if_pos hborrow]
      simp only [us, clocksMaxUsecs]
      omega
  · rw [if_neg hborrow, sizeSub_of (Nat.not_lt.mp hborrow), ok_bind]
    refine ⟨_, rfl, ⟨?_, ?_⟩, ?_⟩
    · show a.secs - b.secs ≤ sizeMax
      omega
    · simp only [clocksMaxUsecs]
      omega
    · rw [if_neg hborrow]
      simp only [us]
      omega

theorem sub_iff {a b : ClocksTime} (ha : a.Normal) (hb : b.Normal) (hle : b.us ≤ a.us) :
    ∃ r, a.sub b = .ok r ∧ r.Normal ∧ (r.us = a.us - b.us ↔ b.usecs ≤ a.usecs) ∧
      (r.add b = .ok a ↔ b.usecs ≤ a.usecs) := by
  obtain ⟨r, hrun, hnormal, hus⟩ := sub_spec ha hb hle
  have hlimit : a.us < limit := by
    have hsa := ha.secs
    have hua := ha.usecs
    simp only [us, limit, sizeMax, clocksMaxUsecs] at *
    omega
  obtain ⟨s, hadd, hs, hsus⟩ := add_spec hnormal hb (by omega)
  refine ⟨r, hrun, hnormal, ?_, ?_⟩
  · split_ifs at hus <;> omega
  · constructor
    · intro h
      obtain rfl := Except.ok.inj (hadd.symm.trans h)
      split_ifs at hus <;> omega
    · intro h
      rw [if_neg (Nat.not_lt.mpr h)] at hus
      rw [hadd, us_inj hs ha (by omega)]

end ClocksTime

/-- A time of a system whose `time_t` and `suseconds_t` have 64 bits. -/
structure TimeVal.Valid (tv : TimeVal) : Prop where
  sec : 0 ≤ tv.tvSec ∧ tv.tvSec < 2 ^ 63
  usec : 0 ≤ tv.tvUsec ∧ tv.tvUsec < 2 ^ 63

def TimeVal.us (tv : TimeVal) : Int := 1000000 * tv.tvSec + tv.tvUsec

theorem ClocksTime.init_spec {tv : TimeVal} (h : tv.Valid) :
    ∃ t, ClocksTime.init tv = .ok t ∧ t.Normal ∧ (t.us : Int) = tv.us ∧
      (t.usecs : Int) = tv.tvUsec % 1000000 := by
  obtain ⟨⟨hs, hs'⟩, hu, hu'⟩ := h
  rw [ClocksTime.init, intAsSize, assert_of hs, ok_bind, pure_eq_ok, ok_bind, intAsSize,
    assert_of hu, ok_bind, pure_eq_ok, ok_bind]
  by_cases hlim : clocksLimUsecs ≤ tv.tvUsec.toNat
  · have hsecs : tv.tvSec.toNat ≤ sizeMax - tv.tvUsec.toNat / clocksLimUsecs := by
      unfold sizeMax clocksLimUsecs
      omega
    simp only [if_pos hlim, assert_of hsecs]
    refine ⟨_, rfl, ⟨?_, ?_⟩, ?_, ?_⟩
    · show tv.tvSec.toNat + tv.tvUsec.toNat / clocksLimUsecs ≤ sizeMax
      unfold sizeMax clocksLimUsecs
      omega
    · simp only [clocksLimUsecs, clocksMaxUsecs]
      omega
    · simp only [ClocksTime.us, TimeVal.us, clocksLimUsecs]
      omega
    · simp only [clocksLimUsecs]
      omega
  · rw [if_neg hlim]
    simp only [clocksLimUsecs] at hlim
    refine ⟨_, rfl, ⟨?_, ?_⟩, ?_, ?_⟩
    · show tv.tvSec.toNat ≤ sizeMax
      unfold sizeMax
      omega
    · simp only [clocksMaxUsecs]
      omega
    · simp only [ClocksTime.us, TimeVal.us]
      omega
    · show ((tv.tvUsec.toNat : Nat) : Int) = _
      omega

inductive ClockPart where
  | real
  | user
  | sys
  deriving DecidableEq, Repr

def Moment.part (m : Moment) : ClockPart → TimeVal
  | .real => m.time
  | .user => m.ruUtime
  | .sys => m.ruStime

def Clocks.part (c : Clocks) : ClockPart → ClocksTime
  | .real => c.real
  | .user => c.user
  | .sys => c.sys

structure ValidInterval (i : Moment × Moment) : Prop where
  start : ∀ p, (i.1.part p).Valid
  stop : ∀ p, (i.2.part p).Valid
  le : ∀ p, (i.1.part p).us ≤ (i.2.part p).us

def intervalLength (p : ClockPart) (i : Moment × Moment) : Nat :=
  ((i.2.part p).us - (i.1.part p).us).toNat

def Borrows (p : ClockPart) (i : Moment × Moment) : Prop :=
  (i.2.part p).tvUsec % 1000000 < (i.1.part p).tvUsec % 1000000

instance (p : ClockPart) (i : Moment × Moment) : Decidable (Borrows p i) :=
  inferInstanceAs (Decidable (_ < _))

def lostUsecs (p : ClockPart) (i : Moment × Moment) : Nat := if Borrows p i then 1 else 0

theorem part_spec {i : Moment × Moment} (hi : ValidInterval i) (p : ClockPart) :
    ∃ a b d, ClocksTime.init (i.1.part p) = .ok a ∧ ClocksTime.init (i.2.part p) = .ok b ∧
      b.assign = .ok b ∧ b.sub a = .ok d ∧ d.Normal ∧
      d.us + lostUsecs p i = intervalLength p i := by
  obtain ⟨a, ha, hna, hua, hma⟩ := ClocksTime.init_spec (hi.start p)
  obtain ⟨b, hb, hnb, hub, hmb⟩ := ClocksTime.init_spec (hi.stop p)
  have hle := hi.le p
  obtain ⟨d, hd, hnd, hud⟩ := ClocksTime.sub_spec hnb hna (show a.us ≤ b.us by omega)
  refine ⟨a, b, d, ha, hb, ?_, hd, hnd, ?_⟩
  · rw [ClocksTime.assign, assert_of hnb.usecs]
    rfl
  · have hborrow : b.usecs < a.usecs ↔ Borrows p i := by
      rw [Borrows, ← hma, ← hmb]
      omega
    simp only [hborrow] at hud
    rw [intervalLength, lostUsecs]
    omega

theorem measure_spec {c : Clocks} {i : Moment × Moment} (hc : ∀ p, (c.part p).Normal)
    (hi : ValidInterval i) (hfit : ∀ p, (c.part p).us + intervalLength p i < ClocksTime.limit) :
    ∃ c', measure c i = .ok (c', ()) ∧ ∀ p, (c'.part p).Normal ∧
      (c'.part p).us + lostUsecs p i = (c.part p).us + intervalLength p i := by
  have hsum : ∀ p, ∃ a b d r, ClocksTime.init (i.1.part p) = .ok a ∧
      ClocksTime.init (i.2.part p) = .ok b ∧ b.assign = .ok b ∧ b.sub a = .ok d ∧
      (c.part p).add d = .ok r ∧ r.Normal ∧
      r.us + lostUsecs p i = (c.part p).us + intervalLength p i := by
    intro p
    obtain ⟨a, b, d, ha, hb, hassign, hd, hnd, hud⟩ := part_spec hi p
    have hfitp := hfit p
    obtain ⟨r, hr, hnr, hur⟩ := ClocksTime.add_spec (hc p) hnd (by omega)
    exact ⟨a, b, d, r, ha, hb, hassign, hd, hr, hnr, by omega⟩
  obtain ⟨a₁, b₁, d₁, r₁, ha₁, hb₁, hs₁, hd₁, hr₁, h₁⟩ := hsum .real
  obtain ⟨a₂, b₂, d₂, r₂, ha₂, hb₂, hs₂, hd₂, hr₂, h₂⟩ := hsum .user
  obtain ⟨a₃, b₃, d₃, r₃, ha₃, hb₃, hs₃, hd₃, hr₃, h₃⟩ := hsum .sys
  simp only [Moment.part, Clocks.part] at ha₁ hb₁ hr₁ ha₂ hb₂ hr₂ ha₃ hb₃ hr₃
  refine ⟨⟨r₁, r₂, r₃⟩, ?_, fun p => ?_⟩
  · simp only [measure, utimeInit, utimeClocks, Clocks.add, ha₁, ha₂, ha₃, hb₁, hb₂, hb₃, hs₁, hs₂,
      hs₃, hd₁, hd₂, hd₃, hr₁, hr₂, hr₃, ok_bind, pure_eq_ok]
  · cases p
    · exact h₁
    · exact h₂
    · exact h₃

theorem run_measure {is : List (Moment × Moment)} {c : Clocks} (hc : ∀ p, (c.part p).Normal)
    (hi : ∀ i ∈ is, ValidInterval i)
    (hfit : ∀ p, (c.part p).us + (is.map (intervalLength p)).sum < ClocksTime.limit) :
    ∃ c' ys, run measure c is = .ok (c', ys) ∧ ∀ p, (c'.part p).Normal ∧
      (c'.part p).us + (is.map (lostUsecs p)).sum =
        (c.part p).us + (is.map (intervalLength p)).sum := by
  induction is generalizing c with
  | nil => exact ⟨c, [], rfl, fun p => ⟨hc p, rfl⟩⟩
  | cons i is ih =>
    simp only [List.map_cons, List.sum_cons] at hfit ⊢
    obtain ⟨c₁, hstep, h₁⟩ := measure_spec hc (hi i (by simp)) fun p =>
      lt_of_le_of_lt (by omega) (hfit p)
    obtain ⟨c', ys, hrun, h'⟩ := ih (fun p => (h₁ p).1) (fun j hj => hi j (by simp [hj])) fun p => by
      have hp := (h₁ p).2
      have hfitp := hfit p
      omega
    refine ⟨c', () :: ys, by rw [run_cons, hstep, ok_bind, hrun, ok_bind], fun p => ⟨(h' p).1, ?_⟩⟩
    have hp := (h₁ p).2
    have hp' := (h' p).2
    omega

theorem lost_eq_zero_iff (p : ClockPart) (is : List (Moment × Moment)) :
    (is.map (lostUsecs p)).sum = 0 ↔ ∀ i ∈ is, ¬Borrows p i := by
  rw [List.sum_eq_zero_iff_forall_eq_nat]
  simp only [List.mem_map, forall_exists_index, and_imp, forall_apply_eq_imp_iff₂]
  refine forall₂_congr fun i _ => ?_
  rw [lostUsecs]
  split_ifs with h <;> simp [h]

/-- Sums are exact, a difference is exact when it does not borrow, and the clocks of a series
are exact when none of its intervals borrows. -/
theorem clocks_iff (a b : ClocksTime) (ha : a.Normal) (hb : b.Normal) :
    (a.us + b.us < ClocksTime.limit →
      ∃ r, a.add b = .ok r ∧ r.Normal ∧ r.us = a.us + b.us) ∧
    (b.us ≤ a.us →
      ∃ r, a.sub b = .ok r ∧ r.Normal ∧ (r.us = a.us - b.us ↔ b.usecs ≤ a.usecs) ∧
        (r.add b = .ok a ↔ b.usecs ≤ a.usecs)) ∧
    ∀ is : List (Moment × Moment), (∀ i ∈ is, ValidInterval i) →
      (∀ p, (is.map (intervalLength p)).sum < ClocksTime.limit) →
      ∃ c ys, run measure Clocks.init is = .ok (c, ys) ∧ ∀ p, (c.part p).Normal ∧
        ((c.part p).us = (is.map (intervalLength p)).sum ↔ ∀ i ∈ is, ¬Borrows p i) := by
  refine ⟨ClocksTime.add_spec ha hb, ClocksTime.sub_iff ha hb, fun is his hfit => ?_⟩
  have hnormal : ∀ p, (Clocks.init.part p).Normal := by
    intro p
    cases p <;> exact ⟨Nat.zero_le _, Nat.zero_le _⟩
  have hzero : ∀ p, (Clocks.init.part p).us = 0 := by
    intro p
    cases p <;> rfl
  obtain ⟨c, ys, hrun, hc⟩ := run_measure hnormal his fun p => by
    rw [hzero, Nat.zero_add]
    exact hfit p
  refine ⟨c, ys, hrun, fun p => ⟨(hc p).1, ?_⟩⟩
  have hus := (hc p).2
  rw [hzero] at hus
  rw [← lost_eq_zero_iff]
  omega

theorem clocks_plain :
    (∃ r, ClocksTime.add ⟨2, 5⟩ ⟨1, 4⟩ = .ok r ∧ r.Normal ∧ r.us = 3000009) ∧
    (∃ r, ClocksTime.sub ⟨2, 5⟩ ⟨1, 4⟩ = .ok r ∧ r.Normal ∧ (r.us = 1000001 ↔ 4 ≤ 5) ∧
      (r.add ⟨1, 4⟩ = .ok ⟨2, 5⟩ ↔ 4 ≤ 5)) ∧
    ∃ c ys, run measure Clocks.init [(⟨⟨1, 4⟩, ⟨1, 4⟩, ⟨1, 4⟩⟩, ⟨⟨2, 5⟩, ⟨2, 5⟩, ⟨2, 5⟩⟩)] =
        .ok (c, ys) ∧ ∀ p, (c.part p).Normal ∧ ((c.part p).us = 1000001 ↔ 4 ≤ 5) := by
  obtain ⟨hadd, hsub, hseries⟩ := clocks_iff ⟨2, 5⟩ ⟨1, 4⟩
    ⟨by decide, by decide⟩ ⟨by decide, by decide⟩
  have hvalid : ∀ i ∈ [((⟨⟨1, 4⟩, ⟨1, 4⟩, ⟨1, 4⟩⟩, ⟨⟨2, 5⟩, ⟨2, 5⟩, ⟨2, 5⟩⟩) : Moment × Moment)],
      ValidInterval i := by
    intro i hi
    obtain rfl := List.mem_singleton.mp hi
    refine ⟨fun p => ?_, fun p => ?_, fun p => ?_⟩ <;> cases p
    all_goals first
      | exact ⟨by decide, by decide⟩
      | decide
  obtain ⟨c, ys, hrun, hc⟩ := hseries _ hvalid fun p => by
    cases p <;> decide
  refine ⟨hadd (by decide), hsub (by decide), c, ys, hrun, fun p => ⟨(hc p).1, ?_⟩⟩
  have h := (hc p).2
  cases p <;> simpa [Borrows, Moment.part, intervalLength, TimeVal.us] using h

/-- From 1 s 999999 µs to 2 s 0 µs one microsecond passes and none is counted. -/
theorem clocks_borrow :
    (⟨2, 0⟩ : ClocksTime).us - (⟨1, 999999⟩ : ClocksTime).us = 1 ∧
    ClocksTime.sub ⟨2, 0⟩ ⟨1, 999999⟩ = .ok ⟨0, 0⟩ ∧
    ClocksTime.add ⟨0, 0⟩ ⟨1, 999999⟩ = .ok ⟨1, 999999⟩ ∧
    run measure Clocks.init
      [(⟨⟨1, 999999⟩, ⟨1, 999999⟩, ⟨1, 999999⟩⟩, ⟨⟨2, 0⟩, ⟨2, 0⟩, ⟨2, 0⟩⟩)] =
        .ok (Clocks.init, [()]) :=
  ⟨rfl, rfl, rfl, rfl⟩

end PathSet
