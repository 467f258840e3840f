import Frog.Mm.Queues

/-!
# Sleeping

`tick_to_sleep` and `mtime_sleep` of `core/thread/sched.c`. The clock ticks are counted without end, and
`ticks` is the count in 32 bits. While the thread yields the others run, for any number of ticks.
-/

namespace Frog.Sleep

set_option autoImplicit false
open Prog

/-- `HZ` -/
def hz : BitVec 32 := 9000

def milSecondsPerIntr : BitVec 32 := Mm.divRoundUp 1000 hz

structure State where
  now : Nat
  yields : Nat

def State.ticks (s : State) : BitVec 32 := BitVec.ofNat 32 s.now

/-- `assert` is a failed `ASSERT`, `hang` a loop that needs more fuel. -/
inductive Stop where
  | assert | hang
  deriving DecidableEq

abbrev M := Prog Stop State

/-- `pass k` is the number of ticks that pass with the yield `k`. -/
def threadYield (pass : Nat → Nat) : M Unit :=
  modify fun s => { s with now := s.now + pass s.yields, yields := s.yields + 1 }

def sleepLoop (pass : Nat → Nat) (startTick sleepTicks : BitVec 32) : Nat → M Unit
  | 0 => stop .hang
  | fuel + 1 => do
    let s ← get
    if s.ticks - startTick < sleepTicks then
      threadYield pass
      sleepLoop pass startTick sleepTicks fuel

def tickToSleep (pass : Nat → Nat) (fuel : Nat) (sleepTicks : BitVec 32) : M Unit := do
  let s ← get
  sleepLoop pass s.ticks sleepTicks fuel

def mtimeSleep (pass : Nat → Nat) (fuel : Nat) (mSeconds : BitVec 32) : M Unit := do
  check (milSecondsPerIntr ≠ 0) .assert
  let sleepTicks := Mm.divRoundUp mSeconds milSecondsPerIntr
  check (0 < sleepTicks) .assert
  tickToSleep pass fuel sleepTicks

/-- However the others run, a sleep that returns has lasted `m * HZ / 1000` ticks. -/
def LongEnough (s : State) (m : BitVec 32) : Prop :=
  ∀ pass fuel t, mtimeSleep pass fuel m s = .ok ((), t) →
    m.toNat * hz.toNat ≤ (t.now - s.now) * 1000

/-- No assertion fails. -/
def Accepted (m : BitVec 32) : Prop :=
  milSecondsPerIntr ≠ 0 ∧ 0 < Mm.divRoundUp m milSecondsPerIntr

variable {pass : Nat → Nat} {fuel : Nat} {s t : State} {m : BitVec 32}

/-- There are more interrupts than milliseconds, and one millisecond is taken for one interrupt. -/
theorem sleepTicks_eq (m : BitVec 32) : Mm.divRoundUp m milSecondsPerIntr = m := by
  have hone : milSecondsPerIntr = 1 := by decide
  unfold Mm.divRoundUp
  rw [hone, add_sub_cancel_right]
  apply BitVec.eq_of_toNat_eq
  rw [BitVec.toNat_udiv]
  exact Nat.div_one _

theorem mtimeSleep_eq (h : Accepted m) (s : State) :
    mtimeSleep pass fuel m s = sleepLoop pass s.ticks m fuel s := by
  have hpos := h.2
  unfold mtimeSleep
  rw [check_bind h.1, check_bind hpos, sleepTicks_eq]
  rfl

theorem accepted_iff : Accepted m ↔ 0 < m.toNat := by
  unfold Accepted
  rw [sleepTicks_eq, BitVec.lt_def]
  exact and_iff_right (by decide)

/-- The difference of the counters is that of the counts, up to the wrap. -/
theorem ticks_sub (start : Nat) (h : start ≤ s.now) :
    (s.ticks - BitVec.ofNat 32 start).toNat = (s.now - start) % 2 ^ 32 := by
  obtain ⟨d, hd⟩ := Nat.exists_eq_add_of_le h
  have hsub : s.ticks - BitVec.ofNat 32 start = BitVec.ofNat 32 d := by
    unfold State.ticks
    rw [hd, BitVec.ofNat_add, add_sub_cancel_left]
  rw [hsub, BitVec.toNat_ofNat, hd, Nat.add_sub_cancel_left]

/-- At the end of the loop as many ticks have passed as were asked for, wrap or not. -/
theorem sleepLoop_ticks {start : Nat} (hs : start ≤ s.now)
    (h : sleepLoop pass (BitVec.ofNat 32 start) m fuel s = .ok ((), t)) :
    start + m.toNat ≤ t.now := by
  induction fuel generalizing s with
  | zero => cases h
  | succ fuel ih =>
    unfold sleepLoop at h
    rw [bind_ok (get_apply s)] at h
    by_cases hlt : s.ticks - BitVec.ofNat 32 start < m
    · rw [if_pos hlt] at h
      obtain ⟨_, u, hu, h⟩ := bind_eq_ok.mp h
      cases hu
      exact ih (hs.trans (Nat.le_add_right _ _)) h
    · rw [if_neg hlt] at h
      cases h
      rw [BitVec.lt_def, ticks_sub start hs] at hlt
      have hmod := Nat.mod_le (t.now - start) (2 ^ 32)
      omega

/-- With one tick for each yield the loop ends after just the ticks that were asked for. -/
theorem sleepLoop_ends {start n : Nat} (hn : s.now + n = start + m.toNat) (hs : start ≤ s.now) :
    ∃ t, sleepLoop (fun _ => 1) (BitVec.ofNat 32 start) m (n + 1) s = .ok ((), t) ∧
      t.now = start + m.toNat := by
  have hm := m.isLt
  induction n generalizing s with
  | zero =>
    refine ⟨s, ?_, hn⟩
    unfold sleepLoop
    rw [bind_ok (get_apply s), if_neg]
    · rfl
    · rw [BitVec.lt_def, ticks_sub start hs]
      omega
  | succ n ih =>
    obtain ⟨t, hrun, ht⟩ := ih (s := { s with now := s.now + 1, yields := s.yields + 1 })
      (by change s.now + 1 + n = _; omega) (Nat.le_succ_of_le hs)
    refine ⟨t, ?_, ht⟩
    unfold sleepLoop
    rw [bind_ok (get_apply s), if_pos]
    · exact hrun
    · rw [BitVec.lt_def, ticks_sub start hs]
      omega

/-- A sleep takes at least one tick for each millisecond. -/
theorem mtimeSleep_ticks (h : Accepted m) (hr : mtimeSleep pass fuel m s = .ok ((), t)) :
    s.now + m.toNat ≤ t.now := by
  rw [mtimeSleep_eq h] at hr
  exact sleepLoop_ticks (Nat.le_refl _) hr

/-- It may take no more than that, and there are nine ticks in a millisecond. -/
theorem never_long_enough (h : Accepted m) : ¬ LongEnough s m := by
  intro hlong
  have hpos := accepted_iff.mp h
  obtain ⟨t, hrun, ht⟩ := sleepLoop_ends (s := s) (m := m) (n := m.toNat) rfl (Nat.le_refl _)
  have hall := hlong (fun _ => 1) (m.toNat + 1) t (by rw [mtimeSleep_eq h]; exact hrun)
  rw [ht, Nat.add_sub_cancel_left] at hall
  have hhz : hz.toNat = 9000 := rfl
  rw [hhz] at hall
  omega

theorem never_long_enough_ten : ¬ LongEnough ⟨2 ^ 32 - 3, 0⟩ 10 :=
  never_long_enough (accepted_iff.mpr (by decide))

/-- A sleep of one millisecond returns at the first tick. -/
theorem returns_at_once : Accepted 1 ∧ ¬ LongEnough ⟨0, 0⟩ 1 := by
  refine ⟨accepted_iff.mpr (by decide), fun h => ?_⟩
  have hall := h (fun _ => 1) 2 ⟨1, 1⟩ rfl
  exact absurd hall (by decide)

end Frog.Sleep
