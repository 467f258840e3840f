import Frog.Timer.Sleep

/-!
# The wall clock

`update_ticks` and `sys_gettimeofday` of `core/device/cmos.c`, with the tick of `inthandler20`.
-/

namespace Frog.Clock

set_option autoImplicit false
open Sleep (hz)

/-- `struct timeval` -/
structure Timeval where
  tvSec : BitVec 32
  tvUsec : BitVec 32
  deriving DecidableEq

structure State where
  ticks : BitVec 32
  archBootTime : BitVec 32

/-- `SUBSECONDS_PER_SECOND` -/
def subsecondsPerSecond : BitVec 32 := 1000000

/-- `update_ticks`; the seconds first. -/
def updateTicks (ticks : BitVec 32) : BitVec 32 × BitVec 32 :=
  (ticks / hz, ticks % hz * (subsecondsPerSecond / hz))

def sysGettimeofday (s : State) : Timeval :=
  let (timerTicks, timerSubticks) := updateTicks s.ticks
  ⟨s.archBootTime + timerTicks, timerSubticks⟩

/-- The part of `inthandler20` that counts. -/
def inthandler20 (s : State) : State := { s with ticks := s.ticks + 1 }

/-! ## Runs -/

inductive Event where
  | interrupt
  | gettimeofday
  deriving DecidableEq

/-- What the calls of a run return, each with the ticks before it, when `n` ticks are over. -/
def readings (s : State) (n : Nat) : List Event → List (Nat × Timeval)
  | [] => []
  | .interrupt :: es => readings (inthandler20 s) (n + 1) es
  | .gettimeofday :: es => (n, sysGettimeofday s) :: readings s n es

def boot (archBootTime : BitVec 32) : State := ⟨0, archBootTime⟩

def Timeval.micros (t : Timeval) : Nat := t.tvSec.toNat * 1000000 + t.tvUsec.toNat

/-- The time that the clock of a machine shows `n` ticks after its boot. -/
def wallMicros (archBootTime : BitVec 32) (n : Nat) : Nat :=
  archBootTime.toNat * 1000000 + n * 1000000 / hz.toNat

/-- The times of a run are in order, and each is that of the boot and the ticks since, when times
are read in units of `grain` microseconds. -/
structure RightTimes (grain : Nat) (archBootTime : BitVec 32) (es : List Event) : Prop where
  order : (readings (boot archBootTime) 0 es).Pairwise fun x y => x.2.micros ≤ y.2.micros
  micros : ∀ x ∈ readings (boot archBootTime) 0 es, x.2.tvUsec.toNat < 1000000
  elapsed : ∀ x ∈ readings (boot archBootTime) 0 es,
    x.2.micros / grain = wallMicros archBootTime x.1 / grain

variable {s : State} {n m : Nat} {b : BitVec 32} {es : List Event}

/-- What is returned when the counter is at `n`. -/
theorem gettimeofday_micros (h : s.ticks = BitVec.ofNat 32 n) :
    (sysGettimeofday s).tvSec.toNat = (s.archBootTime.toNat + n % 2 ^ 32 / 9000) % 2 ^ 32 ∧
      (sysGettimeofday s).tvUsec.toNat = n % 2 ^ 32 % 9000 * 111 := by
  have hticks : s.ticks.toNat = n % 2 ^ 32 := by rw [h, BitVec.toNat_ofNat]
  have hhz : hz.toNat = 9000 := rfl
  have hsub : (subsecondsPerSecond / hz).toNat = 111 := by decide
  constructor
  · change (s.archBootTime + s.ticks / hz).toNat = _
    rw [BitVec.toNat_add, BitVec.toNat_udiv, hticks, hhz]
  · change (s.ticks % hz * (subsecondsPerSecond / hz)).toNat = _
    rw [BitVec.toNat_mul, BitVec.toNat_umod, hticks, hhz, hsub]
    exact Nat.mod_eq_of_lt (by omega)

/-- Every reading is taken at its count. -/
theorem readings_at (h : s.ticks = BitVec.ofNat 32 n) :
    ∀ x ∈ readings s n es, n ≤ x.1 ∧
      x.2 = sysGettimeofday { s with ticks := BitVec.ofNat 32 x.1 } := by
  induction es generalizing s n with
  | nil =>
    intro x hx
    exact absurd hx List.not_mem_nil
  | cons e es ih =>
    cases e with
    | interrupt =>
      intro x hx
      have hnext : (inthandler20 s).ticks = BitVec.ofNat 32 (n + 1) := by
        rw [BitVec.ofNat_add, ← h]
        rfl
      obtain ⟨hle, hx⟩ := ih hnext x hx
      exact ⟨Nat.le_of_succ_le hle, hx⟩
    | gettimeofday =>
      intro x hx
      rcases List.mem_cons.mp hx with rfl | hx
      · exact ⟨Nat.le_refl n, by rw [← h]⟩
      · exact ih h x hx

/-- The readings come in the order of the counts. -/
theorem readings_order (h : s.ticks = BitVec.ofNat 32 n) :
    (readings s n es).Pairwise fun x y => x.1 ≤ y.1 := by
  induction es generalizing s n with
  | nil => exact .nil
  | cons e es ih =>
    cases e with
    | interrupt =>
      apply ih
      rw [BitVec.ofNat_add, ← h]
      rfl
    | gettimeofday =>
      apply List.Pairwise.cons
      · intro y hy
        exact (readings_at h y hy).1
      · exact ih h

/-- The time at the count `n` after the boot. -/
def timeAt (b : BitVec 32) (n : Nat) : Timeval := sysGettimeofday ⟨BitVec.ofNat 32 n, b⟩

theorem timeAt_micros (b : BitVec 32) (n : Nat) : (timeAt b n).micros =
    (b.toNat + n % 2 ^ 32 / 9000) % 2 ^ 32 * 1000000 + n % 2 ^ 32 % 9000 * 111 := by
  obtain ⟨hsec, husec⟩ := gettimeofday_micros (s := ⟨BitVec.ofNat 32 n, b⟩) rfl
  unfold Timeval.micros timeAt
  rw [hsec, husec]

theorem timeAt_usec (b : BitVec 32) (n : Nat) : (timeAt b n).tvUsec.toNat < 1000000 := by
  obtain ⟨-, husec⟩ := gettimeofday_micros (s := ⟨BitVec.ofNat 32 n, b⟩) rfl
  unfold timeAt
  omega

/-- Before the counter or the seconds wrap the times are in order. -/
theorem timeAt_mono (hnm : n ≤ m) (hm : m < 2 ^ 32) (hb : b.toNat + m / 9000 < 2 ^ 32) :
    (timeAt b n).micros ≤ (timeAt b m).micros := by
  rw [timeAt_micros, timeAt_micros]
  rw [Nat.mod_eq_of_lt hm, Nat.mod_eq_of_lt (a := n) (by omega)]
  rw [Nat.mod_eq_of_lt hb, Nat.mod_eq_of_lt (a := b.toNat + n / 9000) (by omega)]
  omega

/-- The seconds are right until the counter or the seconds wrap. -/
theorem timeAt_second_iff : (timeAt b n).micros / 1000000 = wallMicros b n / 1000000 ↔
    n < 2 ^ 32 ∧ b.toNat + n / 9000 < 2 ^ 32 := by
  have hhz : hz.toNat = 9000 := rfl
  have hb := b.isLt
  have hsecond : n * 1000000 / 9000 / 1000000 = n / 9000 := by
    rw [Nat.div_div_eq_div_mul, Nat.mul_comm 9000, Nat.mul_comm n]
    exact Nat.mul_div_mul_left n 9000 (by decide)
  have hwall : wallMicros b n / 1000000 = b.toNat + n / 9000 := by
    rw [wallMicros, hhz, Nat.mul_comm, Nat.mul_add_div (by decide), hsecond]
  have hcode : (timeAt b n).micros / 1000000 = (b.toNat + n % 2 ^ 32 / 9000) % 2 ^ 32 := by
    rw [timeAt_micros]
    omega
  rw [hcode, hwall]
  omega

/-- A tick is 111 microseconds and a ninth: the code is a microsecond behind from the ninth tick
of a second on. -/
theorem timeAt_micros_iff : (timeAt b n).micros = wallMicros b n ↔
    n < 2 ^ 32 ∧ b.toNat + n / 9000 < 2 ^ 32 ∧ n % 9000 < 9 := by
  have hhz : hz.toNat = 9000 := rfl
  have hb := b.isLt
  rw [timeAt_micros, wallMicros, hhz]
  omega

theorem readings_timeAt : ∀ x ∈ readings (boot b) 0 es, x.2 = timeAt b x.1 := by
  intro x hx
  exact (readings_at (s := boot b) rfl x hx).2

/-- While nothing wraps, only the elapsed time is in question. -/
theorem rightTimes_of_elapsed {grain : Nat}
    (hwrap : ∀ x ∈ readings (boot b) 0 es, x.1 < 2 ^ 32 ∧ b.toNat + x.1 / 9000 < 2 ^ 32)
    (helapsed : ∀ x ∈ readings (boot b) 0 es,
      (timeAt b x.1).micros / grain = wallMicros b x.1 / grain) : RightTimes grain b es := by
  refine ⟨?_, ?_, ?_⟩
  · apply (readings_order (s := boot b) rfl).imp_of_mem
    intro x y hx hy hxy
    rw [readings_timeAt x hx, readings_timeAt y hy]
    exact timeAt_mono hxy (hwrap y hy).1 (hwrap y hy).2
  · intro x hx
    rw [readings_timeAt x hx]
    exact timeAt_usec b x.1
  · intro x hx
    rw [readings_timeAt x hx]
    exact helapsed x hx

/-- To the microsecond, and to the second. -/
theorem right_times_iff :
    (RightTimes 1 b es ↔ ∀ x ∈ readings (boot b) 0 es,
      x.1 < 2 ^ 32 ∧ b.toNat + x.1 / 9000 < 2 ^ 32 ∧ x.1 % 9000 < 9) ∧
    (RightTimes 1000000 b es ↔ ∀ x ∈ readings (boot b) 0 es,
      x.1 < 2 ^ 32 ∧ b.toNat + x.1 / 9000 < 2 ^ 32) := by
  constructor
  · constructor
    · intro h x hx
      have helapsed := h.elapsed x hx
      rw [readings_timeAt x hx, Nat.div_one, Nat.div_one] at helapsed
      exact timeAt_micros_iff.mp helapsed
    · intro h
      apply rightTimes_of_elapsed
      · intro x hx
        exact ⟨(h x hx).1, (h x hx).2.1⟩
      · intro x hx
        rw [timeAt_micros_iff.mpr (h x hx)]
  · constructor
    · intro h x hx
      have helapsed := h.elapsed x hx
      rw [readings_timeAt x hx] at helapsed
      exact timeAt_second_iff.mp helapsed
    · intro h
      apply rightTimes_of_elapsed h
      intro x hx
      exact timeAt_second_iff.mpr (h x hx)

theorem readings_interrupts (h : s.ticks = BitVec.ofNat 32 n) :
    readings s n (List.replicate m .interrupt ++ es) =
      readings { s with ticks := BitVec.ofNat 32 (n + m) } (n + m) es := by
  induction m generalizing s n with
  | zero =>
    rw [Nat.add_zero, ← h]
    rfl
  | succ m ih =>
    have hnext : (inthandler20 s).ticks = BitVec.ofNat 32 (n + 1) := by
      rw [BitVec.ofNat_add, ← h]
      rfl
    rw [List.replicate_succ, List.cons_append, readings, ih hnext, Nat.add_right_comm, Nat.add_assoc]
    rfl

/-- Two calls, `n` and `n + m` interrupts after the boot. -/
def twoCalls (n m : Nat) : List Event :=
  List.replicate n .interrupt ++ .gettimeofday :: (List.replicate m .interrupt ++ [.gettimeofday])

theorem readings_twoCalls :
    readings (boot b) 0 (twoCalls n m) = [(n, timeAt b n), (n + m, timeAt b (n + m))] := by
  rw [twoCalls, readings_interrupts rfl, readings, readings_interrupts (by rw [Nat.zero_add])]
  rw [Nat.zero_add]
  rfl

theorem micros_le_of_order
    (h : (readings (boot b) 0 (twoCalls n m)).Pairwise fun x y => x.2.micros ≤ y.2.micros) :
    (timeAt b n).micros ≤ (timeAt b (n + m)).micros := by
  rw [readings_twoCalls] at h
  exact (List.pairwise_cons.mp h).1 (n + m, timeAt b (n + m)) (List.mem_singleton_self _)

/-- After five and a half days the clock is back at the boot; nine ticks after it the clock shows
999 microseconds. -/
theorem back_at_boot :
    ¬ (readings (boot 1700000000) 0 (twoCalls 9000 (2 ^ 32 - 9000))).Pairwise
        (fun x y => x.2.micros ≤ y.2.micros) ∧
      ¬ RightTimes 1000000 1700000000 (twoCalls 9000 (2 ^ 32 - 9000)) ∧
      ¬ RightTimes 1 1700000000 (twoCalls 0 9) := by
  have hback : ¬ (readings (boot 1700000000) 0 (twoCalls 9000 (2 ^ 32 - 9000))).Pairwise
      (fun x y => x.2.micros ≤ y.2.micros) := by
    intro horder
    have hle := micros_le_of_order horder
    rw [timeAt_micros, timeAt_micros] at hle
    exact absurd hle (by decide)
  refine ⟨hback, fun h => hback h.order, ?_⟩
  intro h
  have helapsed := h.elapsed (0 + 9, timeAt 1700000000 (0 + 9))
    (by rw [readings_twoCalls]; exact List.mem_cons_of_mem _ (List.mem_singleton_self _))
  rw [timeAt_micros] at helapsed
  exact absurd helapsed (by decide)

end Frog.Clock
