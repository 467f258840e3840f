import Frog.Timer.OnTime

/-!
# The order of timers with one expiry

A log numbers the calls that add timers. In each list the timers that are due in one iteration stand
in the order in which they were added, unless the earlier one was still in a vector with longer slots
when the later one came.
-/

namespace Frog.Timer

set_option autoImplicit false
open Prog

/-- The call that added a timer: its number, the first iteration in which the timer could run, and the
expiry. -/
structure Entry where
  stamp : Nat
  since : Nat
  expires : BitVec 32

structure Log where
  count : Nat
  entry : Nat → Entry

namespace Log

def init : Log := ⟨0, fun _ => ⟨0, 0, 0⟩⟩

def put (g : Log) (t since : Nat) (expires : BitVec 32) : Log :=
  ⟨g.count + 1, Function.update g.entry t ⟨g.count, since, expires⟩⟩

/-- The log after an event in the phase `p`. -/
def after (g : Log) (a : Agenda) (p : Phase) : Event → Log
  | .add t x => if a.due t = none then g.put t (a.first p) x else g
  | _ => g

end Log

abbrev Logged := (State × Agenda) × Log

def Tracked (x : Logged) (e : Event) (y : Logged) : Prop :=
  Watched x.1 e y.1 ∧ y.2 = x.2.after x.1.2 x.1.1.phase e

/-- Of two timers due at `d`, the one added for iteration `a` is in a vector with slots of `2 ^ shift n`
ticks or more when the other is added for iteration `b`, less than such a slot ahead. -/
def Overtaken (d a b : Nat) : Prop :=
  ∃ n, 1 ≤ n ∧ n ≤ 4 ∧ a + 2 ^ shift n ≤ d ∧ b ≤ d / 2 ^ shift n * 2 ^ shift n ∧ d < b + 2 ^ shift n

/-- The timer is pending and was added before the tick of its expiry. -/
def InTime (x : Logged) (t : Nat) : Prop :=
  ∃ d, x.1.2.due t = some d ∧ BitVec.ofNat 32 d = (x.2.entry t).expires

/-- Both timers are pending with the same expiry, and `t` was added before `u`. -/
structure Rivals (x : Logged) (t u : Nat) : Prop where
  first : InTime x t
  second : InTime x u
  same : (x.2.entry t).expires = (x.2.entry u).expires
  order : (x.2.entry t).stamp < (x.2.entry u).stamp

/-! ## Who comes first -/

/-- `t` comes before `u` if both are due at `d`. -/
def Before (g : Log) (d t u : Nat) : Prop :=
  ((g.entry t).stamp < (g.entry u).stamp → ¬ Overtaken d (g.entry t).since (g.entry u).since) ∧
    ((g.entry u).stamp < (g.entry t).stamp → Overtaken d (g.entry u).since (g.entry t).since)

def Precedes (g : Log) (due : Nat → Option Nat) (x y : Node) : Prop :=
  ∀ t u d, x = .timer t → y = .timer u → due t = some d → due u = some d → Before g d t u

/-- A timer that was added for iteration `a` and is due at `d` may be in `tvecs[n]`: `b m` is the
first time for which the slots of `tvecs[m]` are still to be cascaded. -/
def Ranked (b : Nat → Nat) (a d n : Nat) : Prop :=
  (1 ≤ n → a + 2 ^ shift n ≤ d) ∧
    ∀ m, n < m → m ≤ 4 → a + 2 ^ shift m ≤ d → d / 2 ^ shift m * 2 ^ shift m < b m

/-- The entries of the pending timers belong to the agenda and are in order. -/
structure Sane (g : Log) (due : Nat → Option Nat) : Prop where
  fresh : ∀ t d, due t = some d → (g.entry t).stamp < g.count
  mono : ∀ t u d d', due t = some d → due u = some d' → (g.entry t).stamp < (g.entry u).stamp →
    (g.entry t).since ≤ (g.entry u).since
  due_eq : ∀ t d, due t = some d → d = dueAt (g.entry t).since (g.entry t).expires

/-- The timers in the slots are ranked, and those due in one iteration are in order. -/
structure InOrder (b : Nat → Nat) (now : Nat) (due : Nat → Option Nat) (g : Log)
    (L : Nat × Nat → List Node) : Prop where
  since_le : ∀ v t d, .timer t ∈ L v → due t = some d → (g.entry t).since ≤ now
  ranked : ∀ v t d, .timer t ∈ L v → due t = some d → Ranked b (g.entry t).since d v.1
  sorted : ∀ v, (L v).Pairwise (Precedes g due)

/-- The timers in `queued` are for the next iteration, in the order in which they were added. -/
structure Lined (now : Nat) (g : Log) (Q : List Node) : Prop where
  since_eq : ∀ t, .timer t ∈ Q → (g.entry t).since = now + 1
  sorted : Q.Pairwise fun x y => ∀ t u, x = .timer t → y = .timer u →
    (g.entry t).stamp < (g.entry u).stamp

variable {now n d t u : Nat} {b b' : Nat → Nat} {due due' : Nat → Option Nat} {g : Log}
  {L L' : Nat × Nat → List Node} {Q : List Node} {v w : Nat × Nat}

theorem Ranked.mono (h : Ranked b (g.entry t).since d n) (hb : ∀ m, n < m → m ≤ 4 → b m ≤ b' m) :
    Ranked b' (g.entry t).since d n :=
  ⟨h.1, fun m hm h4 hd => Nat.lt_of_lt_of_le (h.2 m hm h4 hd) (hb m hm h4)⟩

/-- A timer that has just been added is ranked where it belongs. -/
theorem Level.ranked (h : Level now d n) : Ranked b now d n :=
  ⟨h.1, fun m hm h4 hd => absurd (h.2 m hm h4) (Nat.not_lt.mpr hd)⟩

theorem InOrder.mono (h : InOrder b now due g L) (hb : ∀ m, m ≤ 4 → b m ≤ b' m) :
    InOrder b' now due g L :=
  ⟨h.since_le, fun v t d hm hd => (h.ranked v t d hm hd).mono fun m _ => hb m, h.sorted⟩

/-- Timers that are taken out disturb no order. -/
theorem InOrder.sublist (h : InOrder b now due g L) (hL : ∀ v, (L' v).Sublist (L v))
    (hd : ∀ t d, due' t = some d → due t = some d) : InOrder b now due' g L' := by
  refine ⟨?_, ?_, ?_⟩
  · intro v t d hm ht
    exact h.since_le v t d ((hL v).subset hm) (hd t d ht)
  · intro v t d hm ht
    exact h.ranked v t d ((hL v).subset hm) (hd t d ht)
  · intro v
    refine ((h.sorted v).sublist (hL v)).imp ?_
    intro x y hxy t u d hx hy ht hu
    exact hxy t u d hx hy (hd t d ht) (hd u d hu)

/-! ## Into the slots -/

theorem floor_eq_of_dvd {p : Nat} (hp : p ∣ now) (hlo : now ≤ d) (hhi : d < now + p) :
    d / p * p = now := by
  obtain ⟨k, rfl⟩ := hp
  have hpos : 0 < p := by omega
  have hq : d / p = k := by
    refine Nat.div_eq_of_lt_le ?_ ?_
    · rwa [Nat.mul_comm]
    · rw [Nat.succ_mul, Nat.mul_comm]
      exact hhi
  rw [hq, Nat.mul_comm]

theorem shift_le {m : Nat} (h : m ≤ n) : 2 ^ shift m ≤ 2 ^ shift n :=
  Nat.pow_le_pow_right (by decide) (by unfold shift; omega)

/-- A timer that is added for `now` goes behind the timers that were added before. -/
theorem InOrder.put (h : InOrder (fun _ => now) now due g L) (hd : due t = some d)
    (hsince : (g.entry t).since = now)
    (hlast : ∀ v u e, .timer u ∈ L v → due u = some e → (g.entry u).stamp ≤ (g.entry t).stamp)
    (hl : Level now d w.1) : InOrder (fun _ => now) now due g (behind L t w) := by
  refine ⟨?_, ?_, ?_⟩
  · intro v u e hm hu
    rcases mem_behind hm with hm | ⟨hm, -⟩
    · exact h.since_le v u e hm hu
    · cases hm
      exact Nat.le_of_eq hsince
  · intro v u e hm hu
    rcases mem_behind hm with hm | ⟨he, rfl⟩
    · exact h.ranked v u e hm hu
    · cases he
      cases hd.symm.trans hu
      rw [hsince]
      exact hl.ranked
  · intro v
    by_cases hv : v = w
    · subst hv
      rw [behind, Function.update_self, List.pairwise_append]
      refine ⟨h.sorted v, List.pairwise_singleton .., ?_⟩
      intro y hy z hz u t' e hyu hzt hu ht
      obtain rfl := List.mem_singleton.mp hz
      cases hzt
      cases hd.symm.trans ht
      subst hyu
      refine ⟨?_, fun hlt => absurd hlt (Nat.not_lt.mpr (hlast v u _ hy hu))⟩
      -- the earlier timer is in this vector only if it has been cascaded from the longer slots
      intro _ hover
      obtain ⟨m, hm1, hm4, hwait, hslot, hnear⟩ := hover
      rw [hsince] at hslot hnear
      have hvm : v.1 < m := by
        refine Nat.lt_of_not_le fun hle => ?_
        have := hl.1 (hm1.trans hle)
        have := shift_le hle
        omega
      exact absurd ((h.ranked v u _ hy hu).2 m hvm hm4 hwait) (Nat.not_lt.mpr hslot)
    · rw [behind, Function.update_of_ne hv]
      exact h.sorted v

/-- The end of an iteration. -/
theorem Settled.inOrder (hset : Settled now due Q L L') (h : InOrder (fun _ => now) now due g L)
    (hsince : ∀ t, .timer t ∈ Q → (g.entry t).since = now)
    (hQ : Q.Pairwise fun x y => ∀ t u, x = .timer t → y = .timer u →
      (g.entry t).stamp < (g.entry u).stamp)
    (hlast : ∀ v u e t, .timer u ∈ L v → due u = some e → .timer t ∈ Q →
      (g.entry u).stamp ≤ (g.entry t).stamp) : InOrder (fun _ => now) now due g L' := by
  induction hset with
  | nil => exact h
  | @cons R L L' t d w hd hl hrest ih =>
    obtain ⟨hhead, hR⟩ := List.pairwise_cons.mp hQ
    refine ih ?_ ?_ hR ?_
    · exact h.put hd (hsince t (by simp)) (fun v u e hm hu => hlast v u e t hm hu (by simp)) hl
    · intro u hu
      exact hsince u (List.mem_cons_of_mem _ hu)
    · intro v u e r hm hu hr
      rcases mem_behind hm with hm | ⟨hm, -⟩
      · exact hlast v u e r hm hu (List.mem_cons_of_mem _ hr)
      · cases hm
        exact Nat.le_of_lt (hhead _ hr t r rfl rfl)

/-! ## The cascade -/

/-- The vectors below `n` have been cascaded. -/
def passed (now n m : Nat) : Nat := if m < n then now + 1 else now

/-- While the slot `v` is spread, every timer in a lower vector comes before those left in it. -/
structure Spreading (now : Nat) (due : Nat → Option Nat) (g : Log) (v : Nat × Nat)
    (L : Nat × Nat → List Node) : Prop where
  inOrder : InOrder (passed now (v.1 + 1)) now due g L
  front : ∀ w y t d, w.1 < v.1 → y ∈ L w → .timer t ∈ L v → due t = some d → now ≤ d →
    d < now + 2 ^ shift v.1 → Precedes g due y (.timer t)

theorem InOrder.spreading (h : InOrder (passed now v.1) now due g L) (hs : Sane g due)
    (h1 : 1 ≤ v.1) (h4 : v.1 ≤ 4) (hdvd : 2 ^ shift v.1 ∣ now) : Spreading now due g v L := by
  refine ⟨h.mono fun m _ => ?_, ?_⟩
  · unfold passed
    split <;> split <;> omega
  · intro w y t d hw hy ht hd hlo hhi u t' e hyu htt hu ht'
    subst hyu
    cases htt
    cases hd.symm.trans ht'
    have hfloor : d / 2 ^ shift v.1 * 2 ^ shift v.1 = now := floor_eq_of_dvd hdvd hlo hhi
    -- the lower timer was added too late for the slots of this vector
    have hnear : d < (g.entry u).since + 2 ^ shift v.1 := by
      refine Nat.lt_of_not_le fun hle => ?_
      have hlt := (h.ranked w u d hy hu).2 v.1 hw h4 hle
      rw [hfloor, passed, if_neg (Nat.lt_irrefl _)] at hlt
      exact Nat.lt_irrefl _ hlt
    have hwait := (h.ranked v t d ht hd).1 h1
    refine ⟨fun hlt => ?_, fun _ => ⟨v.1, h1, h4, hwait, ?_, hnear⟩⟩
    · have := hs.mono u t d d hu hd hlt
      omega
    · rw [hfloor]
      exact h.since_le w u d hy hu

/-- The first timer of the slot moves. -/
theorem Spreading.move {xs : List Node} (h : Spreading now due g v L) (h1 : 1 ≤ v.1)
    (hdvd : 2 ^ shift v.1 ∣ now) (hL : L v = .timer t :: xs) (hd : due t = some d)
    (hlo : now ≤ d) (hhi : d < now + 2 ^ shift v.1) (hl : Level now d w.1) :
    Spreading now due g v (behind (Function.update L v xs) t w) := by
  obtain ⟨ho, hfront⟩ := h
  have hwv : w.1 < v.1 := by
    refine Nat.lt_of_not_le fun hle => ?_
    have := hl.1 (h1.trans hle)
    have := shift_le hle
    omega
  have hne : v ≠ w := by
    rintro rfl
    exact Nat.lt_irrefl _ hwv
  have htv : .timer t ∈ L v := by simp [hL]
  obtain ⟨hhead, hxs⟩ := List.pairwise_cons.mp (hL ▸ ho.sorted v)
  have hmem : ∀ z x, x ∈ behind (Function.update L v xs) t w z → x ∈ L z ∨ x = .timer t ∧ z = w := by
    intro z x hx
    refine (mem_behind hx).imp_left fun hx => ?_
    by_cases hz : z = v
    · subst hz
      rw [Function.update_self] at hx
      simp [hL, hx]
    · rwa [Function.update_of_ne hz] at hx
  have hrest : behind (Function.update L v xs) t w v = xs := by
    rw [behind, Function.update_of_ne hne, Function.update_self]
  have hold := ho.since_le v t d htv hd
  refine ⟨⟨?_, ?_, ?_⟩, ?_⟩
  · intro z u e hm hu
    rcases hmem z _ hm with hm | ⟨hm, -⟩
    · exact ho.since_le z u e hm hu
    · cases hm
      exact ho.since_le v t e htv hu
  · intro z u e hm hu
    rcases hmem z _ hm with hm | ⟨he, rfl⟩
    · exact ho.ranked z u e hm hu
    · cases he
      cases hd.symm.trans hu
      refine ⟨fun hw1 => ?_, fun m hm hm4 hwait => ?_⟩
      · have := hl.1 hw1
        omega
      · rcases Nat.lt_or_ge v.1 m with hvm | hmv
        · exact (ho.ranked v t d htv hd).2 m hvm hm4 hwait
        · have hfloor := floor_eq_of_dvd ((shift_dvd hmv).trans hdvd) hlo (hl.2 m hm hm4)
          rw [hfloor, passed, if_pos (Nat.lt_succ_of_le hmv)]
          exact Nat.lt_succ_self now
  · intro z
    by_cases hz : z = w
    · subst hz
      rw [behind, Function.update_self, Function.update_of_ne hne.symm, List.pairwise_append]
      refine ⟨ho.sorted z, List.pairwise_singleton .., ?_⟩
      intro y hy x hx
      obtain rfl := List.mem_singleton.mp hx
      exact hfront z y t d hwv hy htv hd hlo hhi
    · rw [behind, Function.update_of_ne hz]
      by_cases hzv : z = v
      · subst hzv
        rwa [Function.update_self]
      · rw [Function.update_of_ne hzv]
        exact ho.sorted z
  · intro z y u e hz hy hu hdu hlo' hhi'
    rw [hrest] at hu
    rcases hmem z y hy with hy | ⟨rfl, -⟩
    · exact hfront z y u e hz hy (by simp [hL, hu]) hdu hlo' hhi'
    · exact hhead _ hu

theorem Spread.inOrder (hspread : Spread now due v L L') (h : Spreading now due g v L)
    (h1 : 1 ≤ v.1) (hdvd : 2 ^ shift v.1 ∣ now) : InOrder (passed now (v.1 + 1)) now due g L' := by
  induction hspread with
  | done => exact h.inOrder
  | move hL hd hlo hhi hl _ ih => exact ih (h.move h1 hdvd hL hd hlo hhi hl)

/-- The start of an iteration. -/
theorem Cascaded.inOrder (hcasc : Cascaded now due n L L') (hs : Sane g due)
    (h : InOrder (passed now n) now due g L) : InOrder (fun _ => now + 1) now due g L' := by
  induction hcasc with
  | done =>
    refine h.mono fun m _ => ?_
    unfold passed
    split <;> omega
  | next h1 h4 hdvd hspread _ ih => exact ih (hspread.inOrder (h.spreading hs h1 h4 hdvd) h1 hdvd)

end Frog.Timer
