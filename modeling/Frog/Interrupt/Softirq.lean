import Frog.Lib.Prog

/-!
# Soft interrupts

`core/interrupt/softirq.c`. A handler is an entry of `g_softirq_handlers`: its action is called with
the entry. What a handler raises may depend on everything that ran before it.
-/

namespace Frog.Interrupt

set_option autoImplicit false
open Prog

/-- `NR_SOFTIRQ` -/
def nrSoftirq : Nat := 6

/-- `outside` is a read behind `g_softirq_handlers`, `null` the call of an action that was never
registered. -/
inductive Fault where
  | outside | null
  deriving DecidableEq

/-- `calls` are the entries whose actions were called, `raised` the calls of `raise_softirq`, with
`true` for a bit that was not set yet. -/
structure State where
  pending : BitVec 32
  calls : List Nat
  raised : List (Nat × Bool)

abbrev M := Prog Fault State

/-- `raises calls` are the types that the last handler of `calls` raises. -/
structure Handlers where
  registered : Fin nrSoftirq → Bool
  raises : List Nat → List (Fin nrSoftirq)
  raises_registered : ∀ calls, ∀ t ∈ raises calls, registered t = true

def clearSoftirq (type : Nat) : M Unit :=
  modify fun s => { s with pending := s.pending &&& ~~~(1#32 <<< type) }

def raiseSoftirq (type : Nat) : M Unit :=
  modify fun s => { s with
    pending := s.pending ||| 1#32 <<< type
    raised := s.raised ++ [(type, !s.pending.getLsbD type)] }

def raiseAll : List (Fin nrSoftirq) → M Unit
  | [] => pure ()
  | t :: ts => do
    raiseSoftirq t
    raiseAll ts

/-- `h->action(h)`, with `h` counted in entries. -/
def action (H : Handlers) (h : Nat) : M Unit :=
  if hlt : h < nrSoftirq then do
    check (H.registered ⟨h, hlt⟩ = true) .null
    modify fun s => { s with calls := s.calls ++ [h] }
    let s ← get
    raiseAll (H.raises s.calls)
  else stop .outside

/-- One pass of the loop, in whose body `type` is declared. -/
def pass (H : Handlers) (h : Nat) : M Unit := do
  let type := 0
  let s ← get
  if s.pending &&& 1#32 <<< type ≠ 0 then
    clearSoftirq type
    action H h

/-- At most so many passes of `do_softirq`, with `h` at an entry; `true` if the loop has ended. -/
def doSoftirq (H : Handlers) : Nat → Nat → M Bool
  | 0, _ => pure false
  | n + 1, h => do
    pass H h
    let s ← get
    if s.pending = 0 then pure true else doSoftirq H n (h + 1)

def State.start (mask : BitVec 32) : State := ⟨mask, [], []⟩

/-- The mask has bits of registered types only. -/
def Handlers.Covers (H : Handlers) (mask : BitVec 32) : Prop :=
  ∀ i, mask.getLsbD i = true → ∃ h : i < nrSoftirq, H.registered ⟨i, h⟩ = true

/-- The calls of the handler of `i` and its bit account for the times the bit was set. -/
def Accounts (mask : BitVec 32) (s : State) (i : Nat) : Prop :=
  s.calls.count i + (s.pending.getLsbD i).toNat =
    (mask.getLsbD i).toNat + s.raised.count (i, true)

/-- Each handler runs once for every time its bit was set, whatever the number of passes, and the
loop ends if handlers raise finitely often. -/
structure RunsOnce (H : Handlers) (mask : BitVec 32) : Prop where
  exact : ∀ n, ∃ b t, doSoftirq H n 0 (.start mask) = .ok (b, t) ∧ ∀ i, Accounts mask t i
  ends : (∃ k, ∀ n b t, doSoftirq H n 0 (.start mask) = .ok (b, t) → t.raised.length ≤ k) →
    ∃ n t, doSoftirq H n 0 (.start mask) = .ok (true, t) ∧ t.pending = 0

variable {H : Handlers} {mask : BitVec 32} {s t : State} {h n : Nat}

/-! ## Bits -/

theorem bit_getLsbD {i j : Nat} (hj : j < 32) : (1#32 <<< j).getLsbD i = decide (i = j) := by
  by_cases h : i = j
  · subst h
    simp [hj]
  · rw [decide_eq_false h, BitVec.getLsbD_shiftLeft]
    by_cases hlt : i < j
    · simp [hlt]
    · simp [show i - j ≠ 0 by omega]

theorem low_eq_zero_iff (x : BitVec 32) : x &&& 1#32 <<< 0 = 0 ↔ x.getLsbD 0 = false := by
  constructor
  · intro h0
    have := congrArg (fun y => y.getLsbD 0) h0
    simpa using this
  · intro h0
    refine BitVec.eq_of_getLsbD_eq fun i hi => ?_
    rw [BitVec.getLsbD_and, bit_getLsbD (by decide)]
    by_cases hz : i = 0
    · rw [hz, h0]
      rfl
    · rw [decide_eq_false hz, Bool.and_false]
      exact BitVec.getLsbD_zero.symm

/-! ## Higher bits are never cleared -/

/-- The bit of `i` accounts for the times it was set. -/
def Stuck (mask : BitVec 32) (s : State) (i : Nat) : Prop :=
  (s.pending.getLsbD i).toNat = (mask.getLsbD i).toNat + s.raised.count (i, true)

theorem Stuck.raise {i : Nat} (hs : Stuck mask s i) (type : Fin nrSoftirq)
    (hr : raiseSoftirq type s = .ok ((), t)) : Stuck mask t i := by
  have htype : type.val < 32 := Nat.lt_trans type.isLt (by decide)
  cases hr
  unfold Stuck at *
  simp only [BitVec.getLsbD_or, bit_getLsbD htype, List.count_append, List.count_singleton]
  by_cases hi : i = type.val
  · subst hi
    cases hb : s.pending.getLsbD type.val <;> simp [hb] at hs ⊢ <;> omega
  · have hne : ¬ type.val = i := fun he => hi he.symm
    simp [hi, hne, hs]

theorem Stuck.raiseAll {i : Nat} {ts : List (Fin nrSoftirq)} (hs : Stuck mask s i)
    (hr : raiseAll ts s = .ok ((), t)) : Stuck mask t i := by
  induction ts generalizing s with
  | nil =>
    cases hr
    exact hs
  | cons type ts ih =>
    obtain ⟨_, u, hu, hr⟩ := bind_eq_ok.mp hr
    exact ih (hs.raise type hu) hr

/-- What an action does to the state. -/
theorem action_eq_ok (hr : action H h s = .ok ((), t)) :
    h < nrSoftirq ∧
      raiseAll (H.raises (s.calls ++ [h])) { s with calls := s.calls ++ [h] } = .ok ((), t) := by
  unfold action at hr
  split at hr
  · rename_i hlt
    obtain ⟨_, u, hc, hrest⟩ := bind_eq_ok.mp hr
    obtain ⟨-, rfl⟩ := check_eq_ok.mp hc
    rw [bind_ok (modify_apply _ u), bind_ok (get_apply _)] at hrest
    exact ⟨hlt, hrest⟩
  · cases hr

/-- A pass with the lowest bit set calls the handler that `h` points to. -/
theorem pass_set (h0 : s.pending.getLsbD 0 = true) :
    pass H h s = action H h { s with pending := s.pending &&& ~~~(1#32 <<< 0) } := by
  have hne : s.pending &&& 1#32 <<< 0 ≠ 0 := by
    rw [Ne, low_eq_zero_iff, h0]
    exact nofun
  rw [pass, bind_ok (get_apply s), if_pos hne]
  rfl

/-- Without it a pass does nothing. -/
theorem pass_clear (h0 : s.pending.getLsbD 0 = false) : pass H h s = .ok ((), s) := by
  rw [pass, bind_ok (get_apply s), if_neg (not_not.mpr ((low_eq_zero_iff _).mpr h0))]
  rfl

theorem Stuck.pass {i : Nat} (hs : Stuck mask s i) (hi : i ≠ 0)
    (hr : pass H h s = .ok ((), t)) : Stuck mask t i := by
  cases h0 : s.pending.getLsbD 0 with
  | false =>
    rw [pass_clear h0] at hr
    cases hr
    exact hs
  | true =>
    rw [pass_set h0] at hr
    refine Stuck.raiseAll ?_ (action_eq_ok hr).2
    unfold Stuck at *
    rw [← hs]
    have hbit : (s.pending &&& ~~~(1#32 <<< 0)).getLsbD i = s.pending.getLsbD i := by
      by_cases hlt : i < 32
      · rw [BitVec.getLsbD_and, BitVec.getLsbD_not, bit_getLsbD (by decide), decide_eq_false hi,
          decide_eq_true hlt]
        exact Bool.and_true _
      · rw [BitVec.getLsbD_of_ge _ _ (by omega), BitVec.getLsbD_of_ge _ _ (by omega)]
    simp only [hbit]

theorem Stuck.doSoftirq {i : Nat} {b : Bool} (hs : Stuck mask s i) (hi : i ≠ 0)
    (hr : doSoftirq H n h s = .ok (b, t)) : Stuck mask t i := by
  induction n generalizing s h with
  | zero =>
    cases hr
    exact hs
  | succ n ih =>
    obtain ⟨_, u, hu, hr⟩ := bind_eq_ok.mp hr
    have hsu := hs.pass hi hu
    rw [bind_ok (get_apply u)] at hr
    split at hr
    · cases hr
      exact hsu
    · exact ih hsu hr

theorem stuck_start (i : Nat) : Stuck mask (.start mask) i := by simp [Stuck, State.start]

/-- Raising leaves a bit that is set. -/
theorem raiseAll_keeps {i : Nat} {ts : List (Fin nrSoftirq)} (hb : s.pending.getLsbD i = true)
    (hr : raiseAll ts s = .ok ((), t)) : t.pending.getLsbD i = true := by
  induction ts generalizing s with
  | nil =>
    cases hr
    exact hb
  | cons type ts ih =>
    obtain ⟨_, u, hu, hr⟩ := bind_eq_ok.mp hr
    refine ih ?_ hr
    cases hu
    simp [BitVec.getLsbD_or, hb]

theorem raiseAll_calls {ts : List (Fin nrSoftirq)} (hr : raiseAll ts s = .ok ((), t)) :
    t.calls = s.calls := by
  induction ts generalizing s with
  | nil =>
    cases hr
    rfl
  | cons type ts ih =>
    obtain ⟨_, u, hu, hr⟩ := bind_eq_ok.mp hr
    rw [ih hr]
    cases hu
    rfl

/-- A handler that raises something leaves a bit set. -/
theorem raiseAll_pending {type : Fin nrSoftirq} {ts : List (Fin nrSoftirq)}
    (hr : raiseAll (type :: ts) s = .ok ((), t)) : t.pending ≠ 0 := by
  have htype : type.val < 32 := Nat.lt_trans type.isLt (by decide)
  obtain ⟨_, u, hu, hr⟩ := bind_eq_ok.mp hr
  have hbit : t.pending.getLsbD type.val = true := by
    refine raiseAll_keeps ?_ hr
    cases hu
    simp [BitVec.getLsbD_or, bit_getLsbD htype]
  intro h0
  rw [h0] at hbit
  simp at hbit

/-! ## The passes -/

/-- With only higher bits set the loop goes round for ever. -/
theorem doSoftirq_idle (h0 : s.pending.getLsbD 0 = false) (hp : s.pending ≠ 0) :
    doSoftirq H n h s = .ok (false, s) := by
  induction n generalizing h with
  | zero => rfl
  | succ n ih =>
    unfold doSoftirq
    rw [bind_ok (pass_clear h0), bind_ok (get_apply s), if_neg hp, ih]

theorem doSoftirq_succ (hu : pass H h s = .ok ((), t)) (hp : t.pending ≠ 0) :
    doSoftirq H (n + 1) h s = doSoftirq H n (h + 1) t := by
  rw [doSoftirq, bind_ok hu, bind_ok (get_apply t), if_neg hp]

theorem doSoftirq_last (hu : pass H h s = .ok ((), t)) (hp : t.pending = 0) :
    doSoftirq H (n + 1) h s = .ok (true, t) := by
  rw [doSoftirq, bind_ok hu, bind_ok (get_apply t), if_pos hp]
  rfl

/-- The first pass must leave nothing pending. -/
theorem RunsOnce.first (hr : RunsOnce H mask) :
    ∃ t, pass H 0 (.start mask) = .ok ((), t) ∧ t.pending = 0 := by
  obtain ⟨b, t', h1, -⟩ := hr.exact 1
  obtain ⟨_, t, ht, -⟩ := bind_eq_ok.mp h1
  refine ⟨t, ht, Classical.byContradiction fun hp => ?_⟩
  have hrun : ∀ n, doSoftirq H (n + 1) 0 (.start mask) = doSoftirq H n 1 t :=
    fun n => doSoftirq_succ ht hp
  cases h0 : t.pending.getLsbD 0 with
  | true =>
    -- the second pass calls the handler of type 1 for the bit of type 0
    obtain ⟨b, u, hu, hacc⟩ := hr.exact 2
    have hstuck := (stuck_start 1).doSoftirq Nat.one_ne_zero hu
    rw [hrun] at hu
    obtain ⟨_, v, hv, hu⟩ := bind_eq_ok.mp hu
    have huv : u = v := by
      rw [bind_ok (get_apply v)] at hu
      split at hu <;> cases hu <;> rfl
    rw [pass_set h0] at hv
    have hcalls : v.calls = t.calls ++ [1] := raiseAll_calls (action_eq_ok hv).2
    have hcount := hacc 1
    unfold Accounts at hcount
    unfold Stuck at hstuck
    rw [huv, hcalls, List.count_append, List.count_singleton] at hcount
    rw [huv] at hstuck
    simp only [beq_self_eq_true, if_true] at hcount
    omega
  | false =>
    have hidle : ∀ n, doSoftirq H (n + 1) 0 (.start mask) = .ok (false, t) := fun n => by
      rw [hrun, doSoftirq_idle h0 hp]
    have hfin : ∀ n b u, doSoftirq H n 0 (.start mask) = .ok (b, u) →
        u.raised.length ≤ t.raised.length := by
      intro n b u hu
      cases n with
      | zero =>
        cases hu
        exact Nat.zero_le _
      | succ n =>
        rw [hidle] at hu
        cases hu
        exact Nat.le_refl _
    obtain ⟨n, u, hu, -⟩ := hr.ends ⟨_, hfin⟩
    cases n with
    | zero => cases hu
    | succ n =>
      rw [hidle] at hu
      cases hu

/-- `do_softirq` does its work only if at most the lowest bit is set and the handler called for it
raises nothing. -/
theorem runsOnce_iff (hmask : H.Covers mask) :
    RunsOnce H mask ↔ mask = 0 ∨ mask = 1 ∧ H.raises [0] = [] := by
  constructor
  · intro hr
    obtain ⟨t, ht, hp⟩ := hr.first
    have hhigh : ∀ i, i ≠ 0 → mask.getLsbD i = false := by
      intro i hi
      have hstuck := (stuck_start i).pass hi ht
      unfold Stuck at hstuck
      rw [hp] at hstuck
      cases hb : mask.getLsbD i with
      | false => rfl
      | true =>
        rw [hb] at hstuck
        simp only [BitVec.ofNat_eq_ofNat, BitVec.getLsbD_zero, Bool.toNat_false,
          Bool.toNat_true] at hstuck
        omega
    cases h0 : mask.getLsbD 0 with
    | false =>
      refine .inl (BitVec.eq_of_getLsbD_eq fun i _ => ?_)
      by_cases hi : i = 0
      · rw [hi, h0]
        rfl
      · rw [hhigh i hi]
        exact BitVec.getLsbD_zero.symm
    | true =>
      refine .inr ⟨BitVec.eq_of_getLsbD_eq fun i hlt => ?_, ?_⟩
      · by_cases hi : i = 0
        · rw [hi, h0]
          rfl
        · rw [hhigh i hi]
          exact (bit_getLsbD (i := i) (j := 0) (by decide)).trans (decide_eq_false hi) |>.symm
      · rw [pass_set h0] at ht
        obtain ⟨-, hraise⟩ := action_eq_ok ht
        change raiseAll (H.raises [0]) _ = _ at hraise
        cases hl : H.raises [0] with
        | nil => rfl
        | cons type ts =>
          rw [hl] at hraise
          exact absurd hp (raiseAll_pending hraise)
  · rintro (rfl | ⟨rfl, hnone⟩)
    · have hpass : pass H 0 (.start 0) = .ok ((), .start 0) := pass_clear rfl
      refine ⟨fun n => ?_, fun _ => ⟨1, _, doSoftirq_last hpass rfl, rfl⟩⟩
      cases n with
      | zero => exact ⟨_, _, rfl, fun i => by simp [Accounts, State.start]⟩
      | succ n =>
        exact ⟨_, _, doSoftirq_last hpass rfl, fun i => by simp [Accounts, State.start]⟩
    · obtain ⟨hlt, hreg⟩ := hmask 0 rfl
      have hpass : pass H 0 (.start 1) = .ok ((), ⟨0, [0], []⟩) := by
        rw [pass_set rfl, action, dif_pos hlt, check_bind hreg]
        change raiseAll (H.raises [0]) _ = _
        rw [hnone]
        rfl
      refine ⟨fun n => ?_, fun _ => ⟨1, _, doSoftirq_last hpass rfl, rfl⟩⟩
      cases n with
      | zero => exact ⟨_, _, rfl, fun i => by simp [Accounts, State.start]⟩
      | succ n =>
        refine ⟨_, _, doSoftirq_last hpass rfl, fun i => ?_⟩
        unfold Accounts
        by_cases hi : i = 0
        · subst hi
          decide
        · have hbit : (1 : BitVec 32).getLsbD i = false :=
            (bit_getLsbD (i := i) (j := 0) (by decide)).trans (decide_eq_false hi)
          have hcount : [0].count i = 0 := List.count_eq_zero.mpr (by simpa using hi)
          rw [hbit, hcount]
          simp

/-- All types have a handler, and none raises anything. -/
def quietHandlers : Handlers := ⟨fun _ => true, fun _ => [], fun _ _ ht => nomatch ht⟩

theorem runsOnce_lowest : RunsOnce quietHandlers 1 :=
  (runsOnce_iff fun i hi => by
    have hz : i = 0 := by
      have := (bit_getLsbD (i := i) (j := 0) (by decide)).symm.trans hi
      exact of_decide_eq_true this
    exact ⟨hz ▸ by decide, rfl⟩).mpr (.inr ⟨rfl, rfl⟩)

/-- With the bit of `TIMER_SOFTIRQ` set no handler is called and the loop does not end. -/
theorem timer_softirq_lost : quietHandlers.Covers 2 ∧ ¬ RunsOnce quietHandlers 2 ∧
    ∀ n, doSoftirq quietHandlers n 0 (.start 2) = .ok (false, .start 2) := by
  have hidle : ∀ n, doSoftirq quietHandlers n 0 (.start 2) = .ok (false, .start 2) :=
    fun n => doSoftirq_idle rfl (by decide)
  refine ⟨fun i hi => ?_, fun hr => ?_, hidle⟩
  · have hone : i = 1 := of_decide_eq_true ((bit_getLsbD (i := i) (j := 1) (by decide)).symm.trans hi)
    exact ⟨hone ▸ by decide, rfl⟩
  · obtain ⟨t, ht, hp⟩ := hr.first
    rw [pass_clear rfl] at ht
    cases ht
    exact absurd hp (by decide)

end Frog.Interrupt
