import Frog.Thread.Waits

/-!
# One lock

Threads fetch and release one lock and are interrupted at any point. The depth of a thread counts
the calls of `lock_fetch` that returned and are not yet undone by a call of `lock_release` that
returned; the code has no such counter for a thread, only `holder_repeat_nr` for the lock.
-/

namespace Frog.Thread

set_option autoImplicit false
open Prog

structure Nested where
  state : State
  depth : Tid → Nat

/-- The depth after a step that ends a call. -/
def Pc.depthAfter : Pc → Nat → Nat
  | .claimed _ _, n | .nesting _ _, n => n + 1
  | .lowering _ _, n | .upping _ _, n => n - 1
  | _, n => n

namespace Nested

def depthAfter (n : Nested) : Event → Tid → Nat
  | .step => Function.update n.depth n.state.cur
      ((n.state.pc n.state.cur).depthAfter (n.depth n.state.cur))
  | _ => n.depth

def Step (n : Nested) (e : Event) (m : Nested) : Prop :=
  Thread.Step n.state e m.state ∧ m.depth = n.depthAfter e

/-- The threads only fetch and release the lock `q` and release it only when they hold it. -/
def Locks (q : Nat) (n : Nested) : Event → Prop
  | .preempt | .step => True
  | .call (.fetch r) => r = q
  | .call (.release r) => r = q ∧ 0 < n.depth n.state.cur
  | .call (.block _) => n.state.cur = n.state.idle
  | .call _ => False

/-- The depth stays below `2 ^ 32`. -/
def Bounded (n : Nested) : Event → Prop
  | .step => (∃ q k, n.state.pc n.state.cur = .nesting q k) → n.depth n.state.cur + 1 < 2 ^ 32
  | _ => True

/-- Between the end of its `semaphore_down` and its `semaphore_up`. -/
def Inside (n : Nested) (t : Tid) : Prop :=
  0 < n.depth t ∨ ∃ q k, n.state.pc t = .owned q k ∨ n.state.pc t = .claimed q k

end Nested

/-! ## The states of a lock -/

/-- What the thread that took the semaphore is doing, with the lock and its depth. -/
inductive Holds (q : Nat) (t : Tid) : Pc → Lock → Nat → Prop
  | owned : Holds q t (.owned q .user) ⟨none, 0, 0⟩ 0
  | claimed : Holds q t (.claimed q .user) ⟨some t, 0, 0⟩ 0
  | inside (n : Nat) : 0 < n → n < 2 ^ 32 →
      Holds q t (.run .user) ⟨some t, 0, BitVec.ofNat 32 n⟩ n
  | nesting (n : Nat) : 0 < n → n < 2 ^ 32 →
      Holds q t (.nesting q .user) ⟨some t, 0, BitVec.ofNat 32 n⟩ n
  | lowering (n : Nat) : 1 < n → n < 2 ^ 32 →
      Holds q t (.lowering q .user) ⟨some t, 0, BitVec.ofNat 32 n⟩ n
  | releasing : Holds q t (.releasing q .user) ⟨some t, 0, 1⟩ 1
  | cleared : Holds q t (.cleared q .user) ⟨none, 0, 1⟩ 1
  | upping : Holds q t (.upping q .user) ⟨none, 0, 0⟩ 1

/-- The others are outside or want the semaphore. -/
inductive Outside (q : Nat) : Pc → Nat → Prop
  | user : Outside q (.run .user) 0
  | down (masked : Bool) : Outside q (.down q true masked .user) 0

inductive Mutex (q : Nat) (all : List Tid) (pc : Tid → Pc) (l : Lock) (depth : Tid → Nat) : Prop
  | free (h : ∀ u ∈ all, Outside q (pc u) (depth u)) (hl : l = Lock.init)
  | held (t : Tid) (ht : t ∈ all) (h : Holds q t (pc t) l (depth t))
      (ho : ∀ u ∈ all, u ≠ t → Outside q (pc u) (depth u))

section Lemmas
variable {q : Nat} {t : Tid} {p : Pc} {l : Lock} {n : Nat} {all : List Tid} {pc : Tid → Pc}
  {depth : Tid → Nat}

theorem Holds.value (h : Holds q t p l n) : l.value = 0 := by cases h <;> rfl

theorem Holds.holder (h : Holds q t p l n) {u : Tid} (hu : l.holder = some u) :
    u = t ∧ l.holderRepeatNr.toNat = n := by
  cases h with
  | owned => cases hu
  | claimed => cases hu; exact ⟨rfl, rfl⟩
  | inside _ h0 hn => cases hu; exact ⟨rfl, by rw [BitVec.toNat_ofNat, Nat.mod_eq_of_lt hn]⟩
  | nesting _ h0 hn => cases hu; exact ⟨rfl, by rw [BitVec.toNat_ofNat, Nat.mod_eq_of_lt hn]⟩
  | lowering _ h0 hn => cases hu; exact ⟨rfl, by rw [BitVec.toNat_ofNat, Nat.mod_eq_of_lt hn]⟩
  | releasing => cases hu; exact ⟨rfl, rfl⟩
  | cleared => cases hu
  | upping => cases hu

/-- The thread inside changes its place, the lock or its depth. -/
theorem Mutex.hold {l' : Lock} {p' : Pc} {n' : Nat} (ht : t ∈ all)
    (ho : ∀ u ∈ all, u ≠ t → Outside q (pc u) (depth u)) (h : Holds q t p' l' n') :
    Mutex q all (Function.update pc t p') l' (Function.update depth t n') := by
  refine .held t ht (by simpa using h) fun u hu hut => ?_
  rw [Function.update_of_ne hut, Function.update_of_ne hut]
  exact ho u hu hut

/-- The thread inside goes out. -/
theorem Mutex.release {p' : Pc} {n' : Nat}
    (ho : ∀ u ∈ all, u ≠ t → Outside q (pc u) (depth u)) (h : Outside q p' n') :
    Mutex q all (Function.update pc t p') Lock.init (Function.update depth t n') := by
  refine .free (fun u hu => ?_) rfl
  by_cases hut : u = t
  · subst hut
    simpa using h
  · rw [Function.update_of_ne hut, Function.update_of_ne hut]
    exact ho u hu hut

/-- A thread outside goes on outside. -/
theorem Mutex.move {p' : Pc} (hm : Mutex q all pc l depth) (hout : Outside q (pc t) (depth t))
    (h : Outside q p' (depth t)) : Mutex q all (Function.update pc t p') l depth := by
  have hkeep : ∀ u, Outside q (pc u) (depth u) →
      Outside q (Function.update pc t p' u) (depth u) := by
    intro u hu
    by_cases hut : u = t
    · subst hut
      simpa using h
    · rwa [Function.update_of_ne hut]
  cases hm with
  | free hf hl => exact .free (fun u hu => hkeep u (hf u hu)) hl
  | held v hv hh ho =>
    have hvt : v ≠ t := by
      rintro rfl
      revert hh hout
      generalize pc v = p, depth v = d
      intro h1 h2
      cases h1 <;> cases h2
      rename_i h0 _
      exact absurd h0 (Nat.lt_irrefl 0)
    refine .held v hv (by rwa [Function.update_of_ne hvt]) fun u hu huv => hkeep u (ho u hu huv)

end Lemmas

/-! ## The steps -/

structure LockInv (q : Nat) (s : State) (depth : Tid → Nat) (L : Head → List Node) : Prop where
  lists : Lists s L
  running : s.status s.cur = .running
  loose : Loose L s.cur
  mutex : Mutex q s.all s.pc (s.lock q) depth

/-- With no reason to stop allowed. -/
abbrev Secure (q : Nat) (m : M Unit) (depth : Tid → Nat) (s : State) : Prop :=
  wp (fun _ => False) m (fun _ t => ∃ L, LockInv q t depth L) s

@[simp] theorem lock_setLock (s : State) (q : Nat) (l : Lock) : (s.setLock q l).lock q = l := by
  simp [State.lock, State.setLock, State.setQueue]

@[simp] theorem cur_setLock (s : State) (q : Nat) (l : Lock) : (s.setLock q l).cur = s.cur := rfl

theorem SameCode.lock_eq {s t : State} (h : SameCode s t) (q : Nat) : t.lock q = s.lock q := by
  rw [State.lock, State.lock, h.queue_eq]

section Steps
variable {q : Nat} {s : State} {depth depth' : Tid → Nat} {L : Head → List Node}

/-- After a switch the lock is as it was. -/
theorem Switched.lockInv {t : State} (h : Switched s L t)
    (hm : Mutex q s.all s.pc (s.lock q) depth) : ∃ L', LockInv q t depth L' := by
  obtain ⟨hc, -, L', hL, hr, hl, -⟩ := h
  refine ⟨L', hL, hr, hl, ?_⟩
  rwa [hc.all_eq, hc.pc_eq, hc.lock_eq]

variable (h : LockInv q s depth L)
include h

theorem LockInv.goto (hi : s.cur ≠ s.idle) {p : Pc}
    (hm : Mutex q s.all (Function.update s.pc s.cur p) (s.lock q) depth') :
    ∃ L', LockInv q (s.setPc s.cur p) depth' L' :=
  ⟨L, h.lists.setPc_loose hi h.loose, h.running, h.loose, hm⟩

theorem LockInv.setLock_goto (hi : s.cur ≠ s.idle) {l : Lock} {p : Pc}
    (hm : Mutex q s.all (Function.update s.pc s.cur p) l depth') :
    ∃ L', LockInv q ((s.setLock q l).setPc s.cur p) depth' L' := by
  refine ⟨L, (h.lists.setQueue q _).setPc_loose hi h.loose, h.running, h.loose, ?_⟩
  rwa [show ((s.setLock q l).setPc s.cur p).lock q = (s.setLock q l).lock q from rfl, lock_setLock]

theorem secure_preempt : Secure q schedule depth s :=
  wp_schedule_running h.lists h.running h.loose fun _ ht => ht.lockInv h.mutex

theorem secure_block : Secure q (threadBlock .blocked) depth s :=
  wp_threadBlock h.lists (h.loose _) (fun hx => (hx (.inr (.inr rfl))).elim)
    (fun k _ hm => absurd hm (h.loose k)) (fun _ => rfl) fun _ _ ht => ht.lockInv h.mutex

/-- `lock_fetch` by a thread outside of the functions. -/
theorem secure_lockFetch (hi : s.cur ≠ s.idle) (hpc : s.pc s.cur = .run .user) :
    Secure q (lockFetch q .user) depth s := by
  unfold Secure lockFetch
  simp only [wp_bind, wp_runningThread, wp_lockAt, wp_ite, wp_goto]
  have hm := h.mutex
  refine ⟨fun hh => h.goto hi ?_, fun hh => h.goto hi ?_⟩
  · -- the holder fetches once more
    cases hm with
    | free hf hl =>
      rw [hl] at hh
      cases hh
    | held t ht hhold ho =>
      obtain ⟨rfl, -⟩ := hhold.holder hh
      rw [hpc] at hhold
      have hu := Function.update_eq_self s.cur depth
      rw [← hu]
      refine .hold ht ho ?_
      generalize s.lock q = l, depth s.cur = d at hhold
      cases hhold with
      | inside _ h0 hn => exact .nesting _ h0 hn
  · have hout : Outside q (s.pc s.cur) (depth s.cur) := by
      cases hm with
      | free hf hl => exact hf _ h.lists.cur_mem
      | held t ht hhold ho =>
        by_cases hct : s.cur = t
        · subst hct
          rw [hpc] at hhold
          generalize s.lock q = l, depth s.cur = d at hhold hh
          cases hhold
          exact absurd rfl hh
        · exact ho _ h.lists.cur_mem hct
    refine hm.move hout ?_
    rw [hpc] at hout
    generalize depth s.cur = d at hout
    cases hout
    exact .down false

/-- `lock_release` by a thread with a positive depth. -/
theorem secure_lockRelease (hi : s.cur ≠ s.idle) (hpc : s.pc s.cur = .run .user)
    (hd : 0 < depth s.cur) : Secure q (lockRelease q .user) depth s := by
  unfold Secure lockRelease
  simp only [wp_bind, wp_lockAt, wp_ite, wp_check, wp_goto]
  have hne : ∀ p, Outside q p (depth s.cur) → False := by
    intro p hp
    generalize depth s.cur = d at hp hd
    cases hp <;> exact absurd hd (Nat.lt_irrefl 0)
  have hu := Function.update_eq_self s.cur depth
  cases h.mutex with
  | free hf hl => exact (hne _ (hf _ h.lists.cur_mem)).elim
  | held t ht hhold ho =>
    by_cases hct : s.cur = t
    · subst hct
      rw [hpc] at hhold
      have hto : ∀ p, Holds q s.cur p (s.lock q) (depth s.cur) →
          ∃ L', LockInv q (s.setPc s.cur p) depth L' := by
        intro p hp
        refine h.goto hi ?_
        rw [← hu]
        exact .hold ht ho hp
      generalize s.lock q = l, depth s.cur = d at hhold hto
      cases hhold with
      | inside _ h0 hn =>
        have h1 : (1 : BitVec 32) < BitVec.ofNat 32 d ↔ 1 < d := by
          rw [BitVec.lt_def, BitVec.toNat_ofNat, Nat.mod_eq_of_lt hn]
          rfl
        refine ⟨fun hlt => hto _ (.lowering _ (h1.mp hlt) hn), fun hlt => ?_⟩
        obtain rfl : d = 1 := by
          have := mt h1.mpr hlt
          omega
        exact ⟨fun _ => hto _ .releasing, fun hc => hc rfl⟩
    · exact (hne _ (ho _ h.lists.cur_mem hct)).elim

theorem secure_semaphoreDown (hi : s.cur ≠ s.idle) {masked : Bool}
    (hpc : s.pc s.cur = .down q true masked .user) :
    Secure q (semaphoreDown q (.down q true true .user) (.owned q .user)) depth s := by
  have hout : ∀ t l n, ¬ Holds q t (.down q true masked .user) l n := by
    intro t l n hh
    cases hh
  have hm := h.mutex
  refine wp_semaphoreDown h.lists h.loose hi rfl ?_ ?_ ?_
  · -- a semaphore that is not taken has the value 1
    intro hv hv'
    cases hm with
    | free hf hl =>
      rw [hl] at hv'
      exact hv' rfl
    | held t ht hhold ho => exact hv hhold.value
  · intro hv t ht
    refine ht.lockInv ?_
    have hcur : Outside q (s.pc s.cur) (depth s.cur) := by
      cases hm with
      | free hf hl => exact hf _ h.lists.cur_mem
      | held t ht hhold ho =>
        by_cases hct : s.cur = t
        · subst hct
          rw [hpc] at hhold
          exact absurd hhold (hout _ _ _)
        · exact ho _ h.lists.cur_mem hct
    refine hm.move hcur ?_
    rw [hpc] at hcur
    generalize depth s.cur = d at hcur
    cases hcur
    exact .down true
  · intro hv hv'
    refine h.setLock_goto hi ?_
    cases hm with
    | held t ht hhold ho => exact absurd hhold.value hv
    | free hf hl =>
      have hd := hf _ h.lists.cur_mem
      rw [hpc] at hd
      have hu := Function.update_eq_self s.cur depth
      rw [← hu, hl]
      refine .hold h.lists.cur_mem (fun u hu _ => hf u hu) ?_
      generalize depth s.cur = d at hd
      cases hd
      exact .owned

/-- The thread inside goes on from where it is. -/
theorem secure_inside (hi : s.cur ≠ s.idle) (hn : (∃ r k, s.pc s.cur = .nesting r k) →
      depth s.cur + 1 < 2 ^ 32) (hhold : Holds q s.cur (s.pc s.cur) (s.lock q) (depth s.cur))
    (hu : s.pc s.cur ≠ .run .user)
    (ho : ∀ u ∈ s.all, u ≠ s.cur → Outside q (s.pc u) (depth u)) :
    Secure q (doStep (s.pc s.cur))
      (Function.update depth s.cur ((s.pc s.cur).depthAfter (depth s.cur))) s := by
  have hcm := h.lists.cur_mem
  have hgo : ∀ p l d, Holds q s.cur p l d → ∃ L', LockInv q ((s.setLock q l).setPc s.cur p)
      (Function.update depth s.cur d) L' := fun p l d hp => h.setLock_goto hi (.hold hcm ho hp)
  unfold Secure
  generalize hpc : s.pc s.cur = p at hhold hu hn
  generalize hlq : s.lock q = l at hhold
  generalize hd : depth s.cur = d at hhold hn
  cases hhold with
  | inside => exact absurd rfl hu
  | owned =>
    simp only [doStep, wp_bind, wp_runningThread, wp_lockAt, wp_setLock, wp_goto, hlq]
    exact hgo _ _ _ .claimed
  | claimed =>
    simp only [doStep, wp_bind, wp_lockAt, wp_check, wp_setLock, wp_goto, hlq]
    exact ⟨fun _ => hgo _ _ _ (.inside 1 (by decide) (by decide)), fun hc => hc trivial⟩
  | nesting _ h0 hlt =>
    have hlt' := hn ⟨_, _, rfl⟩
    have hone : BitVec.ofNat 32 d + 1 = BitVec.ofNat 32 (d + 1) := by
      rw [BitVec.ofNat_add]
      rfl
    simp only [doStep, wp_bind, wp_lockAt, wp_setLock, wp_goto, hlq, hone]
    exact hgo _ _ _ (.inside (d + 1) (Nat.succ_pos d) hlt')
  | lowering _ h0 hlt =>
    have hone : BitVec.ofNat 32 d - 1 = BitVec.ofNat 32 (d - 1) := by
      obtain ⟨m, rfl⟩ : ∃ m, d = m + 1 := ⟨d - 1, by omega⟩
      rw [BitVec.ofNat_add, Nat.add_sub_cancel]
      exact BitVec.add_sub_cancel ..
    simp only [doStep, wp_bind, wp_lockAt, wp_setLock, wp_goto, hlq, hone]
    exact hgo _ _ _ (.inside (d - 1) (by omega) (by omega))
  | releasing =>
    simp only [doStep, wp_bind, wp_lockAt, wp_setLock, wp_goto, hlq]
    exact hgo _ _ _ .cleared
  | cleared =>
    simp only [doStep, wp_bind, wp_lockAt, wp_setLock, wp_goto, hlq]
    exact hgo _ _ _ .upping
  | upping =>
    unfold doStep
    rw [wp_bind]
    refine wp_semaphoreUp h.lists h.running (h.loose _) ?_ fun t L' hw _ => ?_
    · rw [hlq]
      exact fun hc => hc rfl
    · have hi' : t.cur ≠ t.idle := by rwa [hw.cur_eq, hw.code.idle_eq]
      have hr' : t.status t.cur = .running := by rw [hw.cur_eq, hw.running, h.running]
      have hfinal : ∃ L'', LockInv q ((t.setLock q Lock.init).setPc t.cur (.run .user))
          (Function.update depth s.cur 0) L'' := by
        refine ⟨L', (hw.lists.setQueue q _).setPc_loose hi' (hw.loose h.loose), hr',
          hw.loose h.loose, ?_⟩
        rw [show ((t.setLock q Lock.init).setPc t.cur (.run .user)).lock q =
          (t.setLock q Lock.init).lock q from rfl, lock_setLock]
        change Mutex q t.all (Function.update t.pc t.cur (.run .user)) Lock.init _
        rw [hw.code.all_eq, hw.code.pc_eq, hw.cur_eq]
        exact .release ho .user
      rw [wp_goto, hlq]
      exact hfinal

theorem secure_step (hpc : s.pc s.cur ≠ .run .user)
    (hn : (∃ r k, s.pc s.cur = .nesting r k) → depth s.cur + 1 < 2 ^ 32) :
    Secure q (doStep (s.pc s.cur))
      (Function.update depth s.cur ((s.pc s.cur).depthAfter (depth s.cur))) s := by
  have hi : s.cur ≠ s.idle := by
    intro he
    rw [he] at hpc
    exact hpc h.lists.idle_pc
  have hdown : Outside q (s.pc s.cur) (depth s.cur) → Secure q (doStep (s.pc s.cur))
      (Function.update depth s.cur ((s.pc s.cur).depthAfter (depth s.cur))) s := by
    intro hout
    have hu := Function.update_eq_self s.cur depth
    generalize hp : s.pc s.cur = p at hout hpc
    have hd : p.depthAfter (depth s.cur) = depth s.cur := by
      generalize depth s.cur = d at hout
      cases hout <;> rfl
    rw [hd, hu]
    generalize depth s.cur = d at hout
    cases hout with
    | user => exact absurd rfl hpc
    | down masked => exact secure_semaphoreDown h hi hp
  cases h.mutex with
  | free hf hl => exact hdown (hf _ h.lists.cur_mem)
  | held t ht hhold ho =>
    by_cases hct : s.cur = t
    · subst hct
      exact secure_inside h hi hn hhold hpc ho
    · exact hdown (ho _ h.lists.cur_mem hct)

end Steps

/-! ## Runs -/

/-- Between two calls a thread is at no other place. -/
theorem LockInv.site {q : Nat} {s : State} {depth : Tid → Nat} {L : Head → List Node}
    (h : LockInv q s depth L) {k : Site} (hpc : s.pc s.cur = .run k) : k = .user := by
  have hout : ∀ d, Outside q (.run k) d → k = .user := by
    intro d hd
    cases hd
    rfl
  cases h.mutex with
  | free hf hl => exact hout _ (hpc ▸ hf _ h.lists.cur_mem)
  | held t ht hhold ho =>
    by_cases hct : s.cur = t
    · subst hct
      rw [hpc] at hhold
      generalize s.lock q = l, depth s.cur = d at hhold
      cases hhold
      rfl
    · exact hout _ (hpc ▸ ho _ h.lists.cur_mem hct)

namespace Nested

variable {q : Nat} {n m : Nested} {e : Event} {L : Head → List Node}

theorem secure_event (h : LockInv q n.state n.depth L) (he : Enabled n.state e) (hg : n.Locks q e)
    (hb : n.Bounded e) : Secure q (doEvent e) (n.depthAfter e) n.state := by
  cases e with
  | preempt => exact secure_preempt h
  | step => exact secure_step h he hb
  | call op =>
    have huser : (∃ k ∈ [Site.user, .reaping, .exiting], Pc.run k = n.state.pc n.state.cur) →
        n.state.pc n.state.cur = .run .user := by
      rintro ⟨k, -, hk⟩
      rw [← hk, h.site hk.symm]
    unfold doEvent
    rw [Secure, wp_bind, wp_get]
    cases op with
    | fetch r =>
      obtain rfl : r = q := hg
      have hpc := huser (List.mem_map.mp he.2)
      rw [hpc]
      exact secure_lockFetch h he.1 hpc
    | release r =>
      obtain ⟨rfl, hd⟩ := hg
      have hpc := huser (List.mem_map.mp he.2)
      rw [hpc]
      exact secure_lockRelease h he.1 hpc hd
    | block x =>
      rw [he.1]
      obtain rfl := he.2 hg
      exact secure_block h
    | _ => exact hg.elim

theorem step_inv (h : ∃ L, LockInv q n.state n.depth L) (hok : n.Locks q e ∧ n.Bounded e)
    (hst : n.Step e m) : ∃ L, LockInv q m.state m.depth L := by
  obtain ⟨L, h⟩ := h
  obtain ⟨⟨he, hrun⟩, hd⟩ := hst
  rw [hd]
  exact wp_ok (secure_event h he hok.1 hok.2) hrun

/-- An event that is enabled happens. -/
theorem progress (h : LockInv q n.state n.depth L) (he : Enabled n.state e) (hg : n.Locks q e)
    (hb : n.Bounded e) : ∃ m, n.Step e m := by
  obtain ⟨_, t, hrun, -⟩ := ok_of_wp (secure_event h he hg hb)
  exact ⟨⟨t, n.depthAfter e⟩, ⟨he, hrun⟩, rfl⟩

theorem inside_of_outside {t : Tid} (h : Outside q (n.state.pc t) (n.depth t)) : ¬ n.Inside t := by
  unfold Inside
  generalize n.state.pc t = p, n.depth t = d at h
  cases h <;> simp

theorem inside_of_holds {t : Tid} {l : Lock}
    (h : Holds q t (n.state.pc t) l (n.depth t)) : n.Inside t := by
  unfold Inside
  generalize n.state.pc t = p, n.depth t = d at h
  cases h with
  | owned => exact .inr ⟨q, .user, .inl rfl⟩
  | claimed => exact .inr ⟨q, .user, .inr rfl⟩
  | inside _ h0 => exact .inl h0
  | nesting _ h0 => exact .inl h0
  | lowering _ h0 => exact .inl (Nat.zero_lt_of_lt h0)
  | releasing => exact .inl Nat.one_pos
  | cleared => exact .inl Nat.one_pos
  | upping => exact .inl Nat.one_pos

/-- A thread that was woken and finds the semaphore taken goes to the end of the waiters. -/
theorem waits_again (h : LockInv q n.state n.depth L) {k : Site}
    (hpc : n.state.pc n.state.cur = .down q true true k) (hv : (n.state.lock q).value = 0)
    (hst : n.Step .step m) : m.state.status n.state.cur = .blocked ∧
      ∃ L', RingLists m.state.links Node.head L' ∧
        L' (.waiters q) = L (.waiters q) ++ [.tag n.state.cur] := by
  obtain ⟨⟨he, hrun⟩, -⟩ := hst
  change doStep (n.state.pc n.state.cur) n.state = .ok ((), m.state) at hrun
  rw [hpc] at hrun
  have hne : n.state.cur ≠ n.state.idle := by
    intro hi
    have hpi := h.lists.idle_pc
    rw [← hi, hpc] at hpi
    cases hpi
  have hsw := wp_ok (E := fun _ => True) (Q := fun _ t =>
    Switched ((n.state.queued (.waiters q) (.down q true true k)).setStatus n.state.cur .blocked)
      (behind L (.waiters q) n.state.cur) t)
    (wp_semaphoreDown h.lists h.loose hne rfl (fun _ _ => trivial) (fun _ _ ht => ht)
      fun hv' => absurd hv hv') hrun
  obtain ⟨-, hkeep, L', hL, -, -, hw⟩ := hsw
  have hmem : Node.tag n.state.cur ∈ behind L (.waiters q) n.state.cur (.waiters q) := by
    simp [behind]
  refine ⟨(hkeep _ _ Head.noConfusion hmem).trans (Function.update_self ..), L', hL.rings, ?_⟩
  rw [hw _ Head.noConfusion, behind, Function.update_self]

/-- The state with which the threads start. -/
def start (main idle : Tid) (others : List Tid) (parentPid : Tid → Option Tid)
    (queue : Nat → CircleQueue) : Nested :=
  ⟨State.start main idle others parentPid queue, fun _ => 0⟩

end Nested

section Runs
variable {q main idle : Nat} {others : List Tid} {parentPid : Tid → Option Tid}
  {queue : Nat → CircleQueue} {es : List Event} {n : Nested}

theorem lockInv_start (hd : (main :: others).Nodup) (hi : idle ∈ others)
    (hq : (queue q).queueLock = Lock.init) :
    ∃ L, LockInv q (State.start main idle others parentPid queue) (fun _ => 0) L := by
  obtain ⟨L, hL, hr, hl⟩ := lists_start hd hi parentPid queue
  exact ⟨L, hL, hr, hl, .free (fun _ _ => .user) hq⟩

/-- As long as no depth reaches `2 ^ 32`, the lock excludes, its counters are right, a waiter that
comes too late waits again and no check fails. -/
theorem lock_exclusion (hd : (main :: others).Nodup) (hi : idle ∈ others)
    (hq : (queue q).queueLock = Lock.init)
    (h : Run (Guarded (fun n e => Nested.Locks q n e ∧ n.Bounded e) Nested.Step)
      (Nested.start main idle others parentPid queue) es n) :
    (∀ t ∈ n.state.all, ∀ u ∈ n.state.all, n.Inside t → n.Inside u → t = u) ∧
      ((∃ t ∈ n.state.all, n.Inside t) → (n.state.lock q).value = 0) ∧
      ((¬ ∃ t ∈ n.state.all, n.Inside t) → (n.state.lock q).value = 1) ∧
      (∀ t, (n.state.lock q).holder = some t →
        (n.state.lock q).holderRepeatNr.toNat = n.depth t) ∧
      (∀ k m, n.state.pc n.state.cur = .down q true true k → (n.state.lock q).value = 0 →
        n.Step .step m → m.state.status n.state.cur = .blocked ∧
          ∃ L, RingLists m.state.links Node.head L ∧
            ∃ ws, L (.waiters q) = ws ++ [.tag n.state.cur]) ∧
      ∀ e, Enabled n.state e → n.Locks q e → n.Bounded e → ∃ m, n.Step e m := by
  obtain ⟨L, hn⟩ := h.guarded_invariant (I := fun n => ∃ L, LockInv q n.state n.depth L)
    (fun _ _ _ hs hok hst => Nested.step_inv hs hok hst) (lockInv_start hd hi hq)
  have hwait : ∀ k m, n.state.pc n.state.cur = .down q true true k → (n.state.lock q).value = 0 →
      n.Step .step m → m.state.status n.state.cur = .blocked ∧
        ∃ L, RingLists m.state.links Node.head L ∧
          ∃ ws, L (.waiters q) = ws ++ [.tag n.state.cur] := by
    intro k m hpc hv hst
    obtain ⟨hb, L', hL', hw⟩ := Nested.waits_again hn hpc hv hst
    exact ⟨hb, L', hL', _, hw⟩
  have hprog := fun e he hg hb => Nested.progress (e := e) hn he hg hb
  cases hn.mutex with
  | free hf hl =>
    have hno : ¬ ∃ t ∈ n.state.all, n.Inside t := by
      rintro ⟨t, ht, hin⟩
      exact Nested.inside_of_outside (hf t ht) hin
    refine ⟨fun t ht _ _ hin _ => (hno ⟨t, ht, hin⟩).elim, fun hin => (hno hin).elim, fun _ => ?_,
      fun t hh => ?_, hwait, hprog⟩
    · rw [hl]
      rfl
    · rw [hl] at hh
      cases hh
  | held t ht hhold ho =>
    have hin := Nested.inside_of_holds hhold
    have honly : ∀ u ∈ n.state.all, n.Inside u → u = t := fun u hu hui =>
      Classical.byContradiction fun hne => Nested.inside_of_outside (ho u hu hne) hui
    refine ⟨fun u hu v hv hui hvi => (honly u hu hui).trans (honly v hv hvi).symm,
      fun _ => hhold.value, fun hno => (hno ⟨t, ht, hin⟩).elim, fun u hu => ?_, hwait, hprog⟩
    obtain ⟨rfl, hrep⟩ := hhold.holder hu
    exact hrep

end Runs

/-! ## Nesting without a bound -/

/-- Thread 0 runs and stands at `p`. -/
structure At (n : Nested) (p : Pc) (l : Lock) (d : Nat) : Prop where
  cur_eq : n.state.cur = 0
  idle_eq : n.state.idle = 1
  pc_eq : n.state.pc 0 = p
  lock_eq : n.state.lock 0 = l
  depth_eq : n.depth 0 = d

section At
variable {n : Nested} {p p' : Pc} {l l' : Lock} {d : Nat}

theorem At.step (h : At n p l d) (hp : p ≠ .run .user)
    (hrun : ∀ s : State, s.cur = 0 → s.lock 0 = l →
      doStep p s = .ok ((), (s.setLock 0 l').setPc s.cur p')) :
    ∃ m, n.Step .step m ∧ At m p' l' (p.depthAfter d) := by
  obtain ⟨hc, hi, hpc, hl, hd⟩ := h
  have hpc' : n.state.pc n.state.cur = p := by rw [hc, hpc]
  have hr := hrun n.state hc hl
  rw [← hpc'] at hr
  refine ⟨⟨_, n.depthAfter .step⟩, ⟨⟨?_, hr⟩, rfl⟩, hc, hi, ?_, ?_, ?_⟩
  · change n.state.pc n.state.cur ≠ _
    rwa [hpc']
  · change Function.update n.state.pc n.state.cur p' 0 = p'
    rw [hc, Function.update_self]
  · exact lock_setLock n.state 0 l'
  · change Function.update n.depth n.state.cur _ 0 = _
    rw [hpc', hc, Function.update_self, hd]

theorem At.fetch (h : At n (.run .user) l d) :
    ∃ m, n.Step (.call (.fetch 0)) m ∧
      At m (if l.holder = some 0 then .nesting 0 .user else .down 0 true false .user) l d := by
  obtain ⟨hc, hi, hpc, hl, hd⟩ := h
  have hpc' : n.state.pc n.state.cur = .run .user := by rw [hc, hpc]
  let p := if l.holder = some 0 then Pc.nesting 0 .user else .down 0 true false .user
  have hr : doEvent (.call (.fetch 0)) n.state = .ok ((), n.state.setPc n.state.cur p) := by
    refine run_eq_of_wp ?_
    unfold doEvent
    rw [wp_bind, wp_get, hpc']
    simp only [doCall, lockFetch, wp_bind, wp_runningThread, wp_lockAt, wp_ite, wp_goto, hl]
    refine ⟨fun hh => ⟨trivial, ?_⟩, fun hh => ⟨trivial, ?_⟩⟩
    · rw [hc] at hh ⊢
      rw [show p = .nesting 0 .user from if_pos hh]
    · rw [hc] at hh ⊢
      rw [show p = .down 0 true false .user from if_neg hh]
  have hne : n.state.cur ≠ n.state.idle := by
    rw [hc, hi]
    decide
  refine ⟨⟨_, n.depth⟩, ⟨⟨⟨hne, by rw [hpc']; simp⟩, hr⟩, rfl⟩, hc, hi, ?_, hl, hd⟩
  change Function.update n.state.pc n.state.cur p 0 = p
  rw [hc, Function.update_self]

theorem At.bounded (h : At n p l d) (hp : ∀ q k, p ≠ .nesting q k) : n.Bounded .step := by
  rintro ⟨q, k, hpc⟩
  rw [h.cur_eq, h.pc_eq] at hpc
  exact absurd hpc (hp q k)

/-- The first fetch. -/
theorem At.first (h : At n (.run .user) Lock.init 0) :
    ∃ m, Run (Guarded (fun n e => Nested.Locks 0 n e ∧ n.Bounded e) Nested.Step) n
      [.call (.fetch 0), .step, .step, .step] m ∧ At m (.run .user) ⟨some 0, 0, 1⟩ 1 := by
  obtain ⟨m1, r1, h1⟩ := h.fetch
  rw [if_neg (by simp [Lock.init])] at h1
  obtain ⟨m2, r2, h2⟩ := @At.step _ _ (.owned 0 .user) _ ⟨none, 0, 0⟩ _ h1 Pc.noConfusion
    fun s _ hl => by
      refine run_eq_of_wp ?_
      simp [doStep, semaphoreDown, hl, Lock.init]
  obtain ⟨m3, r3, h3⟩ := @At.step _ _ (.claimed 0 .user) _ ⟨some 0, 0, 0⟩ _ h2 Pc.noConfusion
    fun s hc hl => by
      refine run_eq_of_wp ?_
      simp [doStep, hl, hc]
  obtain ⟨m4, r4, h4⟩ := @At.step _ _ (.run .user) _ ⟨some 0, 0, 1⟩ _ h3 Pc.noConfusion
    fun s _ hl => by
      refine run_eq_of_wp ?_
      simp [doStep, hl]
  exact ⟨m4, .cons ⟨⟨rfl, trivial⟩, r1⟩ <|
    .cons ⟨⟨trivial, h1.bounded fun _ _ => Pc.noConfusion⟩, r2⟩ <|
    .cons ⟨⟨trivial, h2.bounded fun _ _ => Pc.noConfusion⟩, r3⟩ <|
    .single ⟨⟨trivial, h3.bounded fun _ _ => Pc.noConfusion⟩, r4⟩, h4⟩

/-- One more fetch by the holder. -/
theorem At.again {k : BitVec 32} (h : At n (.run .user) ⟨some 0, 0, k⟩ d) :
    ∃ m, Run (Guarded (Nested.Locks 0) Nested.Step) n [.call (.fetch 0), .step] m ∧
      At m (.run .user) ⟨some 0, 0, k + 1⟩ (d + 1) := by
  obtain ⟨m1, r1, h1⟩ := h.fetch
  rw [if_pos rfl] at h1
  obtain ⟨m2, r2, h2⟩ := @At.step _ _ (.run .user) _ ⟨some 0, 0, k + 1⟩ _ h1 Pc.noConfusion
    fun s _ hl => by
      refine run_eq_of_wp ?_
      simp [doStep, hl]
  exact ⟨m2, .cons ⟨rfl, r1⟩ (.single ⟨trivial, r2⟩), h2⟩

end At

theorem nest (k : Nat) : ∃ es n, Run (Guarded (Nested.Locks 0) Nested.Step)
      (Nested.start 0 1 [1] (fun _ => none) fun _ => .init 64) es n ∧
    At n (.run .user) ⟨some 0, 0, BitVec.ofNat 32 (k + 1)⟩ (k + 1) := by
  induction k with
  | zero =>
    have h : At (Nested.start 0 1 [1] (fun _ => none) fun _ => .init 64) (.run .user) Lock.init 0 :=
      ⟨rfl, rfl, rfl, rfl, rfl⟩
    obtain ⟨m, hm, hat⟩ := h.first
    exact ⟨_, m, hm.mono fun _ _ _ hst => ⟨hst.1.1, hst.2⟩, hat⟩
  | succ k ih =>
    obtain ⟨es, n, hrun, hn⟩ := ih
    obtain ⟨m, hm, hat⟩ := hn.again
    refine ⟨_, m, hrun.append hm, ?_⟩
    rw [BitVec.ofNat_add (x := k + 1)]
    exact hat

/-- After `2 ^ 32` fetches the counter of the lock is 0. -/
theorem nesting_wraps : ∃ es n, Run (Guarded (Nested.Locks 0) Nested.Step)
      (Nested.start 0 1 [1] (fun _ => none) fun _ => .init 64) es n ∧
    (n.state.lock 0).holder = some 0 ∧ (n.state.lock 0).holderRepeatNr.toNat ≠ n.depth 0 := by
  obtain ⟨es, n, hrun, -, -, -, hl, hd⟩ := nest (2 ^ 32 - 1)
  refine ⟨es, n, hrun, by rw [hl], ?_⟩
  rw [hl, hd, BitVec.toNat_ofNat]
  decide

/-- The main thread has fetched the lock. -/
theorem lock_exclusion_first :
    ∃ n, Run (Guarded (fun n e => Nested.Locks 0 n e ∧ n.Bounded e) Nested.Step)
        (Nested.start 0 1 [1] (fun _ => none) fun _ => .init 64)
        [.call (.fetch 0), .step, .step, .step] n ∧
      n.depth 0 = 1 ∧ (n.state.lock 0).holderRepeatNr.toNat = n.depth 0 := by
  have h : At (Nested.start 0 1 [1] (fun _ => none) fun _ => .init 64) (.run .user) Lock.init 0 :=
    ⟨rfl, rfl, rfl, rfl, rfl⟩
  obtain ⟨n, hn, hat⟩ := h.first
  exact ⟨n, hn, hat.depth_eq, (lock_exclusion (q := 0) (by decide) (by decide) rfl hn).2.2.2.1 0
    (by rw [hat.lock_eq])⟩

end Frog.Thread
