import Frog.Thread.Mutex

/-!
# Nobody waits for a lock in vain

A thread that sleeps stands in the waiting list of the lock, and as long as somebody stands there a
thread that runs or is ready is inside or about to test the semaphore.
-/

namespace Frog.Thread

set_option autoImplicit false
open Prog

/-- It runs or has its turn in the ready list. -/
def Up (s : State) (u : Tid) : Prop := u = s.cur ∨ s.status u = .ready

/-- Who was ready is ready still, or runs. -/
def StillUp (s t : State) : Prop := ∀ u, s.status u = .ready → Up t u

/-! ## Switches -/

section Switches
variable {s : State} {L : Head → List Node}

theorem wp_threadUnblock_status {Q : Unit → State → Prop} {t : Tid}
    (hQ : ∀ l, Q () ((s.setLinks l).setStatus t .ready)) :
    wp (fun _ => True) (threadUnblock t) Q s := by
  unfold threadUnblock listFindElement
  simp only [wp_bind, wp_get, wp_check, wp_need, wp_listAdd, wp_setStatus, implies_true, and_true]
  exact fun _ _ _ _ => hQ _

theorem wp_dispatch_stillUp : wp (fun _ => True) dispatch (fun _ t => StillUp s t) s := by
  -- the pop makes one thread the running one and leaves the other statuses
  have hpop : ∀ s' : State, (∀ u, s.status u = .ready → s'.status u = .ready) →
      wp (fun _ => True) (listPop .ready >>= fun tag => containerOf tag >>= fun next =>
        setStatus next .running >>= fun _ => modify fun s => { s with cur := next })
        (fun _ t => StillUp s t) s' := by
    intro s' hkeep
    simp only [wp_bind, wp_listPop]
    cases s'.links.next (.head .ready) with
    | head h => simp [containerOf]
    | tag x =>
      simp only [wp_containerOf_tag, wp_setStatus, wp_modify]
      intro u hu
      by_cases hux : u = x
      · exact .inl hux
      · refine .inr ?_
        change Function.update s'.status x .running u = .ready
        rw [Function.update_of_ne hux]
        exact hkeep u hu
  unfold dispatch
  simp only [wp_bind, wp_get, wp_listIsEmpty]
  split
  · rw [wp_bind]
    refine wp_threadUnblock_status fun l => ?_
    refine hpop _ fun u hu => ?_
    change Function.update s.status s.idle .ready u = .ready
    by_cases hui : u = s.idle
    · rw [hui, Function.update_self]
    · rw [Function.update_of_ne hui, hu]
  · exact hpop s fun _ hu => hu

theorem wp_preempt_stillUp (hL : Lists s L) (hs : s.status s.cur = .running) :
    wp (fun _ => True) schedule (fun _ t => StillUp s.requeued t) s := by
  unfold schedule
  simp only [wp_bind, wp_get]
  rw [if_pos hs]
  simp only [wp_bind]
  rw [wp_listFindElement hL]
  simp only [wp_check, wp_listAddTail, wp_setStatus, implies_true, and_true]
  exact fun _ => wp_dispatch_stillUp

theorem wp_threadBlock_stillUp :
    wp (fun _ => True) (threadBlock .blocked)
      (fun _ t => StillUp (s.setStatus s.cur .blocked) t) s := by
  unfold threadBlock schedule
  have hst : (s.setStatus s.cur .blocked).status (s.setStatus s.cur .blocked).cur = .blocked :=
    Function.update_self ..
  simp only [wp_bind, wp_check, wp_runningThread, wp_setStatus, wp_get, hst, reduceCtorEq,
    if_false, implies_true, and_true]
  exact fun _ => wp_dispatch_stillUp

theorem wp_semaphoreDown_stillUp {q : Nat} {again through : Pc} (hL : Lists s L)
    (hv : (s.lock q).value = 0) :
    wp (fun _ => True) (semaphoreDown q again through) (fun _ t =>
      StillUp ((s.queued (.waiters q) again).setStatus s.cur .blocked) t) s := by
  unfold semaphoreDown
  simp only [wp_bind, wp_lockAt]
  rw [if_pos hv]
  simp only [wp_bind, wp_runningThread]
  rw [wp_listFindElement hL]
  simp only [wp_check, wp_listAddTail, wp_goto, implies_true, and_true]
  exact fun _ => wp_threadBlock_stillUp

/-- `semaphore_up` adds one, and takes the first thread out of the waiting list and makes it
ready. -/
theorem wp_semaphoreUp_exact {Q : Unit → State → Prop} {q : Nat} (hL : Lists s L)
    (hnil : L (.waiters q) = [] →
      Q () (s.setLock q { s.lock q with value := (s.lock q).value + 1 }))
    (hcons : ∀ w ws, L (.waiters q) = .tag w :: ws →
      Lists ((s.setLinks (s.links.delInit (.tag w))).unblocked w)
        (enlist (Function.update L (.waiters q) ws) w) →
      Q () (((s.setLinks (s.links.delInit (.tag w))).unblocked w).setLock q
        { s.lock q with value := (s.lock q).value + 1 })) :
    wp (fun _ => True) (semaphoreUp q) Q s := by
  unfold semaphoreUp
  simp only [wp_bind, wp_listIsEmpty, isEmpty_eq hL]
  by_cases hemp : L (.waiters q) = []
  · simp only [hemp, decide_true, Bool.true_eq_false, if_false, wp_bind, wp_lockAt, wp_check,
      wp_setLock, implies_true, and_true]
    exact fun _ => hnil hemp
  · obtain ⟨n, ws, hw⟩ := List.exists_cons_of_ne_nil hemp
    obtain ⟨w, hwm, rfl⟩ := hL.tags (.waiters q) n (by simp [hw])
    obtain ⟨hL', hl⟩ := hL.popped Head.noConfusion hw
    simp only [hemp, decide_false, if_true, wp_bind, wp_listPop, (hL.rings.pop hw).1,
      wp_containerOf_tag]
    refine wp_threadUnblock hL' hwm (fun _ => hl) (fun _ => trivial) fun _ hL'' => ?_
    simp only [wp_lockAt, wp_check, wp_setLock, implies_true, and_true]
    exact fun _ => hcons w ws hw hL''

end Switches

/-! ## The steps -/

structure Attended (q : Nat) (s : State) (L : Head → List Node) : Prop where
  accounted : ∀ u ∈ s.all, u ≠ s.idle → Up s u ∨ .tag u ∈ L (.waiters q)
  roused : (s.lock q).value ≠ 0 → L (.waiters q) ≠ [] →
    ∃ u ∈ s.all, Up s u ∧ s.pc u = .down q true true .user

/-- Between two steps, with `i` for the idle thread. -/
structure Calm (q : Nat) (i : Tid) (s : State) (L : Head → List Node) : Prop where
  lists : Lists s L
  running : s.status s.cur = .running
  loose : Loose L s.cur
  attended : Attended q s L
  idle : s.idle = i

abbrev Attends (q : Nat) (i : Tid) (m : M Unit) (s : State) : Prop :=
  wp (fun _ => True) m (fun _ t => ∃ L, Calm q i t L) s

/-- Who waits in the list of the lock stands in the loop of `semaphore_down`. -/
theorem Mutex.waiter {q : Nat} {all : List Tid} {pc : Tid → Pc} {l : Lock} {depth : Tid → Nat}
    {u : Tid} (h : Mutex q all pc l depth) (hu : u ∈ all)
    (hw : (pc u).waitsIn = some (.waiters q)) : pc u = .down q true true .user := by
  have hout : Outside q (pc u) (depth u) → pc u = .down q true true .user := by
    intro ho
    generalize pc u = p, depth u = d at ho hw
    cases ho with
    | user => cases hw
    | down masked =>
      cases masked with
      | false => cases hw
      | true => rfl
  cases h with
  | free hf _ => exact hout (hf u hu)
  | held t ht hh ho =>
    by_cases hut : u = t
    · subst hut
      generalize pc u = p, depth u = d at hh hw
      cases hh <;> cases hw
    · exact hout (ho u hu hut)

section Steps
variable {q i : Nat} {s t : State} {depth : Tid → Nat} {L : Head → List Node}

/-- A switch from a state in which the running thread is ready or has put itself into a list. -/
theorem Switched.calm (h : Switched s L t) (hup : StillUp s t) (hi : s.idle = i)
    (hacc : ∀ u ∈ s.all, u ≠ s.idle → s.status u = .ready ∨ .tag u ∈ L (.waiters q))
    (hr : (s.lock q).value ≠ 0 → L (.waiters q) ≠ [] →
      ∃ u ∈ s.all, s.status u = .ready ∧ s.pc u = .down q true true .user) :
    ∃ L', Calm q i t L' := by
  obtain ⟨hc, -, L', hL', hrun, hl, hsame⟩ := h
  have hw : L' (.waiters q) = L (.waiters q) := hsame _ Head.noConfusion
  refine ⟨L', hL', hrun, hl, ⟨fun u hu hui => ?_, fun hv hne => ?_⟩, ?_⟩
  · rw [hc.all_eq] at hu
    rw [hc.idle_eq] at hui
    rw [hw]
    exact (hacc u hu hui).imp_left (hup u)
  · rw [hc.lock_eq] at hv
    rw [hw] at hne
    obtain ⟨u, hu, hready, hpc⟩ := hr hv hne
    exact ⟨u, hc.all_eq ▸ hu, hup u hready, by rw [hc.pc_eq, hpc]⟩
  · rw [hc.idle_eq, hi]

variable (h : Calm q i s L)
include h

/-- A step that changes no list, no status and not the value of the semaphore. -/
theorem Calm.setLock_goto (hi : s.cur ≠ s.idle) {l : Lock} {p : Pc}
    (hv : l.value = (s.lock q).value) (hpc : s.pc s.cur ≠ .down q true true .user) :
    ∃ L', Calm q i ((s.setLock q l).setPc s.cur p) L' := by
  refine ⟨L, (h.lists.setQueue q _).setPc_loose hi h.loose, h.running, h.loose,
    ⟨h.attended.accounted, fun hv' hne => ?_⟩, h.idle⟩
  rw [show ((s.setLock q l).setPc s.cur p).lock q = (s.setLock q l).lock q from rfl, lock_setLock,
    hv] at hv'
  obtain ⟨u, hu, hup, hpu⟩ := h.attended.roused hv' hne
  have hne : u ≠ s.cur := fun he => hpc (he ▸ hpu)
  exact ⟨u, hu, hup, (Function.update_of_ne hne ..).trans hpu⟩

theorem Calm.goto (hi : s.cur ≠ s.idle) {p : Pc} (hpc : s.pc s.cur ≠ .down q true true .user) :
    ∃ L', Calm q i (s.setPc s.cur p) L' := by
  refine ⟨L, h.lists.setPc_loose hi h.loose, h.running, h.loose,
    ⟨h.attended.accounted, fun hv hne => ?_⟩, h.idle⟩
  obtain ⟨u, hu, hup, hpu⟩ := h.attended.roused hv hne
  have hne : u ≠ s.cur := fun he => hpc (he ▸ hpu)
  exact ⟨u, hu, hup, (Function.update_of_ne hne ..).trans hpu⟩

theorem attends_preempt : Attends q i schedule s := by
  refine wp_mono (wp_and (wp_schedule_running (E := fun _ => True) (Q := fun _ t => Switched s L t)
    h.lists h.running h.loose fun _ ht => ht) (wp_preempt_stillUp h.lists h.running)) ?_
  rintro - t ⟨hsw, hup⟩
  have hst : ∀ u, s.requeued.status u = if u = s.cur then .ready else s.status u :=
    fun u => Function.update_apply ..
  -- once it is behind the ready list the running thread is ready too
  have hready : ∀ u, Up s u → s.requeued.status u = .ready := by
    rintro u (rfl | hu)
    · rw [hst, if_pos rfl]
    · rw [hst, hu, ite_self]
  have hsw' : Switched s.requeued L t := by
    obtain ⟨hc, hkeep, hrest⟩ := hsw
    refine ⟨⟨hc.1, hc.2, hc.3, hc.4, hc.5, hc.6, hc.7⟩, fun k u hk hu => ?_, hrest⟩
    have hne : u ≠ s.cur := fun he => h.loose k (he ▸ hu)
    rw [hst, if_neg hne]
    exact hkeep k u hk hu
  refine hsw'.calm hup h.idle (fun u hu hui => ?_) fun hv hne => ?_
  · exact (h.attended.accounted u hu hui).imp_left (hready u)
  · obtain ⟨u, hu, hu', hpc⟩ := h.attended.roused hv hne
    exact ⟨u, hu, hready u hu', hpc⟩

/-- The idle thread blocks itself. -/
theorem attends_block (hi : s.cur = s.idle) : Attends q i (threadBlock .blocked) s := by
  refine wp_mono (wp_and (wp_threadBlock (E := fun _ => True)
    (Q := fun _ t => Switched (s.setStatus s.cur .blocked) L t) h.lists (h.loose _)
    (fun _ => trivial) (fun k _ hm => absurd hm (h.loose k)) (fun _ => rfl) fun _ _ ht => ht)
    wp_threadBlock_stillUp) ?_
  rintro - t ⟨hsw, hup⟩
  have hst : ∀ u, Up s u → u ≠ s.idle → (s.setStatus s.cur .blocked).status u = .ready := by
    intro u hu hui
    have hne : u ≠ s.cur := fun he => hui (he.trans hi)
    change Function.update s.status s.cur .blocked u = .ready
    rw [Function.update_of_ne hne]
    exact hu.resolve_left hne
  refine hsw.calm hup h.idle (fun u hu hui => ?_) fun hv hne => ?_
  · exact (h.attended.accounted u hu hui).imp_left fun hu' => hst u hu' hui
  · obtain ⟨u, hu, hu', hpc⟩ := h.attended.roused hv hne
    refine ⟨u, hu, hst u hu' fun he => ?_, hpc⟩
    rw [he, h.lists.idle_pc] at hpc
    cases hpc

theorem attends_semaphoreDown (hi : s.cur ≠ s.idle) :
    Attends q i (semaphoreDown q (.down q true true .user) (.owned q .user)) s := by
  by_cases hv : (s.lock q).value = 0
  · refine wp_mono (wp_and (wp_semaphoreDown (E := fun _ => True) (Q := fun _ t =>
      Switched ((s.queued (.waiters q) (.down q true true .user)).setStatus s.cur .blocked)
        (behind L (.waiters q) s.cur) t) h.lists h.loose hi rfl (fun _ _ => trivial)
      (fun _ _ ht => ht) fun hv' => absurd hv hv') (wp_semaphoreDown_stillUp h.lists hv)) ?_
    rintro - t ⟨hsw, hup⟩
    have hb : behind L (.waiters q) s.cur (.waiters q) = L (.waiters q) ++ [.tag s.cur] :=
      Function.update_self ..
    refine hsw.calm hup h.idle (fun u hu hui => ?_) fun hv' => absurd hv hv'
    rw [hb, List.mem_append, List.mem_singleton]
    by_cases huc : u = s.cur
    · rw [huc]
      exact .inr (.inr rfl)
    · rcases h.attended.accounted u hu hui with hu' | hu'
      · refine .inl ?_
        change Function.update s.status s.cur .blocked u = .ready
        rw [Function.update_of_ne huc]
        exact hu'.resolve_left huc
      · exact .inr (.inl hu')
  · refine wp_semaphoreDown h.lists h.loose hi rfl (fun _ _ => trivial) (fun hv' => absurd hv' hv)
      fun _ hzero => ?_
    refine ⟨L, (h.lists.setQueue q _).setPc_loose hi h.loose, h.running, h.loose,
      ⟨h.attended.accounted, fun hv' => ?_⟩, h.idle⟩
    change ((s.setLock q _).lock q).value ≠ 0 at hv'
    rw [lock_setLock] at hv'
    exact absurd hzero hv'

theorem attends_semaphoreUp (hi : s.cur ≠ s.idle) (hm : Mutex q s.all s.pc (s.lock q) depth) :
    Attends q i (semaphoreUp q >>= fun _ => Thread.goto (.run .user)) s := by
  simp only [Attends, wp_bind, wp_goto]
  refine wp_semaphoreUp_exact h.lists (fun hnil => ?_) fun w ws hw hL' => ?_
  · refine ⟨L, (h.lists.setQueue q _).setPc_loose hi h.loose, h.running, h.loose,
      ⟨h.attended.accounted, fun _ hne => absurd hnil hne⟩, h.idle⟩
  · have hwm : Node.tag w ∈ L (.waiters q) := by simp [hw]
    have hwc : w ≠ s.cur := fun he => h.loose _ (he ▸ hwm)
    obtain ⟨u, hu, hue⟩ := h.lists.tags _ _ hwm
    cases hue
    have hwpc := hm.waiter hu (h.lists.waits _ w Head.noConfusion hwm).1
    have hst : ∀ u, ((s.setLinks (s.links.delInit (.tag w))).unblocked w).status u =
        if u = w then .ready else s.status u := fun u => Function.update_apply ..
    have hrun : ((s.setLinks (s.links.delInit (.tag w))).unblocked w).status s.cur = .running := by
      rw [hst, if_neg hwc.symm]
      exact h.running
    have hloose : Loose (enlist (Function.update L (.waiters q) ws) w) s.cur := by
      intro k hk
      by_cases hkr : k = .ready
      · subst hkr
        have := ((hL'.ready s.cur).mp hk).2
        rw [hrun] at this
        cases this
      · rw [enlist_of_ne hkr] at hk
        by_cases hkw : k = .waiters q
        · subst hkw
          rw [Function.update_self] at hk
          exact h.loose _ (hw ▸ List.mem_cons_of_mem _ hk)
        · rw [Function.update_of_ne hkw] at hk
          exact h.loose k hk
    have hwait : enlist (Function.update L (.waiters q) ws) w (.waiters q) = ws := by
      rw [enlist_of_ne Head.noConfusion, Function.update_self]
    refine ⟨_, (hL'.setQueue q _).setPc_loose hi hloose, hrun, hloose, ⟨fun u hu hui => ?_,
      fun _ _ => ⟨w, hu, .inr ?_, ?_⟩⟩, h.idle⟩
    · rw [hwait]
      by_cases huw : u = w
      · refine .inl (.inr ?_)
        exact (hst u).trans (if_pos huw)
      · rcases h.attended.accounted u hu hui with (hu' | hu') | hu'
        · exact .inl (.inl hu')
        · exact .inl (.inr (((hst u).trans (if_neg huw)).trans hu'))
        · rw [hw] at hu'
          rcases List.mem_cons.mp hu' with he | hm
          · cases he
            exact absurd rfl huw
          · exact .inr hm
    · exact (hst w).trans (if_pos rfl)
    · exact (Function.update_of_ne hwc ..).trans hwpc

theorem attends_step (hm : Mutex q s.all s.pc (s.lock q) depth) (hpc : s.pc s.cur ≠ .run .user) :
    Attends q i (doStep (s.pc s.cur)) s := by
  have hi : s.cur ≠ s.idle := by
    intro he
    rw [he] at hpc
    exact hpc h.lists.idle_pc
  have hgo : ∀ l p, l.value = (s.lock q).value → s.pc s.cur ≠ .down q true true .user →
      ∃ L', Calm q i ((s.setLock q l).setPc s.cur p) L' := fun l p => h.setLock_goto hi
  have hdown : Outside q (s.pc s.cur) (depth s.cur) → Attends q i (doStep (s.pc s.cur)) s := by
    intro hout
    generalize s.pc s.cur = p, depth s.cur = d at hout hpc
    cases hout with
    | user => exact absurd rfl hpc
    | down masked => exact attends_semaphoreDown h hi
  cases hm with
  | free hf hl => exact hdown (hf _ h.lists.cur_mem)
  | held t ht hhold ho =>
    by_cases hct : s.cur = t
    · have hup := attends_semaphoreUp h hi (.held t ht hhold ho)
      subst hct
      generalize hp : s.pc s.cur = p at hhold hpc hgo
      generalize s.lock q = l, depth s.cur = d at hhold
      cases hhold with
      | inside => exact absurd rfl hpc
      | upping => exact hup
      | owned | claimed | nesting | lowering | releasing | cleared =>
        simp only [Attends, doStep, wp_bind, wp_runningThread, wp_lockAt, wp_check, wp_setLock,
          wp_goto, implies_true, and_true]
        first
          | exact hgo _ _ rfl Pc.noConfusion
          | exact fun _ => hgo _ _ rfl Pc.noConfusion
    · exact hdown (ho _ h.lists.cur_mem hct)

theorem attends_lockFetch (hi : s.cur ≠ s.idle) (hpc : s.pc s.cur = .run .user) :
    Attends q i (lockFetch q .user) s := by
  have hgo : ∀ p, ∃ L', Calm q i (s.setPc s.cur p) L' := fun p => h.goto hi (by simp [hpc])
  simp only [Attends, lockFetch, wp_bind, wp_runningThread, wp_lockAt, wp_ite, wp_goto]
  exact ⟨fun _ => hgo _, fun _ => hgo _⟩

theorem attends_lockRelease (hi : s.cur ≠ s.idle) (hpc : s.pc s.cur = .run .user) :
    Attends q i (lockRelease q .user) s := by
  have hgo : ∀ p, ∃ L', Calm q i (s.setPc s.cur p) L' := fun p => h.goto hi (by simp [hpc])
  simp only [Attends, lockRelease, wp_bind, wp_lockAt, wp_ite, wp_check, wp_goto, implies_true,
    and_true]
  exact ⟨fun _ => hgo _, fun _ _ => hgo _⟩

end Steps

/-! ## Runs -/

/-- The invariant of the lock, with somebody for those who wait. -/
structure LockLive (q : Nat) (i : Tid) (n : Nested) : Prop where
  inv : ∃ L, LockInv q n.state n.depth L
  calm : ∃ L, Calm q i n.state L
  idle_depth : n.depth i = 0

namespace Nested

variable {q i : Nat} {n m : Nested} {e : Event} {L : Head → List Node}

theorem attends_event (h : LockInv q n.state n.depth L) (hc : ∃ L, Calm q i n.state L)
    (he : Enabled n.state e) (hg : n.Locks q e) : Attends q i (doEvent e) n.state := by
  obtain ⟨L', hc⟩ := hc
  cases e with
  | preempt => exact attends_preempt hc
  | step => exact attends_step hc h.mutex he
  | call op =>
    have huser : (∃ k ∈ [Site.user, .reaping, .exiting], Pc.run k = n.state.pc n.state.cur) →
        n.state.pc n.state.cur = .run .user := by
      rintro ⟨k, -, hk⟩
      rw [← hk, h.site hk.symm]
    unfold doEvent
    rw [Attends, wp_bind, wp_get]
    cases op with
    | fetch r =>
      obtain rfl : r = q := hg
      have hpc := huser (List.mem_map.mp he.2)
      rw [hpc]
      exact attends_lockFetch hc he.1 hpc
    | release r =>
      obtain ⟨rfl, -⟩ := hg
      have hpc := huser (List.mem_map.mp he.2)
      rw [hpc]
      exact attends_lockRelease hc he.1 hpc
    | block x =>
      rw [he.1]
      obtain rfl := he.2 hg
      exact attends_block hc hg
    | _ => exact hg.elim

/-- The idle thread takes no step, so its depth stays. -/
theorem idle_depth_step (hL : Lists n.state L) (hd : n.depth n.state.idle = 0)
    (hst : n.Step e m) : m.depth n.state.idle = 0 := by
  obtain ⟨⟨he, -⟩, hdepth⟩ := hst
  rw [hdepth]
  cases e with
  | preempt => exact hd
  | call op => exact hd
  | step =>
    have hne : n.state.idle ≠ n.state.cur := by
      intro hi
      have hpc : n.state.pc n.state.cur ≠ .run .user := he
      rw [← hi] at hpc
      exact hpc hL.idle_pc
    change Function.update n.depth n.state.cur _ n.state.idle = 0
    rw [Function.update_of_ne hne, hd]

theorem live_step (h : LockLive q i n) (hok : n.Locks q e ∧ n.Bounded e) (hst : n.Step e m) :
    LockLive q i m := by
  have hinv := step_inv h.inv hok hst
  obtain ⟨L, hL⟩ := h.inv
  have hcalm := wp_ok (attends_event hL h.calm hst.1.1 hok.1) hst.1.2
  obtain ⟨L', hL'⟩ := h.calm
  have hd := idle_depth_step (n := n) hL'.lists (hL'.idle.symm ▸ h.idle_depth) hst
  rw [hL'.idle] at hd
  exact ⟨hinv, hcalm, hd⟩

/-- At the start nobody waits. -/
theorem live_start {main idle : Tid} {others : List Tid} {parentPid : Tid → Option Tid}
    {queue : Nat → CircleQueue} (hd : (main :: others).Nodup) (hi : idle ∈ others)
    (hq : (queue q).queueLock = Lock.init) :
    LockLive q idle (start main idle others parentPid queue) := by
  obtain ⟨L, hL, hr, hl⟩ := lists_start hd hi parentPid queue
  have hnil : L (.waiters q) = [] := by
    rw [List.eq_nil_iff_forall_not_mem]
    intro x hx
    obtain ⟨t, -, rfl⟩ := hL.tags _ x hx
    exact hL.not_waiting rfl _ Head.noConfusion hx
  refine ⟨lockInv_start hd hi hq, ⟨L, hL, hr, hl, ⟨fun u _ _ => .inl ?_, fun _ hne => ?_⟩, rfl⟩, rfl⟩
  · by_cases hu : u = main
    · exact .inl hu
    · exact .inr (if_neg hu)
  · exact absurd hnil hne

end Nested

namespace Nested

/-- What an event that does not stop leaves. -/
def after (n : Nested) (e : Event) : Nested :=
  ⟨match doEvent e n.state with
    | .ok (_, t) => t
    | .error _ => n.state, n.depthAfter e⟩

theorem step_after {n : Nested} {e : Event} (he : Enabled n.state e)
    (hrun : (doEvent e n.state).isOk = true) : n.Step e (n.after e) := by
  refine ⟨⟨he, ?_⟩, rfl⟩
  unfold after
  cases h : doEvent e n.state with
  | error x =>
    rw [h] at hrun
    cases hrun
  | ok r => rfl

end Nested

/-- In every reachable state the threads asleep are, the idle thread aside, those in the waiting
list of the lock, in the loop of `semaphore_down`; and as long as one waits, a thread that runs or
is ready has the lock or is about to test the semaphore. -/
theorem lock_attended {q main idle : Nat} {others : List Tid} {parentPid : Tid → Option Tid}
    {queue : Nat → CircleQueue} {es : List Event} {n : Nested} (hd : (main :: others).Nodup)
    (hi : idle ∈ others) (hq : (queue q).queueLock = Lock.init)
    (h : Run (Guarded (fun n e => Nested.Locks q n e ∧ n.Bounded e) Nested.Step)
      (Nested.start main idle others parentPid queue) es n) :
    ∃ L, RingLists n.state.links Node.head L ∧
      (∀ u ∈ n.state.all, u ≠ idle →
        (¬ Up n.state u ↔ .tag u ∈ L (.waiters q)) ∧
          (.tag u ∈ L (.waiters q) → n.state.pc u = .down q true true .user)) ∧
      (L (.waiters q) ≠ [] → ∃ u ∈ n.state.all, Up n.state u ∧
        (n.Inside u ∧ (n.state.lock q).value = 0 ∨
          n.state.pc u = .down q true true .user ∧ (n.state.lock q).value = 1)) := by
  obtain ⟨⟨L', hinv⟩, ⟨L, hc⟩, hdepth⟩ := h.guarded_invariant (I := LockLive q idle)
    (fun _ _ _ hs hok hst => Nested.live_step hs hok hst) (Nested.live_start hd hi hq)
  obtain ⟨hL, hr, hl, hatt, hidle⟩ := hc
  have hdown : ∀ u, .tag u ∈ L (.waiters q) → ¬ Up n.state u := by
    rintro u hu (rfl | hready)
    · exact hl _ hu
    · obtain ⟨t, ht, hte⟩ := hL.tags _ _ hu
      cases hte
      have := hL.rings.mem_unique hu ((hL.ready u).mpr ⟨ht, hready⟩)
      cases this
  refine ⟨L, hL.rings, fun u hu hui => ⟨⟨fun hup => ?_, hdown u⟩, fun hw => ?_⟩, fun hne => ?_⟩
  · exact (hatt.accounted u hu (hidle.symm ▸ hui)).resolve_left hup
  · exact hinv.mutex.waiter hu (hL.waits _ u Head.noConfusion hw).1
  · cases hinv.mutex with
    | free hf hlock =>
      have hv : (n.state.lock q).value = 1 := by rw [hlock]; rfl
      obtain ⟨u, hu, hup, hpc⟩ := hatt.roused (by rw [hv]; decide) hne
      exact ⟨u, hu, hup, .inr ⟨hpc, hv⟩⟩
    | held t ht hhold ho =>
      refine ⟨t, ht, ?_, .inl ⟨Nested.inside_of_holds hhold, hhold.value⟩⟩
      have hti : t ≠ n.state.idle := by
        intro he
        have hpc : n.state.pc t = .run .user := he ▸ hL.idle_pc
        have hd0 : n.depth t = 0 := by rw [he, hidle, hdepth]
        rw [hpc, hd0] at hhold
        generalize n.state.lock q = l at hhold
        cases hhold with
        | inside _ h0 => exact absurd h0 (Nat.lt_irrefl 0)
      refine (hatt.accounted t ht hti).resolve_right fun hw => ?_
      have hpc := hinv.mutex.waiter ht (hL.waits _ t Head.noConfusion hw).1
      rw [hpc] at hhold
      generalize n.state.lock q = l, n.depth t = d at hhold
      cases hhold

/-- Thread 2 has the lock when thread 0 calls `lock_fetch`. -/
theorem lock_attended_waiter :
    ∃ n, Run (Guarded (fun n e => Nested.Locks 0 n e ∧ n.Bounded e) Nested.Step)
        (Nested.start 0 1 [1, 2] (fun _ => none) fun _ => .init 64)
        [.preempt, .call (.fetch 0), .step, .step, .step, .preempt, .preempt, .call (.fetch 0),
          .step] n ∧
      ∃ L, RingLists n.state.links Node.head L ∧ .tag 0 ∈ L (.waiters 0) ∧
        ∃ u ∈ n.state.all, Up n.state u ∧
          (n.Inside u ∧ (n.state.lock 0).value = 0 ∨
            n.state.pc u = .down 0 true true .user ∧ (n.state.lock 0).value = 1) := by
  obtain ⟨n, hn, hall, hdown⟩ : ∃ n, Run (Guarded (fun n e => Nested.Locks 0 n e ∧ n.Bounded e)
      Nested.Step) (Nested.start 0 1 [1, 2] (fun _ => none) fun _ => .init 64)
      [.preempt, .call (.fetch 0), .step, .step, .step, .preempt, .preempt, .call (.fetch 0),
        .step] n ∧ 0 ∈ n.state.all ∧ ¬ Up n.state 0 := by
    refine ⟨_, .cons ⟨⟨trivial, trivial⟩, Nested.step_after ?_ ?_⟩ <|
      .cons ⟨⟨rfl, trivial⟩, Nested.step_after ⟨?_, ?_⟩ ?_⟩ <|
      .cons ⟨⟨trivial, fun _ => ?_⟩, Nested.step_after (show _ ≠ _ from ?_) ?_⟩ <|
      .cons ⟨⟨trivial, fun _ => ?_⟩, Nested.step_after (show _ ≠ _ from ?_) ?_⟩ <|
      .cons ⟨⟨trivial, fun _ => ?_⟩, Nested.step_after (show _ ≠ _ from ?_) ?_⟩ <|
      .cons ⟨⟨trivial, trivial⟩, Nested.step_after (show _ = _ from ?_) ?_⟩ <|
      .cons ⟨⟨trivial, trivial⟩, Nested.step_after (show _ = _ from ?_) ?_⟩ <|
      .cons ⟨⟨rfl, trivial⟩, Nested.step_after ⟨?_, ?_⟩ ?_⟩ <|
      .single ⟨⟨trivial, fun _ => ?_⟩, Nested.step_after (show _ ≠ _ from ?_) ?_⟩, ?_, ?_⟩
    case refine_1 => exact rfl
    case refine_26 =>
      rintro (h | h)
      · exact absurd h (by decide +kernel)
      · exact absurd h (by decide +kernel)
    all_goals decide +kernel
  obtain ⟨L, hL, hasleep, hup⟩ := lock_attended (q := 0) (by decide) (by decide) rfl hn
  have hw : Node.tag 0 ∈ L (.waiters 0) := (hasleep 0 hall (by decide)).1.mp hdown
  exact ⟨n, hn, L, hL, hw, hup (List.ne_nil_of_mem hw)⟩

end Frog.Thread
