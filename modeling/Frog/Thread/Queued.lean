import Frog.Thread.Waits

/-!
# Where a thread is queued

Four things break the lists: a switch while the running thread is in a waiting list, a yield
beside none or several ready threads, and a wake-up, directly or by a child that exits, of a thread
that waits in a list. Every run without them keeps every thread in one list at most.
-/

namespace Frog.Thread

set_option autoImplicit false
open Prog

/-- Each list is circular, no thread is in two lists or in one twice, and the ready list holds the
threads whose status is ready. -/
def Queued (s : State) : Prop :=
  ∃ L : Head → List Node, RingLists s.links Node.head L ∧
    (∀ h, ∀ n ∈ L h, ∃ t ∈ s.all, n = .tag t) ∧
    ∀ t ∈ s.all, .tag t ∈ L .ready ↔ s.status t = .ready

/-- The condition on the state before an event. -/
def Allowed (s : State) : Event → Prop
  | .preempt => ¬ (s.pc s.cur).InWindow
  | .call .yield => ∃! t, t ∈ s.all ∧ s.status t = .ready
  | .call (.unblock t) => (s.pc t).waitsIn = none
  | .call _ => True
  | .step => s.pc s.cur = .run .exiting →
    ∀ p, s.parentPid s.cur = some p → s.status p = .waiting → (s.pc p).waitsIn = none

variable {s : State} {L : Head → List Node}

theorem Settled.queued (h : Settled s L) : Queued s := by
  obtain ⟨hL, -, -⟩ := h
  refine ⟨L, hL.rings, hL.tags, fun t ht => ?_⟩
  rw [hL.ready]
  exact ⟨fun h => h.2, fun h => ⟨ht, h⟩⟩

/-- Some lists fit the state between two steps. -/
def Inv (s : State) : Prop := ∃ L, Settled s L

/-- Every reason to stop is allowed. -/
abbrev keeps (m : M Unit) (s : State) : Prop := wp (fun _ => True) m (fun _ t => Inv t) s

/-- The state without the thread `t`. -/
def State.reaped (s : State) (t : Tid) : State :=
  { s.setStatus t .died with all := s.all.erase t }

theorem Lists.reaped {t : Tid} (hL : Lists s L) (hl : Loose L t) (hne : t ≠ s.cur)
    (hni : s.idle ≠ t) : Lists (s.reaped t) L := by
  have hst : ∀ u, (s.reaped t).status u = if u = t then .died else s.status u :=
    fun u => Function.update_apply ..
  have hmem : ∀ u, u ≠ t → (u ∈ s.all.erase t ↔ u ∈ s.all) := fun u hu => List.mem_erase_of_ne hu
  refine ⟨hL.rings, ?_, ?_, ?_, ?_, (hmem _ hne.symm).mpr hL.cur_mem, (hmem _ hni).mpr hL.idle_mem,
    hL.idle_pc, ?_⟩
  · intro h n hn
    obtain ⟨u, hu, rfl⟩ := hL.tags h n hn
    have hut : u ≠ t := by
      rintro rfl
      exact hl h hn
    exact ⟨u, (hmem u hut).mpr hu, rfl⟩
  · intro u
    change _ ↔ u ∈ s.all.erase t ∧ _
    rw [hst]
    by_cases hu : u = t
    · subst hu
      simpa using hl .ready
    · rw [if_neg hu, hmem u hu]
      exact hL.ready u
  · intro h u hh hu
    have hut : u ≠ t := fun he => hl h (he ▸ hu)
    rw [hst, if_neg hut]
    exact hL.waits h u hh hu
  · intro u hu huc
    rw [hst]
    split
    · exact Status.noConfusion
    · exact hL.others u (List.mem_of_mem_erase hu) huc
  · rw [hst, show (s.reaped t).idle = s.idle from rfl, if_neg hni]
    exact hL.idle_status

section Steps

theorem Lists.inv (hL : Lists s L) (hr : s.status s.cur = .running) (hl : Loose L s.cur) : Inv s :=
  ⟨L, hL, hr, .inr hl⟩

theorem Switched.inv {t : State} (h : Switched s L t) : Inv t := h.settled

variable (hL : Lists s L) (hr : s.status s.cur = .running) (hl : Loose L s.cur)
include hL hr hl

theorem inv_setPc (hi : s.cur ≠ s.idle) (p : Pc) : Inv (s.setPc s.cur p) :=
  (hL.setPc_loose hi hl).inv hr hl

theorem keeps_lockFetch (hi : s.cur ≠ s.idle) (q : Nat) (k : Site) : keeps (lockFetch q k) s := by
  unfold keeps lockFetch
  simp only [wp_bind, wp_runningThread, wp_lockAt, wp_ite, wp_goto]
  exact ⟨fun _ => inv_setPc hL hr hl hi _, fun _ => inv_setPc hL hr hl hi _⟩

theorem keeps_lockRelease (hi : s.cur ≠ s.idle) (q : Nat) (k : Site) :
    keeps (lockRelease q k) s := by
  unfold keeps lockRelease
  simp only [wp_bind, wp_lockAt, wp_ite, wp_check, wp_goto, implies_true, and_true]
  exact ⟨fun _ => inv_setPc hL hr hl hi _, fun _ _ => inv_setPc hL hr hl hi _⟩

theorem keeps_setLock (hi : s.cur ≠ s.idle) (q : Nat) (l : Lock) (p : Pc) :
    Inv ((s.setLock q l).setPc s.cur p) :=
  inv_setPc (hL.setQueue q _) hr hl hi p

theorem keeps_semaphoreDown (hi : s.cur ≠ s.idle) {q : Nat} {again through : Pc}
    (ha : again.waitsIn = some (.waiters q)) : keeps (semaphoreDown q again through) s :=
  wp_semaphoreDown hL hl hi ha (fun _ _ => trivial) (fun _ _ ht => ht.inv)
    fun _ _ => keeps_setLock hL hr hl hi q _ through

theorem keeps_semaphoreUp (hi : s.cur ≠ s.idle) (q : Nat) (p : Pc) :
    keeps (do semaphoreUp q; goto p) s := by
  unfold keeps
  simp only [wp_bind]
  refine wp_semaphoreUp hL hr (fun _ => trivial) (fun _ => trivial) fun t L' hw _ => ?_
  have hi' : t.cur ≠ t.idle := by rwa [hw.cur_eq, hw.code.idle_eq]
  have hr' : t.status t.cur = .running := by rw [hw.cur_eq, hw.running, hr]
  exact keeps_setLock hw.lists hr' (hw.loose hl) hi' q _ p

/-- The body of `ioqueue_put_data` or of `ioqueue_get_data` behind its copying. -/
theorem keeps_ioqueueBody (hi : s.cur ≠ s.idle) {h h' : Head} (hh : h ≠ .ready) (hh' : h' ≠ .ready)
    {p : Pc} (hp : p.waitsIn = some h') (hwin : p.InWindow) (c : Prop) [Decidable c] (q : Nat)
    (k : Site) :
    keeps (do
      wakeUpAll h
      if c then
        addToWaitingList h'
        goto p
      else lockRelease q k) s := by
  unfold keeps
  rw [wp_bind]
  refine wp_wakeUpAll hh hL hr (fun _ => trivial) fun t L' hw => ?_
  have hi' : t.cur ≠ t.idle := by rwa [hw.cur_eq, hw.code.idle_eq]
  have hr' : t.status t.cur = .running := by rw [hw.cur_eq, hw.running, hr]
  rw [wp_ite]
  refine ⟨fun _ => ?_, fun _ => keeps_lockRelease hw.lists hr' (hw.loose hl) hi' q k⟩
  refine wp_addToWaitingList hw.lists (hw.loose hl) hi' hh' hp fun hL' => ?_
  have hpc : (t.queued h' p).pc t.cur = p := Function.update_self ..
  exact ⟨_, hL', hr', .inl (by rwa [show (t.queued h' p).cur = t.cur from rfl, hpc])⟩

theorem keeps_ioqueuePutBody (hi : s.cur ≠ s.idle) (q : Nat) (data : List Byte) (left : Nat) :
    keeps (ioqueuePutBody q data left) s := by
  unfold keeps ioqueuePutBody
  rw [wp_bind, wp_get, wp_bind, wp_modify]
  exact keeps_ioqueueBody (hL.setQueue q _) hr hl hi Head.noConfusion Head.noConfusion rfl
    (.inl ⟨q, data, _, rfl⟩) _ q _

theorem keeps_ioqueueGetBody (hi : s.cur ≠ s.idle) (q count : Nat) (got : List Byte) :
    keeps (ioqueueGetBody q count got) s := by
  unfold keeps ioqueueGetBody
  rw [wp_bind, wp_get, wp_bind, wp_modify]
  exact keeps_ioqueueBody (hL.setQueue q _) hr hl hi Head.noConfusion Head.noConfusion rfl
    (.inr ⟨q, count, _, rfl⟩) _ q _

omit hr in
theorem keeps_threadYield (hu : ∃! t, t ∈ s.all ∧ s.status t = .ready) : keeps threadYield s := by
  obtain ⟨a, ha, hun⟩ := hu
  have hmem : ∀ n ∈ L .ready, n = .tag a := by
    intro n hn
    obtain ⟨t, -, rfl⟩ := hL.tags .ready n hn
    rw [hun t ((hL.ready t).mp hn)]
  have hlist : L .ready = [.tag a] := by
    have ham := (hL.ready a).mpr ha
    have hnd := (List.nodup_cons.mp (hL.rings.ring .ready).nodup).2
    cases hlr : L .ready with
    | nil => simp [hlr] at ham
    | cons n ns =>
      rw [hlr] at hmem hnd
      obtain ⟨hn, -⟩ := List.nodup_cons.mp hnd
      have hna := hmem n (by simp)
      have hns : ns = [] := by
        cases ns with
        | nil => rfl
        | cons m ms =>
          have hma := hmem m (by simp)
          exact absurd (by simp [hna, hma]) hn
      rw [hna, hns]
  exact wp_threadYield hL hl hlist fun _ ht => ht.inv

theorem keeps_threadUnblock {t : Tid} (ht : t ∈ s.all) (hp : (s.pc t).waitsIn = none) :
    keeps (threadUnblock t) s := by
  refine wp_threadUnblock hL ht (fun hs => hL.loose hs.ne_ready (hL.not_waiting hp))
    (fun _ => trivial) fun hs hL' => ?_
  have hne : s.cur ≠ t := by
    rintro rfl
    exact hs.ne_running hr
  refine hL'.inv ((Function.update_of_ne hne ..).trans hr) fun h hm => ?_
  by_cases hh : h = .ready
  · subst hh
    rw [enlist_ready] at hm
    rcases List.mem_cons.mp hm with hm | hm
    · exact hne (Node.tag.inj hm)
    · exact hl _ hm
  · rw [enlist_of_ne hh] at hm
    exact hl h hm

/-- A child that hangs is in no list and is taken away. -/
theorem keeps_threadExit {t : Tid} (hi : s.cur ≠ s.idle) (hs : s.status t = .hanging) (p : Pc) :
    keeps (do threadExit t; goto p) s := by
  have hne : t ≠ s.cur := by
    rintro rfl
    rw [hr] at hs
    cases hs
  have hni : s.idle ≠ t := by
    rintro rfl
    rcases hL.idle_status with h | h | h <;> rw [h] at hs <;> cases hs
  have hlt : Loose L t := by
    refine hL.loose (by rw [hs]; exact Status.noConfusion) fun h hh hm => ?_
    rcases (hL.waits h t hh hm).2 hne with h | h <;> rw [h] at hs <;> cases hs
  have hfind : s.links.findElement s.fuel (.tag t) (.head .ready) = some false := by
    rw [(hL.rings.ring .ready).findElement_eq (hL.length_lt _)]
    exact congrArg some (decide_eq_false fun hm => hlt _ (List.dropLast_subset _ hm))
  unfold keeps threadExit
  simp only [wp_bind, wp_setStatus, listFindElement, wp_get, wp_need]
  refine ⟨fun b hb => ?_, fun _ => trivial⟩
  rw [show (s.setStatus t .died).links = s.links from rfl,
    show (s.setStatus t .died).fuel = s.fuel from rfl, hfind] at hb
  cases hb
  exact inv_setPc (hL.reaped hlt hne hni) ((Function.update_of_ne hne.symm ..).trans hr) hl hi p

theorem keeps_sysWait (hi : s.cur ≠ s.idle) : keeps sysWait s := by
  unfold keeps sysWait
  rw [wp_bind, wp_get]
  split
  · rename_i t ht
    have hts := List.find?_some ht
    simp only [decide_eq_true_eq] at hts
    rw [wp_bind, wp_setRet]
    exact keeps_threadExit (hL.setRet _ _) hr hl hi hts.2 _
  · split
    · rw [wp_bind, wp_setRet]
      exact inv_setPc (hL.setRet _ _) hr hl hi _
    · rw [wp_bind, wp_goto]
      exact wp_threadBlock (hL.setPc_loose hi hl) (hl .ready) (fun _ => trivial)
        (fun _ _ _ => .inr rfl) (fun h => absurd h hi) fun _ _ ht => ht.inv

theorem keeps_sysExit (hi : s.cur ≠ s.idle) (status : BitVec 32) : keeps (sysExit status) s := by
  unfold keeps sysExit
  simp only [wp_bind, wp_get, wp_modify, wp_check, wp_goto, implies_true, and_true]
  intro _
  have hL' : Lists { s with
      exitStatus := Function.update s.exitStatus s.cur status
      parentPid := fun t => if t ∈ s.all ∧ s.parentPid t = some s.cur then some 1
        else s.parentPid t } L :=
    ⟨hL.rings, hL.tags, hL.ready, hL.waits, hL.others, hL.cur_mem, hL.idle_mem, hL.idle_pc,
      hL.idle_status⟩
  exact inv_setPc hL' hr hl hi _

omit hr in
/-- The end of `sys_exit`. -/
theorem keeps_block_hanging (hi : s.cur ≠ s.idle) (p : Pc) :
    keeps (do goto p; threadBlock .hanging) s := by
  unfold keeps
  rw [wp_bind, wp_goto]
  exact wp_threadBlock (hL.setPc_loose hi hl) (hl .ready) (fun _ => trivial)
    (fun h _ hm => absurd hm (hl h)) (fun h => absurd h hi) fun _ _ ht => ht.inv

theorem keeps_sysExitWake (hi : s.cur ≠ s.idle)
    (hp : ∀ p, s.parentPid s.cur = some p → s.status p = .waiting → (s.pc p).waitsIn = none) :
    keeps sysExitWake s := by
  unfold keeps sysExitWake
  simp only [wp_bind, wp_get, wp_need, wp_check, implies_true, and_true]
  intro p hpp hpm
  by_cases hw : s.status p = .waiting
  · rw [if_pos hw, wp_bind]
    refine wp_threadUnblock hL hpm (fun hs => hL.loose hs.ne_ready (hL.not_waiting (hp p hpp hw)))
      (fun _ => trivial) fun hs hL' => ?_
    have hne : s.cur ≠ p := by
      rintro rfl
      exact hs.ne_running hr
    refine keeps_block_hanging hL' (fun h hm => ?_) hi _
    by_cases hh : h = .ready
    · subst hh
      rw [enlist_ready] at hm
      rcases List.mem_cons.mp hm with hm | hm
      · exact hne (Node.tag.inj hm)
      · exact hl _ hm
    · rw [enlist_of_ne hh] at hm
      exact hl h hm
  · rw [if_neg hw]
    exact keeps_block_hanging hL hl hi _

end Steps

/-- The sleep of a thread that is in the waiting list of `k` already. -/
theorem keeps_ioqueueSleep (hL : Lists s L) (hr : s.status s.cur = .running)
    (hi : s.cur ≠ s.idle) {q : Nat} {k : Site}
    (hk : ∀ h, h ≠ .ready → .tag s.cur ∈ L h → k.waitsIn = some h) :
    keeps (ioqueueSleep q k) s := by
  have hready : Node.tag s.cur ∉ L .ready := by
    intro hm
    have := ((hL.ready s.cur).mp hm).2
    rw [hr] at this
    cases this
  -- what is left to do once the lock is released
  have hrest : ∀ t L', Lists t L' → t.cur = s.cur → t.idle = s.idle →
      (∀ h, .tag s.cur ∈ L' h → .tag s.cur ∈ L h) →
      keeps (do goto (.run k); threadBlock .waiting) t := by
    intro t L' hL' hc hid hstay
    have hi' : t.cur ≠ t.idle := by rwa [hc, hid]
    unfold keeps
    rw [wp_bind, wp_goto]
    refine wp_threadBlock (hL'.setPc hi' fun h hh hm => ?_) ?_ (fun _ => trivial)
      (fun _ _ _ => .inr rfl) (fun h => absurd h hi') fun _ _ ht => ht.inv
    · rw [hc] at hm
      exact hk h hh (hstay h hm)
    · change Node.tag t.cur ∉ _
      rw [hc]
      exact fun hm => hready (hstay _ hm)
  unfold keeps ioqueueSleep lockReleaseMasked
  simp only [wp_bind, wp_lockAt, wp_ite, wp_setLock, wp_check, implies_true, and_true]
  refine ⟨fun _ => ?_, fun _ _ => ?_⟩
  · change keeps (do goto (.run k); threadBlock .waiting) _
    exact hrest _ L (hL.setQueue q _) rfl rfl fun _ => id
  · refine wp_semaphoreUp (hL.setQueue q _) hr (fun _ => trivial) (fun _ => trivial)
      fun t L' hw _ => ?_
    change keeps (do goto (.run k); threadBlock .waiting) _
    exact hrest _ L' (hw.lists.setQueue q _) hw.cur_eq hw.code.idle_eq hw.stay

/-- A thread that is in the middle of a function is not the idle thread. -/
theorem Lists.ne_idle (hL : Lists s L) (h : s.pc s.cur ≠ .run .user) : s.cur ≠ s.idle := by
  intro he
  rw [he] at h
  exact h hL.idle_pc

theorem keeps_doSite (hL : Lists s L) (hr : s.status s.cur = .running) (hl : Loose L s.cur)
    (hi : s.cur ≠ s.idle) {k : Site} (hk : ¬ (Pc.run k).InWindow)
    (hx : k = .exiting → ∀ p, s.parentPid s.cur = some p → s.status p = .waiting →
      (s.pc p).waitsIn = none) : keeps (doSite k) s := by
  have hgoto : ∀ p, keeps (goto p) s := fun p => inv_setPc hL hr hl hi p
  have hret : ∀ r p, keeps (do setRet r; goto p) s := fun r p =>
    inv_setPc (hL.setRet s.cur r) hr hl hi p
  cases k with
  | user => exact hgoto _
  | reaping => exact hgoto _
  | exited => exact hgoto _
  | wait => exact keeps_sysWait hL hr hl hi
  | exiting => exact keeps_sysExitWake hL hr hl hi (hx rfl)
  | put q data left =>
    unfold keeps doSite
    rw [wp_ite]
    exact ⟨fun _ => keeps_lockFetch hL hr hl hi _ _, fun _ => hret _ _⟩
  | get q count got =>
    unfold keeps doSite
    rw [wp_ite]
    exact ⟨fun _ => keeps_lockFetch hL hr hl hi _ _, fun _ => hret _ _⟩
  | putBody q data left => exact keeps_ioqueuePutBody hL hr hl hi q data left
  | getBody q count got => exact keeps_ioqueueGetBody hL hr hl hi q count got
  | putBlocked q data left => exact hgoto _
  | getBlocked q count got => exact hgoto _
  | putWait q data left => exact absurd (.inl ⟨q, data, left, rfl⟩) hk
  | getWait q count got => exact absurd (.inr ⟨q, count, got, rfl⟩) hk

theorem keeps_doStep (hs : Settled s L) (he : s.pc s.cur ≠ .run .user) (hok : Allowed s .step) :
    keeps (doStep (s.pc s.cur)) s := by
  obtain ⟨hL, hr, hwin⟩ := hs
  have hi := hL.ne_idle he
  by_cases hw : (s.pc s.cur).InWindow
  · -- the running thread is in the waiting list already
    have hwaits := fun h hh hm => (hL.waits h s.cur hh hm).1
    rcases hw with ⟨q, data, left, hw⟩ | ⟨q, count, got, hw⟩
    · rw [hw] at hwaits ⊢
      exact keeps_ioqueueSleep hL hr hi hwaits
    · rw [hw] at hwaits ⊢
      exact keeps_ioqueueSleep hL hr hi hwaits
  · have hl := hwin.resolve_left hw
    have hset : ∀ q l p, keeps (do setLock q l; goto p) s := fun q l p =>
      keeps_setLock hL hr hl hi q l p
    cases hpc : s.pc s.cur with
    | run k =>
      rw [hpc] at hw
      exact keeps_doSite hL hr hl hi hw fun hk => hok (by rw [hpc, hk])
    | down q locking masked k => exact keeps_semaphoreDown hL hr hl hi rfl
    | owned q k => exact hset _ _ _
    | claimed q k =>
      unfold keeps doStep
      simp only [wp_bind, wp_lockAt, wp_check, implies_true, and_true]
      exact fun _ => hset _ _ _
    | nesting q k => exact hset _ _ _
    | lowering q k => exact hset _ _ _
    | releasing q k => exact hset _ _ _
    | cleared q k => exact hset _ _ _
    | upping q k => exact keeps_semaphoreUp hL hr hl hi q _

theorem keeps_doCall (hL : Lists s L) (hr : s.status s.cur = .running) (hl : Loose L s.cur)
    (k : Site) {op : Op} (he : Enabled s (.call op)) (hok : Allowed s (.call op)) :
    keeps (doCall k op) s := by
  cases op with
  | fetch q => exact keeps_lockFetch hL hr hl he.1 q k
  | release q => exact keeps_lockRelease hL hr hl he.1 q k
  | down q => exact inv_setPc hL hr hl he.1 _
  | up q => exact inv_setPc hL hr hl he.1 _
  | put q data => exact inv_setPc hL hr hl he.1 _
  | get q count => exact inv_setPc hL hr hl he.1 _
  | yield => exact keeps_threadYield hL hl hok
  | block x =>
    exact wp_threadBlock hL (hl .ready) (fun _ => trivial) (fun h _ hm => absurd hm (hl h)) he.2
      fun _ _ ht => ht.inv
  | unblock t => exact keeps_threadUnblock hL hr hl he.2.2 hok
  | wait => exact keeps_sysWait hL hr hl he.1
  | exit status => exact keeps_sysExit hL hr hl he.1 status

/-- A call is made outside of the functions, or where one of them releases what it holds. -/
theorem Enabled.call_site {op : Op} (he : Enabled s (.call op)) :
    ∃ k, s.pc s.cur = .run k ∧ ¬ (Pc.run k).InWindow := by
  have hwin : ∀ k ∈ [Site.user, .reaping, .exiting], ¬ (Pc.run k).InWindow := by
    intro k hk
    fin_cases hk <;> rintro (⟨_, _, _, h⟩ | ⟨_, _, _, h⟩) <;> cases h
  have huser : s.pc s.cur = .run .user → ∃ k, s.pc s.cur = .run k ∧ ¬ (Pc.run k).InWindow :=
    fun h => ⟨_, h, hwin _ (by simp)⟩
  have hlock : s.pc s.cur ∈ [Site.user, .reaping, .exiting].map Pc.run →
      ∃ k, s.pc s.cur = .run k ∧ ¬ (Pc.run k).InWindow := by
    intro h
    obtain ⟨k, hk, hpc⟩ := List.mem_map.mp h
    exact ⟨k, hpc.symm, hwin k hk⟩
  cases op with
  | fetch q => exact hlock he.2
  | release q => exact hlock he.2
  | block x => exact huser he.1
  | unblock t => exact huser he.2.1
  | down q => exact huser he.2
  | up q => exact huser he.2
  | put q data => exact huser he.2
  | get q count => exact huser he.2
  | yield => exact huser he.2
  | wait => exact huser he.2
  | exit status => exact huser he.2

/-- One allowed event. -/
theorem Inv.step {t : State} {e : Event} (hs : Inv s) (hok : Allowed s e) (h : Step s e t) :
    Inv t := by
  obtain ⟨L, hs⟩ := hs
  obtain ⟨he, hrun⟩ := h
  refine wp_ok (E := fun _ => True) (Q := fun _ t => Inv t) ?_ hrun
  cases e with
  | preempt =>
    obtain ⟨hL, hr, hwin⟩ := hs
    exact wp_schedule_running hL hr (hwin.resolve_left hok) fun _ ht => ht.inv
  | call op =>
    obtain ⟨hL, hr, hwin⟩ := hs
    obtain ⟨k, hpc, hk⟩ := he.call_site
    have hl := hwin.resolve_left (by rwa [hpc])
    unfold doEvent
    rw [wp_bind, wp_get, hpc]
    exact keeps_doCall hL hr hl k he hok
  | step => exact keeps_doStep hs he hok

/-! ## Runs -/

theorem inv_start {main idle : Tid} {others : List Tid} (hd : (main :: others).Nodup)
    (hi : idle ∈ others) (parentPid : Tid → Option Tid) (queue : Nat → CircleQueue) :
    Inv (State.start main idle others parentPid queue) := by
  obtain ⟨L, hL, hr, hl⟩ := lists_start hd hi parentPid queue
  exact ⟨L, hL, hr, .inr hl⟩

/-- Threads that the events allow stay queued in one place. -/
theorem queued_after_run {main idle : Tid} {others : List Tid} (hd : (main :: others).Nodup)
    (hi : idle ∈ others) (parentPid : Tid → Option Tid) (queue : Nat → CircleQueue)
    {es : List Event} {t : State}
    (h : Run (Guarded Allowed Step) (State.start main idle others parentPid queue) es t) :
    Queued t := by
  obtain ⟨L, hL⟩ := h.guarded_invariant (I := Inv) (fun _ _ _ hs hok hst => hs.step hok hst)
    (inv_start hd hi parentPid queue)
  exact hL.queued

/-- A list whose first node is linked to itself is not circular. -/
theorem not_queued {h : Head} {n : Node} (hn : s.links.next (.head h) = n) (hne : n ≠ .head h)
    (hnn : s.links.next n = n) : ¬ Queued s := by
  rintro ⟨L, hL, -, -⟩
  have hr := hL.ring h
  cases hlist : L h with
  | nil =>
    rw [hlist] at hr
    exact hne (hn.symm.trans hr.path.1)
  | cons m ms =>
    rw [hlist] at hr
    obtain rfl : m = n := hr.path.1.symm.trans hn
    have hmem := hr.path.2.2.next_mem
    rw [hnn, List.mem_append, List.mem_singleton] at hmem
    rcases hmem with hmem | hmem
    · exact (List.nodup_cons.mp (List.nodup_cons.mp hr.nodup).2).1 hmem
    · exact hne hmem

/-- The main thread yields while the idle thread is blocked. -/
theorem yield_alone :
    ∃ t, Run Step (State.start 0 1 [1] (fun _ => none) fun _ => .init 64)
        [.preempt, .call (.block .blocked), .call .yield] t ∧ ¬ Queued t := by
  refine ⟨_, .cons ⟨rfl, rfl⟩ <| .cons ⟨⟨rfl, fun _ => rfl⟩, rfl⟩ <| .single ⟨⟨by decide, rfl⟩, rfl⟩,
    not_queued (h := .ready) (n := .tag 0) rfl (by decide) rfl⟩

/-- The main thread yields to the only other one, and that one is interrupted. -/
theorem queued_after_yield :
    ∃ t, Run (Guarded Allowed Step) (State.start 0 1 [1] (fun _ => none) fun _ => .init 64)
        [.call .yield, .preempt] t ∧ Queued t := by
  have huser : ¬ (Pc.run .user).InWindow := by
    rintro (⟨_, _, _, h⟩ | ⟨_, _, _, h⟩) <;> cases h
  obtain ⟨t, ht⟩ : ∃ t, Run (Guarded Allowed Step)
      (State.start 0 1 [1] (fun _ => none) fun _ => .init 64) [.call .yield, .preempt] t := by
    refine ⟨_, .cons ⟨⟨1, ⟨by decide, rfl⟩, ?_⟩, ⟨by decide, rfl⟩, rfl⟩ <|
      .single ⟨huser, rfl, rfl⟩⟩
    rintro u ⟨hu, hr⟩
    have hu' : u ∈ [0, 1] := hu
    fin_cases hu'
    · cases hr
    · rfl
  exact ⟨t, ht, queued_after_run (by decide) (by decide) _ _ ht⟩

end Frog.Thread
