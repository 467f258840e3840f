import Frog.Ipc.Exchange
import Frog.Thread.Fork

/-!
# Forks among the messages

`sys_fork` of `core/thread/fork.c` on what messages use of a TCB. The child is a copy of its parent
that a few assignments correct; between the copy and the links into the lists of the threads the
parent can wait for memory, so a fork is two steps; the `memcpy` of the TCB and `fork_pid`, which
takes a lock behind it, are one. A process that has exited makes no more calls
and is gone when its parent has waited for it.
-/

namespace Frog.Ipc

set_option autoImplicit false
open Prog

/-- The pid bitmap has 4096 bytes, and the first pid is 1. -/
def maxPid : Pid := 32768

/-- `copy_tcb_vaddrbitmap_stack0`: the status is `THREAD_TASK_READY`, the other fields here are the
parent's. -/
def Tcb.forked (t : Tcb) : Tcb := { t with blocked := false }

/-- `unborn` is the child that a process inside of `sys_fork` is making. -/
structure Family where
  ipc : State
  unborn : Pid → Option (Pid × Tcb)

inductive Act where
  | call (l : Event × Option Message)
  | copy (p c : Pid)
  | link (p : Pid)
  /-- `thread_exit`, in the `sys_wait` of the parent of `p`. -/
  | reap (p : Pid)

/-- The process that makes a call; interrupts come in at any time. -/
def Event.caller : Event → Option Pid
  | .send p _ _ | .receive p _ _ | .resume p => some p
  | .notify _ => none

/-- The state with the child at the end of `thread_all_list`. -/
def State.born (s : State) (c : Pid) (t : Tcb) : State where
  all := s.all ++ [c]
  tcb := Function.update s.tcb c t
  call := Function.update s.call c .none

namespace Family

def init (pids : List Pid) : Family := ⟨State.init pids, fun _ => none⟩

def Step (f : Family) (e : Act) (f' : Family) : Prop :=
  match e with
  | .call l => (∀ p, l.1.caller = some p → f.unborn p = none) ∧ Ipc.Step f.ipc l f'.ipc ∧
    f'.unborn = f.unborn
  | .copy p c => p ∈ f.ipc.all ∧ (f.ipc.tcb p).blocked = false ∧ f.ipc.call p = .none ∧
    f.unborn p = none ∧ c ∉ f.ipc.all ∧ (∀ q t, f.unborn q ≠ some (c, t)) ∧ 0 < c ∧ c ≤ maxPid ∧
    f' = { f with unborn := Function.update f.unborn p (some (c, (f.ipc.tcb p).forked)) }
  | .link p => ∃ c t, f.unborn p = some (c, t) ∧
    f' = ⟨f.ipc.born c t, Function.update f.unborn p none⟩
  | .reap p => p ∈ f.ipc.all ∧ (f.ipc.tcb p).blocked = false ∧ f.ipc.call p = .none ∧
    f.unborn p = none ∧ f' = { f with ipc := { f.ipc with all := f.ipc.all.erase p } }

/-- Nobody waits to send to a process that forks, and no interrupt is noted for it; nobody waits to
send to one that is gone. -/
def Clean (f : Family) : Act → Prop
  | .copy p _ => (f.ipc.tcb p).pSendingQueue = none ∧ (f.ipc.tcb p).pIntrPresent = false
  | .reap p => (f.ipc.tcb p).pSendingQueue = none
  | _ => True

theorem step_call {f : Family} {l : Event × Option Message} {t : State}
    (hc : ∀ p, l.1.caller = some p → f.unborn p = none) (hs : Ipc.Step f.ipc l t) :
    f.Step (.call l) ⟨t, f.unborn⟩ := ⟨hc, hs, rfl⟩

end Family

/-- Outside of the queues and with nothing pending. -/
structure Fresh (t : Tcb) : Prop where
  queue : t.pSendingQueue = none
  link : t.pNextSending = none
  sending : t.sending = false
  receiving : t.receiving = false
  intr : t.pIntrPresent = false

/-- The calls of a run. -/
def calls (as : List Act) : List (Event × Option Message) :=
  as.filterMap fun
    | .call l => some l
    | _ => none

variable {s t : State} {a b : Mailboxes} {p q c : Pid} {pids : List Pid}

/-! ## Links of those who do not send -/

structure Loose (s : State) : Prop where
  link : ∀ p, (s.tcb p).sending = false → (s.tcb p).pNextSending = none
  dead : ∀ p, p ∉ s.all → (s.tcb p).sending = false

theorem Loose.setTcb (h : Loose s) {r : Tcb} (hr : r.sending = false → r.pNextSending = none)
    (hp : r.sending = true → p ∈ s.all) : Loose (s.setTcb p r) := by
  constructor
  · intro q hq
    by_cases hqp : q = p
    · subst hqp
      rw [State.setTcb_self] at hq ⊢
      exact hr hq
    · rw [State.setTcb_of_ne hqp] at hq ⊢
      exact h.link q hq
  · intro q hq
    by_cases hqp : q = p
    · subst hqp
      rw [State.setTcb_self, ← Bool.not_eq_true]
      exact fun hs => hq (hp hs)
    · rw [State.setTcb_of_ne hqp]
      exact h.dead q hq

theorem Loose.mem (h : Loose s) (hs : (s.tcb p).sending = true) : p ∈ s.all := by
  by_contra hp
  rw [h.dead p hp] at hs
  cases hs

/-- A TCB changes neither in its link nor in whether it sends. -/
theorem Loose.keep (h : Loose s) {r : Tcb} (hs : r.sending = (s.tcb p).sending)
    (hn : r.pNextSending = (s.tcb p).pNextSending) : Loose (s.setTcb p r) := by
  apply h.setTcb
  · rw [hs, hn]
    exact h.link p
  · rw [hs]
    exact h.mem

theorem Loose.setNext (h : Loose s) {o : Option Pid} (ho : (s.tcb p).sending = true ∨ o = none) :
    Loose (s.setNext p o) := by
  apply h.setTcb
  · intro hs
    rcases ho with ho | rfl
    · rw [ho] at hs
      cases hs
    · rfl
  · exact h.mem

theorem Loose.setCall (h : Loose s) {k : Call} : Loose (s.setCall p k) := ⟨h.link, h.dead⟩

/-- The end of the queue is a sender. -/
theorem loose_enqueue {l : List Pid} (h : Loose s) (hc : QueueIs s q l) (hn : l.Nodup)
    (hall : ∀ x ∈ l, x ∈ s.all) (hsend : ∀ x ∈ l, (s.tcb x).sending = true) :
    wp (fun _ => True) (enqueue p q) (fun _ t => Loose t) s := by
  have hlen : l.length ≤ s.all.length := length_le_of_nodup hn hall
  simp only [enqueue, wp_bind, wp_get]
  unfold QueueIs at hc
  split
  · rename_i x hx
    rw [hx] at hc
    have hend := Chain.walkEnd_eq hc (Nat.le_succ_of_le hlen)
    simp only [wp_bind, wp_need, wp_setNext, implies_true, and_true]
    intro last hlast
    have hmem : last ∈ l := List.mem_of_getLast? (hend.symm.trans hlast)
    have h1 := h.setNext (o := some p) (.inl (hsend last hmem))
    exact h1.setNext (.inr rfl)
  · simp only [wp_bind, wp_setHead, wp_setNext]
    have h1 : Loose (s.setHead q (some p)) := h.keep rfl rfl
    exact h1.setNext (.inr rfl)

theorem loose_dequeue {prev : Option Pid} (h : Loose s)
    (hsend : ∀ z, prev = some z → (s.tcb z).sending = true) :
    wp (fun _ => True) (dequeue q p prev) (fun _ t => Loose t ∧ (t.tcb p).pNextSending = none) s := by
  simp only [dequeue, wp_bind, wp_get, wp_ite, wp_check, wp_setHead, wp_setNext, wp_need,
    implies_true, and_true]
  refine ⟨fun _ _ => ⟨?_, ?_⟩, fun _ z hz => ⟨?_, ?_⟩⟩
  · have h1 : Loose (s.setHead q (s.next p)) := h.keep rfl rfl
    exact h1.setNext (.inr rfl)
  · simp [State.setNext]
  · have h1 := h.setNext (o := s.next p) (.inl (hsend z hz))
    exact h1.setNext (.inr rfl)
  · simp [State.setNext]

theorem Agrees.queued_sending (h : Agrees pids s a) (hq : q ∈ s.all) :
    ∀ x ∈ (a.queue q).map Prod.fst, x ∈ s.all ∧ (s.tcb x).sending = true := by
  intro x hx
  obtain ⟨y, hy, rfl⟩ := List.mem_map.mp hx
  obtain ⟨h1, h2, -⟩ := (h.queues.queued q hq y).mp hy
  exact ⟨h1, h2.1⟩

theorem loose_msgSend (h : Loose s) (ha : Agrees pids s a) (hp : p ∈ s.all) (hq : q ∈ s.all)
    {m : Message} :
    wp (fun _ => True) (msgSend p q m) (fun _ t => Loose t) s := by
  simp only [msgSend, wp_bind, wp_pid2proc, implies_true, and_true]
  intro _
  refine wp_mono (wp_allow (wp_detectCycle ha.sound hq) fun _ => False.elim) ?_
  rintro cycle t ⟨ht, -⟩
  subst t
  simp only [wp_check, wp_ite, wp_bind, wp_tcbAt, wp_setTcb, wp_threadUnblock, implies_true,
    and_true]
  refine fun _ => ⟨fun _ _ _ => ?_, fun _ _ => ?_⟩
  · rw [State.setTcb_self, State.setTcb_setTcb]
    exact h.keep rfl rfl
  · have hin := ha.queued_sending hq
    have hqueue : QueueIs (s.setTcb p { s.tcb p with
        sending := true, pSendto := q, pMessage := m }) q ((a.queue q).map Prod.fst) := by
      refine (queueIs_setTcb ?_).mpr (ha.queues.chain q hq)
      exact ⟨rfl, rfl⟩
    have hloose : Loose (s.setTcb p { s.tcb p with sending := true, pSendto := q, pMessage := m }) :=
      h.setTcb (fun hs => by cases hs) fun _ => hp
    refine wp_mono (loose_enqueue hloose hqueue (ha.queues.nodup q) (fun x hx => (hin x hx).1)
      fun x hx => ?_) ?_
    · by_cases hxp : x = p
      · rw [hxp, State.setTcb_self]
      · rw [State.setTcb_of_ne hxp]
        exact (hin x hx).2
    · intro _ t ht
      exact ht.keep rfl rfl

theorem loose_msgReceive (h : Loose s) (ha : Agrees pids s a) (hp : p ∈ s.all)
    (hb : (s.tcb p).blocked = false) {src : Pid} {m : Message}
    (hsrc : src = anyTask ∨ src = intrTask ∨ src ∈ s.all ∧ src < taskMax) :
    wp (fun _ => True) (msgReceive p src m) (fun _ t => Loose t) s := by
  simp only [msgReceive, wp_bind, wp_tcbAt, wp_ite, wp_setTcb, wp_pure]
  refine ⟨fun _ => h.keep rfl rfl, fun hno => ?_⟩
  have hsrc' : src = anyTask ∨ src ∈ s.all ∧ src < taskMax :=
    hsrc.imp_right fun hs => hs.resolve_left fun hi => hno (.inr hi)
  refine wp_mono (wp_allow (wp_findSender ha.locals ha.queues hp hb hsrc') fun _ => False.elim) ?_
  rintro o t ⟨ht, hfind⟩
  subst t
  rcases hfind with ⟨as, x, bs, -, hq, -, rfl⟩ | ⟨-, rfl⟩
  · have hin := ha.queued_sending hp
    rw [hq, List.map_append] at hin
    simp only [wp_bind]
    refine wp_mono (loose_dequeue h fun z hz => ?_) ?_
    · exact (hin z (List.mem_append_left _ (List.mem_of_getLast? hz))).2
    · rintro - t ⟨ht, hnext⟩
      simp only [wp_tcbAt, wp_check, wp_setTcb, wp_threadUnblock, wp_pure, implies_true, and_true]
      intro _ _
      rw [State.setTcb_self, State.setTcb_setTcb]
      exact ht.setTcb (fun _ => hnext) Bool.noConfusion
  · simp only [wp_bind, wp_setTcb, wp_threadAuthBlock, wp_pure]
    rw [State.setTcb_self, State.setTcb_setTcb]
    exact h.keep rfl rfl

theorem loose_notifyIntr (h : Loose s) :
    wp (fun _ => True) (notifyIntr p) (fun _ t => Loose t) s := by
  simp only [notifyIntr, wp_bind, wp_pid2proc, wp_ite, wp_setTcb, wp_check, wp_threadUnblock,
    implies_true, and_true]
  refine fun _ => ⟨fun _ _ _ _ => ?_, fun _ => h.keep rfl rfl⟩
  rw [State.setTcb_self, State.setTcb_setTcb]
  exact h.keep rfl rfl

theorem Loose.step (h : Loose s) (ha : Agrees pids s a) (hpids : ∀ p ∈ s.all, p < 2 ^ 31)
    {l : Event × Option Message} (hs : Step s l t) : Loose t := by
  obtain ⟨he, hrun⟩ := hs
  have had := addressed_of_ok hpids hrun
  suffices hw : wp (fun _ => True) (doEvent l.1) (fun _ t => Loose t) s from wp_ok hw hrun
  obtain ⟨e, r⟩ := l
  cases e with
  | send p q m =>
    simp only [doEvent, checkTarget, wp_bind, wp_check, wp_setCall, wp_tcbAt, wp_pure, implies_true,
      and_true]
    exact fun _ _ => wp_mono (loose_msgSend h ha he.1 had.1) fun _ _ ht => ht.setCall
  | receive p src m =>
    simp only [doEvent, checkTarget, wp_bind, wp_check, wp_setCall, wp_pure, implies_true, and_true]
    exact fun _ _ => wp_mono (loose_msgReceive h ha he.1 he.2.1 had.1) fun _ _ ht => ht.setCall
  | resume p => exact h.setCall
  | notify p =>
    simp only [doEvent, wp_bind, wp_pure]
    exact loose_notifyIntr h

/-! ## Events that a quiet run leaves out -/

/-- A receive that meets a notification returns with the caller's own buffer. -/
theorem Agrees.noted (h : Agrees pids s a) {src : Pid} {m : Message} {r : Option Message}
    (he : Enabled s (.receive p src m))
    (hsrc : (s.tcb p).pIntrPresent = true ∧ src = anyTask ∨ src = intrTask)
    (hrun : doEvent (.receive p src m) s = .ok (r, t)) :
    r = some (m.stamp p) ∧ Agrees pids t { a with noted := Function.update a.noted p false } := by
  obtain ⟨hp, hb, hc⟩ := he
  have hs := wp_ok (keeps_doEvent (.receive p src m) s h.sound) hrun
  suffices hw : wp (fun _ => True) (doEvent (.receive p src m)) (fun r t => r = some (m.stamp p) ∧
      Matches t { a with noted := Function.update a.noted p false }) s by
    obtain ⟨hr, hl, hq⟩ := wp_ok hw hrun
    exact ⟨hr, hs, hl, hq⟩
  obtain ⟨hidle, hidle', hwait⟩ := h.locals.idle hp hb
  have hok := h.locals.ok p hp
  simp only [doEvent, checkTarget, msgReceive, wp_bind, wp_check, wp_tcbAt, wp_ite, wp_setTcb, wp_pure,
    wp_setCall, implies_true, and_true]
  refine fun _ _ => ⟨fun _ => ⟨trivial, ?_, Queues.setCall (h.queues.put ?_ ?_ ?_ ?_)⟩,
    fun hno => absurd hsrc hno⟩
  · have hfrom : (s.tcb p).pRecvfrom ≠ anyTask := by
      intro hany
      rw [hok.any hany] at hidle'
      cases hidle'
    refine h.locals.put (.awake hidle hidle' hb hfrom hok.intr) ?_ ?_ ?_
    · simp [waitOf, hidle', hwait]
    · simp [boxOf, h.locals.box p hp, hc]
    · rfl
  · exact ⟨rfl, rfl⟩
  · rfl
  · intro hsend
    rw [hidle] at hsend
    cases hsend
  · rfl

/-- A notification that is not quiet fails an assertion. -/
theorem notify_quiet {r : Option Message} (hrun : doEvent (.notify p) s = .ok (r, t)) :
    Quiet s (.notify p) := by
  intro hrecv hany
  by_contra hto
  suffices hw : wp (fun _ => True) (doEvent (.notify p)) (fun _ _ => False) s from wp_ok hw hrun
  simp only [doEvent, notifyIntr, wp_bind, wp_pid2proc, wp_ite, wp_setTcb, wp_check,
    wp_threadUnblock, wp_pure, implies_true, and_true]
  refine fun _ => ⟨fun _ _ _ h => hto h, fun hno => hno ⟨hrecv, .inr hany⟩⟩

/-- What any call does to the messages on their way. -/
theorem Agrees.account (h : Agrees pids s a) (ht : a.Tidy)
    (hpids : ∀ p ∈ pids, 0 < p ∧ p < 2 ^ 31) {l : Event × Option Message} (hs : Step s l t) :
    ∃ b, Agrees pids t b ∧ b.Tidy ∧
      (b = (a.next l.1).2 ∨ ∃ p, b = { a with noted := Function.update a.noted p false }) ∧
      ∀ p q, p ≠ q → p ≠ intrTask →
        a.pending p q ++ (sentIn p q l).toList = (receivedIn p q l).toList ++ b.pending p q := by
  by_cases hq : Quiet s l.1
  · obtain ⟨b, hst, hb⟩ := h.step hpids hq hs
    refine ⟨b, hb, ht.step hst, .inl (congrArg Prod.snd hst.2).symm, fun p q _ hp => ?_⟩
    exact hst.pending ht hp
  · obtain ⟨⟨e, r⟩, rfl⟩ : ∃ x, x = l := ⟨l, rfl⟩
    cases e with
    | send p q m => exact absurd trivial hq
    | resume p => exact absurd trivial hq
    | notify p => exact absurd (notify_quiet hs.2) hq
    | receive p src m =>
      have hsrc : (s.tcb p).pIntrPresent = true ∧ src = anyTask ∨ src = intrTask := by
        by_contra hno
        push Not at hno
        refine hq ⟨hno.2, fun hany => ?_⟩
        rw [← Bool.not_eq_true]
        exact fun hn => hno.1 hn hany
      obtain ⟨rfl, hb⟩ := h.noted hs.1 hsrc hs.2
      refine ⟨_, hb, ⟨ht.source, ht.nodup, ht.boxed⟩, .inr ⟨p, rfl⟩, fun p' q hne _ => ?_⟩
      -- what comes back has the caller as its source
      have hr : receivedIn p' q (.receive p src m, some (m.stamp p)) = none := by
        simp only [receivedIn]
        rw [if_neg]
        rintro ⟨rfl, rfl⟩
        exact hne rfl
      rw [hr]
      simp [Mailboxes.pending, sentIn]

/-! ## A child -/

/-- A TCB that a new process may have. -/
structure Harmless (t : Tcb) : Prop where
  fresh : Fresh t
  blocked : t.blocked = false
  any : t.pRecvfrom ≠ anyTask
  intr : t.pRecvfrom ≠ intrTask

/-- A process that nobody knows yet. -/
structure Unknown (a : Mailboxes) (p : Pid) : Prop where
  waiting : a.waiting p = none
  box : a.box p = none
  noted : a.noted p = false

theorem born_self (r : Tcb) : (s.born c r).tcb c = r := Function.update_self ..

theorem born_of_ne {r : Tcb} (h : p ≠ c) : (s.born c r).tcb p = s.tcb p :=
  Function.update_of_ne h ..

theorem edge_born {r : Tcb} (hr : r.sending = false) (x y : Pid) :
    Edge (s.born c r) x y ↔ x ≠ c ∧ Edge s x y := by
  unfold Edge
  by_cases hx : x = c
  · subst hx
    simp [born_self, hr]
  · simp [born_of_ne hx, hx]

theorem Sound.born (h : Sound s.all s) {r : Tcb} (hr : r.sending = false) :
    Sound (s.born c r).all (s.born c r) := by
  have he : ∀ x y, Edge (s.born c r) x y → Edge s x y := fun x y hxy =>
    ((edge_born hr x y).mp hxy).2
  exact ⟨rfl, h.acyclic.mono he, fun x y hxy => List.mem_append_left _ (h.live x y (he x y hxy))⟩

theorem Locals.born (h : Locals s a) {r : Tcb} (hr : Harmless r) (hu : Unknown a c) :
    Locals (s.born c r) a := by
  have hmem : ∀ q ∈ (s.born c r).all, q ≠ c → q ∈ s.all := by
    intro q hq hqc
    rcases List.mem_append.mp hq with hq | hq
    · exact hq
    · exact absurd (List.mem_singleton.mp hq) hqc
  have hcall : ∀ q, q ≠ c → (s.born c r).call q = s.call q := fun q hq => Function.update_of_ne hq ..
  have hcall' : (s.born c r).call c = .none := Function.update_self ..
  refine ⟨fun q hq => ?_, fun q hq => ?_, fun q hq => ?_, fun q hq => ?_⟩ <;> by_cases hqc : q = c
  · subst hqc
    rw [born_self]
    exact .awake hr.fresh.sending hr.fresh.receiving hr.blocked hr.any hr.intr
  · rw [born_of_ne hqc, hcall q hqc]
    exact h.ok q (hmem q hq hqc)
  · subst hqc
    rw [born_self, hu.waiting, waitOf, hr.fresh.receiving]
    rfl
  · rw [born_of_ne hqc]
    exact h.waiting q (hmem q hq hqc)
  · subst hqc
    rw [born_self, hcall', hu.box]
    rfl
  · rw [born_of_ne hqc, hcall q hqc]
    exact h.box q (hmem q hq hqc)
  · subst hqc
    rw [born_self, hu.noted, hr.fresh.intr]
  · rw [born_of_ne hqc]
    exact h.noted q (hmem q hq hqc)

theorem Queues.born (h : Queues s a) (hs : Sound s.all s) {r : Tcb} (hr : Fresh r)
    (hc : c ∉ s.all) : Queues (s.born c r) a := by
  have hin : ∀ q ∈ s.all, ∀ x ∈ (a.queue q).map Prod.fst, x ≠ c := by
    intro q hq x hx he
    obtain ⟨y, hy, rfl⟩ := List.mem_map.mp hx
    exact hc (he ▸ ((h.queued q hq y).mp hy).1)
  refine ⟨fun q hq => ?_, h.nodup, fun q hq x => ?_, fun q hq => h.dead q fun hqs => hq ?_⟩
  · rcases List.mem_append.mp hq with hq | hq
    · have hqc : q ≠ c := fun he => hc (he ▸ hq)
      have hhead : (s.born c r).head q = s.head q := congrArg Tcb.pSendingQueue (born_of_ne hqc)
      unfold QueueIs
      rw [hhead]
      refine Chain.congr (h.chain q hq) fun x hx => ?_
      exact congrArg Tcb.pNextSending (born_of_ne (hin q hq x hx))
    · obtain rfl := List.mem_singleton.mp hq
      rw [h.dead q hc]
      exact (congrArg Tcb.pSendingQueue (born_self r)).trans hr.queue
  · rw [edge_born hr.sending]
    rcases List.mem_append.mp hq with hq | hq
    · rw [h.queued q hq x]
      constructor
      · rintro ⟨hx, he, hm⟩
        have hxc : x.1 ≠ c := fun heq => hc (heq ▸ hx)
        rw [born_of_ne hxc]
        exact ⟨List.mem_append_left _ hx, ⟨hxc, he⟩, hm⟩
      · rintro ⟨hx, ⟨hxc, he⟩, hm⟩
        rw [born_of_ne hxc] at hm
        refine ⟨?_, he, hm⟩
        rcases List.mem_append.mp hx with hx | hx
        · exact hx
        · exact absurd (List.mem_singleton.mp hx) hxc
    · obtain rfl := List.mem_singleton.mp hq
      rw [h.dead q hc]
      refine iff_of_false List.not_mem_nil ?_
      rintro ⟨-, ⟨-, he⟩, -⟩
      exact hc (hs.live _ _ he)
  · exact List.mem_append_left _ hqs

theorem Agrees.born (h : Agrees s.all s a) {r : Tcb} (hr : Harmless r) (hu : Unknown a c)
    (hc : c ∉ s.all) : Agrees (s.born c r).all (s.born c r) a :=
  ⟨h.sound.born hr.fresh.sending, h.locals.born hr hu, h.queues.born h.sound hr.fresh hc⟩

theorem Loose.born (h : Loose s) {r : Tcb} (hr : Fresh r) : Loose (s.born c r) := by
  constructor
  · intro p hp
    by_cases hpc : p = c
    · subst hpc
      rw [born_self]
      exact hr.link
    · rw [born_of_ne hpc] at hp ⊢
      exact h.link p hp
  · intro p hp
    have hpc : p ≠ c := fun he => hp (List.mem_append_right _ (List.mem_singleton.mpr he))
    rw [born_of_ne hpc]
    exact h.dead p fun hm => hp (List.mem_append_left _ hm)

theorem Unknown.deliver (h : Unknown a p) (hpq : p ≠ q) {m : Message} :
    Unknown (a.deliver q m) p :=
  ⟨(Function.update_of_ne hpq ..).trans h.waiting, (Function.update_of_ne hpq ..).trans h.box,
    h.noted⟩

theorem Unknown.note (h : Unknown a p) (hpq : p ≠ q) {x : Bool} :
    Unknown { a with noted := Function.update a.noted q x } p :=
  ⟨h.waiting, h.box, (Function.update_of_ne hpq ..).trans h.noted⟩

/-- No call makes a process known that is not there. -/
theorem Mailboxes.unknown_next {e : Event} (he : Enabled s e) (had : Addressed s e)
    (h : ∀ p, p ∉ s.all → Unknown a p) (hp : p ∉ s.all) : Unknown (a.next e).2 p := by
  have hu := h p hp
  cases e with
  | send p' q' m =>
    have hpq : p ≠ q' := fun he => hp (he ▸ had.1)
    simp only [Mailboxes.next]
    split
    · exact hu.deliver hpq
    · exact ⟨hu.waiting, hu.box, hu.noted⟩
  | receive p' src m =>
    have hpp : p ≠ p' := fun heq => hp (heq ▸ he.1)
    simp only [Mailboxes.next]
    split
    · exact hu.note hpp
    · split
      · exact ⟨hu.waiting, hu.box, hu.noted⟩
      · exact ⟨(Function.update_of_ne hpp ..).trans hu.waiting, hu.box, hu.noted⟩
  | resume p' =>
    have hpp : p ≠ p' := fun heq => hp (heq ▸ he.1)
    exact ⟨hu.waiting, (Function.update_of_ne hpp ..).trans hu.box, hu.noted⟩
  | notify p' =>
    have hpp : p ≠ p' := fun heq => hp (heq ▸ he)
    simp only [Mailboxes.next]
    split
    · split
      · exact hu.deliver hpp
      · exact hu.note hpp
    · exact hu.note hpp

/-! ## An end -/

/-- Nobody sends to a process with an empty queue. -/
theorem Agrees.unsought (h : Agrees s.all s a) (hl : Loose s) (hp : p ∈ s.all)
    (hq : (s.tcb p).pSendingQueue = none) : a.queue p = [] ∧ ∀ x, ¬ Edge s x p := by
  have hchain := h.queues.chain p hp
  unfold QueueIs at hchain
  rw [show s.head p = none from hq] at hchain
  have hnil : a.queue p = [] := List.map_eq_nil_iff.mp hchain.eq_nil
  refine ⟨hnil, fun x hx => ?_⟩
  have hmem := (h.queues.queued p hp (x, (s.tcb x).pMessage)).mpr ⟨hl.mem hx.1, hx, rfl⟩
  rw [hnil] at hmem
  cases hmem

theorem Agrees.reaped (h : Agrees s.all s a) (hl : Loose s) (hn : s.all.Nodup) (hp : p ∈ s.all)
    (hb : (s.tcb p).blocked = false) (hq : (s.tcb p).pSendingQueue = none) :
    Agrees (s.all.erase p) { s with all := s.all.erase p }
      { a with noted := Function.update a.noted p false } := by
  obtain ⟨hnil, hno⟩ := h.unsought hl hp hq
  have hsend := (h.locals.idle hp hb).1
  have hmem : ∀ x, x ∈ s.all.erase p ↔ x ≠ p ∧ x ∈ s.all := fun x => hn.mem_erase_iff
  refine ⟨⟨rfl, h.sound.acyclic, fun x y he => (hmem y).mpr ⟨?_, h.sound.live x y he⟩⟩,
    ⟨fun x hx => h.locals.ok x ((hmem x).mp hx).2, fun x hx => h.locals.waiting x ((hmem x).mp hx).2,
      fun x hx => h.locals.box x ((hmem x).mp hx).2, fun x hx => ?_⟩,
    ⟨fun x hx => h.queues.chain x ((hmem x).mp hx).2, h.queues.nodup, fun x hx y => ?_,
      fun x hx => ?_⟩⟩
  · rintro rfl
    exact hno x he
  · obtain ⟨hxp, hx⟩ := (hmem x).mp hx
    exact (Function.update_of_ne hxp ..).trans (h.locals.noted x hx)
  · rw [h.queues.queued x ((hmem x).mp hx).2 y]
    constructor
    · rintro ⟨hy, he, hm⟩
      refine ⟨(hmem y.1).mpr ⟨fun hyp => ?_, hy⟩, he, hm⟩
      have hys := he.1
      rw [hyp, hsend] at hys
      cases hys
    · rintro ⟨hy, he, hm⟩
      exact ⟨((hmem y.1).mp hy).2, he, hm⟩
  · by_cases hxp : x = p
    · rw [hxp]
      exact hnil
    · exact h.queues.dead x fun hxs => hx ((hmem x).mpr ⟨hxp, hxs⟩)

/-! ## Runs -/

structure Household (f : Family) (a : Mailboxes) : Prop where
  nodup : f.ipc.all.Nodup
  agrees : Agrees f.ipc.all f.ipc a
  tidy : a.Tidy
  unknown : ∀ p, p ∉ f.ipc.all → Unknown a p
  loose : Loose f.ipc
  pids : ∀ p ∈ f.ipc.all, 0 < p ∧ p < 2 ^ 31
  unborn : ∀ p c t, f.unborn p = some (c, t) → c ∉ f.ipc.all ∧ (0 < c ∧ c < 2 ^ 31) ∧ Harmless t
  distinct : ∀ p q c t u, f.unborn p = some (c, t) → f.unborn q = some (c, u) → p = q

namespace Household

variable {f f' : Family}

/-- The copy of a running process is fresh exactly when nothing is pending for it. -/
theorem fresh_iff (h : Household f a) (hp : p ∈ f.ipc.all) (hb : (f.ipc.tcb p).blocked = false) :
    Fresh (f.ipc.tcb p).forked ↔ f.Clean (.copy p c) := by
  obtain ⟨hs, hr, -⟩ := h.agrees.locals.idle hp hb
  constructor
  · intro hf
    exact ⟨hf.queue, hf.intr⟩
  · rintro ⟨hq, hi⟩
    exact ⟨hq, h.loose.link p hs, hs, hr, hi⟩

theorem harmless (h : Household f a) (hp : p ∈ f.ipc.all) (hb : (f.ipc.tcb p).blocked = false)
    (hc : f.Clean (.copy p c)) : Harmless (f.ipc.tcb p).forked := by
  obtain ⟨-, hr, -⟩ := h.agrees.locals.idle hp hb
  have hok := h.agrees.locals.ok p hp
  refine ⟨(h.fresh_iff hp hb).mpr hc, rfl, fun hany => ?_, hok.intr⟩
  have hrecv := hok.any hany
  rw [hr] at hrecv
  cases hrecv

theorem copy (h : Household f a) (hclean : f.Clean (.copy p c)) (hs : f.Step (.copy p c) f') :
    Household f' a := by
  obtain ⟨hp, hb, -, -, hc, hnew, h0, hmax, rfl⟩ := hs
  have hlt : c < 2 ^ 31 := Nat.lt_of_le_of_lt hmax (by decide)
  have hself : ∀ x d t, Function.update f.unborn p (some (c, (f.ipc.tcb p).forked)) x = some (d, t) →
      x = p ∧ d = c ∧ t = (f.ipc.tcb p).forked ∨ f.unborn x = some (d, t) := by
    intro x d t hx
    by_cases hxp : x = p
    · subst hxp
      simp only [Function.update_self, Option.some.injEq, Prod.mk.injEq] at hx
      exact .inl ⟨rfl, hx.1.symm, hx.2.symm⟩
    · rw [Function.update_of_ne hxp] at hx
      exact .inr hx
  refine ⟨h.nodup, h.agrees, h.tidy, h.unknown, h.loose, h.pids, fun q d t hq => ?_,
    fun q q' d t u hq hq' => ?_⟩
  · rcases hself q d t hq with ⟨rfl, rfl, rfl⟩ | hold
    · exact ⟨hc, ⟨h0, hlt⟩, h.harmless hp hb hclean⟩
    · exact h.unborn q d t hold
  · rcases hself q d t hq with ⟨hqp, hd, -⟩ | hold <;>
      rcases hself q' d u hq' with ⟨hqp', hd', -⟩ | hold'
    · exact hqp.trans hqp'.symm
    · exact absurd (hd ▸ hold') (hnew q' u)
    · exact absurd (hd' ▸ hold) (hnew q t)
    · exact h.distinct q q' d t u hold hold'

theorem link (h : Household f a) (hs : f.Step (.link p) f') : Household f' a := by
  obtain ⟨c, t, hp, rfl⟩ := hs
  obtain ⟨hc, hpid, hr⟩ := h.unborn p c t hp
  have hself : ∀ q d u, Function.update f.unborn p none q = some (d, u) →
      q ≠ p ∧ f.unborn q = some (d, u) := by
    intro q d u hq
    by_cases hqp : q = p
    · subst hqp
      rw [Function.update_self] at hq
      cases hq
    · rw [Function.update_of_ne hqp] at hq
      exact ⟨hqp, hq⟩
  refine ⟨List.nodup_append_comm.mp (List.nodup_cons.mpr ⟨hc, h.nodup⟩),
    h.agrees.born hr (h.unknown c hc) hc, h.tidy, fun q hq => ?_, h.loose.born hr.fresh,
    fun q hq => ?_, fun q d u hq => ?_, fun q q' d u u' hq hq' => ?_⟩
  · exact h.unknown q fun hqs => hq (List.mem_append_left _ hqs)
  · rcases List.mem_append.mp hq with hq | hq
    · exact h.pids q hq
    · rw [List.mem_singleton.mp hq]
      exact hpid
  · obtain ⟨hqp, hold⟩ := hself q d u hq
    obtain ⟨hd, hdpid, hu⟩ := h.unborn q d u hold
    refine ⟨fun hm => ?_, hdpid, hu⟩
    rcases List.mem_append.mp hm with hm | hm
    · exact hd hm
    · rw [List.mem_singleton.mp hm] at hold
      exact hqp (h.distinct q p c u t hold hp)
  · exact h.distinct q q' d u u' (hself q d u hq).2 (hself q' d u' hq').2

/-- A call; what is on its way is accounted for. -/
theorem call (h : Household f a) {l : Event × Option Message} (hs : f.Step (.call l) f') :
    ∃ b, Household f' b ∧ ∀ p q, p ≠ q → p ≠ intrTask →
      a.pending p q ++ (sentIn p q l).toList = (receivedIn p q l).toList ++ b.pending p q := by
  obtain ⟨-, hst, hu⟩ := hs
  obtain ⟨b, hb, ht, hnext, hacc⟩ := h.agrees.account h.tidy h.pids hst
  have hall := hb.sound.all_eq
  have had := addressed_of_ok (fun p hp => (h.pids p hp).2) hst.2
  refine ⟨b, ⟨hall.symm ▸ h.nodup, hall.symm ▸ hb, ht, fun p hp => ?_, ?_, ?_, ?_, ?_⟩, hacc⟩
  · rw [hall] at hp
    rcases hnext with rfl | ⟨q, rfl⟩
    · exact Mailboxes.unknown_next hst.1 had h.unknown hp
    · obtain ⟨h1, h2, h3⟩ := h.unknown p hp
      refine ⟨h1, h2, ?_⟩
      by_cases hpq : p = q
      · subst hpq
        exact Function.update_self ..
      · exact (Function.update_of_ne hpq ..).trans h3
  · exact h.loose.step h.agrees (fun p hp => (h.pids p hp).2) hst
  · rw [hall]
    exact h.pids
  · rw [hall, hu]
    exact h.unborn
  · rw [hu]
    exact h.distinct

/-- A process that is gone leaves no message on its way to it. -/
theorem reap (h : Household f a) (hclean : f.Clean (.reap p)) (hs : f.Step (.reap p) f') :
    Household f' { a with noted := Function.update a.noted p false } := by
  obtain ⟨hp, hb, hcall, hun, rfl⟩ := hs
  have hmem : ∀ x, x ∈ f.ipc.all.erase p → x ∈ f.ipc.all := fun x => List.mem_of_mem_erase
  refine ⟨h.nodup.erase p, h.agrees.reaped h.loose h.nodup hp hb hclean,
    ⟨h.tidy.source, h.tidy.nodup, h.tidy.boxed⟩, fun x hx => ?_, ⟨h.loose.link, fun x hx => ?_⟩,
    fun x hx => h.pids x (hmem x hx), fun q c t hq => ?_, h.distinct⟩
  · by_cases hxp : x = p
    · subst hxp
      obtain ⟨-, hrecv, hwait⟩ := h.agrees.locals.idle hp hb
      refine ⟨hwait, ?_, Function.update_self ..⟩
      rw [h.agrees.locals.box x hp, hcall]
      rfl
    · have hx' : x ∉ f.ipc.all := fun hm => hx ((List.mem_erase_of_ne hxp).mpr hm)
      exact (h.unknown x hx').note hxp
  · by_cases hxp : x = p
    · rw [hxp]
      exact (h.agrees.locals.idle hp hb).1
    · exact h.loose.dead x fun hm => hx ((List.mem_erase_of_ne hxp).mpr hm)
  · obtain ⟨hc, hrest⟩ := h.unborn q c t hq
    exact ⟨fun hm => hc (hmem c hm), hrest⟩

theorem init (hd : pids.Nodup) (hpids : ∀ p ∈ pids, 0 < p ∧ p < 2 ^ 31) :
    Household (.init pids) .empty := by
  refine ⟨hd, .init pids, .empty, fun _ _ => ⟨rfl, rfl, rfl⟩, ⟨fun _ _ => rfl, fun _ _ => rfl⟩, hpids, ?_, ?_⟩
  · intro p c t hp
    cases hp
  · intro p q c t u hp
    cases hp

end Household

/-- What forks leave of the queues; `as` led to `f`. -/
structure ForkLaw (f : Family) (as : List Act) : Prop where
  /-- A process is in the sending queue of the one it is sending to. -/
  queues : ∀ q ∈ f.ipc.all, ∃ l, SendingQueue f.ipc q l
  /-- A child that comes in is in no queue, and nobody waits to send to it. -/
  child : ∀ p f', f.Step (.link p) f' → ∃ c, c ∉ f.ipc.all ∧ f'.ipc.all = f.ipc.all ++ [c] ∧
    Fresh (f'.ipc.tcb c) ∧ (f'.ipc.tcb c).blocked = false ∧ SendingQueue f'.ipc c []
  exact : ∀ p c f', f.Step (.copy p c) f' →
    (Fresh (f.ipc.tcb p).forked ↔ f.Clean (.copy p c))
  /-- What was sent from `p` to `q` arrives once and at `q` only, forks in between or not. -/
  delivered : ∀ p ∈ f.ipc.all, ∀ q ∈ f.ipc.all, p ≠ q →
    sent p q (calls as) = received p q (calls as) ++ arrived f.ipc p q ++ offered f.ipc p q

namespace Household

variable {f f' : Family} {as : List Act}

theorem queues (h : Household f a) (hq : q ∈ f.ipc.all) : ∃ l, SendingQueue f.ipc q l :=
  ⟨_, h.agrees.sendingQueue hq⟩

theorem child (h : Household f a) (hs : f.Step (.link p) f') :
    ∃ c, c ∉ f.ipc.all ∧ f'.ipc.all = f.ipc.all ++ [c] ∧ Fresh (f'.ipc.tcb c) ∧
      (f'.ipc.tcb c).blocked = false ∧ SendingQueue f'.ipc c [] := by
  have h' := h.link hs
  obtain ⟨c, t, hp, rfl⟩ := hs
  obtain ⟨hc, -, hr⟩ := h.unborn p c t hp
  have hmem : c ∈ (f.ipc.born c t).all := List.mem_append_right _ (List.mem_singleton_self c)
  have hsq := h'.agrees.sendingQueue hmem
  rw [h.agrees.queues.dead c hc] at hsq
  refine ⟨c, hc, rfl, ?_, ?_, hsq⟩
  · rw [born_self]
    exact hr.fresh
  · rw [born_self]
    exact hr.blocked

/-- A run of calls and forks; what is on its way is accounted for. -/
theorem run (h : Household f a) (hrun : Run (Guarded Family.Clean Family.Step) f as f') :
    ∃ b, Household f' b ∧ ∀ p q, p ≠ q → p ≠ intrTask →
      a.pending p q ++ sent p q (calls as) = received p q (calls as) ++ b.pending p q := by
  induction hrun generalizing a with
  | nil => exact ⟨a, h, fun p q _ _ => by simp [calls, sent, received]⟩
  | @cons f g f' e as hst _ ih =>
    obtain ⟨hclean, hst⟩ := hst
    cases e with
    | call l =>
      obtain ⟨b, hb, hacc⟩ := h.call hst
      obtain ⟨b', hb', hacc'⟩ := ih hb
      refine ⟨b', hb', fun p q hne hp => ?_⟩
      calc a.pending p q ++ sent p q (l :: calls as)
          = (a.pending p q ++ (sentIn p q l).toList) ++ sent p q (calls as) := by
            cases hl : sentIn p q l <;> simp [sent, hl]
        _ = (receivedIn p q l).toList ++ (b.pending p q ++ sent p q (calls as)) := by
            rw [hacc p q hne hp, List.append_assoc]
        _ = (receivedIn p q l).toList ++ received p q (calls as) ++ b'.pending p q := by
            rw [hacc' p q hne hp, List.append_assoc]
        _ = received p q (l :: calls as) ++ b'.pending p q := by
            cases hl : receivedIn p q l <;> simp [received, hl]
    | copy p c =>
      obtain ⟨b', hb', hacc'⟩ := ih (h.copy hclean hst)
      exact ⟨b', hb', hacc'⟩
    | link p =>
      obtain ⟨b', hb', hacc'⟩ := ih (h.link hst)
      exact ⟨b', hb', hacc'⟩
    | reap p =>
      obtain ⟨b', hb', hacc'⟩ := ih (h.reap hclean hst)
      exact ⟨b', hb', hacc'⟩

theorem forkLaw (h : Household f a) (hacc : ∀ p q, p ≠ q → p ≠ intrTask →
    sent p q (calls as) = received p q (calls as) ++ a.pending p q) : ForkLaw f as := by
  refine ⟨fun q hq => h.queues hq, fun p f' hs => h.child hs, fun p c f' hs => ?_,
    fun p hp q hq hne => ?_⟩
  · exact h.fresh_iff hs.1 hs.2.1
  · have hintr : p ≠ intrTask := by
      rintro rfl
      exact absurd (h.pids _ hp).2 (by decide)
    rw [hacc p q hne hintr, h.agrees.pending_eq hp hq, List.append_assoc]

end Household

/-- Forks that leave nothing of the parent's queue in the child keep all the queues. -/
theorem forked_outside (pids : List Pid) (as : List Act) (f : Family) (main idle : Thread.Tid)
    (others : List Thread.Tid) (parentPid : Thread.Tid → Option Thread.Tid)
    (queue : Nat → Thread.CircleQueue) (xs : List Thread.Action) (t : Thread.State) :
    (pids.Nodup → (∀ p ∈ pids, 0 < p ∧ p < 2 ^ 31) →
      Run (Guarded Family.Clean Family.Step) (.init pids) as f → ForkLaw f as) ∧
    ((main :: others).Nodup → idle ∈ others →
      Run (Guarded Thread.Action.Allowed Thread.Growing)
        (.start main idle others parentPid queue) xs t →
      Thread.Queued t ∧ Thread.ForkSettled t) := by
  refine ⟨fun hd hpids hrun => ?_, fun hd hi hrun => ?_⟩
  · obtain ⟨a, ha, hacc⟩ := (Household.init hd hpids).run hrun
    refine ha.forkLaw fun p q hne hp => ?_
    have := hacc p q hne hp
    simpa [Mailboxes.pending, Mailboxes.empty] using this
  · exact Thread.forks_settle hd hi parentPid queue hrun

/-- Process 1 forks while nobody waits for it, and process 2 sends to it in the meantime. -/
theorem forked_outside_quiet :
    (∃ f, Run (Guarded Family.Clean Family.Step) (.init [1, 2])
        [.copy 1 3, .call (.send 2 1 .zero, none), .link 1] f ∧
      ForkLaw f [.copy 1 3, .call (.send 2 1 .zero, none), .link 1]) ∧
    ∃ t, Run (Guarded Thread.Action.Allowed Thread.Growing)
        (.start 0 1 [1] (fun _ => none) fun _ => .init 64) [.fork 2] t ∧
      Thread.Queued t ∧ Thread.ForkSettled t := by
  have hboth := forked_outside [1, 2] [.copy 1 3, .call (.send 2 1 .zero, none), .link 1]
  refine ⟨?_, ?_⟩
  · have h : ∃ f, Run (Guarded Family.Clean Family.Step) (.init [1, 2])
        [.copy 1 3, .call (.send 2 1 .zero, none), .link 1] f := by
      refine ⟨_, .cons ⟨⟨rfl, rfl⟩, by decide, rfl, rfl, rfl, by decide, fun _ _ => nofun, by decide,
        by decide, rfl⟩ <| .cons ⟨trivial, Family.step_call ?_ ⟨⟨by decide, rfl, rfl⟩, rfl⟩⟩ <|
        .single ⟨trivial, 3, _, rfl, rfl⟩⟩
      rintro p ⟨⟩
      rfl
    obtain ⟨f, hf⟩ := h
    exact ⟨f, hf, (hboth f 0 1 [1] (fun _ => none) (fun _ => .init 64) []
      (.start 0 1 [1] (fun _ => none) fun _ => .init 64)).1 (by decide) (by decide) hf⟩
  · have h : ∃ t, Run (Guarded Thread.Action.Allowed Thread.Growing)
        (.start 0 1 [1] (fun _ => none) fun _ => .init 64) [.fork 2] t :=
      ⟨_, .single ⟨trivial, by decide, rfl, by decide, rfl⟩⟩
    obtain ⟨t, ht⟩ := h
    exact ⟨t, ht, (hboth (.init [1, 2]) 0 1 [1] _ _ _ t).2 (by decide) (by decide) ht⟩

/-- Process 2 waits to send to process 1, which forks: the child takes the message. -/
theorem forked_inside :
    ∃ f as, Run Family.Step (.init [1, 2]) as f ∧ ¬ ForkLaw f as ∧
      sent 2 1 (calls as) = [Message.zero.stamp 2] ∧ sent 2 3 (calls as) = [] ∧
      received 2 3 (calls as) = [Message.zero.stamp 2] := by
  refine ⟨_, [.call (.send 2 1 .zero, none), .copy 1 3, .link 1,
    .call (.receive 3 anyTask .zero, some (Message.zero.stamp 2))],
    .cons (Family.step_call ?_ ⟨⟨by decide, rfl, rfl⟩, rfl⟩) <| .cons ⟨by decide, rfl, rfl, rfl, by decide,
      fun _ _ => nofun, by decide, by decide, rfl⟩ <| .cons ⟨3, _, rfl, rfl⟩ <|
      .single (Family.step_call ?_ ⟨⟨by decide, rfl, rfl⟩, rfl⟩), ?_, rfl, rfl, rfl⟩
  · rintro p ⟨⟩
    rfl
  · rintro p ⟨⟩
    rfl
  · intro h
    -- nothing of the message is left at its target
    have := h.delivered 2 (by decide) 1 (by decide) (by decide)
    revert this
    decide

end Frog.Ipc
