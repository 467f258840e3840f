import Frog.Ipc.Delivery

/-!
# Who waits for whom

A receive and a send that want each other never both wait, whether or not interrupts are noted
meanwhile; and a process that is stuck is stuck behind one that waits for a message nobody offers.
-/

namespace Frog.Ipc

set_option autoImplicit false
open Prog Relation

variable {s t : State} {a b : Mailboxes} {p q : Pid} {pids : List Pid}
  {as : List (Event × Option Message)}

namespace Mailboxes

/-- No message stands in a queue whose owner waits for it. -/
def Met (a : Mailboxes) : Prop := ∀ q, ∀ w ∈ a.waiting q, ∀ x ∈ a.queue q, ¬ Takes w.1 x.1

theorem Met.empty : empty.Met := fun _ _ hw => by cases hw

theorem Met.deliver (h : a.Met) {m : Message} : (a.deliver q m).Met := by
  intro q' w hw
  by_cases hq : q' = q
  · subst hq
    simp at hw
  · simp only [Function.update_of_ne hq] at hw
    exact h q' w hw

/-- A queue may lose messages, and gain those its owner does not wait for. -/
theorem Met.setQueue (h : a.Met) {xs : List (Pid × Message)}
    (hxs : ∀ x ∈ xs, x ∈ a.queue q ∨ ¬ a.Awaits q x.1) : (a.setQueue q xs).Met := by
  intro q' w hw x hx
  by_cases hq : q' = q
  · subst hq
    rw [setQueue_self] at hx
    rcases hxs x hx with hx | hno
    · exact h q' w hw x hx
    · exact fun ht => hno ⟨w, hw, ht⟩
  · rw [setQueue_of_ne hq] at hx
    exact h q' w hw x hx

theorem Met.wait (h : a.Met) {src : Pid} {m : Message}
    (hno : ∀ x ∈ a.queue p, ¬ Takes src x.1) :
    Met { a with waiting := Function.update a.waiting p (some (src, m)) } := by
  intro q w hw x hx
  by_cases hq : q = p
  · subst hq
    simp only [Function.update_self] at hw
    obtain rfl := Option.some.inj hw
    exact hno x hx
  · simp only [Function.update_of_ne hq] at hw
    exact h q w hw x hx

theorem Met.step (h : a.Met) {l : Event × Option Message} (hst : Step a l b) : b.Met := by
  obtain ⟨e, r⟩ := l
  obtain ⟨-, hnext⟩ := hst
  cases e with
  | send p q m =>
    simp only [next, Prod.mk.injEq] at hnext
    obtain ⟨-, rfl⟩ := hnext
    split
    · exact h.deliver
    · rename_i hno
      refine h.setQueue fun x hx => ?_
      rcases List.mem_append.mp hx with hx | hx
      · exact .inl hx
      · rw [List.mem_singleton.mp hx]
        exact .inr hno
  | receive p src m =>
    simp only [next] at hnext
    split at hnext
    · simp only [Prod.mk.injEq] at hnext
      obtain ⟨-, rfl⟩ := hnext
      exact h
    · split at hnext <;> simp only [Prod.mk.injEq] at hnext <;> obtain ⟨-, rfl⟩ := hnext
      · exact h.setQueue fun x hx => .inl (List.mem_of_mem_erase hx)
      · rename_i hfind
        exact h.wait fun x hx => by simpa using List.find?_eq_none.mp hfind x hx
  | resume p =>
    simp only [next, Prod.mk.injEq] at hnext
    obtain ⟨-, rfl⟩ := hnext
    exact h
  | notify p =>
    simp only [next] at hnext
    split at hnext
    · split at hnext <;> simp only [Prod.mk.injEq] at hnext <;> obtain ⟨-, rfl⟩ := hnext
      · exact h.deliver
      · exact h
    · simp only [Prod.mk.injEq] at hnext
      obtain ⟨-, rfl⟩ := hnext
      exact h

end Mailboxes

/-- A receive that finds a notification returns at once; the queues and the waits stay. -/
theorem Agrees.noticed (h : Agrees pids s a) {src : Pid} {m : Message} {r : Option Message}
    (hn : (s.tcb p).pIntrPresent = true ∧ src = anyTask ∨ src = intrTask)
    (hst : Step s (.receive p src m, r) t) :
    Agrees pids t { a with noted := Function.update a.noted p false } := by
  obtain ⟨he, hrun⟩ := hst
  obtain ⟨hp, hb, hc⟩ := he
  obtain ⟨hidle, hidle', hwait⟩ := h.locals.idle hp hb
  have hok := h.locals.ok p hp
  have hfrom : (s.tcb p).pRecvfrom ≠ anyTask := fun he => by
    rw [hok.any he] at hidle'
    cases hidle'
  have hsound := wp_ok (keeps_doEvent (.receive p src m) s h.sound) hrun
  suffices hm : wp (fun _ => True) (doEvent (.receive p src m)) (fun _ t =>
      Matches t { a with noted := Function.update a.noted p false }) s by
    obtain ⟨hl, hqs⟩ := wp_ok hm hrun
    exact ⟨hsound, hl, hqs⟩
  simp only [doEvent, checkTarget, msgReceive, wp_bind, wp_check, wp_ite, wp_tcbAt, wp_setTcb,
    wp_setCall, wp_pure, implies_true, and_true]
  refine fun _ _ => ⟨fun _ => ⟨?_, Queues.setCall (h.queues.put ?_ ?_ ?_ ?_)⟩,
    fun hno => absurd hn hno⟩
  · refine h.locals.put (.awake hidle hidle' hb hfrom hok.intr) ?_ ?_ rfl
    · simp [waitOf, hidle', hwait]
    · exact (Function.update_eq_self_iff.mpr (by simp [h.locals.box p hp, boxOf, hc])).symm
  · exact ⟨rfl, rfl⟩
  · rfl
  · intro hs
    rw [hidle] at hs
    cases hs
  · rfl

/-- With or without notifications a step leaves mailboxes in which no one who waits is offered
what they wait for. -/
theorem Agrees.met_step (h : Agrees pids s a) (hm : a.Met) (hpids : ∀ p ∈ pids, 0 < p ∧ p < 2 ^ 31)
    {l : Event × Option Message} (hst : Step s l t) : ∃ b, Agrees pids t b ∧ b.Met := by
  by_cases hq : Quiet s l.1
  · obtain ⟨b, hab, hb⟩ := h.step hpids hq hst
    exact ⟨b, hb, hm.step hab⟩
  · obtain ⟨e, r⟩ := l
    cases e with
    | send p q m => exact absurd trivial hq
    | resume p => exact absurd trivial hq
    | receive p src m =>
      refine ⟨_, h.noticed ?_ hst, hm⟩
      by_contra hno
      rw [not_or] at hno
      refine hq ⟨hno.2, fun hany => ?_⟩
      by_contra hn
      exact hno.1 ⟨by simpa using hn, hany⟩
    | notify p =>
      -- the assertion at the end of `notify_intr` fails, so this is no step
      refine absurd (fun hr hf => ?_) hq
      have hsend : wp (fun _ => True) (doEvent (.notify p)) (fun _ _ => (s.tcb p).pSendto = noTask)
          s := by
        simp only [doEvent, notifyIntr, wp_bind, wp_pid2proc, wp_ite, wp_setTcb, wp_check,
          wp_threadUnblock, wp_pure, State.setTcb_self, implies_true, and_true]
        exact fun _ => ⟨fun _ _ _ hto => hto, fun hno => absurd ⟨hr, .inr hf⟩ hno⟩
      have hto := wp_ok hsend hst.2
      exact hto

theorem Agrees.met_run (hpids : ∀ p ∈ pids, 0 < p ∧ p < 2 ^ 31)
    (h : Run Step (State.init pids) as t) : ∃ a, Agrees pids t a ∧ a.Met :=
  h.invariant (I := fun s => ∃ a, Agrees pids s a ∧ a.Met)
    (fun _ _ _ ⟨_, ha, hm⟩ hst => ha.met_step hm hpids hst) ⟨_, .init pids, .empty⟩

/-- `q` waits in a receive, and nobody who would be taken waits in a send to it. -/
structure Starved (t : State) (q : Pid) : Prop where
  receiving : (t.tcb q).receiving = true
  unmet : ∀ p ∈ t.all, Edge t p q → ¬ Takes (t.tcb q).pRecvfrom p

theorem Agrees.starved (h : Agrees pids t a) (hm : a.Met) (hq : q ∈ t.all)
    (hr : (t.tcb q).receiving = true) : Starved t q := by
  refine ⟨hr, fun p hp he => ?_⟩
  have hw : a.waiting q = some ((t.tcb q).pRecvfrom, (t.tcb q).pMessage) := by
    rw [h.locals.waiting q hq, waitOf, if_pos hr]
  have hx : (p, (t.tcb p).pMessage) ∈ a.queue q := (h.queues.queued q hq _).mpr ⟨hp, he, rfl⟩
  exact hm q _ hw _ hx

/-- In every reachable state a process is blocked exactly while a call of it waits; a receive that
waits is offered nothing it would take; and whoever is blocked in a send waits, through other
senders, for a process that runs or that is starved. -/
theorem waits_explained (hpids : ∀ p ∈ pids, 0 < p ∧ p < 2 ^ 31)
    (h : Run Step (State.init pids) as t) :
    (∀ p ∈ pids, (t.tcb p).blocked = true ↔
        (t.tcb p).sending = true ∨ (t.tcb p).receiving = true) ∧
      (∀ q ∈ pids, (t.tcb q).receiving = true → Starved t q) ∧
      ∀ p ∈ pids, ∃ q ∈ pids, ReflTransGen (Edge t) p q ∧
        ((t.tcb q).blocked = false ∨ Starved t q) := by
  obtain ⟨a, ha, hm⟩ := Agrees.met_run hpids h
  have hall := ha.sound.all_eq
  refine ⟨fun p hp => (ha.locals.ok p (hall ▸ hp)).blocked,
    fun q hq hr => ha.starved hm (hall ▸ hq) hr, fun p hp => ?_⟩
  obtain ⟨q, hpq, hsink⟩ := ha.sound.acyclic.exists_sink ha.sound.live p
  have hq : q ∈ t.all := by
    rcases hpq.cases_tail with rfl | ⟨z, -, hzq⟩
    · exact hall ▸ hp
    · exact ha.sound.live z q hzq
  have hsend : (t.tcb q).sending = false := by
    by_contra hno
    exact hsink _ ⟨by simpa using hno, rfl⟩
  refine ⟨q, hall ▸ hq, hpq, ?_⟩
  cases hb : (t.tcb q).blocked with
  | false => exact .inl rfl
  | true =>
    have hr := (ha.locals.ok q hq).blocked.mp hb
    rw [hsend] at hr
    exact .inr (ha.starved hm hq (hr.resolve_left Bool.false_ne_true))

/-- Process 1 waits in a send to process 2, which waits for process 3 and is starved. -/
theorem waits_explained_chain :
    ∃ t, Run Step (State.init [1, 2, 3]) [(.receive 2 3 .zero, none), (.send 1 2 .zero, none)] t ∧
      Edge t 1 2 ∧ Starved t 2 ∧ ∃ q ∈ [1, 2, 3], ReflTransGen (Edge t) 1 q ∧
        ((t.tcb q).blocked = false ∨ Starved t q) := by
  have hpids : ∀ p ∈ [1, 2, 3], 0 < p ∧ p < 2 ^ 31 := by decide
  obtain ⟨t, ht, he, hr⟩ : ∃ t, Run Step (State.init [1, 2, 3])
      [(.receive 2 3 .zero, none), (.send 1 2 .zero, none)] t ∧ Edge t 1 2 ∧
        (t.tcb 2).receiving = true :=
    ⟨_, .cons ⟨⟨by decide, rfl, rfl⟩, rfl⟩ (.single ⟨⟨by decide, rfl, rfl⟩, rfl⟩),
      ⟨rfl, rfl⟩, rfl⟩
  obtain ⟨-, hstarved, hend⟩ := waits_explained hpids ht
  exact ⟨t, ht, he, hstarved 2 (by decide) hr, hend 1 (by decide)⟩

end Frog.Ipc
