import Frog.Ipc.Delivery

/-!
# What the processes see

Messages arrive once and in order, and notifications are kept as long as no receive meets a
pending one.
-/

namespace Frog.Ipc

set_option autoImplicit false
open Prog

variable {s t : State} {a b : Mailboxes} {p q : Pid} {pids : List Pid}
  {as : List (Event × Option Message)}

/-! ## Notifications -/

/-- In a quiet run every call returns what the mailboxes say, and no assertion of `notify_intr`
fails. -/
theorem notifications_kept (hpids : ∀ p ∈ pids, 0 < p ∧ p < 2 ^ 31)
    (h : Run (Guarded (fun s l => Quiet s l.1) Step) (State.init pids) as t) :
    (∃ a, Run Mailboxes.Step .empty as a ∧ Agrees pids t a) ∧
      ∀ p ∈ pids, Quiet t (.notify p) → ∃ u, Step t (.notify p, none) u := by
  obtain ⟨a, ha, hagrees⟩ := (Agrees.init pids).run hpids h
  refine ⟨⟨a, ha, hagrees⟩, fun p hp hq => ?_⟩
  rw [← hagrees.sound.all_eq] at hp
  obtain ⟨r, u, hrun, hr, -⟩ := ok_of_wp (wp_notify hagrees.locals hagrees.queues hp hq)
  have hnone : (a.next (.notify p)).1 = none := by
    simp only [Mailboxes.next]
    split
    · split <;> rfl
    · rfl
  rw [hnone] at hr
  exact ⟨u, hp, hr ▸ hrun⟩

/-- Process 1 waits for any message and is woken by an interrupt, after its own send to process 2
was taken. -/
theorem notifications_kept_woken :
    ∃ t a, Run Mailboxes.Step .empty [(.send 1 2 .zero, none),
        (.receive 2 anyTask .zero, some (Message.zero.stamp 1)), (.resume 1, none),
        (.receive 1 anyTask .zero, none), (.notify 1, none),
        (.resume 1, some (Message.zero.stamp 1).intr)] a ∧ Agrees [1, 2] t a := by
  have hpids : ∀ p ∈ [1, 2], 0 < p ∧ p < 2 ^ 31 := by decide
  obtain ⟨t, ht⟩ : ∃ t, Run (Guarded (fun s l => Quiet s l.1) Step) (State.init [1, 2])
      [(.send 1 2 .zero, none), (.receive 2 anyTask .zero, some (Message.zero.stamp 1)),
        (.resume 1, none), (.receive 1 anyTask .zero, none), (.notify 1, none),
        (.resume 1, some (Message.zero.stamp 1).intr)] t := by
    refine ⟨_, .cons ⟨trivial, ⟨by decide, rfl, rfl⟩, rfl⟩ <| .cons ⟨⟨by decide, fun _ => rfl⟩,
      ⟨by decide, rfl, rfl⟩, rfl⟩ <| .cons ⟨trivial, ⟨by decide, rfl, by decide⟩, rfl⟩ <|
      .cons ⟨⟨by decide, fun _ => rfl⟩, ⟨by decide, rfl, rfl⟩, rfl⟩ <| .cons ⟨fun _ _ => rfl,
      List.mem_cons_self, rfl⟩ <| .cons ⟨trivial, ⟨by decide, rfl, by decide⟩, rfl⟩ (.nil _)⟩
  obtain ⟨a, ha⟩ := (notifications_kept hpids ht).1
  exact ⟨t, a, ha⟩

/-- A receive from `INTR_TASK` returns although no interrupt has occurred; one that was noted is
forgotten without a trace in the caller's buffer; and an interrupt for a process that has never
blocked in a send fails an assertion. -/
theorem notifications_invented_and_lost :
    (∃ t, Run Step (State.init [1, 2])
        [(.receive 1 intrTask .zero, some (Message.zero.stamp 1))] t) ∧
      (¬ ∃ a, Run Mailboxes.Step .empty
        [(.receive 1 intrTask .zero, some (Message.zero.stamp 1))] a) ∧
      (∃ t, Run Step (State.init [1, 2]) [(.notify 1, none),
        (.receive 1 anyTask .zero, some (Message.zero.stamp 1))] t ∧ (t.tcb 1).pIntrPresent = false) ∧
      (¬ ∃ a, Run Mailboxes.Step .empty [(.notify 1, none),
        (.receive 1 anyTask .zero, some (Message.zero.stamp 1))] a) ∧
      ∃ t, Run Step (State.init [1, 2]) [(.receive 1 anyTask .zero, none)] t ∧
        doEvent (.notify 1) t = .error .panic := by
  refine ⟨⟨_, .single ⟨⟨by decide, rfl, rfl⟩, rfl⟩⟩, ?_,
    ⟨_, .cons ⟨List.mem_cons_self, rfl⟩ (.single ⟨⟨by decide, rfl, rfl⟩, rfl⟩), rfl⟩, ?_,
    ⟨_, .single ⟨⟨by decide, rfl, rfl⟩, rfl⟩, rfl⟩⟩
  · rintro ⟨a, h⟩
    cases h with
    | cons h _ =>
      have hr := congrArg Prod.fst h.2
      cases hr
  · rintro ⟨a, h⟩
    cases h with
    | cons h h' =>
      obtain ⟨-, h⟩ := h
      cases h' with
      | cons h' _ =>
        cases h
        have hr := congrArg Prod.fst h'.2
        cases hr

/-! ## Messages -/

/-- No notification takes place or is waited for. -/
def Plain : Event → Prop
  | .receive _ src _ => src ≠ intrTask
  | .notify _ => False
  | .send _ _ _ | .resume _ => True

/-- The message that has been given to `q` while it waited, if it came from `p`. -/
def arrived (t : State) (p q : Pid) : List Message :=
  if t.call q = .receive ∧ (t.tcb q).blocked = false ∧ (t.tcb q).pMessage.mSource = p then
    [(t.tcb q).pMessage] else []

/-- The message that `p` waits to be rid of, if it is for `q`. -/
def offered (t : State) (p q : Pid) : List Message :=
  if (t.tcb p).sending = true ∧ (t.tcb p).pSendto = q then [(t.tcb p).pMessage] else []

theorem filter_of_mem {xs : List (Pid × Message)} {x : Pid × Message} (hx : x ∈ xs)
    (hn : (xs.map Prod.fst).Nodup) : xs.filter (·.1 = x.1) = [x] := by
  obtain ⟨as, bs, rfl⟩ := List.append_of_mem hx
  rw [Mailboxes.filter_taken hn, if_pos rfl]
  have hnot : ∀ y ∈ as ++ bs, y.1 ≠ x.1 := by
    rw [List.map_append, List.map_cons, List.nodup_middle, List.nodup_cons, ← List.map_append] at hn
    exact fun y hy he => hn.1 (he ▸ List.mem_map_of_mem hy)
  have hnil : (as ++ bs).filter (·.1 = x.1) = [] := by
    rw [List.filter_eq_nil_iff]
    simpa using hnot
  rw [hnil, List.append_nil]

theorem Agrees.pending_eq (h : Agrees pids t a) (hp : p ∈ pids) (hq : q ∈ pids) :
    a.pending p q = arrived t p q ++ offered t p q := by
  rw [← h.sound.all_eq] at hp hq
  unfold Mailboxes.pending arrived offered
  congr 1
  · rw [h.locals.box q hq, boxOf]
    by_cases hc : t.call q = .receive ∧ (t.tcb q).blocked = false
    · by_cases hm : (t.tcb q).pMessage.mSource = p <;> simp [hc, hm]
    · rw [if_neg hc, if_neg fun h => hc ⟨h.1, h.2.1⟩]
      rfl
  · by_cases he : (t.tcb p).sending = true ∧ (t.tcb p).pSendto = q
    · have hmem := (h.queues.queued q hq (p, (t.tcb p).pMessage)).mpr ⟨hp, he, rfl⟩
      rw [if_pos he, filter_of_mem hmem (h.queues.nodup q)]
      rfl
    · rw [if_neg he]
      have hnil : (a.queue q).filter (·.1 = p) = [] := by
        rw [List.filter_eq_nil_iff]
        intro x hx hxp
        have := ((h.queues.queued q hq x).mp hx).2.1
        rw [show x.1 = p by simpa using hxp] at this
        exact he this
      rw [hnil]
      rfl

/-- Nothing is noted where nothing was notified. -/
theorem Mailboxes.Step.noted {l : Event × Option Message} (h : Mailboxes.Step a l b)
    (hl : Plain l.1) (ha : ∀ p, a.noted p = false) (p : Pid) : b.noted p = false := by
  obtain ⟨e, r⟩ := l
  obtain ⟨-, hnext⟩ := h
  cases e with
  | send p' q m =>
    simp only [Mailboxes.next, Prod.mk.injEq] at hnext
    obtain ⟨-, rfl⟩ := hnext
    split <;> exact ha p
  | receive p' src m =>
    simp only [Mailboxes.next, ha, Bool.false_eq_true, false_and, if_false] at hnext
    split at hnext <;> simp only [Prod.mk.injEq] at hnext <;> obtain ⟨-, rfl⟩ := hnext <;> exact ha p
  | resume p' =>
    simp only [Mailboxes.next, Prod.mk.injEq] at hnext
    obtain ⟨-, rfl⟩ := hnext
    exact ha p
  | notify p' => exact hl.elim

theorem Agrees.quiet (h : Agrees pids s a) (ha : ∀ p, a.noted p = false) {e : Event} (hl : Plain e)
    (he : Enabled s e) : Quiet s e := by
  cases e with
  | receive p src m =>
    refine ⟨hl, fun _ => ?_⟩
    rw [← h.locals.noted p he.1]
    exact ha p
  | notify p => exact hl.elim
  | send p q m => trivial
  | resume p => trivial

theorem Agrees.plain_run (h : Agrees pids s a) (hpids : ∀ p ∈ pids, 0 < p ∧ p < 2 ^ 31)
    (ha : ∀ p, a.noted p = false) (hrun : Run (Guarded (fun _ l => Plain l.1) Step) s as t) :
    ∃ b, Run Mailboxes.Step a as b ∧ Agrees pids t b ∧ ∀ p, b.noted p = false := by
  induction hrun generalizing a with
  | nil => exact ⟨a, .nil a, h, ha⟩
  | cons hst _ ih =>
    obtain ⟨c, hac, hc⟩ := h.step hpids (h.quiet ha hst.1 hst.2.1) hst.2
    obtain ⟨b, hcb, hb⟩ := ih hc (hac.noted hst.1 ha)
    exact ⟨b, .cons hac hcb, hb⟩

/-- The sending queue of `q`: everyone who waits in a send to it, once. -/
structure SendingQueue (t : State) (q : Pid) (l : List Pid) : Prop where
  linked : QueueIs t q l
  nodup : l.Nodup
  mem_iff : ∀ p, p ∈ l ↔ p ∈ t.all ∧ (t.tcb p).sending = true ∧ (t.tcb p).pSendto = q

theorem Agrees.sendingQueue (h : Agrees pids t a) (hq : q ∈ t.all) :
    SendingQueue t q ((a.queue q).map Prod.fst) := by
  refine ⟨h.queues.chain q hq, h.queues.nodup q, fun p => ?_⟩
  constructor
  · intro hm
    obtain ⟨x, hx, rfl⟩ := List.mem_map.mp hm
    obtain ⟨h1, h2, -⟩ := (h.queues.queued q hq x).mp hx
    exact ⟨h1, h2⟩
  · rintro ⟨h1, h2⟩
    exact List.mem_map_of_mem ((h.queues.queued q hq (p, (t.tcb p).pMessage)).mpr ⟨h1, h2, rfl⟩)

/-- A receive takes the first message that it wants out of the queue; the others stay in order. -/
theorem Agrees.receive (h : Agrees pids t a) (hpids : ∀ p ∈ pids, 0 < p ∧ p < 2 ^ 31)
    (ha : ∀ p, a.noted p = false) {src : Pid} {m : Message} (he : Enabled t (.receive q src m))
    (hsrc : src = anyTask ∨ src ∈ t.all ∧ src < taskMax ∧ q ≠ src) {l : List Pid}
    (hl : SendingQueue t q l) :
    match l.find? fun p => Takes src p with
    | some p => ∃ u, Step t (.receive q src m, some (t.tcb p).pMessage) u ∧
        SendingQueue u q (l.erase p)
    | none => ∃ u, Step t (.receive q src m, none) u ∧ SendingQueue u q l := by
  have hq := he.1
  obtain rfl := hl.linked.unique (h.sendingQueue hq).linked
  have hlt : ∀ p ∈ t.all, p < 2 ^ 31 := fun p hp => (hpids p (h.sound.all_eq ▸ hp)).2
  have hintr : src ≠ intrTask := by
    rintro rfl
    rcases hsrc with h | h
    · exact absurd h (by decide)
    · exact absurd (hlt _ h.1) (by decide)
  have hne : q ≠ src := by
    rcases hsrc with rfl | h
    · rintro rfl
      exact absurd (hlt _ hq) (by decide)
    · exact h.2.2
  have hquiet := h.quiet ha (e := .receive q src m) hintr he
  have had : Addressed t (.receive q src m) := ⟨hsrc.imp_right fun h => .inr ⟨h.1, h.2.1⟩, hne⟩
  obtain ⟨r, u, hrun, hr, hu⟩ := ok_of_wp (wp_allow
    (wp_doEvent (fun p hp => (hpids p hp).1) h he hquiet had) fun x hx => by
      obtain ⟨-, _, _, _, he⟩ := hx
      cases he)
  have hnoted : ¬ (a.noted q = true ∧ Takes src intrTask) := by simp [ha q]
  have hq' : q ∈ u.all := by rwa [hu.sound.all_eq, ← h.sound.all_eq]
  have hlu := hu.sendingQueue hq'
  rw [List.find?_map]
  simp only [Mailboxes.next, if_neg hnoted] at hr hlu
  cases hfind : (a.queue q).find? fun x => Takes src x.1 with
  | none =>
    rw [hfind] at hr hlu
    have hfind' : (a.queue q).find? ((fun p => decide (Takes src p)) ∘ Prod.fst) = none := hfind
    rw [hfind']
    obtain rfl : r = none := hr
    exact ⟨u, ⟨he, hrun⟩, hlu⟩
  | some x =>
    rw [hfind] at hr hlu
    have hfind' : (a.queue q).find? ((fun p => decide (Takes src p)) ∘ Prod.fst) = some x := hfind
    rw [hfind']
    obtain ⟨as, bs, hsplit, herase, -, -⟩ := Mailboxes.find_split hfind
    have hx : (t.tcb x.1).pMessage = x.2 :=
      ((h.queues.queued q hq x).mp (by rw [hsplit]; simp)).2.2
    have hl' : ((a.queue q).map Prod.fst).erase x.1 = ((a.queue q).erase x).map Prod.fst := by
      have hn := h.queues.nodup q
      rw [hsplit, List.map_append, List.map_cons] at hn
      rw [herase, hsplit, List.map_append, List.map_cons, List.map_append,
        List.erase_append_right _ ?_, List.erase_cons_head]
      exact fun hm => (List.nodup_cons.mp (List.nodup_middle.mp hn)).1 (List.mem_append_left _ hm)
    simp only [Option.map_some, hx, hl']
    rw [Mailboxes.setQueue_self] at hlu
    obtain rfl : r = some x.2 := hr
    exact ⟨u, ⟨he, hrun⟩, hlu⟩

/-- Every message arrives once, intact and in order. -/
theorem exactly_once (hpids : ∀ p ∈ pids, 0 < p ∧ p < 2 ^ 31)
    (h : Run (Guarded (fun _ l => Plain l.1) Step) (State.init pids) as t) :
    (∀ p ∈ pids, ∀ q ∈ pids, sent p q as = received p q as ++ arrived t p q ++ offered t p q) ∧
      (∀ p ∈ pids, (t.tcb p).blocked = false → ∀ q, offered t p q = []) ∧
      ∀ q ∈ pids, ∃ l, SendingQueue t q l ∧
        ∀ src m, Enabled t (.receive q src m) →
          (src = anyTask ∨ src ∈ pids ∧ src < taskMax ∧ q ≠ src) →
          match l.find? fun p => Takes src p with
          | some p => ∃ u, Step t (.receive q src m, some (t.tcb p).pMessage) u ∧
              SendingQueue u q (l.erase p)
          | none => ∃ u, Step t (.receive q src m, none) u ∧ SendingQueue u q l := by
  obtain ⟨a, ha, hagrees, hnoted⟩ := (Agrees.init pids).plain_run hpids (fun _ => rfl) h
  have hall := hagrees.sound.all_eq
  refine ⟨fun p hp q hq => ?_, fun p hp hb q => ?_, fun q hq => ?_⟩
  · have hne : p ≠ intrTask := by
      rintro rfl
      exact absurd (hpids _ hp).2 (by decide)
    obtain ⟨-, heq⟩ := Mailboxes.Step.run (q := q) ha .empty hne
    rw [hagrees.pending_eq hp hq, ← List.append_assoc] at heq
    exact heq
  · have hs := (hagrees.locals.idle (hall ▸ hp) hb).1
    simp [offered, hs]
  · rw [← hall] at hq
    refine ⟨_, hagrees.sendingQueue hq, fun src m he hsrc => ?_⟩
    exact hagrees.receive hpids hnoted he (hall.symm ▸ hsrc) (hagrees.sendingQueue hq)

/-- Process 1 sends to process 2, which takes the message with its next receive. -/
theorem exactly_once_taken :
    ∃ t, Run (Guarded (fun _ (l : Event × Option Message) => Plain l.1) Step) (State.init [1, 2])
        [(.send 1 2 .zero, none), (.receive 2 anyTask .zero, some (Message.zero.stamp 1)),
          (.resume 1, none)] t ∧
      sent 1 2 [(.send 1 2 .zero, none),
        (.receive 2 anyTask .zero, some (Message.zero.stamp 1)), (.resume 1, none)] =
      received 1 2 [(.send 1 2 .zero, none),
        (.receive 2 anyTask .zero, some (Message.zero.stamp 1)), (.resume 1, none)] ++
        arrived t 1 2 ++ offered t 1 2 := by
  have hpids : ∀ p ∈ [1, 2], 0 < p ∧ p < 2 ^ 31 := by decide
  obtain ⟨t, ht⟩ : ∃ t, Run (Guarded (fun _ (l : Event × Option Message) => Plain l.1) Step)
      (State.init [1, 2]) [(.send 1 2 .zero, none), (.receive 2 anyTask .zero, some (Message.zero.stamp 1)),
        (.resume 1, none)] t :=
    ⟨_, .cons ⟨trivial, ⟨by decide, rfl, rfl⟩, rfl⟩ <| .cons ⟨show anyTask ≠ intrTask by decide,
      ⟨by decide, rfl, rfl⟩, rfl⟩ <| .single ⟨trivial, ⟨by decide, rfl, by decide⟩, rfl⟩⟩
  exact ⟨t, ht, (exactly_once hpids ht).1 1 (by decide) 2 (by decide)⟩

end Frog.Ipc
